import Fallible.Proofs.Termination
import Fallible.Proofs.Widening

/-!
# When the order of contributions matters

The soft policy merges lists one after another. Two unrelated arguments widen to
`Value` at once, and what comes later cannot undo that: `int`, `str` and `object` widen
to `Value` if `object` comes last, and to `object` if it comes first. So the order
matters exactly where one argument covers all the others, two of those are unrelated,
and the first one does not cover `Value`. For contravariant parameters everything is
turned round, and `Nothing` takes the place of `Value`.

This is a fact about preorders, and the parameters are independent of each other. What
a merged argument can be is said first for any relation and any fallback; then the
lists are taken apart into columns.
-/

namespace Fallible

/-! ## Joining one after another -/

/-- Whether coverings compose on some types. -/
def ComposesOn (S : Ty → Ty → Prop) (cs : List Ty) : Prop :=
  ∀ a ∈ cs, ∀ b ∈ cs, ∀ c ∈ cs, S a b → S b c → S a c

/-- Whether a type comes of two: it is the one that is above the other, or the fallback if
neither is. -/
def Joins (S : Ty → Ty → Prop) (top x y m : Ty) : Prop :=
  (S x y ∧ m = x) ∨ (S y x ∧ m = y) ∨ (¬ S x y ∧ ¬ S y x ∧ m = top)

/-- Whether a type comes of joining others one after another. -/
def JoinsTo (S : Ty → Ty → Prop) (top : Ty) : Ty → List Ty → Ty → Prop
  | x, [], r => r = x
  | x, y :: ys, r => ∃ m, Joins S top x y m ∧ JoinsTo S top m ys r

/-- Whether a type of a list is above all of them. -/
def IsTopOf (S : Ty → Ty → Prop) (t : Ty) (cs : List Ty) : Prop := t ∈ cs ∧ ∀ c ∈ cs, S t c

/-- Whether the order of some types does not matter for joining them: the one above
all, if there is one, is above the fallback too, or no two types are unrelated. -/
def Settles (S : Ty → Ty → Prop) (top : Ty) (cs : List Ty) : Prop :=
  ∀ t, IsTopOf S t cs → S t top ∨ ∀ a ∈ cs, ∀ b ∈ cs, S a b ∨ S b a

namespace JoinsTo

variable {S : Ty → Ty → Prop} {top x r t : Ty} {ys cs : List Ty}

theorem mem (h : JoinsTo S top x ys r) : r = top ∨ r ∈ x :: ys := by
  induction ys generalizing x with
  | nil => exact Or.inr (List.mem_singleton.2 h)
  | cons y ys ih =>
      obtain ⟨m, hm, h⟩ := h
      have hm' : m = x ∨ m = y ∨ m = top := by
        rcases hm with ⟨-, rfl⟩ | ⟨-, rfl⟩ | ⟨-, -, rfl⟩ <;> simp
      rcases ih h with hr | hr
      · exact Or.inl hr
      · rcases List.mem_cons.1 hr with rfl | hr
        · rcases hm' with rfl | rfl | rfl <;> simp
        · exact Or.inr (List.mem_cons_of_mem x (List.mem_cons_of_mem y hr))

/-- Nothing leads away from the fallback, if no type is above it. -/
theorem eq_top (h : JoinsTo S top top ys r) (hout : ∀ y ∈ ys, ¬ S y top) : r = top := by
  induction ys with
  | nil => exact h
  | cons y ys ih =>
      obtain ⟨m, hm, h⟩ := h
      have hm' : m = top := by
        rcases hm with ⟨-, rfl⟩ | ⟨habove, -⟩ | ⟨-, -, rfl⟩
        · rfl
        · exact absurd habove (hout y List.mem_cons_self)
        · rfl
      exact ih (hm' ▸ h) fun y hy => hout y (List.mem_cons_of_mem _ hy)

/-- Once something at least as high as the top has come, only such types remain. -/
theorem above_top (hS : ComposesOn S cs) (hcs : x :: ys ⊆ cs) (ht : IsTopOf S t cs)
    (hx : S x t) (h : JoinsTo S top x ys r) : r ∈ x :: ys ∧ S r t := by
  induction ys generalizing x with
  | nil => cases h; exact ⟨List.mem_cons_self, hx⟩
  | cons y ys ih =>
      obtain ⟨hxc, hyc, hysc⟩ : x ∈ cs ∧ y ∈ cs ∧ ys ⊆ cs := by
        simpa [List.cons_subset] using hcs
      obtain ⟨m, ⟨-, rfl⟩ | ⟨hyx, rfl⟩ | ⟨hno, -⟩, h⟩ := h
      · obtain ⟨hr, hrt⟩ := ih (List.cons_subset.2 ⟨hxc, hysc⟩) hx h
        refine ⟨?_, hrt⟩
        rcases List.mem_cons.1 hr with rfl | hr
        · exact List.mem_cons_self
        · exact List.mem_cons_of_mem _ (List.mem_cons_of_mem _ hr)
      · obtain ⟨hr, hrt⟩ := ih (List.cons_subset.2 ⟨hyc, hysc⟩)
          (hS m hyc x hxc t ht.1 hyx hx) h
        exact ⟨List.mem_cons_of_mem _ hr, hrt⟩
      · exact absurd (hS x hxc t ht.1 y hyc hx (ht.2 y hyc)) hno

/-- A type that is above all, and above the fallback, is reached. -/
theorem reaches_top (hS : ComposesOn S cs) (hcs : x :: ys ⊆ cs) (htop : top ∈ cs)
    (ht : IsTopOf S t cs) (hsome : S x t ∨ t ∈ ys) (h : JoinsTo S top x ys r) : S r t := by
  induction ys generalizing x with
  | nil =>
      cases h
      exact hsome.resolve_right List.not_mem_nil
  | cons y ys ih =>
      obtain ⟨hxc, hyc, hysc⟩ : x ∈ cs ∧ y ∈ cs ∧ ys ⊆ cs := by
        simpa [List.cons_subset] using hcs
      rcases hsome with hx | hmem
      · exact (above_top hS hcs ht hx h).2
      · obtain ⟨m, hm, h⟩ := h
        have hmc : m ∈ cs := by
          rcases hm with ⟨-, rfl⟩ | ⟨-, rfl⟩ | ⟨-, -, rfl⟩ <;> assumption
        refine ih (List.cons_subset.2 ⟨hmc, hysc⟩) ?_ h
        rcases List.mem_cons.1 hmem with rfl | hmem
        · left
          rcases hm with ⟨hxt, rfl⟩ | ⟨-, rfl⟩ | ⟨-, hno, -⟩
          · exact hxt
          · exact ht.2 m hyc
          · exact absurd (ht.2 x hxc) hno
        · exact Or.inr hmem

/-- Either the types are joined to one that is above all of them, or two of them are
unrelated, and then the fallback is what remains if no type is above it. -/
theorem top_or_unrelated (hrefl : ∀ x, S x x) (hS : ComposesOn S cs) (hcs : x :: ys ⊆ cs)
    (h : JoinsTo S top x ys r) :
    IsTopOf S r (x :: ys) ∨
      (∃ a ∈ x :: ys, ∃ b ∈ x :: ys, ¬ S a b ∧ ¬ S b a) ∧
        ((∀ y ∈ ys, ¬ S y top) → r = top) := by
  induction ys generalizing x with
  | nil =>
      cases h
      exact Or.inl ⟨List.mem_cons_self, fun c hc => List.mem_singleton.1 hc ▸ hrefl _⟩
  | cons y ys ih =>
      obtain ⟨hxc, hyc, hysc⟩ : x ∈ cs ∧ y ∈ cs ∧ ys ⊆ cs := by
        simpa [List.cons_subset] using hcs
      -- What is found for the join and the rest holds of the whole list.
      have hstep : ∀ {m o : Ty}, m ∈ cs → o ∈ cs → S m o →
          (∀ c, c ∈ x :: y :: ys ↔ c = o ∨ c ∈ m :: ys) →
          JoinsTo S top m ys r → IsTopOf S r (x :: y :: ys) ∨
            (∃ a ∈ x :: y :: ys, ∃ b ∈ x :: y :: ys, ¬ S a b ∧ ¬ S b a) ∧
              ((∀ z ∈ y :: ys, ¬ S z top) → r = top) := by
        intro m o hmc hoc hmo hmem h
        have hmys : m :: ys ⊆ cs := List.cons_subset.2 ⟨hmc, hysc⟩
        rcases ih hmys h with ⟨hr, habove⟩ | ⟨⟨a, ha, b, hb, hno⟩, hfall⟩
        · refine Or.inl ⟨(hmem r).2 (Or.inr hr), fun c hc => ?_⟩
          rcases (hmem c).1 hc with rfl | hc
          · exact hS r (hmys hr) m hmc c hoc (habove m List.mem_cons_self) hmo
          · exact habove c hc
        · exact Or.inr ⟨⟨a, (hmem a).2 (Or.inr ha), b, (hmem b).2 (Or.inr hb), hno⟩,
            fun hout => hfall fun z hz => hout z (List.mem_cons_of_mem y hz)⟩
      obtain ⟨m, ⟨hxy, rfl⟩ | ⟨hyx, rfl⟩ | ⟨hxy, hyx, rfl⟩, h⟩ := h
      · exact hstep hxc hyc hxy (fun c => by simp [or_left_comm]) h
      · exact hstep hyc hxc hyx (fun c => by simp) h
      · exact Or.inr ⟨⟨x, by simp, y, by simp, hxy, hyx⟩, fun hout =>
          eq_top h fun z hz => hout z (List.mem_cons_of_mem y hz)⟩

/-- Where the order settles, what comes of one order is above what comes of another. -/
theorem above_of_settles (hrefl : ∀ x, S x x) (hS : ComposesOn S (top :: cs))
    (hwide : ∀ c ∈ cs, S c top → ∃ t, IsTopOf S t cs) (hsettles : Settles S top cs)
    {x' r' : Ty} {ys' : List Ty} (hperm : (x :: ys).Perm cs) (hperm' : (x' :: ys').Perm cs)
    (h : JoinsTo S top x ys r) (h' : JoinsTo S top x' ys' r') : S r r' := by
  have hcs : x :: ys ⊆ top :: cs := List.Subset.trans hperm.subset (List.subset_cons_self top cs)
  have hcs' : x' :: ys' ⊆ top :: cs :=
    List.Subset.trans hperm'.subset (List.subset_cons_self top cs)
  have hmem : r ∈ top :: cs := h.mem.elim (fun hr => hr ▸ List.mem_cons_self) fun hr => hcs hr
  have hmem' : r' ∈ top :: cs := h'.mem.elim (fun hr => hr ▸ List.mem_cons_self) fun hr => hcs' hr
  by_cases hmax : ∃ t, IsTopOf S t cs
  · obtain ⟨t, ht⟩ := hmax
    rcases hsettles t ht with hwider | hchain
    · have htt : IsTopOf S t (top :: cs) :=
        ⟨List.mem_cons_of_mem top ht.1, List.forall_mem_cons.2 ⟨hwider, ht.2⟩⟩
      have hsome : S x t ∨ t ∈ ys :=
        (List.mem_cons.1 (hperm.mem_iff.2 ht.1)).imp_left fun hx : t = x => hx ▸ hrefl t
      exact hS r hmem t htt.1 r' hmem' (h.reaches_top hS hcs List.mem_cons_self htt hsome)
        (htt.2 r' hmem')
    · have hrelated : ∀ {z : Ty} {zs : List Ty}, (z :: zs).Perm cs →
          ¬ ∃ a ∈ z :: zs, ∃ b ∈ z :: zs, ¬ S a b ∧ ¬ S b a := by
        rintro z zs hz ⟨a, ha, b, hb, hab, hba⟩
        exact (hchain a (hz.subset ha) b (hz.subset hb)).elim hab hba
      have hr := (h.top_or_unrelated hrefl hS hcs).resolve_right fun hno => hrelated hperm hno.1
      have hr' := (h'.top_or_unrelated hrefl hS hcs').resolve_right fun hno =>
        hrelated hperm' hno.1
      exact hr.2 r' (hperm.mem_iff.2 (hperm'.subset hr'.1))
  · have hout : ∀ c ∈ cs, ¬ S c top := fun c hc habove => hmax (hwide c hc habove)
    have hfall : ∀ {z q : Ty} {zs : List Ty}, (z :: zs).Perm cs → z :: zs ⊆ top :: cs →
        JoinsTo S top z zs q → q = top := by
      intro z q zs hz hzs hq
      rcases hq.top_or_unrelated hrefl hS hzs with hq | ⟨-, hq⟩
      · exact absurd ⟨q, hz.subset hq.1, fun c hc => hq.2 c (hz.mem_iff.2 hc)⟩ hmax
      · exact hq fun y hy => hout y (hz.subset (List.mem_cons_of_mem z hy))
    rw [hfall hperm hcs h, hfall hperm' hcs' h']
    exact hrefl top

/-- Where two types are unrelated, beginning with these and beginning with the one above
all come to the same only if that one is above the fallback. -/
theorem wider_of_above (hS : ComposesOn S (top :: cs)) (ht : IsTopOf S t cs) {a b r' : Ty}
    {zs : List Ty} (hab : ¬ S a b) (hba : ¬ S b a) (hperm : (t :: ys).Perm cs)
    (hperm' : (a :: b :: zs).Perm cs) (h : JoinsTo S top t ys r) (hrefl : S t t)
    (h' : JoinsTo S top a (b :: zs) r') (habove : S r r') : S t top := by
  by_contra hnarrow
  have hcs : cs ⊆ top :: cs := List.subset_cons_self top cs
  have hout : ∀ c ∈ cs, ¬ S c top := fun c hc hwide =>
    hnarrow (hS t (hcs ht.1) c (hcs hc) top List.mem_cons_self (ht.2 c hc) hwide)
  have hr' : r' = top := by
    obtain ⟨m, ⟨hno, -⟩ | ⟨hno, -⟩ | ⟨-, -, rfl⟩, h'⟩ := h'
    · exact absurd hno hab
    · exact absurd hno hba
    · exact h'.eq_top fun z hz => hout z (hperm'.subset (by simp [hz]))
  have hr := (h.above_top (fun a ha b hb c hc => hS a (hcs ha) b (hcs hb) c (hcs hc))
    hperm.subset ht hrefl).1
  exact hout r (hperm.subset hr) (hr' ▸ habove)

end JoinsTo

/-- The type that takes the place of two unrelated arguments. -/
def Variance.fallback : Variance → Ty
  | .contravariant => .nothing
  | _ => .value

/-- Whether one argument of a parameter covers another. -/
def View.ArgAbove (v : View) (var : Variance) : Ty → Ty → Prop :=
  ArgCovers (fun x y => v.holds x y = .ok true) var

namespace Payload

/-! ## Columns -/

/-- The arguments of a parameter in several lists. -/
def column (i : Nat) (rows : List (List Ty)) : List Ty := rows.filterMap (·[i]?)

theorem column_cons {i : Nat} {row : List Ty} {x : Ty} (hx : row[i]? = some x)
    (rows : List (List Ty)) : column i (row :: rows) = x :: column i rows :=
  List.filterMap_cons_some hx

theorem mem_column {i : Nat} {rows : List (List Ty)} {x : Ty} :
    x ∈ column i rows ↔ ∃ row ∈ rows, row[i]? = some x := List.mem_filterMap

theorem column_perm {rows rows' : List (List Ty)} (h : rows.Perm rows') (i : Nat) :
    (column i rows).Perm (column i rows') := h.filterMap _

/-- Whether an invariant parameter has different arguments. -/
def Clashes (atom : Atom) (rows : List (List Ty)) : Prop :=
  ∃ i, atom.variance i = .invariant ∧
    ∃ x ∈ column i rows, ∃ y ∈ column i rows, (x == y) = false

/-! ## Merging one after another -/

/-- Merges lists one after another. -/
def mergeAll (p : Policy) (holds : Comparison) (atom : Atom) :
    List Ty → List (List Ty) → Except Fault (Option (List Ty))
  | current, [] => return some current
  | current, incoming :: rest => do
      match ← merge p holds atom current incoming with
      | none => return none
      | some m => mergeAll p holds atom m rest

section Folding

variable {v : View} {atom : Atom} {cur inc m : List Ty} {rest : List (List Ty)}

theorem mergeArg_joins {h : Comparison} {var : Variance} {x y u : Ty}
    (hu : mergeArg .soft h var x y = .ok (some u)) :
    (var = .invariant → (x == y) = true ∧ u = x) ∧
      (var ≠ .invariant →
        Joins (ArgCovers (fun a b => h a b = .ok true) var) var.fallback x y u) := by
  have hno : ∀ {a b : Ty}, h a b = .ok false → ¬ h a b = .ok true :=
    fun hf ht => by cases hf.symm.trans ht
  cases var with
  | invariant => exact ⟨fun _ => agreed_some (Except.ok.inj hu), fun h => absurd rfl h⟩
  | covariant =>
      refine ⟨fun h => (by cases h), fun _ => ?_⟩
      rcases widest_ok hu with ⟨hxy, hu⟩ | ⟨-, hyx, hu⟩ | ⟨hxy, hyx, hu⟩ <;> cases hu
      · exact Or.inl ⟨hxy, rfl⟩
      · exact Or.inr (Or.inl ⟨hyx, rfl⟩)
      · exact Or.inr (Or.inr ⟨hno hxy, hno hyx, rfl⟩)
  | contravariant =>
      refine ⟨fun h => (by cases h), fun _ => ?_⟩
      rcases narrowest_ok hu with ⟨hxy, hu⟩ | ⟨-, hyx, hu⟩ | ⟨hxy, hyx, hu⟩ <;> cases hu
      · exact Or.inr (Or.inl ⟨hxy, rfl⟩)
      · exact Or.inl ⟨hyx, rfl⟩
      · exact Or.inr (Or.inr ⟨hno hyx, hno hxy, rfl⟩)

/-- What merging does to an argument. -/
theorem merge_joins (hv : v.holds.Total) (hlen : cur.length = inc.length)
    (hm : merge .soft v.holds atom cur inc = .ok (some m)) :
    m.length = cur.length ∧ ∀ (i : Nat) (x y : Ty), cur[i]? = some x → inc[i]? = some y →
      ∃ u, m[i]? = some u ∧ (atom.variance i = .invariant → (x == y) = true ∧ u = x) ∧
        (atom.variance i ≠ .invariant →
          Joins (v.ArgAbove (atom.variance i)) (atom.variance i).fallback x y u) := by
  rcases merge_ok hm with ⟨hup, hm'⟩ | ⟨rfl, hm'⟩ | ⟨-, -, -, ⟨-, hm'⟩ | ⟨-, hfrom⟩⟩
  · cases hm'
    refine ⟨rfl, fun i x y hx hy => ⟨x, hx, ?_⟩⟩
    have hsame : (x == y) = true := beq_of_upTo hup hx hy
    have hxy := View.holds_of_same hsame (View.legible_iff.2 (hv x x))
    have hyx := View.holds_of_same (BEq.symm hsame) (View.legible_iff.2 (hv y y))
    exact ⟨fun _ => ⟨hsame, rfl⟩, fun _ => Or.inl ⟨.of_both hxy hyx, rfl⟩⟩
  · cases hm'
    exact ⟨hlen.symm, fun i x y hx => by cases hx⟩
  · cases hm'
  · obtain ⟨hlen', hall⟩ := mergeFrom_some hlen hfrom
    refine ⟨hlen', fun i x y hx hy => ?_⟩
    obtain ⟨u, hu, harg⟩ := hall i x y hx hy
    rw [Nat.zero_add] at harg
    exact ⟨u, hu, mergeArg_joins harg⟩

theorem clash_of_merge (hlen : cur.length = inc.length)
    (hm : merge .soft v.holds atom cur inc = .ok none) :
    ∃ (i : Nat) (x y : Ty), cur[i]? = some x ∧ inc[i]? = some y ∧
      atom.variance i = .invariant ∧ (x == y) = false := by
  rcases merge_ok hm with ⟨-, hm'⟩ | ⟨-, hm'⟩ | ⟨-, -, -, ⟨hlen', -⟩ | ⟨-, hfrom⟩⟩
  · cases hm'
  · cases hm'
  · exact absurd hlen hlen'
  · obtain ⟨i, x, y, hx, hy, hnone⟩ := mergeFrom_none hfrom
    rw [Nat.zero_add] at hnone
    refine ⟨i, x, y, hx, hy, ?_⟩
    cases hvar : atom.variance i <;> rw [hvar] at hnone
    · rcases widest_ok hnone with ⟨-, h⟩ | ⟨-, -, h⟩ | ⟨-, -, h⟩ <;> cases h
    · rcases narrowest_ok hnone with ⟨-, h⟩ | ⟨-, -, h⟩ | ⟨-, -, h⟩ <;> cases h
    · refine ⟨rfl, ?_⟩
      have hagreed : agreed x y = none := Except.ok.inj hnone
      rw [agreed] at hagreed
      split at hagreed
      · cases hagreed
      · next hne => simpa using hne

theorem mergeAll_cons {r : Option (List Ty)}
    (hr : mergeAll .soft v.holds atom cur (inc :: rest) = .ok r) :
    (merge .soft v.holds atom cur inc = .ok none ∧ r = none) ∨
      ∃ m, merge .soft v.holds atom cur inc = .ok (some m) ∧
        mergeAll .soft v.holds atom m rest = .ok r := by
  rw [mergeAll] at hr
  cases hm : merge .soft v.holds atom cur inc with
  | error f => rw [hm] at hr; cases hr
  | ok m =>
      rw [hm] at hr
      cases m with
      | none => cases hr; exact Or.inl ⟨rfl, rfl⟩
      | some m => exact Or.inr ⟨m, rfl, hr⟩

theorem mergeAll_answers (hv : v.holds.Total) (atom : Atom) (cur : List Ty)
    (rest : List (List Ty)) : ∃ r, mergeAll .soft v.holds atom cur rest = .ok r := by
  induction rest generalizing cur with
  | nil => exact ⟨_, rfl⟩
  | cons inc rest ih =>
      obtain ⟨m, hm⟩ := merge_total hv .soft atom cur inc
      rw [mergeAll, hm]
      cases m with
      | none => exact ⟨none, rfl⟩
      | some m => exact ih m

/-- What merging one after another does to an argument. -/
theorem mergeAll_joins (hv : v.holds.Total) (hlen : ∀ row ∈ rest, row.length = cur.length)
    (hm : mergeAll .soft v.holds atom cur rest = .ok (some m)) :
    m.length = cur.length ∧ ∀ (i : Nat) (x : Ty), cur[i]? = some x →
      ∃ u, m[i]? = some u ∧
        (atom.variance i = .invariant → u = x ∧ ∀ y ∈ column i rest, (x == y) = true) ∧
        (atom.variance i ≠ .invariant → JoinsTo (v.ArgAbove (atom.variance i))
          (atom.variance i).fallback x (column i rest) u) := by
  induction rest generalizing cur with
  | nil =>
      cases hm
      exact ⟨rfl, fun i x hx => ⟨x, hx, fun _ => ⟨rfl, fun y hy => absurd hy List.not_mem_nil⟩,
        fun _ => rfl⟩⟩
  | cons inc rest ih =>
      obtain ⟨hinc, hrest⟩ := List.forall_mem_cons.1 hlen
      rcases mergeAll_cons hm with ⟨-, hnone⟩ | ⟨m', hm', hm⟩
      · cases hnone
      · obtain ⟨hlen', hstep⟩ := merge_joins hv hinc.symm hm'
        obtain ⟨hlen'', hall⟩ := ih (fun row hrow => (hrest row hrow).trans hlen'.symm) hm
        refine ⟨hlen''.trans hlen', fun i x hx => ?_⟩
        obtain ⟨y, hy⟩ := exists_beside hinc.symm hx
        obtain ⟨w, hw, hsame, hjoins⟩ := hstep i x y hx hy
        obtain ⟨u, hu, hsame', hjoins'⟩ := hall i w hw
        rw [column_cons hy]
        refine ⟨u, hu, fun hvar => ?_, fun hvar => ⟨w, hjoins hvar, hjoins' hvar⟩⟩
        obtain ⟨hxy, rfl⟩ := hsame hvar
        exact ⟨(hsame' hvar).1, List.forall_mem_cons.2 ⟨hxy, (hsame' hvar).2⟩⟩

/-- Lists fail to merge exactly if two of them clash. -/
theorem mergeAll_none_iff (hv : v.holds.Total) (hlen : ∀ row ∈ rest, row.length = cur.length) :
    mergeAll .soft v.holds atom cur rest = .ok none ↔ Clashes atom (cur :: rest) := by
  constructor
  · intro hnone
    induction rest generalizing cur with
    | nil => cases hnone
    | cons inc rest ih =>
        obtain ⟨hinc, hrest⟩ := List.forall_mem_cons.1 hlen
        rcases mergeAll_cons hnone with ⟨hm, -⟩ | ⟨m, hm, hnone⟩
        · obtain ⟨i, x, y, hx, hy, hvar, hne⟩ := clash_of_merge hinc.symm hm
          exact ⟨i, hvar, x, mem_column.2 ⟨cur, by simp, hx⟩, y,
            mem_column.2 ⟨inc, by simp, hy⟩, hne⟩
        · obtain ⟨hlen', hstep⟩ := merge_joins hv hinc.symm hm
          obtain ⟨i, hvar, x, hx, y, hy, hne⟩ :=
            ih (fun row hrow => (hrest row hrow).trans hlen'.symm) hnone
          -- An argument of the merged list is one of the recorded list.
          have hmem : ∀ z ∈ column i (m :: rest), z ∈ column i (cur :: inc :: rest) := by
            intro z hcol
            obtain ⟨row, hrow, hz⟩ := mem_column.1 hcol
            rcases List.mem_cons.1 hrow with rfl | hrow
            · obtain ⟨c, hc⟩ := exists_beside hlen' hz
              obtain ⟨d, hd⟩ := exists_beside hinc.symm hc
              obtain ⟨u, hu, hsame, -⟩ := hstep i c d hc hd
              cases hz.symm.trans hu
              exact mem_column.2 ⟨cur, by simp, (hsame hvar).2 ▸ hc⟩
            · exact mem_column.2 ⟨row, by simp [hrow], hz⟩
          exact ⟨i, hvar, x, hmem x hx, y, hmem y hy, hne⟩
  · rintro ⟨i, hvar, x, hx, y, hy, hne⟩
    obtain ⟨r, hr⟩ := mergeAll_answers hv atom cur rest
    cases r with
    | none => exact hr
    | some m =>
        obtain ⟨row, hrow, hrowx⟩ := mem_column.1 hx
        have hlen' : row.length = cur.length :=
          (List.mem_cons.1 hrow).elim (fun h => h ▸ rfl) (hlen row)
        obtain ⟨c, hc⟩ := exists_beside hlen' hrowx
        obtain ⟨u, -, hsame, -⟩ := (mergeAll_joins hv hlen hr).2 i c hc
        have hall : ∀ z ∈ column i (cur :: rest), (c == z) = true := by
          rw [column_cons hc]
          exact List.forall_mem_cons.2 ⟨BEq.rfl, (hsame hvar).2⟩
        rw [BEq.trans (BEq.symm (hall x hx)) (hall y hy)] at hne
        cases hne

end Folding

/-! ## All orders -/

section Orders

variable {v : View} {atom : Atom} {rows : List (List Ty)} {n : Nat}

/-- Whether merging some lists one after another, in some order, comes to a list. -/
def MergesTo (v : View) (atom : Atom) (rows : List (List Ty)) (m : List Ty) : Prop :=
  ∃ first rest, (first :: rest).Perm rows ∧
    mergeAll .soft v.holds atom first rest = .ok (some m)

theorem Clashes.of_perm {rows' : List (List Ty)} (h : Clashes atom rows) (hperm : rows.Perm rows') :
    Clashes atom rows' := by
  obtain ⟨i, hvar, x, hx, y, hy, hne⟩ := h
  exact ⟨i, hvar, x, (column_perm hperm i).subset hx, y, (column_perm hperm i).subset hy, hne⟩

theorem rest_length (hlen : ∀ row ∈ rows, row.length = n) {first : List Ty}
    {rest : List (List Ty)} (hperm : (first :: rest).Perm rows) :
    first.length = n ∧ ∀ row ∈ rest, row.length = first.length := by
  have hfirst := hlen first (hperm.subset List.mem_cons_self)
  exact ⟨hfirst, fun row hrow =>
    (hlen row (hperm.subset (List.mem_cons_of_mem first hrow))).trans hfirst.symm⟩

/-- The column of a parameter, and what it was joined to. -/
theorem MergesTo.joins (hv : v.holds.Total) (hlen : ∀ row ∈ rows, row.length = n) {m : List Ty}
    (hm : MergesTo v atom rows m) :
    m.length = n ∧ ∀ (i : Nat) (u : Ty), m[i]? = some u →
      (atom.variance i = .invariant → u ∈ column i rows ∧ ∀ y ∈ column i rows, (u == y) = true) ∧
        (atom.variance i ≠ .invariant → ∃ x ys, (x :: ys).Perm (column i rows) ∧
          JoinsTo (v.ArgAbove (atom.variance i)) (atom.variance i).fallback x ys u) := by
  obtain ⟨first, rest, hperm, hm⟩ := hm
  obtain ⟨hfirst, hrest⟩ := rest_length hlen hperm
  obtain ⟨hlen', hall⟩ := mergeAll_joins hv hrest hm
  refine ⟨hlen'.trans hfirst, fun i u hu => ?_⟩
  obtain ⟨x, hx⟩ := exists_beside hlen' hu
  obtain ⟨u', hu', hsame, hjoins⟩ := hall i x hx
  cases hu.symm.trans hu'
  have hcol := column_perm hperm i
  rw [column_cons hx] at hcol
  refine ⟨fun hvar => ?_, fun hvar => ⟨x, column i rest, hcol, hjoins hvar⟩⟩
  obtain ⟨rfl, hall⟩ := hsame hvar
  refine ⟨hcol.subset List.mem_cons_self, fun y hy => ?_⟩
  rcases List.mem_cons.1 (hcol.mem_iff.2 hy) with rfl | hy
  · exact BEq.rfl
  · exact hall y hy

theorem above_of_beq (hv : v.holds.Total) (var : Variance) {x y : Ty} (h : (x == y) = true) :
    v.ArgAbove var x y :=
  .of_both (View.holds_of_same h (View.legible_iff.2 (hv x x)))
    (View.holds_of_same (BEq.symm h) (View.legible_iff.2 (hv y y)))

/-- Whether the arguments of a parameter can be put in order: coverings compose on them
and the fallback, and no argument covers `Value` unless one covers all. -/
structure Orderly (v : View) (var : Variance) (args : List Ty) : Prop where
  composes : ComposesOn (v.ArgAbove var) (var.fallback :: args)
  wide : var = .covariant → ∀ x ∈ args, v.holds x .value = .ok true →
    ∃ t, IsTopOf (v.ArgAbove var) t args

/-- A contravariant argument that `Nothing` covers is covered by all the others. -/
theorem Orderly.top {var : Variance} {args : List Ty} (hv : v.holds.Total)
    (h : Orderly v var args) (hvar : var ≠ .invariant) :
    ∀ x ∈ args, v.ArgAbove var x var.fallback → ∃ t, IsTopOf (v.ArgAbove var) t args := by
  intro x hx hwide
  cases var with
  | invariant => exact absurd rfl hvar
  | covariant => exact h.wide rfl x hx hwide
  | contravariant =>
      refine ⟨x, hx, fun c hc => ?_⟩
      exact h.composes x (List.mem_cons_of_mem _ hx) .nothing List.mem_cons_self c
        (List.mem_cons_of_mem _ hc) hwide (View.holds_nothing (View.legible_iff.2 (hv c c)))

theorem MergesTo.covers (hv : v.holds.Total) (hlen : ∀ row ∈ rows, row.length = n)
    (horderly : ∀ i, atom.variance i ≠ .invariant → Orderly v (atom.variance i) (column i rows))
    (hsettles : ∀ i, atom.variance i ≠ .invariant →
      Settles (v.ArgAbove (atom.variance i)) (atom.variance i).fallback (column i rows))
    {m m' : List Ty} (hm : MergesTo v atom rows m) (hm' : MergesTo v atom rows m') :
    covers v.holds atom m m' = .ok true := by
  obtain ⟨hlen, hall⟩ := hm.joins hv hlen
  obtain ⟨hlen', hall'⟩ := hm'.joins hv ‹_›
  refine (covers_iff atom m m').2 (Or.inr (Or.inr (Or.inr ⟨hlen.trans hlen'.symm, ?_⟩)))
  intro i u u' hu hu'
  obtain ⟨hsame, hjoins⟩ := hall i u hu
  obtain ⟨hsame', hjoins'⟩ := hall' i u' hu'
  by_cases hvar : atom.variance i = .invariant
  · exact above_of_beq hv _ ((hsame hvar).2 u' (hsame' hvar).1)
  · obtain ⟨x, ys, hperm, hr⟩ := hjoins hvar
    obtain ⟨x', ys', hperm', hr'⟩ := hjoins' hvar
    exact JoinsTo.above_of_settles (fun x => above_of_beq hv _ BEq.rfl) (horderly i hvar).composes
      ((horderly i hvar).top hv hvar) (hsettles i hvar) hperm hperm' hr hr'

theorem exists_merged (hv : v.holds.Total) (hlen : ∀ row ∈ rows, row.length = n)
    (hfits : ¬ Clashes atom rows) {first : List Ty} {rest : List (List Ty)}
    (hperm : (first :: rest).Perm rows) :
    ∃ m, mergeAll .soft v.holds atom first rest = .ok (some m) := by
  obtain ⟨r, hr⟩ := mergeAll_answers hv atom first rest
  cases r with
  | some m => exact ⟨m, hr⟩
  | none =>
      exact absurd (((mergeAll_none_iff hv (rest_length hlen hperm).2).1 hr).of_perm hperm) hfits

theorem exists_perm_cons {row : List Ty} (hrow : row ∈ rows) : ∃ rest, (row :: rest).Perm rows := by
  obtain ⟨s, t, rfl⟩ := List.append_of_mem hrow
  exact ⟨s ++ t, List.perm_middle.symm⟩

/-- If the order does not matter, the arguments of a parameter settle. -/
theorem settles_of_covers (hv : v.holds.Total) (hlen : ∀ row ∈ rows, row.length = n)
    (hfits : ¬ Clashes atom rows)
    (hcovers : ∀ m m', MergesTo v atom rows m → MergesTo v atom rows m' →
      covers v.holds atom m m' = .ok true) {i : Nat} (hvar : atom.variance i ≠ .invariant)
    (hcompose : ComposesOn (v.ArgAbove (atom.variance i))
      ((atom.variance i).fallback :: column i rows)) :
    Settles (v.ArgAbove (atom.variance i)) (atom.variance i).fallback (column i rows) := by
  intro t ht
  rw [or_iff_not_imp_right]
  intro hchain
  push Not at hchain
  obtain ⟨a, ha, b, hb, hab, hba⟩ := hchain
  obtain ⟨rowt, hrowt, hit⟩ := mem_column.1 ht.1
  obtain ⟨rowa, hrowa, hia⟩ := mem_column.1 ha
  obtain ⟨rowb, hrowb, hib⟩ := mem_column.1 hb
  obtain ⟨others, hfirst⟩ := exists_perm_cons hrowt
  obtain ⟨rest, hrest⟩ := exists_perm_cons hrowa
  have hne : rowb ≠ rowa := by
    rintro rfl
    cases hia.symm.trans hib
    exact hab (above_of_beq hv _ BEq.rfl)
  obtain ⟨zs, hzs⟩ := exists_perm_cons
    ((List.mem_cons.1 (hrest.mem_iff.2 hrowb)).resolve_left hne)
  have hpair : (rowa :: rowb :: zs).Perm rows := (hzs.cons rowa).trans hrest
  obtain ⟨m, hm⟩ := exists_merged hv hlen hfits hfirst
  obtain ⟨m', hm'⟩ := exists_merged hv hlen hfits hpair
  obtain ⟨hlen₁, hrest₁⟩ := rest_length hlen hfirst
  obtain ⟨hlen₂, hrest₂⟩ := rest_length hlen hpair
  obtain ⟨hmlen, hall⟩ := mergeAll_joins hv hrest₁ hm
  obtain ⟨hmlen', hall'⟩ := mergeAll_joins hv hrest₂ hm'
  obtain ⟨u, hu, -, hjoins⟩ := hall i t hit
  obtain ⟨u', hu', -, hjoins'⟩ := hall' i a hia
  have habove : v.ArgAbove (atom.variance i) u u' := by
    have hboth := hcovers m m' ⟨rowt, others, hfirst, hm⟩ ⟨rowa, rowb :: zs, hpair, hm'⟩
    rw [covers_iff_match (by rw [hmlen, hmlen', hlen₁, hlen₂])
      (fun x _ => View.legible_iff.2 (hv x x)) fun y _ => View.legible_iff.2 (hv y y)] at hboth
    exact hboth.2 i u u' hu hu'
  have hcolt := column_perm hfirst i
  have hcola := column_perm hpair i
  rw [column_cons hit] at hcolt
  rw [column_cons hia, column_cons hib] at hcola
  have hjoins' := hjoins' hvar
  rw [column_cons hib] at hjoins'
  exact JoinsTo.wider_of_above hcompose ht hab hba hcolt hcola (hjoins hvar)
    (above_of_beq hv _ BEq.rfl) hjoins' habove

/-- Merging lists of one length one after another fails in every order or in none. If it
does not, and the arguments of each parameter can be put in order, then what comes of two
orders always covers each other exactly if the arguments of each parameter settle. -/
theorem soft_merging_order_iff (v : View) (hv : v.holds.Total) (atom : Atom)
    (rows : List (List Ty)) (n : Nat) (hlen : ∀ row ∈ rows, row.length = n) :
    (∀ first rest, (first :: rest).Perm rows →
      (Clashes atom rows ∧ mergeAll .soft v.holds atom first rest = .ok none) ∨
        (¬ Clashes atom rows ∧ ∃ m, mergeAll .soft v.holds atom first rest = .ok (some m))) ∧
    (¬ Clashes atom rows →
      (∀ i, atom.variance i ≠ .invariant → Orderly v (atom.variance i) (column i rows)) →
      ((∀ m m', MergesTo v atom rows m → MergesTo v atom rows m' →
        covers v.holds atom m m' = .ok true) ↔
      ∀ i, atom.variance i ≠ .invariant →
        Settles (v.ArgAbove (atom.variance i)) (atom.variance i).fallback (column i rows))) := by
  refine ⟨fun first rest hperm => ?_, fun hfits horderly => ⟨fun hcovers i hvar => ?_, ?_⟩⟩
  · by_cases hclash : Clashes atom rows
    · exact Or.inl ⟨hclash, (mergeAll_none_iff hv (rest_length hlen hperm).2).2
        (hclash.of_perm hperm.symm)⟩
    · exact Or.inr ⟨hclash, exists_merged hv hlen hclash hperm⟩
  · exact settles_of_covers hv hlen hfits hcovers hvar (horderly i hvar).composes
  · exact fun hsettles m m' hm hm' => hm.covers hv hlen horderly hsettles hm'

end Orders

/-- Coverings compose on types without failures whose classifiers have all their
arguments and agree on variances, if the host's classes do. -/
theorem composesOn_plain {ts : List Ty}
    (hsound : ∀ t ∈ Ty.subtermsAll ts, t.isErroneous = false)
    (hsat : ∀ t ∈ Ty.subtermsAll ts, t.isSaturated = true) (hagree : Ty.Agree ts)
    (hclasses : HostClass.Transitive (Ty.hostClasses ts)) (var : Variance) :
    ComposesOn ((View.plain .classes).ArgAbove var) ts := by
  have hcompose : ∀ {a b c : Ty}, a ∈ ts → b ∈ ts → c ∈ ts →
      (View.plain .classes).holds a b = .ok true → (View.plain .classes).holds b c = .ok true →
        (View.plain .classes).holds a c = .ok true := by
    intro a b c ha hb hc
    simp only [holds_plain_eq_isSubtype, Except.ok.injEq]
    exact composes hsound hsat hagree hclasses _ (Nat.lt_succ_self _) (Ty.arg_mem_subterms ha)
      (Ty.arg_mem_subterms hb) (Ty.arg_mem_subterms hc)
  intro a ha b hb c hc hab hbc
  exact ArgCovers.trans hab hbc (hcompose ha hb hc) (hcompose hc hb ha)

/-! Three lists: of the covariant arguments two are unrelated and the third is `Value`,
the contravariant ones are a chain of classes, the invariant ones are the same. -/

def blended : Atom :=
  .classifier ⟨0, [], "A", [.covariant, .contravariant, .invariant], some 0⟩

def host (c : HostClass) : Ty := .con (.host c) []

def blends : List (List Ty) :=
  [[host .int, host .bool, host .str], [host .str, host .int, host .str],
    [.value, host .object, host .str]]

theorem soft_merging_order_blends :
    ¬ Clashes blended blends ∧
    (∀ i, blended.variance i ≠ .invariant →
      Orderly (View.plain .classes) (blended.variance i) (column i blends)) ∧
    ∀ m m', MergesTo (View.plain .classes) blended blends m →
      MergesTo (View.plain .classes) blended blends m' →
      covers (View.plain .classes).holds blended m m' = .ok true := by
  have hwidest : IsTopOf ((View.plain .classes).ArgAbove .covariant) .value (column 0 blends) :=
    ⟨by simp [column, blends], fun c hc => by
      have hc : c ∈ [host .int, host .str, .value] := hc
      simp only [List.mem_cons, List.not_mem_nil, or_false] at hc
      rcases hc with rfl | rfl | rfl <;> rfl⟩
  have hfits : ¬ Clashes blended blends := by
    rintro ⟨i, hvar, x, hx, y, hy, hne⟩
    rcases i with _ | _ | _ | i
    · cases hvar
    · cases hvar
    · have hall : ∀ z ∈ column 2 blends, z = host .str := fun z hz => by
        have hz : z ∈ [host .str, host .str, host .str] := hz
        simpa using hz
      rw [hall x hx, hall y hy] at hne
      cases hne
    · cases hx
  have horderly : ∀ i, blended.variance i ≠ .invariant →
      Orderly (View.plain .classes) (blended.variance i) (column i blends) := by
    intro i hvar
    rcases i with _ | _ | _ | i
    · exact ⟨composesOn_plain (by decide) (by decide) (by decide) (by decide) .covariant,
        fun _ _ _ _ => ⟨_, hwidest⟩⟩
    · exact ⟨composesOn_plain (by decide) (by decide) (by decide) (by decide) .contravariant,
        fun h => by cases h⟩
    · exact absurd rfl hvar
    · exact absurd rfl hvar
  refine ⟨hfits, horderly, ((soft_merging_order_iff (View.plain .classes)
    (View.holds_plain_answers .classes) blended blends 3 (by decide)).2 hfits horderly).2 ?_⟩
  intro i hvar t ht
  rcases i with _ | _ | _ | i
  · exact Or.inl (ht.2 .value hwidest.1)
  · refine Or.inr fun a ha b hb => ?_
    have ha : a ∈ [host .bool, host .int, host .object] := ha
    have hb : b ∈ [host .bool, host .int, host .object] := hb
    simp only [List.mem_cons, List.not_mem_nil, or_false] at ha hb
    rcases ha with rfl | rfl | rfl <;> rcases hb with rfl | rfl | rfl <;>
      first | exact Or.inl rfl | exact Or.inr rfl
  · exact absurd rfl hvar
  · exact absurd rfl hvar

/-- Two unrelated arguments widen to `Value`, and a third one that covers both but not
`Value` comes too late. -/
theorem not_soft_merging_order :
    ¬ ∀ (atom : Atom) (first first' : List Ty) (rest rest' : List (List Ty)),
      (∀ row ∈ rest, row.length = first.length) → (first :: rest).Perm (first' :: rest') →
      (mergeAll .soft (View.plain .classes).holds atom first rest = .ok none ∧
        mergeAll .soft (View.plain .classes).holds atom first' rest' = .ok none) ∨
      ∃ m m', mergeAll .soft (View.plain .classes).holds atom first rest = .ok (some m) ∧
        mergeAll .soft (View.plain .classes).holds atom first' rest' = .ok (some m') ∧
        covers (View.plain .classes).holds atom m m' = .ok true ∧
        covers (View.plain .classes).holds atom m' m = .ok true := by
  intro h
  rcases h blended [host .int] [host .object] [[host .str], [host .object]]
    [[host .int], [host .str]] (by decide)
    (List.perm_append_comm : ([[host .int], [host .str]] ++ [[host .object]]).Perm _) with
    ⟨hnone, -⟩ | ⟨m, m', hm, hm', -, hcovers⟩
  · cases hnone
  · cases hm
    cases hm'
    cases hcovers

end Payload

end Fallible
