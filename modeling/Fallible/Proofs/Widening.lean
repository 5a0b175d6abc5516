import Fallible.Proofs.Merging

/-!
# When a merged list covers both lists

The soft policy keeps the wider of two covariant arguments and the narrower of two
contravariant ones, and puts `Value` or `Nothing` where neither covers the other.
Every type covers `Nothing`. But `Value` covers no errors. So a merged list covers the
two lists it was made from unless a covariant argument with errors was widened away.
-/

namespace Fallible

namespace View

variable {v : View} {t : Ty}

/-! ## The two fallbacks -/

/-- Whether `Value` leaves out no error of a type. A variable that can only stand for
members of an empty alias does not count. -/
def Errorless (v : View) (t : Ty) : Prop :=
  (v.interpret t).known.universal = false ∧
    (∀ e ∈ (v.interpret t).known.entries, coveredByAlias .empty e.1 = true) ∧
      (v.interpret t).flexible = []

theorem errorsHold_value_iff (R : Ty → Ty → Prop) :
    ErrorsHold R (v.interpret .value) (v.interpret t) ↔ v.Errorless t := by
  constructor
  · rintro (huniv | ⟨huniv, hentries, hflex⟩)
    · cases huniv
    · refine ⟨huniv, hentries, List.eq_nil_iff_forall_not_mem.2 fun x hx => ?_⟩
      cases hflex x hx
  · rintro ⟨huniv, hentries, hflex⟩
    refine Or.inr ⟨huniv, hentries, fun x hx => ?_⟩
    rw [hflex] at hx
    cases hx

theorem compareValues_of_decided {h : Comparison} {a b x y : Ty} (ha : v.follow a = .ok x)
    (hb : v.follow b = .ok y) (hstep : valueStep (fun _ => false) x y = .decided true) :
    v.compareValues h a b = .ok true := by
  rw [compareValues, ha, hb]
  simp only [bind, Except.bind, hstep]
  rfl

theorem compareValues_value {h : Comparison} {x u : Ty} (hx : v.follow x = .ok u) :
    v.compareValues h .value x = .ok true := by
  refine compareValues_of_decided rfl hx ?_
  rw [valueStep_nothing_free]
  split
  · rfl
  · cases u <;> rfl

theorem compareValues_nothing {h : Comparison} {x u : Ty} (hx : v.follow x = .ok u) :
    v.compareValues h x .nothing = .ok true := by
  refine compareValues_of_decided hx rfl ?_
  rw [valueStep_nothing_free]
  split
  · rfl
  · cases u <;> rfl

theorem holds_value_iff (ht : v.Legible t) :
    v.holds .value t = .ok true ↔ t.failed = true ∨ v.Errorless t := by
  obtain ⟨n, hn⟩ := v.holds_iff_level .value t
  rw [hn, errorsHold_value_iff]
  refine ⟨fun h => h.elim (fun hf => by cases hf) (Or.imp_right And.right), fun h => ?_⟩
  rcases h with hf | herr
  · exact Or.inr (Or.inl hf)
  · rcases ht with hf | ⟨u, hu⟩
    · exact Or.inr (Or.inl hf)
    · exact Or.inr (Or.inr ⟨compareValues_value hu, herr⟩)

theorem holds_nothing (ht : v.Legible t) : v.holds t .nothing = .ok true := by
  obtain ⟨n, hn⟩ := v.holds_iff_level t .nothing
  rw [hn]
  rcases ht with hf | ⟨u, hu⟩
  · exact Or.inl hf
  · refine Or.inr (Or.inr ⟨compareValues_nothing hu, Or.inr ⟨rfl, ?_, ?_⟩⟩)
    · exact fun e he => absurd he List.not_mem_nil
    · exact fun x hx => absurd hx List.not_mem_nil

end View

namespace Payload

/-! ## Merged arguments -/

section Merged

variable {h : Comparison} {x y : Ty}

theorem widest_ok {fallback r : Option Ty} (hr : widest h fallback x y = .ok r) :
    (h x y = .ok true ∧ r = some x) ∨ (h x y = .ok false ∧ h y x = .ok true ∧ r = some y) ∨
      h x y = .ok false ∧ h y x = .ok false ∧ r = fallback :=
  ok_of_two_questions hr

theorem narrowest_ok {fallback r : Option Ty} (hr : narrowest h fallback x y = .ok r) :
    (h x y = .ok true ∧ r = some y) ∨ (h x y = .ok false ∧ h y x = .ok true ∧ r = some x) ∨
      h x y = .ok false ∧ h y x = .ok false ∧ r = fallback :=
  ok_of_two_questions hr

theorem agreed_some {m : Ty} (hm : agreed x y = some m) : (x == y) = true ∧ m = x := by
  rw [agreed] at hm
  split at hm
  · next hsame => exact ⟨hsame, (Option.some.inj hm).symm⟩
  · cases hm

end Merged

variable {v : View} {x y m : Ty}

/-- Whether neither of two arguments covers the other. -/
def Unrelated (h : Comparison) (x y : Ty) : Prop := h x y = .ok false ∧ h y x = .ok false

theorem Unrelated.failed_left (hxy : Unrelated v.holds x y) : x.failed = false := by
  rw [← Bool.not_eq_true]
  intro hf
  obtain ⟨n, hn⟩ := v.holds_iff_level x y
  cases hxy.1.symm.trans (hn.2 (Or.inl hf))

/-- A merged argument covers both of the two arguments, unless they are unrelated and
`Value` leaves out an error. -/
theorem mergeArg_covers {var : Variance} (hx : v.Legible x) (hy : v.Legible y)
    (hm : mergeArg .soft v.holds var x y = .ok (some m)) :
    (ArgCovers (fun a b => v.holds a b = .ok true) var m x ↔
      (var = .covariant → Unrelated v.holds x y → v.Errorless x)) ∧
    (ArgCovers (fun a b => v.holds a b = .ok true) var m y ↔
      (var = .covariant → Unrelated v.holds x y → v.Errorless y)) := by
  have hxx : v.holds x x = .ok true := View.holds_of_same BEq.rfl hx
  have hyy : v.holds y y = .ok true := View.holds_of_same BEq.rfl hy
  cases var with
  | invariant =>
      obtain ⟨hsame, rfl⟩ := agreed_some (Except.ok.inj hm)
      refine ⟨iff_of_true (.of_both hxx hxx) ?_, iff_of_true (.of_both ?_ ?_) ?_⟩
      · exact fun hvar => by cases hvar
      · exact View.holds_of_same hsame hx
      · exact View.holds_of_same (BEq.symm hsame) hy
      · exact fun hvar => by cases hvar
  | covariant =>
      rcases widest_ok hm with ⟨hxy, hm⟩ | ⟨hno, hyx, hm⟩ | ⟨hno, hno', hm⟩ <;> cases hm
      · have hrelated : ¬ Unrelated v.holds x y := fun h => by cases hxy.symm.trans h.1
        exact ⟨iff_of_true hxx fun _ h => absurd h hrelated,
          iff_of_true hxy fun _ h => absurd h hrelated⟩
      · have hrelated : ¬ Unrelated v.holds x y := fun h => by cases hyx.symm.trans h.2
        exact ⟨iff_of_true hyx fun _ h => absurd h hrelated,
          iff_of_true hyy fun _ h => absurd h hrelated⟩
      · have hxy : Unrelated v.holds x y := ⟨hno, hno'⟩
        have hyx : Unrelated v.holds y x := ⟨hno', hno⟩
        simp [ArgCovers, View.holds_value_iff hx, View.holds_value_iff hy, hxy.failed_left,
          hyx.failed_left, hxy]
  | contravariant =>
      have hvar : ∀ {P : Prop}, Variance.contravariant = .covariant → P := fun h => by cases h
      rcases narrowest_ok hm with ⟨hxy, hm⟩ | ⟨-, hyx, hm⟩ | ⟨-, -, hm⟩ <;> cases hm
      · exact ⟨iff_of_true hxy hvar, iff_of_true hyy hvar⟩
      · exact ⟨iff_of_true hxx hvar, iff_of_true hyx hvar⟩
      · exact ⟨iff_of_true (View.holds_nothing hx) hvar, iff_of_true (View.holds_nothing hy) hvar⟩

/-! ## Merged lists -/

/-- Lists of one length that can be compared cover each other place by place. -/
theorem covers_iff_match {a : Atom} {xs ys : List Ty} (hlen : xs.length = ys.length)
    (hxs : ∀ x ∈ xs, v.Legible x) (hys : ∀ y ∈ ys, v.Legible y) :
    covers v.holds a xs ys = .ok true ↔ ArgsMatch (fun x y => v.holds x y = .ok true) a xs ys := by
  rw [covers_iff]
  refine ⟨fun h => ?_, fun h => Or.inr (Or.inr (Or.inr h))⟩
  -- Being the same is added to the relation, so that lists that are the same match by it.
  let R (x y : Ty) : Prop := (x == y) = true ∨ v.holds x y = .ok true
  have hR : ArgsMatch R a xs ys :=
    (h.imp fun x _ y _ => ⟨Or.inr, Or.inr⟩).matches (fun x y hxy => Or.inl hxy) hlen
  refine ⟨hlen, fun i x y hx hy => ?_⟩
  have hto : R x y → v.holds x y = .ok true := fun h =>
    h.elim (fun hsame => View.holds_of_same hsame (hxs x (List.mem_of_getElem? hx))) id
  have hfro : R y x → v.holds y x = .ok true := fun h =>
    h.elim (fun hsame => View.holds_of_same hsame (hys y (List.mem_of_getElem? hy))) id
  have hcov := hR.2 i x y hx hy
  cases hvar : a.variance i <;> rw [hvar] at hcov
  · exact hto hcov
  · exact hfro hcov
  · exact ⟨hto hcov.1, hfro hcov.2⟩

/-- What it means for a list to match another one, said with a third list of the same
length beside them. -/
theorem argsMatch_iff_beside {R : Ty → Ty → Prop} {a : Atom} {ms xs ys : List Ty}
    {Q : Nat → Ty → Ty → Prop} (hms : ms.length = xs.length) (hlen : xs.length = ys.length)
    (hplace : ∀ (i : Nat) (m x y : Ty), ms[i]? = some m → xs[i]? = some x → ys[i]? = some y →
      (ArgCovers R (a.variance i) m x ↔ Q i x y)) :
    ArgsMatch R a ms xs ↔ ∀ i x y, xs[i]? = some x → ys[i]? = some y → Q i x y := by
  constructor
  · intro h i x y hx hy
    obtain ⟨m, hm⟩ := exists_beside hms.symm hx
    exact (hplace i m x y hm hx hy).1 (h.2 i m x hm hx)
  · intro h
    refine ⟨hms, fun i m x hm hx => ?_⟩
    obtain ⟨y, hy⟩ := exists_beside hlen hx
    exact (hplace i m x y hm hx hy).2 (h i x y hx hy)

theorem beq_of_upTo {xs ys : List Ty} (hup : UpTo ys xs) {i : Nat} (hx : xs[i]? = some x)
    (hy : ys[i]? = some y) : (x == y) = true := by
  rcases hup with rfl | hsame
  · cases hy
  · have hmap := congrArg (fun l => l[i]?) (Ty.list_beq_iff_respell.1 hsame)
    simp only [List.getElem?_map, hx, hy, Option.map_some, Option.some.injEq] at hmap
    exact BEq.symm (Ty.beq_iff_respell.2 hmap)

/-- A list merged softly covers the one it was made from exactly if no covariant
argument with errors was widened away: each covariant argument of that list that was
unrelated to the other one has no errors. -/
theorem soft_merge_upperBound_iff (v : View) (atom : Atom) {cur inc m : List Ty}
    (hlegible : ∀ x ∈ cur ++ inc, v.Legible x)
    (hm : merge .soft v.holds atom cur inc = .ok (some m)) :
    (covers v.holds atom m cur = .ok true ↔
      ∀ (i : Nat) (x y : Ty), cur[i]? = some x → inc[i]? = some y →
        atom.variance i = .covariant → Unrelated v.holds x y → v.Errorless x) ∧
    (covers v.holds atom m inc = .ok true ↔
      ∀ (i : Nat) (x y : Ty), cur[i]? = some x → inc[i]? = some y →
        atom.variance i = .covariant → Unrelated v.holds x y → v.Errorless y) := by
  obtain ⟨hcur, hinc⟩ := List.forall_mem_append.1 hlegible
  have hself : ∀ xs, covers v.holds atom xs xs = .ok true := fun xs =>
    (covers_iff atom xs xs).2 (Or.inr (Or.inr (Or.inl BEq.rfl)))
  rcases merge_ok hm with ⟨hup, hm'⟩ | ⟨rfl, hm'⟩ | ⟨-, -, -, ⟨-, hm'⟩ | ⟨hlen, hfrom⟩⟩
  · cases hm'
    have hrelated : ∀ {i : Nat} {x y : Ty}, cur[i]? = some x → inc[i]? = some y →
        ¬ Unrelated v.holds x y := fun hx hy hno =>
      View.holds_ne_of_same (beq_of_upTo hup hx hy) hno.1
    refine ⟨iff_of_true (hself cur) ?_, iff_of_true ((covers_iff atom cur inc).2 ?_) ?_⟩
    · exact fun i x y hx hy _ hno => absurd hno (hrelated hx hy)
    · exact Or.inr (hup.imp_right fun hsame => Or.inl (BEq.symm hsame))
    · exact fun i x y hx hy _ hno => absurd hno (hrelated hx hy)
  · cases hm'
    refine ⟨iff_of_true ((covers_iff atom inc []).2 (Or.inr (Or.inl rfl))) ?_,
      iff_of_true (hself inc) ?_⟩
    · exact fun i x y hx => by cases hx
    · exact fun i x y hx => by cases hx
  · cases hm'
  · obtain ⟨hlen', hall⟩ := mergeFrom_some hlen hfrom
    have hmerged := legible_of_merge hm hcur hinc
    have hplace : ∀ (i : Nat) (u x y : Ty), m[i]? = some u → cur[i]? = some x → inc[i]? = some y →
        mergeArg .soft v.holds (atom.variance i) x y = .ok (some u) ∧ v.Legible x ∧
          v.Legible y := by
      intro i u x y hu hx hy
      obtain ⟨u', hu', harg⟩ := hall i x y hx hy
      cases hu.symm.trans hu'
      rw [Nat.zero_add] at harg
      exact ⟨harg, hcur x (List.mem_of_getElem? hx), hinc y (List.mem_of_getElem? hy)⟩
    rw [covers_iff_match hlen' hmerged hcur, covers_iff_match (hlen'.trans hlen) hmerged hinc]
    constructor
    · refine argsMatch_iff_beside hlen' hlen fun i u x y hu hx hy => ?_
      obtain ⟨harg, hlx, hly⟩ := hplace i u x y hu hx hy
      exact (mergeArg_covers hlx hly harg).1
    · refine (argsMatch_iff_beside (hlen'.trans hlen) hlen.symm fun i u y x hu hy hx => ?_).trans
        ⟨fun h i x y hx hy => h i y x hy hx, fun h i y x hy hx => h i x y hx hy⟩
      obtain ⟨harg, hlx, hly⟩ := hplace i u x y hu hx hy
      exact (mergeArg_covers hlx hly harg).2

/-! Two arguments that are unrelated, with an error in one of them. -/

def carrierFault : Classifier := ⟨0, [], "A", [.covariant, .contravariant], some 0⟩

def carriedFault : Classifier := ⟨1, [], "B", [], some 0⟩

def carrierView : View := ⟨.classes, .empty, Bindings.empty.bind "T" (.con (.named "int") [])⟩

def plainCarrier : List Ty := [.valueProj "T" true, .con (.named "int") []]

def failingCarrier : List Ty :=
  [.union [.con (.named "str") [], .errorConst carriedFault []], .con (.named "str") []]

theorem soft_merge_upperBound_carrier :
    (∀ x ∈ plainCarrier ++ failingCarrier, carrierView.Legible x) ∧
    merge .soft carrierView.holds (.classifier carrierFault) plainCarrier failingCarrier =
      .ok (some [.value, .nothing]) ∧
    covers carrierView.holds (.classifier carrierFault) [.value, .nothing] plainCarrier =
      .ok true ∧
    covers carrierView.holds (.classifier carrierFault) [.value, .nothing] failingCarrier ≠
      .ok true := by
  have hlegible : ∀ x ∈ plainCarrier ++ failingCarrier, carrierView.Legible x := by
    intro x hx
    simp only [plainCarrier, failingCarrier, List.cons_append, List.nil_append, List.mem_cons,
      List.not_mem_nil, or_false] at hx
    rcases hx with rfl | rfl | rfl | rfl <;> exact Or.inr ⟨_, rfl⟩
  have hbound := soft_merge_upperBound_iff carrierView (.classifier carrierFault) hlegible rfl
  refine ⟨hlegible, rfl, hbound.1.2 fun i x y hx hy hvar _ => ?_, fun hcovers => ?_⟩
  · rcases i with _ | _ | i
    · cases hx
      exact ⟨rfl, fun e he => absurd he List.not_mem_nil, rfl⟩
    · cases hvar
    · cases hx
  · have herrorless := hbound.2.1 hcovers 0 _ _ rfl rfl rfl ⟨rfl, rfl⟩
    have hentry := herrorless.2.1 (.classifier carriedFault, []) List.mem_cons_self
    cases hentry

/-- `Value` does not cover an argument that carries an error. -/
theorem not_upperBound_of_widened_error :
    ¬ ∀ (atom : Atom) (cur inc m : List Ty),
      merge .soft (View.plain .classes).holds atom cur inc = .ok (some m) →
      covers (View.plain .classes).holds atom m cur = .ok true ∧
        covers (View.plain .classes).holds atom m inc = .ok true := by
  intro h
  have hcovers := (h (.classifier carrierFault) [.value]
    [.union [.con (.host .int) [], .errorConst carriedFault []]] [.value] rfl).2
  cases hcovers

end Payload

end Fallible
