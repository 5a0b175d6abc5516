import Fallible.Proofs.Arguments
import Fallible.Proofs.WritingOut
import Mathlib.Data.List.ProdSigma

/-!
# The depth of a comparison is enough

A comparison is made to a depth that depends on the two types and on the number
of arguments in the bound types and the solved sets. This file proves that it is
enough: what is answered at any depth is answered at that one. It needs no
assumption about the bindings, which may lead back to themselves.

Going down one level, each side becomes one of its parts. A part of a type is
one of the type's own arguments, which is smaller, or it comes from a bound type
or from a solved set. Of the latter there are only so many, and their parts are
among them again. They are the stock of the view. The questions about two types
of the stock are finite in number. Each depth answers all that the depth before
it answers; and once a depth answers no more of them than the one before, no
depth ever will. So all that can be answered are answered at a depth of their
number. The other questions come down to these in as many levels as the sizes of
the two types.

Main statements: `depth_suffices`, and `holds_ok_iff`, by which `holds`
says what one level over `holds` says. So nothing that is proved about
comparisons from here on has to speak of depth.
-/

namespace Fallible

theorem Except.toOption_eq_some {α : Type} {x : Except Fault α} {a : α} :
    x.toOption = some a ↔ x = .ok a := by
  cases x <;> simp [Except.toOption]

/-! ## Parts -/

theorem Ty.size_lt_of_mem_arguments {t a : Ty} (h : a ∈ t.arguments) : a.size < t.size := by
  induction t with
  | con c args ih | errorConst c args ih =>
      rw [arguments, List.mem_append, mem_argumentsAll] at h
      rw [size]
      rcases h with h | ⟨m, hm, h⟩
      · have := size_le_sizeAll h
        omega
      · have h₁ := ih m hm h
        have h₂ := size_le_sizeAll hm
        omega
  | union ms ih =>
      obtain ⟨m, hm, h⟩ := mem_argumentsAll.1 h
      have h₁ := ih m hm h
      have h₂ := size_le_sizeAll hm
      rw [size]
      omega
  | _ => exact absurd h List.not_mem_nil

namespace View

/-- Where the arguments of a known error come from: from the type itself, or from
the set of a variable that is solved. -/
def ArgsFrom (s : Solution) (ms : List Ty) (args : List Ty) : Prop :=
  args = [] ∨ (∃ c, .errorConst c args ∈ ms) ∨
    ∃ x set atom, .errorVar x ∈ ms ∧ x.flexible = true ∧ s.get? x = some set ∧
      (atom, args) ∈ set.entries

theorem argsFrom_add {s : Solution} {ms : List Ty} {m : Ty} (hm : m ∈ ms) {r : Reading}
    (hr : ∀ e ∈ r.known.entries, ArgsFrom s ms e.2) :
    ∀ e ∈ (r.add s m).known.entries, ArgsFrom s ms e.2 := by
  have hinsert : ∀ {a : Atom} {args : List Ty}, ArgsFrom s ms args →
      ∀ e ∈ (r.known.insert a args).entries, ArgsFrom s ms e.2 := by
    intro a args hargs e he
    rcases Table.mem_insert he with ⟨_, rfl⟩ | he
    · exact hargs
    · exact hr e he
  cases m with
  | errorConst c args => exact hinsert (Or.inr (Or.inl ⟨c, hm⟩))
  | errorVar x =>
      cases hx : x.flexible with
      | false => rw [add_rigid hx]; exact hinsert (Or.inl rfl)
      | true =>
          cases hs : s.get? x with
          | none => rw [add_waiting hx hs]; exact hr
          | some set =>
              rw [add_solved hx hs]
              intro e he
              rcases Table.mem_foldl_insertNew he with he | he
              · exact hr e he
              · exact Or.inr (Or.inr ⟨x, set, e.1, hm, hx, hs, he⟩)
  | _ => exact hr

theorem argsFrom_interpretWith {s : Solution} {t : Ty} {e : Atom × List Ty}
    (he : e ∈ (interpretWith s t).known.entries) : ArgsFrom s t.errorPart e.2 := by
  have hfold : ∀ (ms : List Ty) (r : Reading), (∀ m ∈ ms, m ∈ t.errorPart) →
      (∀ e ∈ r.known.entries, ArgsFrom s t.errorPart e.2) →
      ∀ e ∈ (ms.foldl (Reading.add s) r).known.entries, ArgsFrom s t.errorPart e.2 := by
    intro ms
    induction ms with
    | nil => exact fun _ _ hr => hr
    | cons m ms ih =>
        intro r hms hr
        exact ih _ (fun x hx => hms x (List.mem_cons_of_mem _ hx))
          (argsFrom_add (hms m List.mem_cons_self) hr)
  exact hfold t.errorPart _ (fun _ hm => hm) (fun _ hx => absurd hx List.not_mem_nil) e
    (ErrorSet.mem_entries_ofEntries.1 he)

/-- The arguments that come from bound types and solved sets. -/
def stock (v : View) : List Ty :=
  v.bindings.arguments.filterMap (fun a => (v.bindings.apply a).toOption) ++
    v.solution.arguments

theorem length_stock_le (v : View) : v.stock.length ≤ v.width := by
  rw [stock, List.length_append, width]
  have := List.length_filterMap_le (fun a => (v.bindings.apply a).toOption) v.bindings.arguments
  omega

theorem mem_stock_of_image {v : View} {name : String} {u a : Ty}
    (h : v.bindings.imageWithin v.bindings.table.size name = some (.ok u))
    (ha : a ∈ u.arguments) : a ∈ v.stock := by
  obtain ⟨x, hx, hxa⟩ := Bindings.mem_arguments_imageWithin h ha
  exact List.mem_append_left _
    (List.mem_filterMap.2 ⟨x, hx, Except.toOption_eq_some.2 hxa⟩)

/-- The arguments of the stock are in the stock. -/
theorem mem_stock_of_arguments {v : View} {t a : Ty} (ht : t ∈ v.stock) (ha : a ∈ t.arguments) :
    a ∈ v.stock := by
  rcases List.mem_append.1 ht with ht | ht
  · obtain ⟨x, hx, hxt⟩ := List.mem_filterMap.1 ht
    rcases Bindings.mem_arguments_unfoldWith (Except.toOption_eq_some.1 hxt) ha with
      ⟨y, hy, hya⟩ | ⟨name, u, hu, hau⟩
    · obtain ⟨m, hm, hxm⟩ := Ty.mem_argumentsAll.1 hx
      have hyb : y ∈ v.bindings.arguments :=
        Ty.mem_argumentsAll.2 ⟨m, hm, Ty.arguments_trans hxm hy⟩
      exact List.mem_append_left _
        (List.mem_filterMap.2 ⟨y, hyb, Except.toOption_eq_some.2 hya⟩)
    · exact mem_stock_of_image hu hau
  · refine List.mem_append_right _ ?_
    obtain ⟨set, hset, ht⟩ := List.mem_flatMap.1 ht
    obtain ⟨e, he, ht⟩ := List.mem_flatMap.1 ht
    refine List.mem_flatMap.2 ⟨set, hset, List.mem_flatMap.2 ⟨e, he, ?_⟩⟩
    refine List.mem_append_right _ (Ty.mem_argumentsAll.2 ?_)
    rcases List.mem_append.1 ht with ht | ht
    · exact ⟨t, ht, ha⟩
    · obtain ⟨m, hm, ht⟩ := Ty.mem_argumentsAll.1 ht
      exact ⟨m, hm, Ty.arguments_trans ht ha⟩

theorem mem_stock_of_set {v : View} {x : ErrorVar} {set : ErrorSet} {e : Atom × List Ty} {a : Ty}
    (hs : v.solution.get? x = some set) (he : e ∈ set.entries) (ha : a ∈ e.2) : a ∈ v.stock := by
  obtain ⟨k, hk, _⟩ := Table.mem_of_get? hs
  exact List.mem_append_right _ (List.mem_flatMap.2 ⟨set, List.mem_map.2 ⟨_, hk, rfl⟩,
    List.mem_flatMap.2 ⟨e, he, List.mem_append_left _ ha⟩⟩)

/-- A part of a type is an argument of the type itself, or of the constructor that
its projection is written out to, or it comes with a variable that is solved. -/
theorem part_cases {v : View} {t a : Ty} (h : a ∈ v.parts t) :
    a ∈ t.arguments ∨
      (∃ name flexible c args, t.valuePart = .valueProj name flexible ∧
        v.bindings.apply (.valueProj name flexible) = .ok (.con c args) ∧ a ∈ args) ∨
      ∃ x set e, .errorVar x ∈ t.errorPart ∧ x.flexible = true ∧ v.solution.get? x = some set ∧
        e ∈ set.entries ∧ a ∈ e.2 := by
  rcases List.mem_append.1 h with h | h
  · unfold valueArgs at h
    split at h
    · next c args hf =>
        unfold follow at hf
        split at hf
        · next name flexible hv => exact Or.inr (Or.inl ⟨name, flexible, c, args, hv, hv ▸ hf, h⟩)
        · exact Or.inl (Ty.mem_arguments_of_valuePart (Except.ok.inj hf) h)
    · exact absurd h List.not_mem_nil
  · obtain ⟨e, he, ha⟩ := List.mem_flatMap.1 h
    rcases argsFrom_interpretWith he with hnil | ⟨c, hc⟩ | ⟨x, set, atom, hx, hflex, hs, hset⟩
    · rw [hnil] at ha; exact absurd ha List.not_mem_nil
    · exact Or.inl (Ty.arguments_of_mem (List.mem_filter.1 hc).1 (List.mem_append_left _ ha))
    · exact Or.inr (Or.inr ⟨x, set, _, hx, hflex, hs, hset, ha⟩)

/-- A part of a type is an argument of the type itself or in the stock. -/
theorem mem_parts {v : View} {t a : Ty} (h : a ∈ v.parts t) :
    a ∈ t.arguments ∨ a ∈ v.stock := by
  rcases part_cases h with h | ⟨name, flexible, c, args, _, hf, h⟩ | ⟨x, set, e, _, _, hs, he, ha⟩
  · exact Or.inl h
  · rcases Bindings.mem_arguments_unfoldWith hf (List.mem_append_left _ h) with
      ⟨x, hx, _⟩ | ⟨n, u, hu, hau⟩
    · exact absurd hx List.not_mem_nil
    · exact Or.inr (mem_stock_of_image hu hau)
  · exact Or.inr (mem_stock_of_set hs he ha)

/-! ## Questions about the stock -/

/-- A bounded number that never falls, and that stays once it has stayed the
same for a step, has stopped at the bound. -/
theorem eq_of_stays {f : Nat → Nat} {w : Nat} (hmono : ∀ n, f n ≤ f (n + 1))
    (hbound : ∀ n, f n ≤ w) (hstays : ∀ n, f n = f (n + 1) → f (n + 1) = f (n + 2)) {n : Nat}
    (hn : w ≤ n) : f n = f w := by
  have hgrows : ∀ n, n ≤ f n ∨ f n = f (n + 1) := by
    intro n
    induction n with
    | zero => exact Or.inl (Nat.zero_le _)
    | succ n ih =>
        rcases ih with h | h
        · have := hmono n
          by_cases he : f n = f (n + 1)
          · exact Or.inr (hstays n he)
          · exact Or.inl (by omega)
        · exact Or.inr (hstays n h)
  have hstop : f w = f (w + 1) := by
    rcases hgrows w with h | h
    · have h₁ := hbound (w + 1)
      have h₂ := hmono w
      omega
    · exact h
  have hstopped : ∀ k, f (w + k) = f w ∧ f (w + k) = f (w + k + 1) := by
    intro k
    induction k with
    | zero => exact ⟨rfl, hstop⟩
    | succ k ih => exact ⟨ih.2.symm.trans ih.1, hstays (w + k) ih.2⟩
  obtain ⟨k, rfl⟩ := Nat.exists_eq_add_of_le hn
  exact (hstopped k).1

theorem eq_of_countP_eq {α : Type} {p q : α → Bool} {l : List α}
    (himp : ∀ a ∈ l, p a = true → q a = true) (h : l.countP p = l.countP q) :
    ∀ a ∈ l, q a = true → p a = true := by
  induction l with
  | nil => exact fun _ ha => absurd ha List.not_mem_nil
  | cons x l ih =>
      have hl : ∀ a ∈ l, p a = true → q a = true := fun a ha => himp a (List.mem_cons_of_mem _ ha)
      have hle : l.countP p ≤ l.countP q := List.countP_mono_left hl
      have hx := himp x List.mem_cons_self
      rw [List.countP_cons, List.countP_cons] at h
      intro a ha hq
      rcases List.mem_cons.1 ha with rfl | ha
      · rw [hq, if_pos rfl] at h
        by_cases hp : p a = true
        · exact hp
        · rw [if_neg hp] at h; omega
      · refine ih hl ?_ a ha hq
        by_cases hp : p x = true
        · rw [if_pos hp, if_pos (hx hp)] at h; omega
        · rw [if_neg hp] at h; omega

/-- Whether a question is answered to some depth. -/
def answered (v : View) (n : Nat) (q : Ty × Ty) : Bool := (v.holdsWithin n q.1 q.2).toBool

/-- The questions about two types of the stock. -/
def questions (v : View) : List (Ty × Ty) := v.stock ×ˢ v.stock

theorem answered_iff {v : View} {n : Nat} {x y : Ty} :
    v.answered n (x, y) = true ↔ ∃ r, v.holdsWithin n x y = .ok r := by
  unfold answered
  cases v.holdsWithin n x y <;> simp [Except.toBool]

theorem answered_mono {v : View} {n m : Nat} (hle : n ≤ m) {q : Ty × Ty}
    (h : v.answered n q = true) : v.answered m q = true := by
  obtain ⟨r, hr⟩ := answered_iff.1 h
  exact answered_iff.2 ⟨r, holdsWithin_mono v hle _ _ r hr⟩

/-- A question that is answered is answered from fewer levels, if the questions
about the parts are. -/
theorem holdsWithin_of_parts {v : View} {n m : Nat} {x y : Ty} {r : Bool}
    (hparts : (v.holdsWithin n).BelowOn (v.holdsWithin m) (v.parts x) (v.parts y))
    (h : v.holdsWithin (n + 1) x y = .ok r) : v.holdsWithin (m + 1) x y = .ok r := by
  rw [holdsWithin] at h ⊢
  cases hc : v.compareWith (v.holdsWithin n) x y with
  | error f => rw [hc] at h; cases h
  | ok verdict => rw [hc] at h; rw [compareWith_mono_on hparts hc]; exact h

/-- Every answer is the answer to fewer levels as well, where that has one. -/
theorem below_of_answered {v : View} {n m : Nat} (hle : m ≤ n) {x y : Ty} {r : Bool}
    (h : v.holdsWithin n x y = .ok r) (hm : v.answered m (x, y) = true) :
    v.holdsWithin m x y = .ok r := by
  obtain ⟨q, hq⟩ := answered_iff.1 hm
  rw [hq, ← h, holdsWithin_mono v hle x y q hq]

theorem mem_stock_of_parts {v : View} {t a : Ty} (ht : t ∈ v.stock) (ha : a ∈ v.parts t) :
    a ∈ v.stock :=
  (mem_parts ha).elim (mem_stock_of_arguments ht) id

/-- If one more level answers no more questions about the stock, two more levels
do not either. -/
theorem answered_stays {v : View} {n : Nat}
    (h : ∀ q ∈ v.questions, v.answered (n + 1) q = true → v.answered n q = true) :
    ∀ q ∈ v.questions, v.answered (n + 2) q = true → v.answered (n + 1) q = true := by
  rintro ⟨x, y⟩ hq hans
  obtain ⟨hx, hy⟩ := List.pair_mem_product.1 hq
  obtain ⟨r, hr⟩ := answered_iff.1 hans
  refine answered_iff.2 ⟨r, holdsWithin_of_parts (fun a ha b hb r => ?_) hr⟩
  have hax := mem_stock_of_parts hx ha
  have hby := mem_stock_of_parts hy hb
  constructor
  · intro hab
    exact below_of_answered (Nat.le_succ n) hab
      (h (a, b) (List.pair_mem_product.2 ⟨hax, hby⟩) (answered_iff.2 ⟨r, hab⟩))
  · intro hba
    exact below_of_answered (Nat.le_succ n) hba
      (h (b, a) (List.pair_mem_product.2 ⟨hby, hax⟩) (answered_iff.2 ⟨r, hba⟩))

/-- What can be answered about two types of the stock is answered to a depth of
the number of such questions. -/
theorem holdsWithin_stock {v : View} {x y : Ty} (hx : x ∈ v.stock) (hy : y ∈ v.stock) {n : Nat}
    {r : Bool} (h : v.holdsWithin n x y = .ok r) :
    v.holdsWithin (v.width * v.width) x y = .ok r := by
  have hlen : v.questions.length ≤ v.width * v.width := by
    rw [questions, List.length_product]
    exact Nat.mul_le_mul v.length_stock_le v.length_stock_le
  let f : Nat → Nat := fun n => v.questions.countP (v.answered n)
  have hmono : ∀ n, f n ≤ f (n + 1) := fun n =>
    List.countP_mono_left fun q _ => answered_mono (Nat.le_succ n)
  have hstays : ∀ n, f n = f (n + 1) → f (n + 1) = f (n + 2) := by
    intro n hn
    have hback := answered_stays (eq_of_countP_eq (fun q _ => answered_mono (Nat.le_succ n)) hn)
    exact Nat.le_antisymm (hmono (n + 1)) (List.countP_mono_left hback)
  by_cases hn : n ≤ v.width * v.width
  · exact holdsWithin_mono v hn x y r h
  · have hle : v.width * v.width ≤ n := by omega
    have heq : f (v.width * v.width) = f n :=
      (eq_of_stays hmono (fun n => (List.countP_le_length).trans hlen) hstays hle).symm
    exact below_of_answered hle h
      (eq_of_countP_eq (fun q _ => answered_mono hle) heq (x, y)
        (List.pair_mem_product.2 ⟨hx, hy⟩) (answered_iff.2 ⟨r, h⟩))

/-! ## All questions -/

/-- Whether a side is in the stock after so many levels. -/
def Reaches (v : View) (i : Nat) (t : Ty) : Prop := t ∈ v.stock ∨ t.size ≤ i

theorem Reaches.part {v : View} {i : Nat} {t a : Ty} (h : v.Reaches i t) (ha : a ∈ v.parts t) :
    v.Reaches (i - 1) a := by
  rcases h with h | h
  · exact Or.inl (mem_stock_of_parts h ha)
  · rcases mem_parts ha with ha | ha
    · have := Ty.size_lt_of_mem_arguments ha
      exact Or.inr (by omega)
    · exact Or.inl ha

theorem Reaches.mem_stock {v : View} {t : Ty} (h : v.Reaches 0 t) : t ∈ v.stock := by
  refine h.resolve_right fun hsize => ?_
  have := t.one_le_size
  omega

theorem holdsWithin_reaches {v : View} :
    ∀ (m : Nat) {n i j : Nat} {x y : Ty} {r : Bool}, v.Reaches i x → v.Reaches j y →
      i + j ≤ m → v.holdsWithin n x y = .ok r →
      v.holdsWithin (v.width * v.width + m) x y = .ok r := by
  intro m
  induction m with
  | zero =>
      intro n i j x y r hx hy hij h
      obtain ⟨rfl, rfl⟩ : i = 0 ∧ j = 0 := by omega
      exact holdsWithin_stock hx.mem_stock hy.mem_stock h
  | succ m ih =>
      intro n i j x y r hx hy hij h
      by_cases hzero : i = 0 ∧ j = 0
      · obtain ⟨rfl, rfl⟩ := hzero
        exact holdsWithin_mono v (Nat.le_add_right _ _) x y r
          (holdsWithin_stock hx.mem_stock hy.mem_stock h)
      · cases n with
        | zero => cases h
        | succ n =>
            refine holdsWithin_of_parts (fun a ha b hb r => ?_) h
            exact ⟨ih (hx.part ha) (hy.part hb) (by omega),
              ih (hy.part hb) (hx.part ha) (by omega)⟩

/-- Whatever a comparison answers to some depth is the answer of `holds`. -/
theorem depth_suffices (v : View) (n : Nat) : (v.holdsWithin n).Below v.holds := by
  intro x y r h
  have hxy := holdsWithin_reaches (x.size + y.size) (Or.inr (Nat.le_refl _))
    (Or.inr (Nat.le_refl _)) (Nat.le_refl _) h
  exact holdsWithin_mono v (by unfold depth; omega) x y r hxy

/-- The answers of `holds` about the parts of two types are all given to some
depth. -/
theorem holds_below_holdsWithin (v : View) (as bs : List Ty) :
    ∃ n, v.holds.BelowOn (v.holdsWithin n) as bs := by
  refine ⟨Ty.sizeAll as + Ty.sizeAll bs + v.width * v.width + 1, fun a ha b hb r => ?_⟩
  have h₁ := Ty.size_le_sizeAll ha
  have h₂ := Ty.size_le_sizeAll hb
  exact ⟨holdsWithin_mono v (by unfold depth; omega) a b r,
    holdsWithin_mono v (by unfold depth; omega) b a r⟩

/-- The depth does not show: `holds` says what one level over `holds` says. -/
theorem holds_ok_iff (v : View) {x y : Ty} {b : Bool} :
    v.holds x y = .ok b ↔ ∃ r, v.compareWith v.holds x y = .ok r ∧ (r == .holds) = b := by
  constructor
  · intro h
    obtain ⟨n, hn⟩ : ∃ n, v.depth x y = n + 1 := ⟨_, rfl⟩
    rw [holds, hn, holdsWithin] at h
    cases hc : v.compareWith (v.holdsWithin n) x y with
    | error f => rw [hc] at h; cases h
    | ok r =>
        rw [hc] at h
        exact ⟨r, compareWith_mono (depth_suffices v n) hc, Except.ok.inj h⟩
  · rintro ⟨r, hr, rfl⟩
    obtain ⟨n, hn⟩ := holds_below_holdsWithin v (v.parts x) (v.parts y)
    refine depth_suffices v (n + 1) x y _ ?_
    rw [holdsWithin, compareWith_mono_on hn hr]
    rfl

theorem holds_true_iff (v : View) {x y : Ty} :
    v.holds x y = .ok true ↔ v.compareWith v.holds x y = .ok .holds := by
  rw [holds_ok_iff]
  constructor
  · rintro ⟨r, hr, hb⟩
    rw [hr, beq_iff_eq.1 hb]
  · exact fun h => ⟨.holds, h, rfl⟩

end View

end Fallible
