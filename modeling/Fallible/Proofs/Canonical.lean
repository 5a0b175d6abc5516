import Fallible.Proofs.Rereading
import Mathlib.Algebra.Order.BigOperators.Group.List
import Mathlib.Algebra.Order.Group.Nat
import Mathlib.Data.List.Find

/-!
# Normalising is a rereading

The canonical form of a union lists its constituents once each, and by kind.
Listing keeps the first value in front, because values come before errors and
the sort keeps ties in place; it loses no error, because what is dropped is
listed already under another spelling. A constituent that failed makes the whole
union fail, and nothing else does.

So normalising changes nothing that a comparison looks at, whatever the type.
-/

namespace Fallible

/-! ## Listing -/

section Distinct

variable {α : Type} [BEq α]

theorem distinct_sublist (xs : List α) : (distinct xs).Sublist xs := by
  induction xs with
  | nil => exact .slnil
  | cons x xs ih => exact (List.filter_sublist.trans ih).cons_cons x

theorem exists_mem_distinct [EquivBEq α] {x : α} {xs : List α} (h : x ∈ xs) :
    ∃ y ∈ distinct xs, (y == x) = true := by
  induction xs with
  | nil => exact absurd h List.not_mem_nil
  | cons z xs ih =>
      by_cases hzx : (z == x) = true
      · exact ⟨z, List.mem_cons_self, hzx⟩
      · rcases List.mem_cons.1 h with rfl | h
        · exact absurd BEq.rfl hzx
        · obtain ⟨y, hy, hyx⟩ := ih h
          refine ⟨y, List.mem_cons_of_mem z (List.mem_filter.2 ⟨hy, ?_⟩), hyx⟩
          rw [Bool.not_eq_true', Bool.eq_false_iff]
          exact fun hzy => hzx (BEq.trans hzy hyx)

theorem find?_distinct {p : α → Bool} (hp : ∀ x y, (x == y) = true → p x = p y)
    (xs : List α) : (distinct xs).find? p = xs.find? p := by
  induction xs with
  | nil => rfl
  | cons x xs ih =>
      rw [distinct, List.find?_cons, List.find?_cons, List.find?_filter, ← ih]
      cases hx : p x with
      | true => rfl
      | false =>
          have htest : (fun y => decide ((!(x == y)) = true ∧ p y = true)) = p := by
            funext y
            cases hxy : x == y with
            | true => rw [← hp x y hxy, hx]; rfl
            | false => simp
          rw [htest]

end Distinct

theorem find?_insertBy {α : Type} {le : α → α → Bool} {p : α → Bool}
    (hp : ∀ x y, p x = true → le x y = true) (x : α) (xs : List α) :
    (insertBy le x xs).find? p = (x :: xs).find? p := by
  induction xs with
  | nil => rfl
  | cons y ys ih =>
      unfold insertBy
      split
      · rfl
      · next hxy =>
          have hx : p x = false := Bool.eq_false_iff.2 fun hx => hxy (hp x y hx)
          simp only [List.find?_cons, ih, hx]

/-- The first of the elements that may stand in front does. -/
theorem find?_sortOn {α : Type} {key : α → SortKey} {p : α → Bool}
    (hp : ∀ x y, p x = true → (key x).le (key y) = true) (xs : List α) :
    (sortOn key xs).find? p = xs.find? p := by
  unfold sortOn
  induction xs with
  | nil => rfl
  | cons x xs ih =>
      rw [sortBy, find?_insertBy hp, List.find?_cons, List.find?_cons, ih]

namespace Ty

theorem isValue_congr {x y : Ty} (h : (x == y) = true) : x.isValue = y.isValue := by
  rw [← isValue_bare x, beq_iff.1 h, isValue_bare]

theorem memberKey_of_isValue {x : Ty} (h : x.isValue = true) (y : Ty) :
    (memberKey x).le (memberKey y) = true := by
  have hx : memberKey x = ⟨0, 0, ""⟩ := by cases x <;> first | rfl | cases h
  have hy : memberKey y = ⟨0, 0, ""⟩ ∨ 0 < (memberKey y).kind := by
    cases y <;> simp [memberKey]
  rw [hx, SortKey.le_iff]
  rcases hy with hy | hy
  · rw [hy]; exact Or.inr ⟨rfl, Or.inr ⟨rfl, String.le_refl _⟩⟩
  · exact Or.inl hy

/-- Listing invents no members. -/
theorem mem_of_listed {ms : List Ty} {m : Ty} (hm : m ∈ sortOn memberKey (distinct ms)) :
    m ∈ ms :=
  (distinct_sublist _).subset ((sortOn_perm _ _).mem_iff.1 hm)

/-! ## Failed types -/

/-- The constituents of the canonical members of a union. -/
def flat (ms : List Ty) : List Ty := constituentsAll (canonicalAll ms)

theorem flat_eq (ms : List Ty) : flat ms = ms.flatMap fun m => m.canonical.constituents := by
  rw [flat, constituentsAll_eq_flatMap, canonicalAll_eq_map, List.flatMap_map]

theorem constituents_of_mem_flat {ms : List Ty} {m : Ty} (h : m ∈ flat ms) :
    m.constituents = [m] := by
  rw [flat_eq] at h
  obtain ⟨x, _, hm⟩ := List.mem_flatMap.1 h
  exact constituents_of_mem hm

theorem canonical_union_of_failed {ms : List Ty} (h : (flat ms).any isErroneous = true) :
    (Ty.union ms).canonical = .erroneous := by
  rw [canonical, ofConstituents]
  exact if_pos h

theorem constituents_canonical_union {ms : List Ty} (h : (flat ms).any isErroneous = false) :
    (Ty.union ms).canonical.constituents = sortOn memberKey (distinct (flat ms)) := by
  have hlisted : (Ty.union ms).canonical = ofListed (sortOn memberKey (distinct (flat ms))) := by
    rw [canonical, ofConstituents, ← flat]
    exact if_neg (Bool.eq_false_iff.1 h)
  rw [hlisted]
  exact constituents_ofListed fun m hm => constituents_of_mem_flat (mem_of_listed hm)

theorem any_erroneous_canonical (t : Ty) :
    t.canonical.constituents.any isErroneous = t.constituents.any isErroneous := by
  induction t with
  | union ms ih =>
      have hflat : (flat ms).any isErroneous = (Ty.union ms).constituents.any isErroneous := by
        rw [flat_eq, constituents, constituentsAll_eq_flatMap, List.any_flatMap,
          List.any_flatMap]
        exact any_congr_mem ih
      rw [← hflat]
      cases hf : (flat ms).any isErroneous with
      | true => rw [canonical_union_of_failed hf]; rfl
      | false =>
          rw [constituents_canonical_union hf, List.any_eq_false]
          intro m hm
          exact List.any_eq_false.1 hf m (mem_of_listed hm)
  | _ => rfl

/-- A type failed if one of its constituents did. -/
theorem failed_eq (t : Ty) : t.failed = t.constituents.any isErroneous := by
  rw [← any_erroneous_canonical]
  unfold failed
  cases t with
  | union ms =>
      cases hf : (flat ms).any isErroneous with
      | true => rw [canonical_union_of_failed hf]; rfl
      | false =>
          have hno : (Ty.union ms).canonical.constituents.any isErroneous = false := by
            rw [constituents_canonical_union hf, List.any_eq_false]
            intro m hm
            exact List.any_eq_false.1 hf m (mem_of_listed hm)
          rw [hno, Bool.eq_false_iff]
          intro he
          cases hc : (Ty.union ms).canonical with
          | erroneous => rw [hc] at hno; cases hno
          | _ => rw [hc] at he; cases he
  | _ => rfl

theorem failed_iff {t : Ty} : t.failed = true ↔ .erroneous ∈ t.constituents := by
  rw [failed_eq, List.any_eq_true]
  constructor
  · rintro ⟨m, hm, herr⟩
    cases m <;> first | exact hm | cases herr
  · exact fun h => ⟨_, h, rfl⟩

theorem canonical_of_failed {t : Ty} (ht : t.failed = true) : t.canonical = .erroneous := by
  unfold failed at ht
  cases hc : t.canonical <;> rw [hc] at ht <;> first | rfl | cases ht

theorem failed_respell (f : Spelling) (t : Ty) : (t.respell f).failed = t.failed := by
  rw [failed_eq, failed_eq, constituents_respell, List.any_map]
  exact congrArg _ (funext fun m => isErroneous_respell f m)

theorem failed_canonical (t : Ty) : t.canonical.failed = t.failed := by
  rw [failed_eq, failed_eq, any_erroneous_canonical]

theorem flat_of_not_failed {ms : List Ty} (h : (Ty.union ms).failed = false) :
    (flat ms).any isErroneous = false ∧ ∀ m ∈ ms, m.failed = false := by
  have hms : ∀ m ∈ ms, m.failed = false := by
    intro m hm
    rw [failed_eq, constituents, constituentsAll_eq_flatMap, List.any_flatMap,
      List.any_eq_false] at h
    rw [failed_eq]
    exact Bool.eq_false_iff.2 (h m hm)
  refine ⟨?_, hms⟩
  rw [flat_eq, List.any_flatMap, List.any_eq_false]
  intro m hm
  rw [← failed_eq, failed_canonical, hms m hm]
  exact Bool.false_ne_true

/-! ## The value part -/

theorem valuePart_of_not_failed {t : Ty} (h : t.failed = false) :
    t.valuePart = (t.constituents.find? isValue).getD .nothing := by
  unfold valuePart
  congr 1
  rw [failed_eq, List.any_eq_false] at h
  exact List.find?_congr fun m hm => by rw [Bool.eq_false_iff.2 (h m hm), Bool.or_false]

theorem find?_canonical {t : Ty} (h : t.failed = false) :
    t.canonical.constituents.find? isValue = (t.constituents.find? isValue).map canonical := by
  induction t with
  | union ms ih =>
      obtain ⟨hflat, hms⟩ := flat_of_not_failed h
      rw [constituents_canonical_union hflat, find?_sortOn fun _ _ h => memberKey_of_isValue h _,
        find?_distinct fun _ _ => isValue_congr, flat_eq, List.find?_flatMap, constituents,
        constituentsAll_eq_flatMap, List.find?_flatMap, List.map_findSome?,
        ← List.head?_filterMap, ← List.head?_filterMap]
      rw [List.filterMap_congr fun m hm => ih m hm (hms m hm)]
      rfl
  | _ => rfl

theorem valuePart_canonical {t : Ty} (h : t.failed = false) :
    t.canonical.valuePart = t.valuePart.canonical := by
  rw [valuePart_of_not_failed ((failed_canonical t).trans h), valuePart_of_not_failed h,
    find?_canonical h]
  cases t.constituents.find? isValue <;> rfl

theorem countP_canonical (t : Ty) :
    t.canonical.constituents.countP isValue ≤ t.constituents.countP isValue := by
  induction t with
  | union ms ih =>
      cases hf : (flat ms).any isErroneous with
      | true => rw [canonical_union_of_failed hf]; exact Nat.zero_le _
      | false =>
          rw [constituents_canonical_union hf, (sortOn_perm _ _).countP_eq]
          refine Nat.le_trans ((distinct_sublist _).countP_le) ?_
          rw [flat_eq, constituents, constituentsAll_eq_flatMap, List.countP_flatMap,
            List.countP_flatMap]
          exact List.sum_le_sum ih
  | _ => exact Nat.le_refl _

/-! ## The errors -/

/-- The constituents of a canonical form are canonical forms of constituents. -/
theorem mem_canonical {t m : Ty} (h : m ∈ t.canonical.constituents) :
    ∃ x ∈ t.constituents, m = x.canonical := by
  induction t generalizing m with
  | union ms ih =>
      have hflat : ∀ {y : Ty}, y ∈ flat ms →
          ∃ x ∈ (Ty.union ms).constituents, y = x.canonical := by
        intro y hy
        rw [flat_eq] at hy
        obtain ⟨z, hz, hy⟩ := List.mem_flatMap.1 hy
        obtain ⟨x, hx, hyx⟩ := ih z hz hy
        exact ⟨x, mem_constituents_union.2 ⟨z, hz, hx⟩, hyx⟩
      cases hf : (flat ms).any isErroneous with
      | true =>
          obtain ⟨x, hx, hxe⟩ := List.any_eq_true.1 hf
          have hm : m = x := by
            rw [canonical_union_of_failed hf] at h
            cases x <;> first | exact List.mem_singleton.1 h | cases hxe
          exact hm ▸ hflat hx
      | false =>
          rw [constituents_canonical_union hf, (sortOn_perm _ _).mem_iff] at h
          exact hflat ((distinct_sublist _).subset h)
  | nothing => exact absurd h List.not_mem_nil
  | any | var =>
      simp only [canonical, constituents, constituentsAll, List.append_nil, List.cons_append,
        List.nil_append, List.mem_cons, List.not_mem_nil, or_false] at h
      rcases h with rfl | rfl
      · exact ⟨_, List.mem_cons_self, rfl⟩
      · exact ⟨_, List.mem_cons_of_mem _ List.mem_cons_self, rfl⟩
  | _ => exact ⟨_, List.mem_cons_self, List.mem_singleton.1 h⟩

/-- Every constituent is listed, up to spelling, in the canonical form. -/
theorem exists_mem_canonical {t m : Ty} (ht : t.failed = false) (h : m ∈ t.constituents) :
    ∃ x ∈ t.canonical.constituents, (x == m.canonical) = true := by
  induction t with
  | union ms ih =>
      obtain ⟨hflat, hms⟩ := flat_of_not_failed ht
      obtain ⟨y, hy, hm⟩ := mem_constituents_union.1 h
      obtain ⟨x, hx, hxm⟩ := ih y hy (hms y hy) hm
      have hmem : x ∈ flat ms := by
        rw [flat_eq]
        exact List.mem_flatMap.2 ⟨y, hy, hx⟩
      obtain ⟨z, hz, hzx⟩ := exists_mem_distinct hmem
      rw [constituents_canonical_union hflat]
      exact ⟨z, (sortOn_perm _ _).mem_iff.2 hz, BEq.trans hzx hxm⟩
  | nothing => exact absurd h List.not_mem_nil
  | any | var =>
      simp only [constituents, List.mem_cons, List.not_mem_nil, or_false] at h
      rcases h with rfl | rfl
      · exact ⟨_, List.mem_cons_self, BEq.rfl⟩
      · exact ⟨_, List.mem_cons_of_mem _ List.mem_cons_self, BEq.rfl⟩
  | _ =>
      obtain rfl := List.mem_singleton.1 h
      exact ⟨_, List.mem_cons_self, BEq.rfl⟩

theorem errors_errorConst (s : Solution) (c : Classifier) (args args' : List Ty) :
    SameErrors (View.interpretWith s (.errorConst c args))
      (View.interpretWith s (.errorConst c args')) :=
  ⟨rfl, fun _ a => by rw [View.contains_interpretWith, View.contains_interpretWith]; rfl,
    fun _ _ => rfl⟩

theorem errors_canonical_member (s : Solution) {m t : Ty} (hm : m ∈ t.constituents) :
    SameErrors (View.interpretWith s m) (View.interpretWith s m.canonical) := by
  induction t with
  | union ms ih =>
      obtain ⟨x, hx, hm⟩ := mem_constituents_union.1 hm
      exact ih x hx hm
  | nothing => exact absurd hm List.not_mem_nil
  | any | var =>
      simp only [constituents, List.mem_cons, List.not_mem_nil, or_false] at hm
      rcases hm with rfl | rfl <;> exact .refl _
  | errorConst c args =>
      obtain rfl := List.mem_singleton.1 hm
      exact errors_errorConst s c args (canonicalAll args)
  | _ =>
      obtain rfl := List.mem_singleton.1 hm
      exact .refl _

/-- A type and its canonical form have the same errors. -/
theorem errors_canonical (s : Solution) {t : Ty} (ht : t.failed = false) :
    SameErrors (View.interpretWith s t) (View.interpretWith s t.canonical) := by
  have hopen : ∀ u : Ty, View.interpretWith s u = View.interpretWith s (.union u.constituents) :=
    fun u => View.interpretWith_of_constituents s
      (constituentsAll_of_listed fun _ hm => constituents_of_mem hm).symm
  rw [hopen t, hopen t.canonical]
  refine .union (fun m hm => ?_) fun m hm => ?_
  · obtain ⟨x, hx, hxm⟩ := exists_mem_canonical ht hm
    refine ⟨x, hx, (errors_canonical_member s hm).trans ?_⟩
    have hbare := SameErrors.bare s m.canonical
    rw [← beq_iff.1 hxm] at hbare
    exact hbare.trans (SameErrors.bare s x).symm
  · obtain ⟨x, hx, rfl⟩ := mem_canonical hm
    exact ⟨x, hx, errors_canonical_member s hx⟩

/-! ## What else is kept -/

theorem canonical_union_cases (ms : List Ty) : (Ty.union ms).canonical = .erroneous ∨
    ∃ listed : List Ty, (Ty.union ms).canonical = ofListed listed ∧
      ∀ m ∈ listed, ∃ x ∈ ms, m ∈ x.canonical.constituents := by
  rw [canonical, ofConstituents]
  split
  · exact Or.inl rfl
  · refine Or.inr ⟨_, rfl, fun m hm => ?_⟩
    have hm := mem_of_listed hm
    rw [← flat, flat_eq] at hm
    exact List.mem_flatMap.1 hm

theorem payloadFree_ofListed {ms : List Ty} (h : ∀ m ∈ ms, m.payloadFree = true) :
    (ofListed ms).payloadFree = true := by
  unfold ofListed
  split
  · rfl
  · exact h _ List.mem_cons_self
  · exact payloadFreeAll_iff.2 h

theorem payloadFree_canonical {t : Ty} (h : t.payloadFree = true) :
    t.canonical.payloadFree = true := by
  induction t with
  | union ms ih =>
      rcases canonical_union_cases ms with hc | ⟨listed, hc, hfrom⟩
      · rw [hc]; rfl
      · rw [hc]
        refine payloadFree_ofListed fun m hm => ?_
        obtain ⟨x, hx, hm⟩ := hfrom m hm
        exact payloadFree_of_mem_constituents (ih x hx (payloadFreeAll_iff.1 h x hx)) hm
  | con c args ih =>
      rw [canonical, canonicalAll_eq_map]
      refine payloadFreeAll_iff.2 fun m hm => ?_
      obtain ⟨x, hx, rfl⟩ := List.mem_map.1 hm
      exact ih x hx (payloadFreeAll_iff.1 h x hx)
  | errorConst c args =>
      obtain rfl : args = [] := List.isEmpty_iff.1 h
      rfl
  | _ => rfl

theorem mem_unknowns_ofListed {ms : List Ty} {x : Ty} :
    x ∈ (ofListed ms).unknowns ↔ ∃ m ∈ ms, x ∈ m.unknowns := by
  unfold ofListed
  split
  · simp [unknowns]
  · simp
  · exact mem_unknownsAll

/-- What holds of the unknowns of a type holds of those of its canonical form,
where type variables are split. -/
theorem Stable.canonical {R : Ty → Prop} (hR : Stable R) {t : Ty}
    (ht : ∀ x ∈ t.unknowns, R x) :
    ∀ x ∈ t.canonical.unknowns, R x ∧ ∀ name flexible, x ≠ .var name flexible := by
  induction t with
  | union ms ih =>
      have hms : ∀ m ∈ ms, ∀ x ∈ m.canonical.unknowns,
          R x ∧ ∀ name flexible, x ≠ .var name flexible :=
        fun m hm => ih m hm fun x hx => ht x (mem_unknownsAll.2 ⟨m, hm, hx⟩)
      have hsplit : Stable fun x => R x ∧ ∀ name flexible, x ≠ .var name flexible :=
        fun name flexible hv => absurd rfl (hv.2 name flexible)
      intro x hx
      rcases canonical_union_cases ms with hc | ⟨listed, hc, hfrom⟩
      · rw [hc] at hx; exact absurd hx List.not_mem_nil
      · rw [hc] at hx
        obtain ⟨m, hm, hx⟩ := mem_unknowns_ofListed.1 hx
        obtain ⟨z, hz, hm⟩ := hfrom m hm
        exact hsplit.constituents (hms z hz) m hm x hx
  | con c args ih | errorConst c args ih =>
      intro x hx
      rw [Ty.canonical, unknowns, canonicalAll_eq_map] at hx
      obtain ⟨m, hm, hx⟩ := mem_unknownsAll.1 hx
      obtain ⟨z, hz, rfl⟩ := List.mem_map.1 hm
      exact ih z hz (fun y hy => ht y (mem_unknownsAll.2 ⟨z, hz, hy⟩)) x hx
  | var name flexible =>
      have hboth := hR name flexible (ht _ List.mem_cons_self)
      intro x hx
      simp only [Ty.canonical, unknowns, unknownsAll, List.append_nil, List.cons_append,
        List.nil_append, List.mem_cons, List.not_mem_nil, or_false] at hx
      rcases hx with rfl | rfl
      · exact ⟨hboth.1, fun _ _ he => Ty.noConfusion he⟩
      · exact ⟨hboth.2, fun _ _ he => Ty.noConfusion he⟩
  | valueProj | errorVar =>
      intro x hx
      refine ⟨ht x hx, fun name flexible => ?_⟩
      rw [List.mem_singleton.1 hx]
      exact fun he => Ty.noConfusion he
  | _ => exact fun x hx => absurd hx List.not_mem_nil

end Ty

/-- Normalising is a rereading under any solution. -/
theorem rereads_canonical {Q Q' : Ty → Prop} (s : Solution)
    (h : ∀ {t}, Q t → Q' t.canonical) : Rereads Q Q' s s Ty.canonical where
  good := h
  failed _ := Ty.failed_canonical _
  value _ hf := Ty.valuePart_canonical hf
  errors _ hf := Ty.errors_canonical s hf
  con c args := by rw [Ty.canonical, Ty.canonicalAll_eq_map]
  fixed ht := by rcases ht with rfl | rfl | rfl | ⟨name, rfl⟩ <;> rfl

end Fallible
