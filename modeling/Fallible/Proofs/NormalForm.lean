import Fallible.Proofs.Canonical

/-!
# Canonical forms are normal forms

A canonical union is listed twice over: its members are canonical themselves, so
nested unions are put in order before they are opened up, and then the whole is
put in order again. The first pass makes no difference. A stable sort is known
from what it does to each key, and on the members of one key it does nothing; so
what is listed is decided by the order of writing within each key, and that is
the same whether nested unions were put in order or not.

Main statements: the canonical form of a union can be read off its constituents,
and normalising twice is normalising once.
-/

namespace Fallible

/-! ## Stable sorts -/

section Stable

variable {α : Type} {key : α → SortKey}

theorem filter_insertBy (k : SortKey) (x : α) (xs : List α) :
    (insertBy (fun a b => (key a).le (key b)) x xs).filter (fun y => decide (key y = k)) =
      (x :: xs).filter fun y => decide (key y = k) := by
  induction xs with
  | nil => rfl
  | cons y ys ih =>
      rw [insertBy]
      split
      · rfl
      · next hxy =>
          -- `x` goes past `y` only if their keys differ.
          have hne : key x ≠ key y := fun h => hxy (h ▸ SortKey.le_refl _)
          rw [List.filter_cons, ih]
          by_cases hx : key x = k
          · have hy : key y ≠ k := fun h => hne (hx.trans h.symm)
            simp [hx, hy]
          · simp [List.filter_cons, hx]

/-- A listing keeps the elements of each key in order. -/
theorem filter_sortOn (k : SortKey) (xs : List α) :
    (sortOn key xs).filter (fun y => decide (key y = k)) =
      xs.filter fun y => decide (key y = k) := by
  rw [sortOn]
  induction xs with
  | nil => rfl
  | cons x xs ih => rw [sortBy, filter_insertBy, List.filter_cons, List.filter_cons, ih]

/-- An ordered list is determined by its elements of each key. -/
theorem eq_of_filter_key {xs ys : List α} (hxs : xs.Pairwise fun a b => (key a).le (key b) = true)
    (hys : ys.Pairwise fun a b => (key a).le (key b) = true)
    (h : ∀ k, xs.filter (fun y => decide (key y = k)) = ys.filter fun y => decide (key y = k)) :
    xs = ys := by
  induction xs generalizing ys with
  | nil =>
      cases ys with
      | nil => rfl
      | cons y ys => simpa using h (key y)
  | cons x xs ih =>
      cases ys with
      | nil => simpa using h (key x)
      | cons y ys =>
          obtain ⟨hx, hrest⟩ := List.pairwise_cons.1 hxs
          obtain ⟨hy, hrest'⟩ := List.pairwise_cons.1 hys
          -- Each head is somewhere in the other list, so neither key comes later.
          have hxy : (key x).le (key y) = true := by
            have hmem : y ∈ (x :: xs).filter fun z => decide (key z = key y) := by
              rw [h]
              simp
            rcases List.mem_cons.1 (List.mem_filter.1 hmem).1 with rfl | hmem
            · exact SortKey.le_refl _
            · exact hx y hmem
          have hyx : (key y).le (key x) = true := by
            have hmem : x ∈ (y :: ys).filter fun z => decide (key z = key x) := by
              rw [← h]
              simp
            rcases List.mem_cons.1 (List.mem_filter.1 hmem).1 with rfl | hmem
            · exact SortKey.le_refl _
            · exact hy x hmem
          have hkey : key x = key y := SortKey.le_antisymm hxy hyx
          have hhead := h (key x)
          simp only [List.filter_cons, hkey, decide_true, if_true, List.cons.injEq] at hhead
          obtain ⟨rfl, htie⟩ := hhead
          have htail : ∀ k, xs.filter (fun z => decide (key z = k)) =
              ys.filter fun z => decide (key z = k) := by
            intro k
            by_cases hk : key x = k
            · exact hk ▸ htie
            · simpa [List.filter_cons, hk] using h k
          rw [ih hrest hrest' htail]

theorem sortOn_congr {xs ys : List α}
    (h : ∀ k, xs.filter (fun y => decide (key y = k)) = ys.filter fun y => decide (key y = k)) :
    sortOn key xs = sortOn key ys := by
  refine eq_of_filter_key (sortOn_pairwise key xs) (sortOn_pairwise key ys) fun k => ?_
  rw [filter_sortOn, filter_sortOn, h]

/-- Listing by a key goes along with a map that keeps the order of keys. -/
theorem map_sortOn {β : Type} {key' : β → SortKey} {f : α → β}
    (h : ∀ x y, (key' (f x)).le (key' (f y)) = (key x).le (key y)) (xs : List α) :
    (sortOn key xs).map f = sortOn key' (xs.map f) := by
  have hinsert : ∀ (x : α) (ys : List α),
      (insertBy (fun a b => (key a).le (key b)) x ys).map f =
        insertBy (fun a b => (key' a).le (key' b)) (f x) (ys.map f) := by
    intro x ys
    induction ys with
    | nil => rfl
    | cons y ys ih =>
        rw [List.map_cons, insertBy, insertBy, h]
        split
        · rfl
        · rw [List.map_cons, ih]
  induction xs with
  | nil => rfl
  | cons x xs ih =>
      rw [List.map_cons]
      exact (hinsert x _).trans (congrArg _ ih)

end Stable

/-! ## First occurrences -/

section Distinct

variable {α : Type} [BEq α] [EquivBEq α]

omit [EquivBEq α] in
theorem distinct_pairwise (xs : List α) :
    (distinct xs).Pairwise fun x y => (x == y) = false := by
  induction xs with
  | nil => exact .nil
  | cons x xs ih =>
      refine List.pairwise_cons.2 ⟨fun y hy => ?_, ih.filter _⟩
      simpa using (List.mem_filter.1 hy).2

omit [EquivBEq α] in
theorem distinct_of_pairwise {xs : List α} (h : xs.Pairwise fun x y => (x == y) = false) :
    distinct xs = xs := by
  induction xs with
  | nil => rfl
  | cons x xs ih =>
      obtain ⟨hx, hxs⟩ := List.pairwise_cons.1 h
      rw [distinct, ih hxs, List.filter_eq_self.2 fun y hy => by rw [hx y hy]; rfl]

omit [EquivBEq α] in
theorem distinct_distinct (xs : List α) : distinct (distinct xs) = distinct xs :=
  distinct_of_pairwise (distinct_pairwise xs)

omit [EquivBEq α] in
theorem filter_distinct {p : α → Bool} (hp : ∀ x y, (x == y) = true → p x = p y) (xs : List α) :
    (distinct xs).filter p = distinct (xs.filter p) := by
  induction xs with
  | nil => rfl
  | cons x xs ih =>
      rw [distinct, List.filter_cons, List.filter_cons, List.filter_filter]
      cases hx : p x with
      | true =>
          rw [if_pos rfl, if_pos rfl, distinct, ← ih, List.filter_filter]
          simp only [Bool.and_comm]
      | false =>
          rw [if_neg Bool.false_ne_true, if_neg Bool.false_ne_true, ← ih]
          refine List.filter_congr fun y _ => ?_
          cases hxy : x == y with
          | true => rw [← hp x y hxy, hx]; rfl
          | false => simp

theorem any_distinct (xs : List α) (y : α) :
    ((distinct xs).any fun x => x == y) = xs.any fun x => x == y := by
  rw [Bool.eq_iff_iff, List.any_eq_true, List.any_eq_true]
  constructor
  · rintro ⟨x, hx, hxy⟩
    exact ⟨x, (distinct_sublist xs).subset hx, hxy⟩
  · rintro ⟨x, hx, hxy⟩
    obtain ⟨z, hz, hzx⟩ := exists_mem_distinct hx
    exact ⟨z, hz, BEq.trans hzx hxy⟩

omit [EquivBEq α] in
theorem distinct_append (xs ys : List α) : distinct (xs ++ ys) =
    distinct xs ++ (distinct ys).filter fun y => !xs.any fun x => x == y := by
  induction xs with
  | nil => simp [distinct]
  | cons x xs ih =>
      rw [List.cons_append, distinct, ih, List.filter_append, distinct, List.cons_append,
        List.filter_filter]
      simp only [List.any_cons, Bool.not_or]

theorem distinct_flatMap_congr {β : Type} {l : List β} {f f' : β → List α}
    (h : ∀ m ∈ l, distinct (f m) = distinct (f' m)) :
    distinct (l.flatMap f) = distinct (l.flatMap f') := by
  induction l with
  | nil => rfl
  | cons m l ih =>
      have hm := h m List.mem_cons_self
      rw [List.flatMap_cons, List.flatMap_cons, distinct_append, distinct_append, hm,
        ih fun x hx => h x (List.mem_cons_of_mem m hx)]
      congr 1
      refine List.filter_congr fun y _ => ?_
      rw [← any_distinct (f m), hm, any_distinct]

end Distinct

namespace Ty

/-! ## The canonical form of a union -/

theorem memberKey_bare (t : Ty) : memberKey t.bare = memberKey t := by
  cases t <;> rfl

theorem memberKey_congr {x y : Ty} (h : (x == y) = true) : memberKey x = memberKey y := by
  rw [← memberKey_bare x, beq_iff.1 h, memberKey_bare]

theorem filter_key_distinct (k : SortKey) (xs : List Ty) :
    (distinct xs).filter (fun m => decide (memberKey m = k)) =
      distinct (xs.filter fun m => decide (memberKey m = k)) :=
  filter_distinct (fun _ _ h => by rw [memberKey_congr h]) xs

/-- Normalising members before they are opened up changes no key's members. -/
theorem distinct_constituents_canonical {t : Ty} (ht : t.failed = false) (k : SortKey) :
    distinct (t.canonical.constituents.filter fun m => decide (memberKey m = k)) =
      distinct ((t.constituents.map canonical).filter fun m => decide (memberKey m = k)) := by
  induction t with
  | union ms ih =>
      obtain ⟨hflat, hms⟩ := flat_of_not_failed ht
      rw [constituents_canonical_union hflat, filter_sortOn, filter_key_distinct,
        distinct_distinct, flat_eq, constituents, constituentsAll_eq_flatMap, List.map_flatMap,
        List.filter_flatMap, List.filter_flatMap]
      exact distinct_flatMap_congr fun m hm => ih m hm (hms m hm)
  | _ => rfl

theorem any_erroneous_map_canonical (t : Ty) :
    (t.constituents.map canonical).any isErroneous = t.failed := by
  rw [List.any_map, failed_eq]
  refine any_congr_mem fun m hm => ?_
  have hm' : m.failed = [m].any isErroneous := by rw [failed_eq, constituents_of_mem hm]
  rw [Function.comp_apply, ← failed, hm', List.any_cons, List.any_nil, Bool.or_false]

theorem canonical_union_of_sound {ms : List Ty} (h : (flat ms).any isErroneous = false) :
    (Ty.union ms).canonical = ofListed (sortOn memberKey (distinct (flat ms))) := by
  rw [canonical, ofConstituents, ← flat]
  exact if_neg (Bool.eq_false_iff.1 h)

/-- The canonical form of a union is read off its constituents. -/
theorem canonical_union (ms : List Ty) :
    (Ty.union ms).canonical = ofConstituents ((Ty.union ms).constituents.map canonical) := by
  rw [ofConstituents, any_erroneous_map_canonical]
  cases ht : (Ty.union ms).failed with
  | true => rw [if_pos rfl, canonical_of_failed ht]
  | false =>
      obtain ⟨hflat, hms⟩ := flat_of_not_failed ht
      rw [if_neg Bool.false_ne_true, canonical_union_of_sound hflat]
      congr 1
      refine sortOn_congr fun k => ?_
      rw [filter_key_distinct, filter_key_distinct, flat_eq, constituents,
        constituentsAll_eq_flatMap, List.map_flatMap, List.filter_flatMap, List.filter_flatMap]
      exact distinct_flatMap_congr fun m hm => distinct_constituents_canonical (hms m hm) k

theorem canonical_unionOf (ms : List Ty) :
    (unionOf ms).canonical = ofConstituents ((constituentsAll ms).map canonical) := by
  rw [unionOf, canonical_union, ← unionOf, constituents_unionOf]

theorem canonical_eq_ofConstituents {t : Ty} (h : t ≠ .any) :
    t.canonical = ofConstituents (t.constituents.map canonical) := by
  cases t with
  | union ms => exact canonical_union ms
  | any => exact absurd rfl h
  | _ => rfl

theorem isErroneous_congr {x y : Ty} (h : (x == y) = true) : x.isErroneous = y.isErroneous := by
  have hbare : ∀ t : Ty, t.bare.isErroneous = t.isErroneous := fun t => by cases t <;> rfl
  rw [← hbare x, beq_iff.1 h, hbare]

/-- A union is normalised alike if the same members of each key come first, in the
same order. -/
theorem ofConstituents_congr {xs ys : List Ty}
    (h : ∀ k, distinct (xs.filter fun m => decide (memberKey m = k)) =
      distinct (ys.filter fun m => decide (memberKey m = k))) :
    ofConstituents xs = ofConstituents ys := by
  have hany : ∀ {xs ys : List Ty}, (∀ k, distinct (xs.filter fun m => decide (memberKey m = k)) =
      distinct (ys.filter fun m => decide (memberKey m = k))) →
      xs.any isErroneous = true → ys.any isErroneous = true := by
    intro xs ys h hxs
    obtain ⟨m, hm, he⟩ := List.any_eq_true.1 hxs
    have hin : m ∈ xs.filter fun x => decide (memberKey x = memberKey m) :=
      List.mem_filter.2 ⟨hm, decide_eq_true rfl⟩
    obtain ⟨y, hy, hym⟩ := exists_mem_distinct hin
    rw [h] at hy
    have hys := (List.mem_filter.1 ((distinct_sublist _).subset hy)).1
    exact List.any_eq_true.2 ⟨y, hys, (isErroneous_congr hym).trans he⟩
  rw [ofConstituents, ofConstituents, Bool.eq_iff_iff.2 ⟨hany h, hany fun k => (h k).symm⟩]
  congr 2
  refine sortOn_congr fun k => ?_
  rw [filter_key_distinct, filter_key_distinct, h]

/-! ## Normalising twice -/

/-- No constituent is listed twice in a canonical form. -/
theorem constituents_canonical_pairwise (t : Ty) :
    t.canonical.constituents.Pairwise fun x y => (x == y) = false := by
  cases t with
  | union ms =>
      cases hf : (flat ms).any isErroneous with
      | true => rw [canonical_union_of_failed hf]; exact List.pairwise_singleton _ _
      | false =>
          rw [constituents_canonical_union hf]
          refine (sortOn_perm _ _).symm.pairwise (distinct_pairwise _) fun h => ?_
          rw [BEq.comm]
          exact h
  | any | var => exact List.pairwise_pair.2 rfl
  | nothing => exact .nil
  | _ => exact List.pairwise_singleton _ _

theorem ofConstituents_of_listed {ms : List Ty} (herr : ms.any isErroneous = false)
    (hsorted : ms.Pairwise fun a b => (memberKey a).le (memberKey b) = true)
    (hdistinct : ms.Pairwise fun x y => (x == y) = false) : ofConstituents ms = ofListed ms := by
  rw [ofConstituents, herr, if_neg Bool.false_ne_true, distinct_of_pairwise hdistinct,
    sortOn_of_pairwise hsorted]

/-- A list that is in order, of members that are canonical, is canonical. -/
theorem canonical_ofListed {ms : List Ty} (hopen : ∀ m ∈ ms, m.constituents = [m])
    (hfixed : ∀ m ∈ ms, m.canonical = m) (herr : ms.any isErroneous = false)
    (hsorted : ms.Pairwise fun a b => (memberKey a).le (memberKey b) = true)
    (hdistinct : ms.Pairwise fun x y => (x == y) = false) :
    (ofListed ms).canonical = ofListed ms := by
  cases ms with
  | nil => rfl
  | cons m rest =>
      cases rest with
      | nil => exact hfixed m List.mem_cons_self
      | cons n rest =>
          have hlist : (Ty.union (m :: n :: rest)).constituents = m :: n :: rest :=
            constituentsAll_of_listed hopen
          show (Ty.union (m :: n :: rest)).canonical = ofListed (m :: n :: rest)
          rw [canonical_union, hlist, List.map_congr_left hfixed, List.map_id']
          exact ofConstituents_of_listed herr hsorted hdistinct

theorem canonical_canonical_and_constituents (t : Ty) : t.canonical.canonical = t.canonical ∧
    ∀ m ∈ t.canonical.constituents, m.canonical = m := by
  induction t with
  | union ms ih =>
      cases hf : (flat ms).any isErroneous with
      | true =>
          rw [canonical_union_of_failed hf]
          exact ⟨rfl, fun m hm => by rw [List.mem_singleton.1 hm]; rfl⟩
      | false =>
          have hdistinct := constituents_canonical_pairwise (.union ms)
          have hsorted := sortOn_pairwise memberKey (distinct (flat ms))
          rw [constituents_canonical_union hf] at hdistinct ⊢
          have hfrom : ∀ m ∈ sortOn memberKey (distinct (flat ms)), m ∈ flat ms :=
            fun _ => mem_of_listed
          have hfixed : ∀ m ∈ sortOn memberKey (distinct (flat ms)), m.canonical = m := by
            intro m hm
            have hflat := hfrom m hm
            rw [flat_eq] at hflat
            obtain ⟨x, hx, hm⟩ := List.mem_flatMap.1 hflat
            exact (ih x hx).2 m hm
          refine ⟨?_, hfixed⟩
          rw [canonical_union_of_sound hf]
          exact canonical_ofListed (fun x hx => constituents_of_mem_flat (hfrom x hx)) hfixed
            (List.any_eq_false.2 fun x hx => List.any_eq_false.1 hf x (hfrom x hx)) hsorted hdistinct
  | con c args ih | errorConst c args ih =>
      have hargs : canonicalAll (canonicalAll args) = canonicalAll args := by
        rw [canonicalAll_eq_map, canonicalAll_eq_map, List.map_map]
        exact List.map_congr_left fun a ha => (ih a ha).1
      have hfixed : ∀ {t : Ty}, t.constituents = [t] → t.canonical = t →
          t.canonical = t ∧ ∀ m ∈ t.constituents, m.canonical = m := by
        intro t ht hc
        rw [ht]
        exact ⟨hc, fun m hm => by rw [List.mem_singleton.1 hm, hc]⟩
      exact hfixed rfl (by rw [canonical, canonical, hargs])
  | any | var =>
      refine ⟨rfl, fun m hm => ?_⟩
      simp only [canonical, constituents, constituentsAll, List.append_nil, List.cons_append,
        List.nil_append, List.mem_cons, List.not_mem_nil, or_false] at hm
      rcases hm with rfl | rfl <;> rfl
  | nothing => exact ⟨rfl, fun m hm => absurd hm List.not_mem_nil⟩
  | _ => exact ⟨rfl, fun m hm => by rw [List.mem_singleton.1 hm]; rfl⟩

/-- Normalising twice is normalising once. -/
theorem canonical_canonical (t : Ty) : t.canonical.canonical = t.canonical :=
  t.canonical_canonical_and_constituents.1

end Ty

end Fallible
