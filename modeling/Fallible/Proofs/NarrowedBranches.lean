import Fallible.Proofs.Joins
import Fallible.Proofs.Restriction

/-!
# The two branches cover the type

Narrowing and comparing are separate algorithms, but they fit together. A type covers
what is left of it when classifiers are excluded, and the union of what is excluded
and what is restricted covers the type.

The first half needs little, since nothing but constituents is dropped. In the second
half a constant is found in one branch or the other, with its arguments normalised.
Where no union names a classifier twice, normalising a type changes no verdict about it,
so those arguments can be taken for the written ones. A variable that was dropped is in
neither branch. But then all of its alias was asked for, the other branch lists the
whole of it, and whoever lists the alias covers a rigid variable. A flexible one would
have to be there itself, so no flexible variable may be bounded.
-/

namespace Fallible.Narrowing

open Grammar (MayHold)

variable {t : Ty} {cs : List Classifier}

/-! ## Naming classifiers once -/

theorem namesOnce_exclude (h : t.NamesOnce) (cs : List Classifier) : (exclude t cs).NamesOnce := by
  cases hf : t.failed with
  | true => rw [exclude_of_failed hf]; exact Ty.namesOnce_of_single rfl rfl
  | false =>
      refine Ty.namesOnce_of_constituents ?_ fun m hm => ?_
      · rw [Ty.unrepeated_iff, constituents_exclude hf]
        exact (Ty.unrepeated_iff.1 h.canonical.top).filter _
      · rw [constituents_exclude hf] at hm
        exact h.canonical.of_mem_constituents (List.mem_filter.1 hm).1

theorem namesOnce_restrict (h : t.NamesOnce) (cs : List Classifier) :
    (restrict t cs).NamesOnce := by
  cases hf : t.failed with
  | true => rw [restrict_of_failed hf]; exact Ty.namesOnce_of_single rfl rfl
  | false =>
      refine Ty.namesOnce_of_constituents (unrepeated_restrict t cs) fun m hm => ?_
      obtain ⟨c, args, rfl, -, hlisted⟩ := listed_of_restrict hf hm
      cases hlisted with
      | named _ hmem =>
          have hcanonical := (h.of_mem_constituents hmem).canonical
          rw [Ty.canonical, Ty.canonicalAll_eq_map] at hcanonical
          exact hcanonical
      | carried => exact Ty.namesOnce_of_single rfl rfl

/-- What is left when classifiers are excluded names none of them. -/
theorem not_mem_numbers_of_exclude (hf : t.failed = false) {c : Classifier} {args : List Ty}
    (h : .errorConst c args ∈ (exclude t cs).constituents) : c.id ∉ numbers cs := by
  rw [constituents_exclude hf] at h
  have hkept := (List.mem_filter.1 h).2
  rw [isExcluded, contains_eq_decide, Bool.not_eq_true'] at hkept
  exact of_decide_eq_false hkept

theorem namesOnce_branches (h : t.NamesOnce) (hf : t.failed = false) (cs : List Classifier) :
    (Ty.unionOf [exclude t cs, restrict t cs]).NamesOnce := by
  have hsides := constituents_unionOf_pair (exclude t cs) (restrict t cs)
  refine Ty.namesOnce_of_constituents ?_ fun m hm => ?_
  · rw [Ty.unrepeated_iff, hsides, List.pairwise_append]
    refine ⟨Ty.unrepeated_iff.1 (namesOnce_exclude h cs).top,
      Ty.unrepeated_iff.1 (unrepeated_restrict t cs), fun x hx y hy c as hc d bs hd hid => ?_⟩
    subst hc
    subst hd
    obtain ⟨e, args, he, hin, -⟩ := listed_of_restrict hf hy
    cases he
    exact not_mem_numbers_of_exclude hf hx (hid ▸ hin)
  · rw [hsides, List.mem_append] at hm
    exact hm.elim (namesOnce_exclude h cs).of_mem_constituents
      (namesOnce_restrict h cs).of_mem_constituents

/-! ## Below the type -/

/-- A type covers what is left of it when classifiers are excluded. -/
theorem isSubtype_exclude (h : t.NamesOnce) (cs : List Classifier) :
    isSubtype .classes t (exclude t cs) = true := by
  rw [← isSubtype_canonical_left h (namesOnce_exclude h cs), isSubtype_iff, Ty.failed_canonical]
  cases hf : t.failed with
  | true => exact Or.inl rfl
  | false =>
      refine Or.inr (Or.inr ⟨?_, ?_⟩)
      · rw [valuePart_exclude hf, Ty.valuePart_canonical hf]
        exact .same BEq.rfl
      · refine errorsHold_of_errorPart (namesOnce_exclude h cs).top h.canonical.top
          fun m hm => Or.inl ?_
        rw [Ty.errorPart, constituents_exclude hf] at hm
        exact (List.filter_sublist.filter _).subset hm

/-! ## Above the type -/

/-- Restricting lists a constant that the type has, normalised. -/
theorem errorConst_mem_restrict (h : t.Unrepeated) (hf : t.failed = false) {c : Classifier}
    {args : List Ty} (hc : .errorConst c args ∈ t.constituents) (hin : c.id ∈ numbers cs) :
    .errorConst c (args.map Ty.canonical) ∈ (restrict t cs).constituents := by
  obtain ⟨d, bs, hd, hid⟩ := exists_mem_restrict hf hin hc (Or.inl ⟨c, args, rfl, rfl⟩)
  obtain ⟨e, as, he, -, hlisted⟩ := listed_of_restrict hf hd
  cases he
  cases hlisted with
  | named _ hmem =>
      cases h.eq hc hmem hid.symm
      exact hd
  | carried m unnamed => exact absurd ⟨c, args, rfl, hid.symm⟩ (unnamed _ hc)

/-- The branch that was asked for lists the alias of a variable that was dropped. -/
theorem coveredByAlias_of_isExcluded (hf : t.failed = false) {v : ErrorVar}
    (hv : .errorVar v ∈ t.constituents) (h : isExcluded cs (.errorVar v) = true) :
    View.coveredByAlias (View.interpretWith .empty
      (.unionOf [exclude t cs, restrict t cs])).known (.var v) = true := by
  obtain ⟨name, bound, flexible⟩ := v
  cases bound with
  | unbounded => cases h
  | bounded a =>
      refine List.all_eq_true.2 fun c hc => ?_
      have hin : c.id ∈ numbers cs := by
        have hdropped := List.all_eq_true.1 h c hc
        rw [contains_eq_decide] at hdropped
        exact of_decide_eq_true hdropped
      obtain ⟨d, args, hd, hid⟩ :=
        exists_mem_restrict hf hin hv (Or.inr (.bounded _ a c rfl hc))
      rw [View.contains_interpretWith, List.any_eq_true]
      refine ⟨.errorConst d args, List.mem_filter.2 ⟨?_, rfl⟩, Classifier.beq_iff.2 hid⟩
      rw [constituents_unionOf_pair]
      exact List.mem_append_right _ hd

theorem valuePart_branches (hf : t.failed = false) (cs : List Classifier) :
    (Ty.unionOf [exclude t cs, restrict t cs]).valuePart = t.valuePart.canonical := by
  have hsides := constituents_unionOf_pair (exclude t cs) (restrict t cs)
  have hsound : (Ty.unionOf [exclude t cs, restrict t cs]).failed = false := by
    rw [failed_of_sides hsides, failed_exclude, failed_restrict, hf]
    rfl
  rw [← valuePart_exclude hf cs, Ty.valuePart_of_not_failed hsound, hsides, List.find?_append,
    find?_isValue_restrict hf, Option.or_none,
    ← Ty.valuePart_of_not_failed ((failed_exclude t cs).trans hf)]

/-- Every error of a type is in one of the branches, unless it is a rigid variable whose
alias is. -/
theorem errorPart_branches (h : t.NamesOnce) (hf : t.failed = false)
    (hflexible : ∀ v, .errorVar v ∈ t.errorPart → v.flexible = true → v.bound = .unbounded)
    {m : Ty} (hm : m ∈ t.canonical.errorPart) :
    m ∈ (Ty.unionOf [exclude t cs, restrict t cs]).errorPart ∨
      ∃ v, m = .errorVar v ∧ v.flexible = false ∧ View.coveredByAlias (View.interpretWith .empty
        (.unionOf [exclude t cs, restrict t cs])).known (.var v) = true := by
  have hsides := constituents_unionOf_pair (exclude t cs) (restrict t cs)
  obtain ⟨hmem, herror⟩ := List.mem_filter.1 hm
  cases hex : isExcluded cs m with
  | false =>
      refine Or.inl (List.mem_filter.2 ⟨?_, herror⟩)
      rw [hsides, constituents_exclude hf]
      exact List.mem_append_left _ (List.mem_filter.2 ⟨hmem, by rw [hex]; rfl⟩)
  | true =>
      cases m with
      | errorConst c args =>
          obtain ⟨xs, hxs, rfl⟩ := Ty.mem_constants_canonical hmem
          rw [isExcluded, contains_eq_decide] at hex
          refine Or.inl (List.mem_filter.2 ⟨?_, rfl⟩)
          rw [hsides]
          exact List.mem_append_right _
            (errorConst_mem_restrict h.top hf hxs (of_decide_eq_true hex))
      | errorVar v =>
          have hv := Ty.errorVar_mem_of_canonical hmem
          refine Or.inr ⟨v, rfl, Bool.eq_false_iff.2 fun hflex => ?_,
            coveredByAlias_of_isExcluded hf hv hex⟩
          -- A flexible variable has no bound, and such a variable is not dropped.
          rw [isExcluded, hflexible v (List.mem_filter.2 ⟨hv, rfl⟩) hflex] at hex
          cases hex
      | _ => cases hex

/-- The two branches cover a type that names classifiers once and whose flexible error
variables have no bound. -/
theorem isSubtype_branches (h : t.NamesOnce)
    (hflexible : ∀ v, .errorVar v ∈ t.errorPart → v.flexible = true → v.bound = .unbounded)
    (cs : List Classifier) :
    isSubtype .classes (.unionOf [exclude t cs, restrict t cs]) t = true := by
  cases hf : t.failed with
  | true => rw [isSubtype_iff]; exact Or.inr (Or.inl hf)
  | false =>
      have hbranches := namesOnce_branches h hf cs
      rw [← isSubtype_canonical_right hbranches h, isSubtype_iff]
      refine Or.inr (Or.inr ⟨?_, ?_⟩)
      · rw [valuePart_branches hf, Ty.valuePart_canonical hf]
        exact .same BEq.rfl
      · exact errorsHold_of_errorPart h.canonical.top hbranches.top
          fun m hm => errorPart_branches h hf hflexible hm

/-- A type that names classifiers once covers what is left of it when some are excluded.
If its flexible error variables have no bound, the two branches together cover it. -/
theorem branches_cover_type (h : t.NamesOnce)
    (hflexible : ∀ v, .errorVar v ∈ t.errorPart → v.flexible = true → v.bound = .unbounded)
    (cs : List Classifier) :
    isSubtype .classes t (exclude t cs) = true ∧
      isSubtype .classes (.unionOf [exclude t cs, restrict t cs]) t = true :=
  ⟨isSubtype_exclude h cs, isSubtype_branches h hflexible cs⟩

/-- A rigid variable over the first two classifiers and a flexible one without bound,
beside a constant with an argument that is not normalised. -/
def boundedAndOpen : Ty :=
  .union [.errorVar ⟨"X", .bounded (.of "AB" (threeWays.take 2)), false⟩,
    .errorVar ⟨"E", .unbounded, true⟩, .con (.named "Int") [],
    .errorConst ⟨2, [], "C", [.contravariant], some 0⟩ [.union [.nothing, .con (.host .int) []]]]

/-- The rigid variable is in neither branch. The second has the constant, and two more for
what the variable can hold. -/
theorem branches_cover_boundedAndOpen :
    boundedAndOpen.NamesOnce ∧
      exclude boundedAndOpen threeWays = .union [.con (.named "Int") [],
        .errorVar ⟨"E", .unbounded, true⟩] ∧
      restrict boundedAndOpen threeWays = .union [.errorConst ⟨0, [], "A", [], some 0⟩ [],
        .errorConst ⟨1, [], "B", [], some 0⟩ [],
        .errorConst ⟨2, [], "C", [.contravariant], some 0⟩ [.con (.host .int) []]] ∧
      isSubtype .classes boundedAndOpen (exclude boundedAndOpen threeWays) = true ∧
      isSubtype .classes (.unionOf [exclude boundedAndOpen threeWays,
        restrict boundedAndOpen threeWays]) boundedAndOpen = true := by
  have honce : boundedAndOpen.NamesOnce := by decide
  refine ⟨honce, rfl, rfl, branches_cover_type honce (fun v hv hflex => ?_) threeWays⟩
  have hpart : boundedAndOpen.errorPart =
      [.errorVar ⟨"X", .bounded (.of "AB" (threeWays.take 2)), false⟩,
        .errorVar ⟨"E", .unbounded, true⟩,
        .errorConst ⟨2, [], "C", [.contravariant], some 0⟩
          [.union [.nothing, .con (.host .int) []]]] := rfl
  rw [hpart] at hv
  simp only [List.mem_cons, List.not_mem_nil, or_false, Ty.errorVar.injEq, reduceCtorEq] at hv
  rcases hv with rfl | rfl
  · cases hflex
  · rfl

end Fallible.Narrowing
