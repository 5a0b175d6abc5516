import Fallible.Proofs.Restriction
import Fallible.Proofs.Valuations

/-!
# The errors of the two branches

A type stands for a set of errors once its variables are taken to hold something.
Where a test for some classifiers failed, the errors are those of the type that the
test did not ask for, and where it succeeded they are those that it did. Neither
narrowing may lose one of them, whatever the variables hold.

Excluding does not, because a constituent that it drops stands for nothing but
excluded classifiers: it names one, or its bound allows no other. Restricting does
not, because a constituent stands only for what it names or may hold. Restricting
also lists no more than that: what a constituent may hold, it does hold under a
valuation that gives it just this classifier.
-/

namespace Fallible

open Grammar (MayHold Names)

namespace Ty

/-! ## The errors of a type -/

mutual

/-- The errors of a type, by number, under a valuation. -/
def errors (ρ : Valuation) : Ty → Set Int
  | .any | .error => Set.univ
  | .errorConst c _ => {c.id}
  | .errorVar v => ρ.holds v
  | .var name flexible => ρ.holds (.ofTyVar name flexible)
  | .union ms => errorsAll ρ ms
  | _ => ∅

/-- The errors of several types. -/
def errorsAll (ρ : Valuation) : List Ty → Set Int
  | [] => ∅
  | m :: ms => errors ρ m ∪ errorsAll ρ ms

end

variable {ρ : Valuation} {i : Int}

theorem mem_errorsAll {ms : List Ty} : i ∈ errorsAll ρ ms ↔ ∃ m ∈ ms, i ∈ m.errors ρ := by
  induction ms with
  | nil => simp [errorsAll]
  | cons m ms ih => simp [errorsAll, ih]

/-- The errors of a type are those of its constituents. -/
theorem mem_errors {t : Ty} : i ∈ t.errors ρ ↔ ∃ m ∈ t.constituents, i ∈ m.errors ρ := by
  induction t with
  | union ms ih =>
      rw [errors, mem_errorsAll]
      constructor
      · rintro ⟨x, hx, hi⟩
        obtain ⟨m, hm, hi⟩ := (ih x hx).1 hi
        exact ⟨m, mem_constituents_union.2 ⟨x, hx, hm⟩, hi⟩
      · rintro ⟨m, hm, hi⟩
        obtain ⟨x, hx, hm⟩ := mem_constituents_union.1 hm
        exact ⟨x, hx, (ih x hx).2 ⟨m, hm, hi⟩⟩
  | _ => simp [constituents, errors]

/-- The errors of a type do not depend on how classifiers are spelt. -/
theorem errors_bare (t : Ty) : t.bare.errors ρ = t.errors ρ := by
  induction t with
  | union ms ih =>
      ext i
      rw [bare, errors, errors, bareAll_eq_map, mem_errorsAll, mem_errorsAll]
      simp only [List.mem_map, exists_exists_and_eq_and]
      exact exists_congr fun m => and_congr_right fun hm => by rw [ih m hm]
  | errorVar v => exact ρ.congr (ErrorVar.beq_iff_bare.2 v.bare_bare)
  | _ => rfl

theorem errors_congr {x y : Ty} (h : (x == y) = true) : x.errors ρ = y.errors ρ := by
  rw [← errors_bare x, beq_iff.1 h, errors_bare]

theorem errors_canonical_of_mem {t x : Ty} (hx : x ∈ t.constituents) :
    x.canonical.errors ρ = x.errors ρ := by
  cases x with
  | union ms => rcases member_cases hx with h | h | h <;> cases h
  | var => rcases member_cases hx with h | h | h <;> cases h
  | _ => rfl

/-- Normalising keeps the errors of a type. -/
theorem errors_of_canonical {t : Ty} (h : t.failed = false) :
    t.canonical.errors ρ = t.errors ρ := by
  ext i
  rw [mem_errors, mem_errors (t := t)]
  constructor
  · rintro ⟨m, hm, hi⟩
    obtain ⟨x, hx, rfl⟩ := mem_canonical hm
    exact ⟨x, hx, errors_canonical_of_mem hx ▸ hi⟩
  · rintro ⟨m, hm, hi⟩
    obtain ⟨x, hx, hxm⟩ := exists_mem_canonical h hm
    refine ⟨x, hx, ?_⟩
    rw [errors_congr hxm, errors_canonical_of_mem hm]
    exact hi

/-! ## What a constituent stands for -/

/-- A constituent stands for the classifiers that it names or may hold, and for no others. -/
theorem exists_mem_errors_iff {t m : Ty} (hm : m ∈ t.constituents) :
    (∃ ρ, i ∈ m.errors ρ) ↔ Names i m ∨ MayHold m i := by
  -- Any record with the number will do to ask what a bound allows.
  have hmay := Grammar.mayHold_iff (m := m) (c := ⟨i, [], "", [], none⟩)
  cases m with
  | error => exact iff_of_true ⟨.nothing, Set.mem_univ i⟩ (Or.inr (.error i))
  | errorConst c args =>
      constructor
      · rintro ⟨ρ, hi⟩
        exact Or.inl ⟨c, args, rfl, hi.symm⟩
      · rintro (⟨d, bs, he, hid⟩ | hhold)
        · cases he
          exact ⟨.nothing, hid.symm⟩
        · cases hhold
  | errorVar v =>
      constructor
      · rintro ⟨ρ, hi⟩
        exact Or.inr (hmay.2 ⟨rfl, ρ.within (c := ⟨i, [], "", [], none⟩) hi⟩)
      · rintro (⟨d, bs, he, -⟩ | hhold)
        · cases he
        · exact ⟨.only v ⟨i, [], "", [], none⟩ (hmay.1 hhold).2, BEq.rfl, rfl⟩
  | union ms => rcases member_cases hm with h | h | h <;> cases h
  | any | var => rcases member_cases hm with h | h | h <;> cases h
  | _ =>
      refine iff_of_false (fun h => ?_) fun h => ?_
      · obtain ⟨ρ, hi⟩ := h
        exact Set.notMem_empty i hi
      · rcases h with ⟨d, bs, he, -⟩ | hhold
        · cases he
        · cases hhold

end Ty

namespace Narrowing

variable {t : Ty} {cs : List Classifier} {ρ : Valuation}

/-! ## The branch where the test failed -/

/-- What is dropped stands for excluded classifiers only. -/
theorem errors_subset_of_isExcluded {m : Ty} (h : isExcluded cs m = true) :
    m.errors ρ ⊆ numbers cs := by
  intro i hi
  cases m with
  | errorConst c args =>
      obtain rfl : i = c.id := hi
      rw [isExcluded, contains_eq_decide] at h
      exact of_decide_eq_true h
  | errorVar v =>
      obtain ⟨name, bound, flexible⟩ := v
      cases bound with
      | unbounded => cases h
      | bounded a =>
          have hin : a.members.contains ⟨i, [], "", [], none⟩ = true :=
            ρ.within (c := ⟨i, [], "", [], none⟩) hi
          obtain ⟨d, hd, hid⟩ := List.contains_iff_exists_mem_beq.1 hin
          have hdropped := List.all_eq_true.1 h d hd
          rw [contains_eq_decide, ← Classifier.beq_iff.1 hid] at hdropped
          exact of_decide_eq_true hdropped
  | _ => cases h

theorem mem_errors_exclude (h : t.failed = false) {i : Int} : i ∈ (exclude t cs).errors ρ ↔
    ∃ m ∈ t.canonical.constituents, isExcluded cs m = false ∧ i ∈ m.errors ρ := by
  rw [Ty.mem_errors, constituents_exclude h]
  simp only [List.mem_filter, Bool.not_eq_true', and_assoc]

theorem errors_exclude_subset (h : t.failed = false) : (exclude t cs).errors ρ ⊆ t.errors ρ := by
  intro i hi
  obtain ⟨m, hm, -, hi⟩ := (mem_errors_exclude h).1 hi
  rw [← Ty.errors_of_canonical h]
  exact Ty.mem_errors.2 ⟨m, hm, hi⟩

theorem errors_diff_subset (h : t.failed = false) :
    t.errors ρ \ numbers cs ⊆ (exclude t cs).errors ρ := by
  rintro i ⟨hi, hout⟩
  rw [← Ty.errors_of_canonical h] at hi
  obtain ⟨m, hm, hi⟩ := Ty.mem_errors.1 hi
  refine (mem_errors_exclude h).2 ⟨m, hm, Bool.eq_false_iff.2 fun hex => hout ?_, hi⟩
  exact errors_subset_of_isExcluded hex hi

/-! ## The branch where it succeeded -/

theorem errors_inter_subset (h : t.failed = false) :
    t.errors ρ ∩ numbers cs ⊆ (restrict t cs).errors ρ := by
  rintro i ⟨hi, hin⟩
  obtain ⟨m, hm, hi⟩ := Ty.mem_errors.1 hi
  obtain ⟨c, args, hc, rfl⟩ :=
    exists_mem_restrict h hin hm ((Ty.exists_mem_errors_iff hm).1 ⟨ρ, hi⟩)
  exact Ty.mem_errors.2 ⟨_, hc, rfl⟩

/-- The numbers of the classifiers that a type lists, in written order. -/
def listing (t : Ty) : List Int := (Grammar.constants t.constituents).map Classifier.id

theorem mem_listing {i : Int} : i ∈ listing t ↔ ∃ c args, .errorConst c args ∈ t.constituents ∧
    c.id = i := by
  simp only [listing, Grammar.constants, List.mem_map, List.mem_filterMap]
  constructor
  · rintro ⟨c, ⟨m, hm, hc⟩, hid⟩
    cases m with
    | errorConst d args => cases hc; exact ⟨c, args, hm, hid⟩
    | _ => cases hc
  · rintro ⟨c, args, hm, hid⟩
    exact ⟨c, ⟨_, hm, rfl⟩, hid⟩

/-- Restricting lists what was asked for and can occur. -/
theorem mem_listing_restrict (h : t.failed = false) {i : Int} :
    i ∈ listing (restrict t cs) ↔ i ∈ numbers cs ∧ ∃ ρ, i ∈ t.errors ρ := by
  have hcarries : (∃ ρ, i ∈ t.errors ρ) ↔ ∃ m ∈ t.constituents, Names i m ∨ MayHold m i := by
    simp only [Ty.mem_errors (t := t)]
    constructor
    · rintro ⟨ρ, m, hm, hi⟩
      exact ⟨m, hm, (Ty.exists_mem_errors_iff hm).1 ⟨ρ, hi⟩⟩
    · rintro ⟨m, hm, hcarries⟩
      obtain ⟨ρ, hi⟩ := (Ty.exists_mem_errors_iff hm).2 hcarries
      exact ⟨ρ, m, hm, hi⟩
  rw [hcarries, mem_listing]
  constructor
  · rintro ⟨c, args, hm, rfl⟩
    obtain ⟨d, bs, he, hin, hlisted⟩ := listed_of_restrict h hm
    cases he
    refine ⟨hin, ?_⟩
    cases hlisted with
    | named _ hmem => exact ⟨_, hmem, Or.inl ⟨c, bs, rfl, rfl⟩⟩
    | carried m _ hmem hhold => exact ⟨m, hmem, Or.inr hhold⟩
  · rintro ⟨hin, m, hm, hcarries⟩
    exact exists_mem_restrict h hin hm hcarries

/-! ## The main statement -/

/-- Neither branch loses an error. Whatever the variables hold, excluding leaves every
error that was not asked for and invents none, and restricting leaves every error that
was. Excluding keeps the value. Restricting leaves constants alone, one for each
classifier that was asked for and that the type can hold. -/
theorem narrowing_exact (h : .erroneous ∉ t.constituents) (cs : List Classifier) :
    (∀ ρ, t.errors ρ \ numbers cs ⊆ (exclude t cs).errors ρ ∧
      (exclude t cs).errors ρ ⊆ t.errors ρ ∧ t.errors ρ ∩ numbers cs ⊆ (restrict t cs).errors ρ) ∧
    (exclude t cs).valuePart = t.valuePart.canonical ∧ (restrict t cs).valuePart = .nothing ∧
    (∀ m ∈ (restrict t cs).constituents, ∃ c args, m = .errorConst c args) ∧
    (listing (restrict t cs)).Nodup ∧
    ∀ i, i ∈ listing (restrict t cs) ↔ i ∈ numbers cs ∧ ∃ ρ, i ∈ t.errors ρ := by
  have hf : t.failed = false := Bool.eq_false_iff.2 fun hf => h (Ty.failed_iff.1 hf)
  refine ⟨fun ρ => ⟨errors_diff_subset hf, errors_exclude_subset hf, errors_inter_subset hf⟩,
    valuePart_exclude hf cs, ?_, fun m hm => ?_, ?_, fun i => mem_listing_restrict hf⟩
  · rw [Ty.valuePart_of_not_failed ((failed_restrict t cs).trans hf), find?_isValue_restrict hf]
    rfl
  · obtain ⟨c, args, hm, -⟩ := listed_of_restrict hf hm
    exact ⟨c, _, hm⟩
  · exact List.pairwise_map.2 (unrepeated_restrict t cs)

/-- A variable over the first two classifiers, beside a value and a nested union with
the third, which has an argument. -/
def carryingWays : Ty :=
  .union [.errorVar ⟨"X", .bounded (.of "AB" (threeWays.take 2)), false⟩, .con (.named "Int") [],
    .union [.errorConst ⟨2, [], "C", [.covariant], some 0⟩ [.con (.host .bool) []], .nothing]]

/-- Asked for are the first classifier, which the variable can hold, the third, which is
named, and one that cannot occur. -/
def askedFor : List Classifier := [⟨7, [], "D", [], some 0⟩, ⟨2, [], "C", [], some 0⟩,
  ⟨0, [], "A", [], some 0⟩, ⟨2, [], "C", [], some 0⟩]

/-- Excluding drops the constant and keeps the variable, which can hold the second
classifier. -/
theorem narrowing_carryingWays :
    .erroneous ∉ carryingWays.constituents ∧
      exclude carryingWays askedFor = .union [.con (.named "Int") [],
        .errorVar ⟨"X", .bounded (.of "AB" (threeWays.take 2)), false⟩] ∧
      restrict carryingWays askedFor = .union [.errorConst ⟨0, [], "A", [], some 0⟩ [],
        .errorConst ⟨2, [], "C", [.covariant], some 0⟩ [.con (.host .bool) []]] ∧
      (∀ ρ, carryingWays.errors ρ \ numbers askedFor ⊆ (exclude carryingWays askedFor).errors ρ ∧
        carryingWays.errors ρ ∩ numbers askedFor ⊆ (restrict carryingWays askedFor).errors ρ) ∧
      (exclude carryingWays askedFor).valuePart = .con (.named "Int") [] ∧
      listing (restrict carryingWays askedFor) = [0, 2] ∧
      (∃ ρ, 0 ∈ carryingWays.errors ρ) ∧ ¬ ∃ ρ, 7 ∈ carryingWays.errors ρ := by
  have hsound : .erroneous ∉ carryingWays.constituents :=
    fun h => absurd (Ty.failed_iff.2 h) (by decide)
  obtain ⟨herrors, hvalue, -, -, -, hlisting⟩ := narrowing_exact hsound askedFor
  refine ⟨hsound, rfl, rfl, fun ρ => ⟨(herrors ρ).1, (herrors ρ).2.2⟩, hvalue, rfl,
    ((hlisting 0).1 (by decide)).2, fun h => ?_⟩
  exact absurd ((hlisting 7).2 ⟨by decide, h⟩) (by decide)

end Narrowing

end Fallible
