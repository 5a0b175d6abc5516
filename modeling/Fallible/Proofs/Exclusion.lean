import Fallible.Narrowing
import Fallible.Proofs.Kinds
import Fallible.Proofs.NormalTypes
import Mathlib.Data.Finset.Dedup

/-!
# What is left when classifiers are excluded

Excluding drops constituents as they were written and normalises what is left. It
could as well normalise first: a constituent is dropped for the classifier that it
names or for the bound that it has, and normalising changes neither. Nor do
dropping and listing interfere, since what is dropped goes with everything that is
equal to it, and a stable sort lists what is left as it did before.

So the result is read off the canonical form, constituent by constituent. A second
exclusion finds a canonical form already and drops constituents from that, and after
any number of exclusions what is left has escaped each of them. The order of the
exclusions and their repetition leave no trace.
-/

namespace Fallible

/-- Listing and dropping elements can be done in either order. -/
theorem sortOn_filter {α : Type} {key : α → SortKey} (p : α → Bool) (xs : List α) :
    sortOn key (xs.filter p) = (sortOn key xs).filter p := by
  refine eq_of_filter_key (sortOn_pairwise key _) ((sortOn_pairwise key xs).filter p) fun k => ?_
  rw [filter_sortOn, List.filter_comm, List.filter_comm _ p, filter_sortOn]

namespace Narrowing

/-! ## Dropping constituents -/

/-- The numbers of some classifiers. -/
def numbers (cs : List Classifier) : Finset Int := (cs.map Classifier.id).toFinset

theorem contains_eq_decide (cs : List Classifier) (c : Classifier) :
    cs.contains c = decide (c.id ∈ numbers cs) := by
  rw [Bool.eq_iff_iff, Grammar.contains_iff_id_mem, numbers, decide_eq_true_iff, List.mem_toFinset]

/-- What is dropped depends on the numbers of the classifiers only. -/
theorem isExcluded_of_numbers {cs ds : List Classifier} (h : numbers cs = numbers ds) :
    isExcluded cs = isExcluded ds := by
  have hcontains : cs.contains = ds.contains := by
    funext c
    rw [contains_eq_decide, contains_eq_decide, h]
  funext m
  cases m with
  | errorConst c args => exact congrFun hcontains c
  | errorVar v => simp only [isExcluded, hcontains]
  | _ => rfl

variable {dropped : List Classifier}

theorem isExcluded_congr {x y : Ty} (h : (x == y) = true) :
    isExcluded dropped x = isExcluded dropped y := by
  have hcontains : ∀ c : Classifier, dropped.contains c.bare = dropped.contains c := by
    intro c
    rw [contains_eq_decide, contains_eq_decide]
    rfl
  have hbare : ∀ t : Ty, isExcluded dropped t.bare = isExcluded dropped t := by
    intro t
    cases t with
    | errorConst c args => exact hcontains c
    | errorVar v =>
        obtain ⟨name, bound, flexible⟩ := v
        cases bound with
        | unbounded => rfl
        | bounded a =>
            show (a.members.map Classifier.bare).all dropped.contains =
              a.members.all dropped.contains
            rw [List.all_map]
            exact congrArg _ (funext hcontains)
    | _ => rfl
  rw [← hbare x, Ty.beq_iff.1 h, hbare]

theorem isExcluded_canonical {t x : Ty} (hx : x ∈ t.constituents) :
    isExcluded dropped x.canonical = isExcluded dropped x := by
  cases x with
  | union ms => rcases Ty.member_cases hx with h | h | h <;> cases h
  | _ => rfl

/-- No value is dropped. -/
theorem isExcluded_of_isValue {m : Ty} (h : m.isValue = true) : isExcluded dropped m = false := by
  cases m <;> first | rfl | cases h

/-! ## One exclusion -/

section Exclude

variable {t : Ty}

theorem exclude_eq (t : Ty) (dropped : List Classifier) :
    exclude t dropped = Ty.ofConstituents
      ((t.constituents.map Ty.canonical).filter fun m => !isExcluded dropped m) := by
  have hopen : (Ty.union (t.constituents.filter fun m => !isExcluded dropped m)).constituents =
      t.constituents.filter fun m => !isExcluded dropped m :=
    Ty.constituentsAll_of_listed fun m hm => Ty.constituents_of_mem (List.mem_filter.1 hm).1
  rw [exclude, Ty.canonical_union, hopen, List.filter_map]
  refine congrArg (fun ms : List Ty => Ty.ofConstituents (ms.map Ty.canonical)) ?_
  refine List.filter_congr fun m hm => ?_
  rw [Function.comp_apply, isExcluded_canonical hm]

/-- The mark of a failed check is never dropped. -/
theorem exclude_of_failed (h : t.failed = true) (dropped : List Classifier) :
    exclude t dropped = .erroneous := by
  have hmem : .erroneous ∈ t.constituents := Ty.failed_iff.1 h
  rw [exclude_eq, Ty.ofConstituents, if_pos]
  refine List.any_eq_true.2 ⟨.erroneous, List.mem_filter.2 ⟨?_, rfl⟩, rfl⟩
  exact List.mem_map.2 ⟨.erroneous, hmem, rfl⟩

/-- Excluding drops constituents of the canonical form. -/
theorem exclude_of_sound (h : t.failed = false) (dropped : List Classifier) : exclude t dropped =
    Ty.ofListed (t.canonical.constituents.filter fun m => !isExcluded dropped m) := by
  have hno : ((t.constituents.map Ty.canonical).filter fun m => !isExcluded dropped m).any
      Ty.isErroneous = false := by
    have hall := (Ty.any_erroneous_map_canonical t).trans h
    rw [List.any_eq_false] at hall ⊢
    exact fun m hm => hall m (List.mem_filter.1 hm).1
  have hcongr : ∀ x y : Ty, (x == y) = true → (!isExcluded dropped x) = !isExcluded dropped y :=
    fun x y hxy => by rw [isExcluded_congr hxy]
  rw [exclude_eq, Ty.ofConstituents, hno, if_neg Bool.false_ne_true, ← filter_distinct hcongr,
    sortOn_filter, ← Ty.constituents_canonical_of_sound h]

theorem constituents_exclude (h : t.failed = false) (dropped : List Classifier) :
    (exclude t dropped).constituents =
      t.canonical.constituents.filter fun m => !isExcluded dropped m := by
  rw [exclude_of_sound h]
  exact Ty.constituents_ofListed fun m hm => Ty.constituents_of_mem (List.mem_filter.1 hm).1

theorem failed_exclude (t : Ty) (dropped : List Classifier) :
    (exclude t dropped).failed = t.failed := by
  cases h : t.failed with
  | true => rw [exclude_of_failed h]; rfl
  | false =>
      have hall : t.canonical.constituents.any Ty.isErroneous = false := by
        rw [Ty.any_erroneous_canonical, ← Ty.failed_eq, h]
      rw [Ty.failed_eq, constituents_exclude h]
      rw [List.any_eq_false] at hall ⊢
      exact fun m hm => hall m (List.mem_filter.1 hm).1

theorem valuePart_exclude (h : t.failed = false) (dropped : List Classifier) :
    (exclude t dropped).valuePart = t.valuePart.canonical := by
  have hvalue : ∀ m ∈ t.canonical.constituents,
      decide ((!isExcluded dropped m) = true ∧ m.isValue = true) = m.isValue := by
    intro m _
    cases hm : m.isValue with
    | false => simp
    | true => rw [isExcluded_of_isValue hm]; rfl
  rw [Ty.valuePart_of_not_failed ((failed_exclude t dropped).trans h), constituents_exclude h,
    List.find?_filter, List.find?_congr hvalue,
    ← Ty.valuePart_of_not_failed ((Ty.failed_canonical t).trans h), Ty.valuePart_canonical h]

theorem canonical_exclude (t : Ty) (dropped : List Classifier) :
    (exclude t dropped).canonical = exclude t dropped :=
  Ty.canonical_canonical _

theorem proper_exclude (h : Grammar.Proper t.constituents) (dropped : List Classifier) :
    Grammar.Proper (exclude t dropped).constituents := by
  cases hf : t.failed with
  | true => rw [exclude_of_failed hf]; exact .singleton _
  | false =>
      rw [constituents_exclude hf]
      exact h.canonical.of_kinds (List.filter_sublist.map _)

end Exclude

/-! ## One exclusion after the other -/

/-- What is left after some exclusions are the constituents that escape each of them. -/
theorem foldl_exclude {t : Ty} (h : t.failed = false) (first : List Classifier)
    (later : List (List Classifier)) : (first :: later).foldl exclude t =
      Ty.ofListed (t.canonical.constituents.filter fun m =>
        (first :: later).all fun dropped => !isExcluded dropped m) := by
  induction later generalizing t first with
  | nil =>
      simp only [List.foldl_cons, List.foldl_nil, List.all_cons, List.all_nil, Bool.and_true]
      exact exclude_of_sound h first
  | cons second later ih =>
      rw [List.foldl_cons, ih ((failed_exclude t first).trans h) second, canonical_exclude,
        constituents_exclude h, List.filter_filter]
      refine congrArg Ty.ofListed (List.filter_congr fun m _ => ?_)
      rw [List.all_cons (a := first), Bool.and_comm]

theorem foldl_exclude_of_failed {t : Ty} (h : t.failed = true) (first : List Classifier)
    (later : List (List Classifier)) : (first :: later).foldl exclude t = .erroneous := by
  induction later generalizing t first with
  | nil => exact exclude_of_failed h first
  | cons second later ih => exact ih ((failed_exclude t first).trans h) second

/-- A constituent escapes two series of exclusions alike if the same sets occur in them. -/
theorem all_escape_of_same_sets {ks ls : List (List Classifier)}
    (h : (ks.map numbers).toFinset = (ls.map numbers).toFinset) (m : Ty) :
    (ks.all fun k => !isExcluded k m) = ls.all fun k => !isExcluded k m := by
  have himp : ∀ {ks ls : List (List Classifier)},
      (ks.map numbers).toFinset = (ls.map numbers).toFinset →
      (∀ k ∈ ks, (!isExcluded k m) = true) → ∀ l ∈ ls, (!isExcluded l m) = true := by
    intro ks ls h hks l hl
    have hin : numbers l ∈ (ks.map numbers).toFinset := by
      rw [h, List.mem_toFinset]
      exact List.mem_map_of_mem hl
    obtain ⟨k, hk, hkl⟩ := List.mem_map.1 (List.mem_toFinset.1 hin)
    rw [← isExcluded_of_numbers hkl]
    exact hks k hk
  rw [Bool.eq_iff_iff, List.all_eq_true, List.all_eq_true]
  exact ⟨himp h, himp h.symm⟩

/-- Two series of exclusions end in one type if the same sets of classifiers occur in
them, in whatever order and however often. -/
theorem exclusions_ignore_order_and_repetition (t : Ty) {ks ls : List (List Classifier)}
    (hne : ks ≠ []) (h : (ks.map numbers).toFinset = (ls.map numbers).toFinset) :
    ks.foldl exclude t = ls.foldl exclude t := by
  obtain ⟨k, ks, rfl⟩ := List.exists_cons_of_ne_nil hne
  cases ls with
  | nil =>
      have hin : numbers k ∈ ((k :: ks).map numbers).toFinset :=
        List.mem_toFinset.2 List.mem_cons_self
      rw [h] at hin
      exact absurd (List.mem_toFinset.1 hin) List.not_mem_nil
  | cons l ls =>
      cases hf : t.failed with
      | true => rw [foldl_exclude_of_failed hf, foldl_exclude_of_failed hf]
      | false =>
          rw [foldl_exclude hf, foldl_exclude hf]
          refine congrArg Ty.ofListed (List.filter_congr fun m _ => ?_)
          exact all_escape_of_same_sets h m

/-- Three classifiers. -/
def threeWays : List Classifier :=
  [⟨0, [], "A", [], some 0⟩, ⟨1, [], "B", [], some 0⟩, ⟨2, [], "C", [], some 0⟩]

/-- A variable that ranges over the first two classifiers, beside all three and a value,
out of order. -/
def mixedWays : Ty :=
  .union (.errorVar ⟨"X", .bounded (.of "AB" (threeWays.take 2)), false⟩ ::
    .con (.named "Int") [] :: threeWays.reverse.map fun c => .errorConst c [])

/-- The variable is dropped with the set of its two classifiers, wherever that stands. -/
theorem exclusions_from_mixedWays :
    ([threeWays.take 1, threeWays.take 2, threeWays.take 1].map numbers).toFinset =
        ([(threeWays.take 2).reverse, threeWays.take 1].map numbers).toFinset ∧
      [threeWays.take 1, threeWays.take 2, threeWays.take 1].foldl exclude mixedWays =
        [(threeWays.take 2).reverse, threeWays.take 1].foldl exclude mixedWays ∧
      exclude mixedWays (threeWays.take 1) ≠ exclude mixedWays (threeWays.take 2) := by
  have hsets : ([threeWays.take 1, threeWays.take 2, threeWays.take 1].map numbers).toFinset =
      ([(threeWays.take 2).reverse, threeWays.take 1].map numbers).toFinset := by decide
  refine ⟨hsets, exclusions_ignore_order_and_repetition mixedWays (List.cons_ne_nil _ _) hsets, ?_⟩
  intro h
  have hconstituents := congrArg (fun t => t.constituents.length) h
  exact absurd hconstituents (by decide)

end Narrowing

end Fallible
