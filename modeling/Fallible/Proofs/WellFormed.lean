import Fallible.Grammar
import Fallible.Proofs.Shape

/-!
# What the grammar asks of a union

The grammar is checked by listing violations. Read the other way round, a list
of constituents has none if at most the first is a value, no classifier stands
twice, and no two open constituents may hold the same classifier.
-/

namespace Fallible.Grammar

/-- Whether constituents obey the grammar. -/
structure Proper (flat : List Ty) : Prop where
  values : ∀ m ∈ flat.tail, m.isValue = false
  constants : (constants flat).Pairwise fun c d => c.id ≠ d.id
  disjoint : (flat.filter isOpen).Pairwise fun x y => overlap x y = false

theorem map_fst_filter_zipIdx {α : Type} (p : α → Bool) (l : List α) (k : Nat) :
    ((l.zipIdx k).filter fun m => p m.1).map Prod.fst = l.filter p := by
  conv => rhs; rw [← List.zipIdx_map_fst k l, List.filter_map]
  rfl

theorem valueViolations_eq_nil_iff {flat : List Ty} :
    valueViolations flat = [] ↔ ∀ m ∈ flat.tail, m.isValue = false := by
  cases flat with
  | nil => simp [valueViolations, values]
  | cons x xs =>
      have hlater : ∀ p ∈ (xs.zipIdx 1).filter fun m => m.1.isValue, p.2 ≠ 0 := by
        intro p hp
        have := List.le_snd_of_mem_zipIdx (List.mem_filter.1 hp).1
        omega
      have hnone : (xs.zipIdx 1).filter (fun m => m.1.isValue) = [] ↔
          ∀ m ∈ xs, m.isValue = false := by
        rw [← List.map_eq_nil_iff (f := Prod.fst), map_fst_filter_zipIdx, List.filter_eq_nil_iff]
        simp
      show valueViolations (x :: xs) = [] ↔ ∀ m ∈ xs, m.isValue = false
      rw [← hnone, valueViolations, values, List.zipIdx_cons, List.filter_cons]
      cases hvs : (xs.zipIdx 1).filter fun m => m.1.isValue with
      | nil => cases x.isValue <;> simp
      | cons p ps =>
          -- A value after the first place is misplaced, or one of several.
          obtain ⟨v, position⟩ := p
          have hp : position ≠ 0 := hlater (v, position) (by rw [hvs]; simp)
          cases x.isValue <;> cases ps <;> simp [hp]

/-- Classifiers are found by their numbers. -/
theorem contains_iff_id_mem {cs : List Classifier} {c : Classifier} :
    cs.contains c = true ↔ c.id ∈ cs.map Classifier.id := by
  rw [List.contains_iff_exists_mem_beq, List.mem_map]
  simp only [Classifier.beq_iff]
  exact exists_congr fun d => and_congr_right fun _ => eq_comm

theorem repeated_eq_nil_iff {seen cs : List Classifier} :
    repeated seen [] cs = [] ↔
      cs.Pairwise (fun c d => c.id ≠ d.id) ∧ ∀ c ∈ cs, ∀ d ∈ seen, d.id ≠ c.id := by
  induction cs generalizing seen with
  | nil => simp [repeated]
  | cons c cs ih =>
      have hseen : seen.contains c = true ↔ ∃ d ∈ seen, d.id = c.id :=
        contains_iff_id_mem.trans List.mem_map
      rw [repeated]
      cases hc : seen.contains c with
      | true =>
          obtain ⟨d, hd, hdc⟩ := hseen.1 hc
          simp only [List.contains_nil, Bool.not_false, Bool.and_true, if_true, reduceCtorEq,
            false_iff, not_and]
          exact fun _ hall => hall c (by simp) d hd hdc
      | false =>
          have hnot : ∀ d ∈ seen, d.id ≠ c.id := fun d hd hdc =>
            Bool.false_ne_true (hc.symm.trans (hseen.2 ⟨d, hd, hdc⟩))
          rw [if_neg (by simp), ih, List.pairwise_cons]
          simp only [List.forall_mem_cons]
          constructor
          · rintro ⟨hpair, hall⟩
            exact ⟨⟨fun d hd => (hall d hd).1, hpair⟩, hnot, fun d hd => (hall d hd).2⟩
          · rintro ⟨⟨hhead, hpair⟩, _, hall⟩
            exact ⟨hpair, fun d hd => ⟨hhead d hd, hall d hd⟩⟩

theorem pairs_filter_eq_nil_iff {α : Type} {p : α → α → Bool} {l : List α} :
    (pairs l).filter (fun e => p e.1 e.2) = [] ↔ l.Pairwise fun x y => p x y = false := by
  induction l with
  | nil => simp [pairs]
  | cons x xs ih =>
      rw [pairs, List.filter_append, List.append_eq_nil_iff, ih, List.pairwise_cons,
        List.filter_eq_nil_iff]
      simp

/-- Looking for one violation finds the first of all. -/
theorem check_eq_head? (ms : List Ty) : check ms = (violations ms).head? := by
  rw [violations, List.append_assoc, List.head?_append, List.head?_append]
  rfl

theorem check_eq_none_iff {ms : List Ty} :
    check ms = none ↔ Proper (Ty.constituentsAll ms) := by
  rw [check_eq_head?, List.head?_eq_none_iff, violations, List.append_eq_nil_iff,
    List.append_eq_nil_iff, valueViolations_eq_nil_iff, constantViolations, variableViolations,
    List.map_eq_nil_iff, List.map_eq_nil_iff, repeated_eq_nil_iff, pairs_filter_eq_nil_iff]
  exact ⟨fun ⟨⟨hv, hc, _⟩, hd⟩ => ⟨hv, hc, hd⟩,
    fun h => ⟨⟨h.values, h.constants, fun _ _ _ hd => absurd hd List.not_mem_nil⟩, h.disjoint⟩⟩

theorem Proper.singleton (m : Ty) : Proper [m] where
  values _ hm := absurd hm List.not_mem_nil
  constants := by cases m <;> simp [Grammar.constants]
  disjoint := (List.pairwise_singleton _ m).filter _

/-- A type that is not a union obeys the grammar, so there is one condition for all. -/
theorem violation?_eq_none_iff {t : Ty} : violation? t = none ↔ Proper t.constituents := by
  cases t with
  | union ms => exact check_eq_none_iff
  | nothing => exact iff_of_true rfl ⟨nofun, .nil, .nil⟩
  | any | var =>
      refine iff_of_true rfl ⟨by simp [Ty.constituents, Ty.isValue], .nil, ?_⟩
      exact List.pairwise_singleton _ _
  | _ => exact iff_of_true rfl (.singleton _)

theorem Proper.countP_isValue_le {flat : List Ty} (h : Proper flat) :
    flat.countP Ty.isValue ≤ 1 := by
  cases flat with
  | nil => exact Nat.zero_le 1
  | cons m rest =>
      have hrest : rest.countP Ty.isValue = 0 :=
        List.countP_eq_zero.2 fun x hx => Bool.eq_false_iff.1 (h.values x hx)
      rw [List.countP_cons, hrest]
      split <;> omega

end Fallible.Grammar
