import Fallible.Proofs.Errors
import Mathlib.Data.Fintype.EquivFin

/-!
# What error sets mean

An error variable stands for classifiers that are not known yet. A valuation says
which ones, within the variable's bound, and under a valuation a set of errors
without arguments is a set of classifiers. One set of errors should contain
another if it does so whatever the variables turn out to hold.

The checker does not look at valuations. It asks, atom by atom, whether the set
lists the atom, or lists the whole alias that bounds it. That is enough, clearly.
It is also necessary. An atom that passes neither test can be made to hold a
classifier that the set does not list, while all other variables hold nothing;
an unbounded variable can, because there is always a number that is not listed.
-/

namespace Fallible

/-! ## Valuations -/

/-- Whether a variable could hold a classifier depends on the classifier's number and
on the variable as the checker sees it. -/
theorem ErrorVar.mayHold_congr {x y : ErrorVar} {c d : Classifier} (hxy : (x == y) = true)
    (hcd : c.id = d.id) : x.mayHold c = y.mayHold d := by
  have hbound : x.bound.bare = y.bound.bare := congrArg ErrorVar.bound (beq_iff_bare.1 hxy)
  have hid : ∀ u : Universe, u.contains c = u.contains d := by
    intro u
    cases u with
    | unbounded => rfl
    | bounded a =>
        show a.members.contains c = a.members.contains d
        rw [List.contains_eq_any_beq, List.contains_eq_any_beq]
        congr 1
        funext k
        rw [Classifier.beq_def, Classifier.beq_def, hcd]
  rw [mayHold, mayHold, hid, ← Universe.contains_bare, hbound, Universe.contains_bare]

/-- What the error variables are taken to hold, as sets of numbers of classifiers. -/
structure Valuation where
  holds : ErrorVar → Set Int
  /-- Variables that the checker does not tell apart hold the same. -/
  congr : ∀ {x y : ErrorVar}, (x == y) = true → holds x = holds y
  /-- A variable holds only what its bound allows. -/
  within : ∀ {x : ErrorVar} {c : Classifier}, c.id ∈ holds x → x.mayHold c = true

namespace Valuation

/-- All variables hold nothing. -/
def nothing : Valuation where
  holds _ := ∅
  congr _ := rfl
  within h := absurd h (Set.notMem_empty _)

/-- One variable holds one classifier, and the others hold nothing. -/
def only (x : ErrorVar) (c : Classifier) (h : x.mayHold c = true) : Valuation where
  holds y := {i | (y == x) = true ∧ i = c.id}
  congr hyz := by
    ext i
    exact and_congr_left' ⟨fun hy => BEq.trans (BEq.symm hyz) hy, fun hz => BEq.trans hyz hz⟩
  within hd := by rw [ErrorVar.mayHold_congr hd.1 hd.2, h]

end Valuation

/-! ## Meanings -/

/-- The classifiers that an atom stands for. -/
def Atom.meaning (ρ : Valuation) : Atom → Set Int
  | .classifier c => {c.id}
  | .var x => ρ.holds x

theorem Atom.meaning_congr {a b : Atom} (h : (a == b) = true) (ρ : Valuation) :
    a.meaning ρ = b.meaning ρ := by
  cases a with
  | classifier c =>
      cases b with
      | classifier d => rw [meaning, meaning, Classifier.beq_iff.1 h]
      | var y => cases h
  | var x =>
      cases b with
      | classifier d => cases h
      | var y => exact ρ.congr h

namespace ErrorSet

/-- The classifiers that a set of errors without arguments stands for. -/
def meaning (ρ : Valuation) (s : ErrorSet) : Set Int :=
  {i | s.universal = true ∨ ∃ e ∈ s.entries, i ∈ e.1.meaning ρ}

variable {s : ErrorSet} {ρ : Valuation}

theorem meaning_subset_of_contains {a : Atom} (h : s.contains a = true) :
    a.meaning ρ ⊆ s.meaning ρ := by
  intro i hi
  obtain ⟨e, he, hea⟩ := contains_iff.1 h
  exact Or.inr ⟨e, he, Atom.meaning_congr hea ρ ▸ hi⟩

/-- Whoever lists an alias has whatever is bounded by it. -/
theorem meaning_subset_of_alias {a : Atom} (h : View.coveredByAlias s a = true) :
    a.meaning ρ ⊆ s.meaning ρ := by
  cases a with
  | classifier c => cases h
  | var x =>
      obtain ⟨name, bound, flexible⟩ := x
      cases bound with
      | unbounded => cases h
      | bounded al =>
          intro i hi
          -- Any record with the number will do to ask what the bound allows.
          have hin : al.members.contains ⟨i, [], "", [], none⟩ = true :=
            ρ.within (c := ⟨i, [], "", [], none⟩) hi
          rw [List.contains_eq_any_beq, List.any_eq_true] at hin
          obtain ⟨d, hd, hid⟩ := hin
          exact meaning_subset_of_contains (List.all_eq_true.1 h d hd) (Classifier.beq_iff.1 hid)

/-- What it takes for a classifier to be outside a set. -/
theorem notMem_meaning (hall : s.universal = false) {c : Classifier}
    (hc : s.contains (.classifier c) = false)
    (hvars : ∀ x, s.contains (.var x) = true → c.id ∉ ρ.holds x) : c.id ∉ s.meaning ρ := by
  rintro (hu | ⟨⟨a, args⟩, he, hi⟩)
  · rw [hall] at hu
    cases hu
  · have hin := contains_of_mem he
    cases a with
    | classifier d =>
        have hdc : (Atom.classifier d == .classifier c) = true := Classifier.beq_iff.2 hi.symm
        rw [contains_congr s hdc, hc] at hin
        cases hin
    | var x => exact hvars x hin hi

/-! ## Classifiers that escape a set -/

/-- No set lists all classifiers. -/
theorem exists_unlisted (s : ErrorSet) : ∃ c, s.contains (.classifier c) = false := by
  let listed := s.entries.filterMap fun e => e.1.classifier?.map Classifier.id
  obtain ⟨i, hi⟩ := Infinite.exists_notMem_finset listed.toFinset
  refine ⟨⟨i, [], "", [], none⟩, Bool.eq_false_iff.2 fun hin => hi ?_⟩
  obtain ⟨⟨a, args⟩, he, hea⟩ := contains_iff.1 hin
  cases a with
  | classifier d =>
      have hid : d.id = i := Classifier.beq_iff.1 hea
      exact List.mem_toFinset.2 (List.mem_filterMap.2 ⟨_, he, congrArg some hid⟩)
  | var x => cases hea

/-- A variable that a set does not cover may hold a classifier that the set does not
list. -/
theorem exists_escaping {x : ErrorVar} (h : View.coveredByAlias s (.var x) = false) :
    ∃ c, x.mayHold c = true ∧ s.contains (.classifier c) = false := by
  obtain ⟨name, bound, flexible⟩ := x
  cases bound with
  | unbounded =>
      obtain ⟨c, hc⟩ := s.exists_unlisted
      exact ⟨c, rfl, hc⟩
  | bounded al =>
      obtain ⟨c, hc, hout⟩ := List.all_eq_false.1 h
      refine ⟨c, ?_, Bool.eq_false_iff.2 hout⟩
      exact List.contains_iff_exists_mem_beq.2 ⟨c, hc, BEq.rfl⟩

end ErrorSet

/-! ## Inclusion is containment of meanings -/

section Inclusion

variable {sup sub : ErrorSet}

theorem View.Includes.meaning_subset (h : View.Includes sup sub) (ρ : Valuation) :
    sub.meaning ρ ⊆ sup.meaning ρ := by
  rcases h with hall | ⟨hpart, hatoms⟩
  · exact fun _ _ => Or.inl hall
  · rintro i (hu | ⟨e, he, hi⟩)
    · rw [hpart] at hu
      cases hu
    · rcases View.leaves_eq_false.1 (hatoms e.1 (ErrorSet.contains_of_mem he)) with hin | hin
      · exact ErrorSet.meaning_subset_of_contains hin hi
      · exact ErrorSet.meaning_subset_of_alias hin hi

/-- An atom whose meaning is always contained is covered. -/
theorem View.covered_of_meaning_subset (hall : sup.universal = false) {a : Atom}
    (h : ∀ ρ, a.meaning ρ ⊆ sup.meaning ρ) : leaves sup a = false := by
  rw [leaves_eq_false]
  by_contra hout
  rw [not_or, Bool.not_eq_true, Bool.not_eq_true] at hout
  cases a with
  | classifier c =>
      -- With all variables empty, a set stands for what it lists.
      refine ErrorSet.notMem_meaning hall hout.1 (fun x _ => ?_) (h .nothing rfl)
      exact Set.notMem_empty _
  | var x =>
      obtain ⟨c, hmay, hc⟩ := ErrorSet.exists_escaping hout.2
      refine ErrorSet.notMem_meaning hall hc (fun y hy hin => ?_)
        (h (.only x c hmay) ⟨BEq.rfl, rfl⟩)
      rw [ErrorSet.contains_congr sup (a := .var y) (b := .var x) hin.1, hout.1] at hy
      cases hy

/-- A set includes another if it contains it whatever the variables hold, and only
then. -/
theorem View.includes_iff_meaning_subset :
    View.Includes sup sub ↔ ∀ ρ, sub.meaning ρ ⊆ sup.meaning ρ := by
  refine ⟨fun h ρ => h.meaning_subset ρ, fun h => ?_⟩
  cases hall : sup.universal with
  | true => exact Or.inl hall
  | false =>
      refine Or.inr ⟨Bool.eq_false_iff.2 fun hu => ?_, fun a ha => ?_⟩
      · obtain ⟨c, hc⟩ := sup.exists_unlisted
        exact ErrorSet.notMem_meaning hall hc (fun _ _ => Set.notMem_empty _)
          (h .nothing (Or.inl hu))
      · exact covered_of_meaning_subset hall fun ρ =>
          (ErrorSet.meaning_subset_of_contains ha).trans (h ρ)

/-- Containment always has an answer where the larger set has no arguments. It is yes
exactly if the meaning of one set contains that of the other under every valuation. -/
theorem covers_iff_meaning_subset (v : View) (hsup : sup.PayloadFree) (sub : ErrorSet) :
    ∃ answer, v.covers sup sub = .ok answer ∧
      (answer = true ↔ ∀ ρ : Valuation, sub.meaning ρ ⊆ sup.meaning ρ) := by
  obtain ⟨⟨answer, hanswer⟩, hiff⟩ := View.coversWith_iff_includes v.holds hsup sub
  refine ⟨answer, hanswer, ?_⟩
  rw [← View.includes_iff_meaning_subset, ← hiff, hanswer, Except.ok.injEq]

end Inclusion

/-! A rigid variable that stands for two classifiers at most, beside sets that list both
of them and only one. -/

def twoWays : List Classifier := [⟨0, [], "A", [], some 0⟩, ⟨1, [], "B", [], some 0⟩]

def eitherWay : ErrorSet := .ofAtoms [.var ⟨"X", .bounded (.of "AB" twoWays), false⟩]

def bothListed : ErrorSet := .ofAtoms (twoWays.map .classifier)

def oneListed : ErrorSet := .ofAtoms ((twoWays.take 1).map .classifier)

theorem covers_eitherWay :
    bothListed.PayloadFree ∧ oneListed.PayloadFree ∧
      (View.plain .classes).covers bothListed eitherWay = .ok true ∧
      (∀ ρ : Valuation, eitherWay.meaning ρ ⊆ bothListed.meaning ρ) ∧
      (View.plain .classes).covers oneListed eitherWay = .ok false ∧
      ¬ ∀ ρ : Valuation, eitherWay.meaning ρ ⊆ oneListed.meaning ρ := by
  have hboth : bothListed.PayloadFree := by decide
  have hone : oneListed.PayloadFree := by decide
  obtain ⟨_, hyes, hin⟩ := covers_iff_meaning_subset (View.plain .classes) hboth eitherWay
  obtain ⟨_, hno, hout⟩ := covers_iff_meaning_subset (View.plain .classes) hone eitherWay
  cases hyes
  cases hno
  exact ⟨hboth, hone, rfl, hin.1 rfl, rfl, fun h => Bool.false_ne_true (hout.2 h)⟩

end Fallible
