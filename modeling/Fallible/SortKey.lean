import Fallible.StableSort

/-!
# The order of listings

Members of a union and atoms of an error set are listed by kind, then by
number, then by name. The key holds the three in that order; where a kind has
no number or no name the key has zero or the empty text there.
-/

namespace Fallible

/-- The place of an element in a listing. -/
structure SortKey where
  kind : Nat
  id : Int
  name : String
  deriving DecidableEq

namespace SortKey

/-- Whether one place is no later than another. -/
def le (a b : SortKey) : Bool :=
  a.kind < b.kind || (a.kind == b.kind &&
    (a.id < b.id || (a.id == b.id && decide (a.name ≤ b.name))))

theorem le_iff {a b : SortKey} : a.le b = true ↔
    a.kind < b.kind ∨ (a.kind = b.kind ∧
      (a.id < b.id ∨ (a.id = b.id ∧ a.name ≤ b.name))) := by
  simp [le]

theorem le_refl (a : SortKey) : a.le a = true :=
  le_iff.2 (Or.inr ⟨rfl, Or.inr ⟨rfl, String.le_refl _⟩⟩)

theorem le_total (a b : SortKey) : a.le b = true ∨ b.le a = true := by
  rw [le_iff, le_iff]
  have := String.le_total a.name b.name
  grind

theorem le_trans (a b c : SortKey) (h : a.le b = true) (k : b.le c = true) :
    a.le c = true := by
  rw [le_iff] at *
  have : a.name ≤ b.name → b.name ≤ c.name → a.name ≤ c.name := String.le_trans
  grind

/-- Two places, each no later than the other, are one. -/
theorem le_antisymm {a b : SortKey} (h : a.le b = true) (k : b.le a = true) : a = b := by
  rw [le_iff] at *
  have : a.name ≤ b.name → b.name ≤ a.name → a.name = b.name := String.le_antisymm
  cases a
  cases b
  grind

end SortKey

/-- Lists elements by a key; elements with one key stay in order. -/
def sortOn {α : Type} (key : α → SortKey) (xs : List α) : List α :=
  sortBy (fun a b => (key a).le (key b)) xs

theorem sortOn_perm {α : Type} (key : α → SortKey) (xs : List α) :
    (sortOn key xs).Perm xs :=
  sortBy_perm _ xs

/-- A listing is in order. -/
theorem sortOn_pairwise {α : Type} (key : α → SortKey) (xs : List α) :
    (sortOn key xs).Pairwise fun a b => (key a).le (key b) = true :=
  sortBy_pairwise (fun a b => SortKey.le_total (key a) (key b))
    (fun a b c => SortKey.le_trans (key a) (key b) (key c)) xs

/-- Listing what is in order changes nothing. -/
theorem sortOn_of_pairwise {α : Type} {key : α → SortKey} {xs : List α}
    (h : xs.Pairwise fun a b => (key a).le (key b) = true) : sortOn key xs = xs :=
  sortBy_of_pairwise h

end Fallible
