/-!
# Sorting that keeps ties in place

Union members and error sets are listed by a key that different elements may
share. Elements that tie stay in the order in which they were written, so the
sort has to be stable. Insertion from the right end is: each element is put in
front of the first one it may precede, which puts it in front of all later
elements it ties with.

Main statements: the result is a permutation of the input, and it is ordered
when the comparison is total and transitive.
-/

namespace Fallible

variable {α : Type}

/-- Puts `x` in front of the first element it may precede. -/
def insertBy (le : α → α → Bool) (x : α) : List α → List α
  | [] => [x]
  | y :: ys => if le x y then x :: y :: ys else y :: insertBy le x ys

/-- The stable sort of a list. -/
def sortBy (le : α → α → Bool) : List α → List α
  | [] => []
  | x :: xs => insertBy le x (sortBy le xs)

/-- Inserting adds exactly the inserted element. -/
theorem insertBy_perm (le : α → α → Bool) (x : α) (xs : List α) :
    (insertBy le x xs).Perm (x :: xs) := by
  induction xs with
  | nil => exact List.Perm.refl _
  | cons y ys ih =>
      unfold insertBy
      split
      · exact List.Perm.refl _
      · exact (List.Perm.cons y ih).trans (List.Perm.swap x y ys)

/-- Sorting loses and invents nothing. -/
theorem sortBy_perm (le : α → α → Bool) (xs : List α) : (sortBy le xs).Perm xs := by
  induction xs with
  | nil => exact List.Perm.refl _
  | cons x xs ih => exact (insertBy_perm le x _).trans (List.Perm.cons x ih)

/-- Inserting into an ordered list leaves it ordered. -/
theorem insertBy_pairwise {le : α → α → Bool}
    (total : ∀ a b, le a b = true ∨ le b a = true)
    (trans : ∀ a b c, le a b = true → le b c = true → le a c = true)
    (x : α) {xs : List α} (h : xs.Pairwise fun a b => le a b = true) :
    (insertBy le x xs).Pairwise fun a b => le a b = true := by
  induction xs with
  | nil => simp [insertBy]
  | cons y ys ih =>
      obtain ⟨hy, hys⟩ := List.pairwise_cons.1 h
      unfold insertBy
      split
      · rename_i hxy
        refine List.pairwise_cons.2 ⟨fun z hz => ?_, h⟩
        cases List.mem_cons.1 hz with
        | inl e => exact e ▸ hxy
        | inr hz => exact trans x y z hxy (hy z hz)
      · rename_i hxy
        refine List.pairwise_cons.2 ⟨fun z hz => ?_, ih hys⟩
        cases List.mem_cons.1 ((insertBy_perm le x ys).mem_iff.1 hz) with
        | inl e => exact e ▸ (total x y).resolve_left hxy
        | inr hz => exact hy z hz

/-- The result of a sort by a total, transitive comparison is ordered. -/
theorem sortBy_pairwise {le : α → α → Bool}
    (total : ∀ a b, le a b = true ∨ le b a = true)
    (trans : ∀ a b c, le a b = true → le b c = true → le a c = true)
    (xs : List α) : (sortBy le xs).Pairwise fun a b => le a b = true := by
  induction xs with
  | nil => exact List.Pairwise.nil
  | cons x xs ih => exact insertBy_pairwise total trans x ih

/-- A list that is ordered already is its own sort: ties do not move. -/
theorem sortBy_of_pairwise {le : α → α → Bool} {xs : List α}
    (h : xs.Pairwise fun a b => le a b = true) : sortBy le xs = xs := by
  induction xs with
  | nil => rfl
  | cons x xs ih =>
      obtain ⟨hx, hxs⟩ := List.pairwise_cons.1 h
      unfold sortBy
      rw [ih hxs]
      cases xs with
      | nil => rfl
      | cons y ys => simp [insertBy, hx y (List.mem_cons_self ..)]

end Fallible
