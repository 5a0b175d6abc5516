import Fallible.Proofs.Finality
import Fallible.Proofs.Fixing

/-!
# Merging is symmetric

Two argument lists of an atom may come in either order. The policy asks of two
arguments whether the recorded one covers the new one, and then whether it is the
other way round, so an argument that both cover is taken from the one list or from
the other. But then the two cover each other, and so do the merged lists. Whether
the lists merge at all does not depend on the order.

Comparing the merged lists adds one thing to the comparisons that were made while
merging: an argument may be compared with itself. This never goes into the
argument, so it holds as soon as the value of the argument can be written out.
-/

namespace Fallible

namespace View

variable {v : View}

/-! ## Types compared with themselves -/

/-- Whether comparisons get past a type: it has failed, or its value can be written
out. -/
def Legible (v : View) (t : Ty) : Prop :=
  t.failed = true ∨ ∃ u, v.follow t.valuePart = .ok u

theorem follow_of_beq {x y u : Ty} (hxy : (x == y) = true) (hx : v.follow x = .ok u) :
    ∃ w, v.follow y = .ok w ∧ (u == w) = true := by
  cases x with
  | valueProj name flexible =>
      rw [Ty.beq_iff] at hxy
      cases y <;> cases hxy
      exact ⟨u, hx, BEq.rfl⟩
  | _ =>
      cases hx
      cases y <;> first | exact ⟨_, rfl, hxy⟩ | cases hxy

theorem compareValues_of_beq {h : Comparison} {x y u : Ty} (hxy : (x == y) = true)
    (hx : v.follow x = .ok u) : v.compareValues h x y = .ok true := by
  obtain ⟨w, hy, huw⟩ := follow_of_beq hxy hx
  rw [compareValues, hx, hy]
  simp [bind, Except.bind, valueStep_nothing_free, huw, pure, Except.pure]

/-- What it means that a type covers another, one level down. -/
theorem holds_iff_level (v : View) (a b : Ty) : ∃ n, v.holds a b = .ok true ↔
    a.failed = true ∨ b.failed = true ∨
      v.compareValues (v.holdsWithin n) a.valuePart b.valuePart = .ok true ∧
        ErrorsHold (fun x y => v.holdsWithin n x y = .ok true) (v.interpret a) (v.interpret b) :=
  ⟨_, (v.holdsWithin_succ _ a b).trans (v.compareWith_holds_iff _ a b)⟩

/-- A type covers what is the same up to spelling. -/
theorem holds_of_same {a b : Ty} (hab : (a == b) = true) (ha : v.Legible a) :
    v.holds a b = .ok true := by
  obtain ⟨n, hn⟩ := v.holds_iff_level a b
  rw [hn]
  rcases ha with hf | ⟨u, hu⟩
  · exact Or.inl hf
  · exact Or.inr (Or.inr ⟨compareValues_of_beq (Ty.valuePart_of_beq hab) hu,
      errorsHold_of_beq v.solution _ hab⟩)

/-- A comparison that has an answer got past both types, unless one of them has
failed. -/
theorem legible_of_answer {a b : Ty} {r : Bool} (h : v.holds a b = .ok r) :
    a.failed = true ∨ b.failed = true ∨ v.Legible a ∧ v.Legible b := by
  cases hfail : a.failed || b.failed with
  | true => exact (Bool.or_eq_true_iff.1 hfail).imp_right Or.inl
  | false =>
      rw [holds, depth, holdsWithin, compareWith, hfail, if_neg Bool.false_ne_true,
        compareValues] at h
      cases hx : v.follow a.valuePart with
      | error f => rw [hx] at h; cases h
      | ok x =>
          cases hy : v.follow b.valuePart with
          | error f => rw [hx, hy] at h; cases h
          | ok y => exact Or.inr (Or.inr ⟨Or.inr ⟨x, hx⟩, Or.inr ⟨y, hy⟩⟩)

theorem legible_iff {a : Ty} : v.Legible a ↔ ∃ r, v.holds a a = .ok r := by
  constructor
  · exact fun h => ⟨true, holds_of_same BEq.rfl h⟩
  · rintro ⟨r, h⟩
    rcases legible_of_answer h with hf | hf | h
    · exact Or.inl hf
    · exact Or.inl hf
    · exact h.1

/-- That a type does not cover itself is never the answer. -/
theorem holds_ne_of_same {a b : Ty} (hab : (a == b) = true) : v.holds a b ≠ .ok false := by
  intro h
  have hfailed : b.failed = a.failed := by
    rw [← Ty.failed_respell .bare b, ← Ty.beq_iff_respell.1 hab, Ty.failed_respell]
  have hlegible : v.Legible a := by
    rcases legible_of_answer h with hf | hf | h
    · exact Or.inl hf
    · exact Or.inl (hfailed ▸ hf)
    · exact h.1
  rw [holds_of_same hab hlegible] at h
  cases h

end View

namespace Payload

/-! ## Merged arguments -/

/-- What came of asking one question, and another if the first answer was no. -/
theorem ok_of_two_questions {α : Type} {b c : Except Fault Bool} {u w z r : α}
    (hr : (do if ← b then return u else if ← c then return w else return z) = Except.ok r) :
    (b = .ok true ∧ r = u) ∨ (b = .ok false ∧ c = .ok true ∧ r = w) ∨
      b = .ok false ∧ c = .ok false ∧ r = z := by
  cases b with
  | error f => cases hr
  | ok b =>
      cases b with
      | true => cases hr; exact Or.inl ⟨rfl, rfl⟩
      | false =>
          cases c with
          | error f => cases hr
          | ok c =>
              cases c with
              | true => cases hr; exact Or.inr (Or.inl ⟨rfl, rfl, rfl⟩)
              | false => cases hr; exact Or.inr (Or.inr ⟨rfl, rfl, rfl⟩)

section Merged

variable {p : Policy} {h : Comparison} {var : Variance} {x y : Ty}

/-- Whether two arguments are the same or cover each other. -/
def Matched (h : Comparison) (x y : Ty) : Prop :=
  (x == y) = true ∨ h x y = .ok true ∧ h y x = .ok true

theorem Matched.refl (x : Ty) : Matched h x x := Or.inl BEq.rfl

theorem Matched.symm (hxy : Matched h x y) : Matched h y x := hxy.imp BEq.symm And.symm

end Merged

/-! ## Merged lists -/

section Lists

variable {p : Policy} {h : Comparison} {a : Atom}

theorem exists_beside {xs ys : List Ty} (hlen : xs.length = ys.length) {i : Nat} {x : Ty}
    (hx : xs[i]? = some x) : ∃ y, ys[i]? = some y :=
  ⟨_, List.getElem?_eq_getElem (hlen ▸ (List.getElem?_eq_some_iff.1 hx).1)⟩

/-- A list is merged place by place. -/
theorem mergeFrom_some : ∀ {i : Nat} {xs ys ms : List Ty}, xs.length = ys.length →
    mergeFrom p h a i xs ys = .ok (some ms) →
    ms.length = xs.length ∧ ∀ j x y, xs[j]? = some x → ys[j]? = some y →
      ∃ m, ms[j]? = some m ∧ mergeArg p h (a.variance (i + j)) x y = .ok (some m) := by
  intro i xs
  induction xs generalizing i with
  | nil =>
      intro ys ms _ hms
      cases hms
      exact ⟨rfl, fun j x y hx => by cases hx⟩
  | cons x xs ih =>
      intro ys ms hlen hms
      cases ys with
      | nil => cases hlen
      | cons y ys =>
          obtain ⟨m, rest, rfl, hm, hrest⟩ := mergeFrom_cons hms
          obtain ⟨hlen', hall⟩ := ih (by simpa using hlen) hrest
          refine ⟨congrArg (· + 1) hlen', fun j u w hu hw => ?_⟩
          cases j with
          | zero => cases hu; cases hw; exact ⟨m, rfl, hm⟩
          | succ j =>
              rw [show i + (j + 1) = i + 1 + j by omega]
              exact hall j u w hu hw

/-- Lists do not merge because of one place. -/
theorem mergeFrom_none : ∀ {i : Nat} {xs ys : List Ty}, mergeFrom p h a i xs ys = .ok none →
    ∃ j x y, xs[j]? = some x ∧ ys[j]? = some y ∧
      mergeArg p h (a.variance (i + j)) x y = .ok none := by
  intro i xs
  induction xs generalizing i with
  | nil => intro ys hnone; cases hnone
  | cons x xs ih =>
      intro ys hnone
      cases ys with
      | nil => cases hnone
      | cons y ys =>
          rw [mergeFrom] at hnone
          cases hm : mergeArg p h (a.variance i) x y with
          | error f => rw [hm] at hnone; cases hnone
          | ok m =>
              cases m with
              | none => exact ⟨0, x, y, rfl, rfl, hm⟩
              | some m =>
                  have hrest : mergeFrom p h a (i + 1) xs ys = .ok none := by
                    rw [hm] at hnone
                    cases hrest : mergeFrom p h a (i + 1) xs ys with
                    | error f => rw [hrest] at hnone; cases hnone
                    | ok rest => rw [hrest] at hnone; cases rest <;> cases hnone; rfl
                  obtain ⟨j, u, w, hu, hw, hnone⟩ := ih hrest
                  refine ⟨j + 1, u, w, hu, hw, ?_⟩
                  rw [show i + (j + 1) = i + 1 + j by omega]
                  exact hnone

/-- What merging two lists comes to. -/
theorem merge_ok {xs ys : List Ty} {r : Option (List Ty)} (hr : merge p h a xs ys = .ok r) :
    (UpTo ys xs ∧ r = some xs) ∨ (xs = [] ∧ r = some ys) ∨
      xs ≠ [] ∧ ys ≠ [] ∧ (xs == ys) = false ∧
        (xs.length ≠ ys.length ∧ r = none ∨
          xs.length = ys.length ∧ mergeFrom p h a 0 xs ys = .ok r) := by
  rw [merge] at hr
  split at hr
  · next hsame =>
      cases hr
      rw [Bool.or_eq_true, List.isEmpty_iff] at hsame
      exact Or.inl ⟨hsame.symm.imp_right BEq.symm, rfl⟩
  · next hdiffer =>
      rw [Bool.or_eq_true, not_or, List.isEmpty_iff, Bool.not_eq_true] at hdiffer
      split at hr
      · next hopen => cases hr; exact Or.inr (Or.inl ⟨List.isEmpty_iff.1 hopen, rfl⟩)
      · next hopen =>
          rw [List.isEmpty_iff] at hopen
          refine Or.inr (Or.inr ⟨hopen, hdiffer.2, hdiffer.1, ?_⟩)
          split at hr
          · next hlen => cases hr; exact Or.inl ⟨by simpa using hlen, rfl⟩
          · next hlen => exact Or.inr ⟨by simpa using hlen, hr⟩

end Lists

/-! ## Lists that match cover each other -/

variable {v : View} {a : Atom} {xs ys : List Ty}

theorem Matched.holds {x y : Ty} (hxy : Matched v.holds x y) (hx : v.Legible x) :
    v.holds x y = .ok true :=
  hxy.elim (fun hsame => View.holds_of_same hsame hx) And.left

theorem legible_of_merge {p : Policy} {ms : List Ty} (hm : merge p v.holds a xs ys = .ok (some ms))
    (hxs : ∀ x ∈ xs, v.Legible x) (hys : ∀ y ∈ ys, v.Legible y) : ∀ m ∈ ms, v.Legible m := by
  intro m hmem
  rcases (merge_origin hm).2 m hmem with hx | hy | rfl | rfl
  · exact hxs m hx
  · exact hys m hy
  · exact Or.inr ⟨.value, rfl⟩
  · exact Or.inr ⟨.nothing, rfl⟩

end Payload

end Fallible
