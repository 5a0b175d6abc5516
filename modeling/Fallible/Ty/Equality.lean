import Fallible.Ty.Basic

/-!
# Equality of types up to spelling

Two types are equal for the checker, `a == b`, when they differ at most in how
classifiers with the same number are spelt. Stripping the spelling makes this
precise: `a == b` holds exactly when the bare forms of `a` and `b` are equal.
Everything that maps and sets need of `==` follows from that.
-/

namespace Fallible

/-- The classifier with nothing but its number. -/
def Classifier.bare (c : Classifier) : Classifier := ⟨c.id, [], "", [], none⟩

theorem Classifier.beq_iff_bare {a b : Classifier} : (a == b) = true ↔ a.bare = b.bare := by
  simp [Classifier.bare]

/-- The alias with bare members. -/
def Alias.bare (a : Alias) : Alias :=
  ⟨a.name, a.members.map Classifier.bare, List.Pairwise.map _ (fun _ _ h => h) a.increasing⟩

theorem beq_members_iff_bare {as bs : List Classifier} :
    (as == bs) = true ↔ as.map Classifier.bare = bs.map Classifier.bare := by
  induction as generalizing bs with
  | nil => cases bs <;> simp
  | cons a as ih =>
      cases bs with
      | nil => simp
      | cons b bs => simp [ih, Classifier.bare]

theorem Alias.beq_iff_bare {a b : Alias} : (a == b) = true ↔ a.bare = b.bare := by
  show (a.name == b.name && a.members == b.members) = true ↔ _
  simp [Alias.bare, beq_members_iff_bare]

theorem Alias.contains_bare (a : Alias) : a.bare.contains = a.contains := by
  funext k
  rw [contains, contains, bare, List.contains_eq_any_beq, List.contains_eq_any_beq, List.any_map]
  rfl

/-- The universe with a bare alias. -/
def Universe.bare : Universe → Universe
  | .unbounded => .unbounded
  | .bounded a => .bounded a.bare

theorem Universe.contains_bare (u : Universe) : u.bare.contains = u.contains := by
  funext c
  cases u with
  | unbounded => rfl
  | bounded a => exact congrFun a.contains_bare c

theorem Universe.beq_iff_bare {a b : Universe} : (a == b) = true ↔ a.bare = b.bare := by
  show Universe.beq a b = true ↔ _
  cases a <;> cases b <;> simp [Universe.bare, Universe.beq, Alias.beq_iff_bare]

/-- The error variable with a bare bound. -/
def ErrorVar.bare (v : ErrorVar) : ErrorVar := ⟨v.name, v.bound.bare, v.flexible⟩

theorem ErrorVar.beq_iff_bare {a b : ErrorVar} : (a == b) = true ↔ a.bare = b.bare := by
  show (a.name == b.name && a.bound == b.bound && a.flexible == b.flexible) = true ↔ _
  simp [ErrorVar.bare, Universe.beq_iff_bare, and_assoc]

namespace Ty

mutual

/-- The type with bare classifiers throughout. -/
def bare : Ty → Ty
  | .con c as => .con c (bareAll as)
  | .errorConst c as => .errorConst c.bare (bareAll as)
  | .errorVar v => .errorVar v.bare
  | .union as => .union (bareAll as)
  | .any => .any
  | .value => .value
  | .error => .error
  | .nothing => .nothing
  | .erroneous => .erroneous
  | .var n f => .var n f
  | .valueProj n f => .valueProj n f

/-- The bare forms of a list of types. -/
def bareAll : List Ty → List Ty
  | [] => []
  | a :: as => bare a :: bareAll as

end

theorem bareAll_eq_map (as : List Ty) : bareAll as = as.map bare := by
  induction as with
  | nil => rfl
  | cons a as ih => simp [bareAll, ih]

theorem beq_iff_bare {a b : Ty} : beq a b = true ↔ a.bare = b.bare := by
  have hall : ∀ {as bs : List Ty}, (∀ a ∈ as, ∀ {b}, beq a b = true ↔ a.bare = b.bare) →
      (beqAll as bs = true ↔ bareAll as = bareAll bs) := by
    intro as
    induction as with
    | nil => intro bs _; cases bs <;> simp [beqAll, bareAll]
    | cons a as ih =>
        intro bs h
        cases bs with
        | nil => simp [beqAll, bareAll]
        | cons b bs =>
            simp only [beqAll, bareAll, Bool.and_eq_true, List.cons.injEq]
            rw [h a List.mem_cons_self, ih fun x hx => h x (List.mem_cons_of_mem a hx)]
  induction a generalizing b with
  | con c as ih =>
      cases b <;> simp [beq, bare]
      rw [hall ih]
      simp
  | errorConst c as ih =>
      cases b <;> simp [beq, bare]
      rw [hall ih]
      simp [Classifier.bare]
  | union ms ih =>
      cases b <;> simp [beq, bare]
      rw [hall ih]
  | errorVar v => cases b <;> simp [beq, bare, ErrorVar.beq_iff_bare]
  | _ => cases b <;> simp [beq, bare]

/-- The checker's equality is equality of bare types. -/
theorem beq_iff {a b : Ty} : (a == b) = true ↔ a.bare = b.bare := beq_iff_bare

end Ty

/-! ## `==` is an equivalence wherever it is used as one -/

instance : EquivBEq ErrorVar where
  rfl := ErrorVar.beq_iff_bare.2 rfl
  symm h := ErrorVar.beq_iff_bare.2 (ErrorVar.beq_iff_bare.1 h).symm
  trans h k :=
    ErrorVar.beq_iff_bare.2 ((ErrorVar.beq_iff_bare.1 h).trans (ErrorVar.beq_iff_bare.1 k))

instance : EquivBEq Ty where
  rfl := Ty.beq_iff.2 rfl
  symm h := Ty.beq_iff.2 (Ty.beq_iff.1 h).symm
  trans h k := Ty.beq_iff.2 ((Ty.beq_iff.1 h).trans (Ty.beq_iff.1 k))

end Fallible
