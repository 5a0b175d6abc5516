import Fallible.Fixpoint.Holding
import Fallible.Proofs.Table
import Mathlib.Order.Bounds.Basic

/-!
# Assignments and what constraints ask of them

A constraint is about which atoms a variable holds and whether it holds
everything; the arguments of atoms are the business of merging. An assignment
records exactly that much. It need not be finite and need not come from a
solver, so "the least assignment that meets the constraints" can be said
without speaking of a run.

What a constraint asks of its target is monotone in the assignment: the more
the source holds, the more is asked. It reads nothing but its source. These two
facts are all that the least fixed point and its worklist need from the
constraints.
-/

namespace Fallible

/-- Which atoms each variable holds, and which variables hold everything.
Variables and atoms that are the same for `==` are not told apart. -/
@[ext] structure Assignment where
  holds : ErrorVar → Atom → Prop
  universal : ErrorVar → Prop
  holds_congr : ∀ {v w a b}, (v == w) = true → (a == b) = true → holds v a → holds w b
  universal_congr : ∀ {v w}, (v == w) = true → universal v → universal w

namespace Assignment

/-- Assignments are compared atom for atom and flag for flag. -/
instance : Preorder Assignment where
  le A B := (∀ v a, A.holds v a → B.holds v a) ∧ ∀ v, A.universal v → B.universal v
  le_refl _ := ⟨fun _ _ h => h, fun _ h => h⟩
  le_trans _ _ _ h k := ⟨fun v a x => k.1 v a (h.1 v a x), fun v x => k.2 v (h.2 v x)⟩

/-- The atoms that flow out of a variable. A rigid variable stands for itself. -/
def Flows (A : Assignment) (v : ErrorVar) (a : Atom) : Prop :=
  if v.flexible = true then A.holds v a else (Atom.var v == a) = true

/-- Whether everything flows out of a variable. -/
def FlowsAll (A : Assignment) (v : ErrorVar) : Prop := v.flexible = true ∧ A.universal v

/-- Whether every variable holds at least the set that a table gives it. -/
def Extends (A : Assignment) (initial : Table ErrorVar ErrorSet) : Prop :=
  ∀ v s, initial.get? v = some s →
    (∀ a, s.contains a = true → A.holds v a) ∧ (s.universal = true → A.universal v)

theorem Flows.mono {A B : Assignment} (h : A ≤ B) {v : ErrorVar} {a : Atom}
    (hf : A.Flows v a) : B.Flows v a := by
  unfold Flows at hf ⊢
  split
  · next hv => rw [if_pos hv] at hf; exact h.1 v a hf
  · next hv => rw [if_neg hv] at hf; exact hf

theorem FlowsAll.mono {A B : Assignment} (h : A ≤ B) {v : ErrorVar}
    (hf : A.FlowsAll v) : B.FlowsAll v :=
  ⟨hf.1, h.2 v hf.2⟩

end Assignment

/-! ## What a constraint asks -/

namespace Constraint

/-- The atoms that a constraint asks its target to hold. -/
def Asks (c : Constraint) (A : Assignment) (a : Atom) : Prop :=
  match c.demand with
  | .subset sub _ known => A.Flows sub a ∧ known.contains a = false
  | .unionSubset _ known required => required.contains a = true ∧ known.contains a = false
  | _ => False

/-- Whether a constraint asks its target to hold everything. -/
def AsksAll (c : Constraint) (A : Assignment) : Prop :=
  match c.demand with
  | .subset sub _ known => A.FlowsAll sub ∧ known.universal = false
  | .unionSubset _ known required => required.universal = true ∧ known.universal = false
  | _ => False

/-- Whether the target of a constraint, if it has one, holds what is asked. -/
def MetBy (c : Constraint) (A : Assignment) : Prop :=
  ∀ t, c.target? = some t →
    (∀ a, c.Asks A a → A.holds t a) ∧ (c.AsksAll A → A.universal t)

theorem Asks.mono {c : Constraint} {A B : Assignment} (h : A ≤ B) {a : Atom}
    (ha : c.Asks A a) : c.Asks B a := by
  unfold Asks at ha ⊢
  cases hd : c.demand with
  | subset sub sup known => rw [hd] at ha; exact ⟨ha.1.mono h, ha.2⟩
  | unionSubset v known required => rw [hd] at ha; exact ha
  | upperBound v bound => rw [hd] at ha; exact ha
  | none => rw [hd] at ha; exact ha

theorem AsksAll.mono {c : Constraint} {A B : Assignment} (h : A ≤ B)
    (ha : c.AsksAll A) : c.AsksAll B := by
  unfold AsksAll at ha ⊢
  cases hd : c.demand with
  | subset sub sup known => rw [hd] at ha; exact ⟨ha.1.mono h, ha.2⟩
  | unionSubset v known required => rw [hd] at ha; exact ha
  | upperBound v bound => rw [hd] at ha; exact ha
  | none => rw [hd] at ha; exact ha

/-- Two assignments that agree on the source of a constraint are asked for the
same atoms. -/
theorem Asks.of_source {c : Constraint} {A B : Assignment}
    (h : ∀ u, c.source? = some u → ∀ a, A.holds u a → B.holds u a) {a : Atom}
    (ha : c.Asks A a) : c.Asks B a := by
  unfold Asks at ha ⊢
  unfold source? at h
  cases hd : c.demand with
  | subset sub sup known =>
      rw [hd] at ha h
      refine ⟨?_, ha.2⟩
      have hf := ha.1
      unfold Assignment.Flows at hf ⊢
      split
      · next hv => rw [if_pos hv] at hf; exact h sub rfl a hf
      · next hv => rw [if_neg hv] at hf; exact hf
  | unionSubset v known required => rw [hd] at ha; exact ha
  | upperBound v bound => rw [hd] at ha; exact ha
  | none => rw [hd] at ha; exact ha

theorem AsksAll.of_source {c : Constraint} {A B : Assignment}
    (h : ∀ u, c.source? = some u → A.universal u → B.universal u)
    (ha : c.AsksAll A) : c.AsksAll B := by
  unfold AsksAll at ha ⊢
  unfold source? at h
  cases hd : c.demand with
  | subset sub sup known => rw [hd] at ha h; exact ⟨⟨ha.1.1, h sub rfl ha.1.2⟩, ha.2⟩
  | unionSubset v known required => rw [hd] at ha; exact ha
  | upperBound v bound => rw [hd] at ha; exact ha
  | none => rw [hd] at ha; exact ha

end Constraint

/-! ## The assignments of solutions and of holdings -/

theorem Holding.contains_beyond (h : Holding) (known : ErrorSet) (a : Atom) :
    (h.beyond known).atoms.contains a = (h.atoms.contains a && !known.contains a) :=
  Table.contains_filterKeys
    (fun _ _ hab => congrArg not (ErrorSet.contains_congr known hab)) h.atoms a

theorem Holding.contains_toSet (h : Holding) (a : Atom) :
    h.toSet.contains a = h.atoms.contains a :=
  ErrorSet.contains_ofTable h.atoms h.universal a

theorem Holding.contains_ofSet (s : ErrorSet) (a : Atom) :
    (Holding.ofSet s).atoms.contains a = s.contains a := rfl

theorem Holding.contains_ofRigid (v : ErrorVar) (a : Atom) :
    (Holding.ofRigid v).atoms.contains a = (Atom.var v == a) := by
  unfold Holding.ofRigid
  rw [Table.contains_ofList]
  exact Bool.or_false _

namespace Holdings

theorem of_congr (hs : Holdings) {v w : ErrorVar} (h : (v == w) = true) :
    of hs v = of hs w := by
  unfold of
  rw [Table.get?_congr hs h]

theorem of_insert (hs : Holdings) (t v : ErrorVar) (h : Holding) :
    of (hs.insert t h) v = if t == v then h else of hs v := by
  unfold of
  rw [Table.get?_insert]
  split <;> rfl

theorem of_insertNew_empty (hs : Holdings) (v w : ErrorVar) :
    of (hs.insertNew v .empty) w = of hs w := by
  unfold of
  rw [Table.get?_insertNew]
  split
  · next h =>
      rw [Bool.and_eq_true, Bool.not_eq_true'] at h
      rw [← Table.get?_congr hs h.2, Table.get?_eq_none.2 h.1]
      rfl
  · rfl

/-- At the start a variable holds the set it was given, or nothing. -/
theorem of_start (initial : Table ErrorVar ErrorSet) (cs : List Constraint) (v : ErrorVar) :
    of (start initial cs) v = ((initial.get? v).map Holding.ofSet).getD .empty := by
  unfold start
  generalize (cs.flatMap Constraint.vars).filter ErrorVar.flexible = vs
  have hfold : ∀ (vs : List ErrorVar) (hs : Holdings),
      of (vs.foldl (fun hs v => hs.insertNew v .empty) hs) v = of hs v := by
    intro vs
    induction vs with
    | nil => intro hs; rfl
    | cons w rest ih => intro hs; rw [List.foldl_cons, ih, of_insertNew_empty]
  rw [hfold]
  unfold of
  rw [Table.get?_mapValues]

theorem contains_start (initial : Table ErrorVar ErrorSet) (cs : List Constraint)
    (v : ErrorVar) : (start initial cs).contains v =
      (initial.contains v ||
        ((cs.flatMap Constraint.vars).filter ErrorVar.flexible).any fun w => w == v) := by
  have hfold : ∀ (vs : List ErrorVar) (hs : Holdings),
      (vs.foldl (fun hs v => hs.insertNew v .empty) hs).contains v =
        (hs.contains v || vs.any fun w => w == v) := by
    intro vs
    induction vs with
    | nil => intro hs; simp
    | cons w rest ih =>
        intro hs
        rw [List.foldl_cons, ih, Table.contains_insertNew, List.any_cons, Bool.or_comm (w == v),
          Bool.or_assoc]
  unfold start
  rw [hfold, Table.contains_mapValues]

theorem distinct_start {initial : Table ErrorVar ErrorSet} (h : initial.Distinct)
    (cs : List Constraint) : (start initial cs).Distinct := by
  have hfold : ∀ (vs : List ErrorVar) (hs : Holdings), hs.Distinct →
      (vs.foldl (fun hs v => hs.insertNew v .empty) hs).Distinct := by
    intro vs
    induction vs with
    | nil => intro hs hd; exact hd
    | cons w rest ih => intro hs hd; exact ih _ (hd.insertNew w .empty)
  exact hfold _ _ (h.mapValues Holding.ofSet)

/-- Holdings as an assignment. -/
def assignment (hs : Holdings) : Assignment where
  holds v a := (of hs v).atoms.contains a = true
  universal v := (of hs v).universal = true
  holds_congr hv ha h := by
    rw [← of_congr hs hv, ← Table.contains_congr _ ha]; exact h
  universal_congr hv h := by rw [← of_congr hs hv]; exact h

theorem source_contains (hs : Holdings) (v : ErrorVar) (a : Atom) :
    (source hs v).atoms.contains a = true ↔ (assignment hs).Flows v a := by
  unfold source Assignment.Flows
  split
  · rfl
  · rw [Holding.contains_ofRigid]

theorem source_universal (hs : Holdings) (v : ErrorVar) :
    (source hs v).universal = true ↔ (assignment hs).FlowsAll v := by
  unfold source Assignment.FlowsAll
  split
  · next hv => exact ⟨fun h => ⟨hv, h⟩, fun h => h.2⟩
  · next hv => exact ⟨fun h => Bool.noConfusion h, fun h => absurd h.1 hv⟩

end Holdings

/-- A solution as an assignment; a variable that is not solved holds nothing. -/
def Solution.assignment (s : Solution) : Assignment where
  holds v a := (s.getD v).contains a = true
  universal v := (s.getD v).universal = true
  holds_congr hv ha h := by
    unfold getD get? at h ⊢
    rw [← Table.get?_congr _ hv, ← ErrorSet.contains_congr _ ha]; exact h
  universal_congr hv h := by
    unfold getD get? at h ⊢
    rw [← Table.get?_congr _ hv]; exact h

theorem Holdings.getD_toSolution (hs : Holdings) (v : ErrorVar) :
    (toSolution hs).getD v = (of hs v).toSet := by
  unfold Solution.getD Solution.get? toSolution of
  rw [Table.get?_mapValues]
  cases hs.get? v <;> rfl

theorem Holdings.get?_getD_toSolution {hs : Holdings} {v : ErrorVar}
    (hdis : (hs.of v).atoms.Distinct) (a : Atom) :
    ((toSolution hs).getD v).get? a = (of hs v).atoms.get? a := by
  rw [getD_toSolution]
  exact ErrorSet.get?_ofTable hdis _ a

/-- Making a solution of holdings changes no atom and no flag. -/
theorem Holdings.assignment_toSolution (hs : Holdings) :
    (toSolution hs).assignment = assignment hs := by
  apply Assignment.ext
  · funext v a
    show (((toSolution hs).getD v).contains a = true) = _
    rw [getD_toSolution, Holding.contains_toSet]
    rfl
  · funext v
    show (((toSolution hs).getD v).universal = true) = _
    rw [getD_toSolution]
    rfl

/-! ## Contributions -/

namespace Constraint

/-- A constraint contributes to its target what it asks of it. -/
theorem contribution?_some {c : Constraint} {hs : Holdings} {t : ErrorVar} {inc : Holding}
    (h : c.contribution? hs = some (t, inc)) :
    c.target? = some t ∧
      (∀ a, inc.atoms.contains a = true ↔ c.Asks hs.assignment a) ∧
      (inc.universal = true ↔ c.AsksAll hs.assignment) := by
  unfold contribution? at h
  unfold target? Asks AsksAll
  cases hd : c.demand with
  | subset sub sup known =>
      rw [hd] at h
      simp only [Option.some.injEq, Prod.mk.injEq] at h
      obtain ⟨rfl, rfl⟩ := h
      refine ⟨rfl, fun a => ?_, ?_⟩
      · rw [Holding.contains_beyond, Bool.and_eq_true, Holdings.source_contains,
          Bool.not_eq_true']
      · show (_ && !_) = true ↔ _
        rw [Bool.and_eq_true, Holdings.source_universal, Bool.not_eq_true']
  | unionSubset v known required =>
      rw [hd] at h
      simp only [Option.some.injEq, Prod.mk.injEq] at h
      obtain ⟨rfl, rfl⟩ := h
      refine ⟨rfl, fun a => ?_, ?_⟩
      · rw [Holding.contains_beyond, Bool.and_eq_true, Holding.contains_ofSet,
          Bool.not_eq_true']
      · show (_ && !_) = true ↔ _
        rw [Bool.and_eq_true, Bool.not_eq_true']
        rfl
  | upperBound v bound => rw [hd] at h; cases h
  | none => rw [hd] at h; cases h

theorem target?_of_contribution?_none {c : Constraint} {hs : Holdings}
    (h : c.contribution? hs = none) : c.target? = none := by
  unfold contribution? at h
  unfold target?
  cases hd : c.demand with
  | subset sub sup known => rw [hd] at h; cases h
  | unionSubset v known required => rw [hd] at h; cases h
  | upperBound v bound => rfl
  | none => rfl

end Constraint

end Fallible
