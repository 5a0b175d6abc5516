import Fallible.Proofs.EndingComparisons

/-!
# The faults of comparisons

A comparison, and a merge of arguments, ends in no other faults than the
comparison of arguments that it is given. So by induction on the depth, the only
fault of a comparison is that it does not end. The constraints that it leaves
behind can always be written down: an atom is only routed where there is a variable
to receive it.
-/

namespace Fallible

/-! ## Computations and their faults -/

/-- Whether a computation ends in no other faults than those allowed. -/
def FaultsIn {α : Type} (allowed : Fault → Prop) (x : Except Fault α) : Prop :=
  ∀ f, x = .error f → allowed f

/-- Whether comparing ends in no other faults than those allowed. -/
def Comparison.FaultsIn (allowed : Fault → Prop) (h : Comparison) : Prop :=
  ∀ a b, Fallible.FaultsIn allowed (h a b)

namespace FaultsIn

variable {α β : Type} {allowed : Fault → Prop}

theorem ok (a : α) : FaultsIn allowed (.ok a) := fun _ h => by cases h

theorem error {f : Fault} (hf : allowed f) : FaultsIn allowed (.error f : Except Fault α) := by
  intro g hg
  cases hg
  exact hf

theorem bind {x : Except Fault α} {k : α → Except Fault β} (hx : FaultsIn allowed x)
    (hk : ∀ a, x = .ok a → FaultsIn allowed (k a)) : FaultsIn allowed (x >>= k) := by
  intro f hf
  cases h : x with
  | error g =>
      rw [h] at hf
      cases hf
      exact hx f h
  | ok a =>
      rw [h] at hf
      exact hk a h f hf

theorem ite {c : Prop} [Decidable c] {x y : Except Fault α} (hx : FaultsIn allowed x)
    (hy : FaultsIn allowed y) : FaultsIn allowed (if c then x else y) := by
  split
  · exact hx
  · exact hy

theorem mono {allowed' : Fault → Prop} (h : ∀ f, allowed f → allowed' f) {x : Except Fault α}
    (hx : FaultsIn allowed x) : FaultsIn allowed' x := fun f hf => h f (hx f hf)

end FaultsIn

/-! ## Comparing and merging arguments -/

section Arguments

variable {allowed : Fault → Prop} {h : Comparison} (hh : h.FaultsIn allowed)

include hh

namespace Payload

theorem faultsIn_coversArg (v : Variance) (a b : Ty) : FaultsIn allowed (coversArg h v a b) := by
  cases v with
  | covariant => exact hh a b
  | contravariant => exact hh b a
  | invariant => exact .bind (hh a b) fun _ _ => .ite (hh b a) (.ok _)

theorem faultsIn_coversFrom (atom : Atom) (i : Nat) (as bs : List Ty) :
    FaultsIn allowed (coversFrom h atom i as bs) := by
  induction as generalizing i bs with
  | nil => exact .ok _
  | cons a as ih =>
      cases bs with
      | nil => exact .ok _
      | cons b bs => exact .bind (faultsIn_coversArg hh _ a b) fun _ _ => .ite (ih _ _) (.ok _)

theorem faultsIn_covers (atom : Atom) (sup sub : List Ty) :
    FaultsIn allowed (covers h atom sup sub) :=
  .ite (.ok _) (.ite (.ok _) (faultsIn_coversFrom hh atom 0 sup sub))

theorem faultsIn_mergeArg (p : Policy) (v : Variance) (old new : Ty) :
    FaultsIn allowed (mergeArg p h v old new) := by
  have hchoice : ∀ {x y : Ty} {fallback : Option Ty}, FaultsIn allowed (do
      if ← h old new then return some x
      else if ← h new old then return some y
      else return fallback) := fun {_ _ _} =>
    .bind (hh old new) fun _ _ => .ite (.ok _) (.bind (hh new old) fun _ _ => .ite (.ok _) (.ok _))
  cases v with
  | invariant => exact .ok _
  | covariant =>
      cases p with
      | strict => exact .ok _
      | soft => exact hchoice
  | contravariant =>
      cases p with
      | strict => exact hchoice
      | soft => exact hchoice

theorem faultsIn_mergeFrom (p : Policy) (atom : Atom) (i : Nat) (as bs : List Ty) :
    FaultsIn allowed (mergeFrom p h atom i as bs) := by
  induction as generalizing i bs with
  | nil => exact .ok _
  | cons a as ih =>
      cases bs with
      | nil => exact .ok _
      | cons b bs =>
          refine .bind (faultsIn_mergeArg hh p _ a b) fun m _ => ?_
          split
          · exact .ok _
          · refine .bind (ih _ _) fun ms _ => ?_
            split
            · exact .ok _
            · exact .ok _

theorem faultsIn_merge (p : Policy) (atom : Atom) (current incoming : List Ty) :
    FaultsIn allowed (merge p h atom current incoming) :=
  .ite (.ok _) (.ite (.ok _) (.ite (.ok _) (faultsIn_mergeFrom hh p atom 0 current incoming)))

end Payload

theorem Inquiry.faultsIn_run (q : Inquiry) (as bs : List Ty) :
    FaultsIn allowed (q.run h as bs) := by
  induction q with
  | answer related => exact .ok _
  | ask turned i j next ih =>
      refine .bind ?_ fun x _ => ih x
      unfold reply
      split
      · exact .ite (hh _ _) (hh _ _)
      · exact .ok _

namespace View

theorem faultsIn_argsAgree (as bs : List Ty) : FaultsIn allowed (argsAgree h as bs) := by
  induction as generalizing bs with
  | nil => cases bs with
    | nil => exact .ok _
    | cons b bs => exact .ok _
  | cons a as ih =>
      cases bs with
      | nil => exact .ok _
      | cons b bs =>
          exact .bind (Payload.faultsIn_coversArg hh _ a b) fun _ _ => .ite (ih _) (.ok _)

theorem faultsIn_consRelate (order : ValueOrder) (c d : Con) (as bs : List Ty) :
    FaultsIn allowed (consRelate order h c as d bs) := by
  cases order with
  | classes => exact .ite (.ite (.ok _) (faultsIn_argsAgree hh as bs)) (.ok _)
  | custom rule => exact Inquiry.faultsIn_run hh _ as bs

theorem faultsIn_uncovered (sup : ErrorSet) (es : List (Atom × List Ty))
    (missing mismatched : Instantiations) :
    FaultsIn allowed (uncovered h sup es missing mismatched) := by
  induction es generalizing missing mismatched with
  | nil => exact .ok _
  | cons e rest ih =>
      rw [uncovered]
      split
      · exact .bind (Payload.faultsIn_covers hh _ _ _) fun _ _ => .ite (ih _ _) (ih _ _)
      · exact .ite (ih _ _) (ih _ _)

theorem faultsIn_residualWith (sup sub : ErrorSet) : FaultsIn allowed (residualWith h sup sub) :=
  .bind (faultsIn_uncovered hh sup sub.entries .empty .empty) fun _ _ => .ok _

theorem faultsIn_coversWith (sup sub : ErrorSet) : FaultsIn allowed (coversWith h sup sub) :=
  .ite (.ok _) (.ite (.ok _) (.bind (faultsIn_residualWith hh sup sub) fun _ _ => .ok _))

theorem faultsIn_compareErrors (sup sub : Interpretation) :
    FaultsIn allowed (compareErrors h sup sub) :=
  .ite (.ok _) (.ite (.ok _) (.bind (faultsIn_residualWith hh sup.known sub.known) fun _ _ =>
    .ite (.ok _) (.ite (.ok _) (.ite (.ok _) (.ok _)))))

end View

end Arguments

/-! ## Comparisons fault only where they do not end -/

/-- Whether a fault says that something does not end. -/
def Fault.Unending (f : Fault) : Prop := f = .endless ∨ f = .unsettled

namespace Bindings

theorem faultsIn_unfoldWith {image : String → Option (Except Fault Ty)}
    (himage : ∀ n r, image n = some r → FaultsIn Fault.Unending r) (t : Ty) :
    FaultsIn Fault.Unending (unfoldWith image t) := by
  have hall : ∀ ts : List Ty, (∀ t ∈ ts, FaultsIn Fault.Unending (unfoldWith image t)) →
      FaultsIn Fault.Unending (unfoldAllWith image ts) := by
    intro ts
    induction ts with
    | nil => exact fun _ => .ok _
    | cons t ts ih =>
        intro h
        refine .bind (h t List.mem_cons_self) fun _ _ => ?_
        exact .bind (ih fun x hx => h x (List.mem_cons_of_mem t hx)) fun _ _ => .ok _
  induction t with
  | valueProj name flexible =>
      rw [unfoldWith]
      refine .ite ?_ (.ok _)
      cases h : image name with
      | none => exact .ok _
      | some r => exact himage name r h
  | union ms ih => exact .bind (hall ms ih) fun _ _ => .ok _
  | con c args ih | errorConst c args ih => exact .bind (hall args ih) fun _ _ => .ok _
  | _ => exact .ok _

theorem faultsIn_imageWithin (b : Bindings) (k : Nat) (n : String) (r : Except Fault Ty)
    (h : b.imageWithin k n = some r) : FaultsIn Fault.Unending r := by
  induction k generalizing n r with
  | zero =>
      rw [imageWithin] at h
      obtain ⟨t, _, rfl⟩ := Option.map_eq_some_iff.1 h
      exact .error (.inl rfl)
  | succ k ih =>
      rw [imageWithin] at h
      obtain ⟨t, _, rfl⟩ := Option.map_eq_some_iff.1 h
      exact faultsIn_unfoldWith ih t

theorem faultsIn_apply (b : Bindings) (t : Ty) : FaultsIn Fault.Unending (b.apply t) :=
  faultsIn_unfoldWith (b.faultsIn_imageWithin _) t

end Bindings

namespace View

theorem faultsIn_follow (v : View) (t : Ty) : FaultsIn Fault.Unending (v.follow t) := by
  unfold follow
  split
  · exact v.bindings.faultsIn_apply _
  · exact .ok _

theorem faultsIn_compareWith (v : View) {h : Comparison} (hh : h.FaultsIn Fault.Unending)
    (sup sub : Ty) : FaultsIn Fault.Unending (v.compareWith h sup sub) := by
  have hvalues : FaultsIn Fault.Unending (v.compareValues h sup.valuePart sub.valuePart) := by
    refine .bind (v.faultsIn_follow _) fun above _ => .bind (v.faultsIn_follow _) fun below _ => ?_
    split
    · exact .ok _
    · exact .ok _
    · exact faultsIn_consRelate hh _ _ _ _ _
  exact .ite (.ok _) (.bind hvalues fun _ _ => .ite (faultsIn_compareErrors hh _ _) (.ok _))

theorem faultsIn_holdsWithin (v : View) (n : Nat) :
    (v.holdsWithin n).FaultsIn Fault.Unending := by
  induction n with
  | zero => exact fun _ _ => .error (.inl rfl)
  | succ n ih => exact fun a b => .bind (v.faultsIn_compareWith ih a b) fun _ _ => .ok _

theorem faultsIn_holds (v : View) : v.holds.FaultsIn Fault.Unending :=
  fun a b => v.faultsIn_holdsWithin _ a b

end View

/-- What has to be received and where variables flow is always found, so nothing is
routed without a target. -/
theorem Obligation.faultsIn_demands (view : View) (sup sub : Ty) :
    FaultsIn Fault.Unending (demands view sup sub) := by
  refine .bind (View.faultsIn_residualWith view.faultsIn_holds _ _) fun residual _ => ?_
  obtain ⟨received, hreceived⟩ := received_answers (view.interpret sup)
    (absorber? (view.interpret sup) (view.interpret sub)) residual.missing
  obtain ⟨flowing, hflowing⟩ := flows_answers (view.interpret sup) (view.interpret sub).flexible
  rw [hreceived, hflowing]
  exact .ok _

namespace Engine

theorem faultsIn_compareValues (e : Engine) (sup sub : Ty) :
    FaultsIn Fault.Unending (e.compareValues sup sub).1 := by
  unfold compareValues
  split
  · split
    · exact .ok _
    · exact .ok _
    · exact View.faultsIn_consRelate e.view.faultsIn_holds _ _ _ _ _
  · next h => exact .error (e.view.faultsIn_follow _ _ h)
  · next h _ => exact .error (e.view.faultsIn_follow _ _ h)

theorem faultsIn_compareErrors (e : Engine) (sup sub : Ty) (location : Location) :
    FaultsIn Fault.Unending (e.compareErrors sup sub location).1 := by
  have hgenerate : FaultsIn Fault.Unending (e.generate sup sub location).1 := by
    have hmade : FaultsIn Fault.Unending (Obligation.constraints e.view sup sub location) :=
      .bind (Obligation.faultsIn_demands e.view sup sub) fun _ _ => .ok _
    unfold generate
    split
    · exact .ok _
    · next h => exact .error (hmade _ h)
  unfold compareErrors
  split
  · split
    · split
      · exact .ok _
      · next h => rw [h] at hgenerate; exact .error (hgenerate _ rfl)
    · exact .ok _
  · exact View.faultsIn_compareErrors e.view.faultsIn_holds _ _

theorem faultsIn_check (e : Engine) (sup sub : Ty) (location : Location) :
    FaultsIn Fault.Unending (e.check sup sub location).1 := by
  have hvalues := e.faultsIn_compareValues sup.valuePart sub.valuePart
  unfold check
  split
  · exact .ok _
  · split
    · exact faultsIn_compareErrors _ sup sub location
    · exact .ok _
    · next h => rw [h] at hvalues; exact .error (hvalues _ rfl)

end Engine

end Fallible
