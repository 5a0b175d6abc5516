import Fallible.Proofs.Faults
import Fallible.Proofs.Lifecycle
import Fallible.Proofs.SolvedSession

/-!
# Internal faults cannot be reached from a session

Three faults tell of a mistake inside the checker or in how it was set up: an
error variable with two argument lists that clash, an atom that is routed with no
variable to receive it, and a policy that is no name. A host that chose a policy
never sees any of them, whatever types it builds.

Comparisons fault only where they do not end. That leaves the clash. Types give
arguments to classifiers alone, so a variable stands in the sets of constraints
without any. A run of the solver holds an atom only with as many arguments as it
was offered with, and two empty lists never clash.
-/

namespace Fallible

/-! ## Atoms and the arguments they take -/

/-- Whether an atom may have the arguments. Only classifiers have parameters. -/
def Atom.Takes (a : Atom) (args : List Ty) : Prop := a.classifier? = none → args = []

instance (a : Atom) (args : List Ty) : Decidable (a.Takes args) :=
  match a, args with
  | .classifier _, _ => .isTrue fun h => by cases h
  | .var _, [] => .isTrue fun _ => rfl
  | .var _, _ :: _ => .isFalse fun h => by cases h rfl

/-- Whether no variable of a set has arguments. -/
def ErrorSet.Apt (s : ErrorSet) : Prop := ∀ e ∈ s.entries, e.1.Takes e.2

instance (s : ErrorSet) : Decidable s.Apt :=
  inferInstanceAs (Decidable (∀ e ∈ s.entries, e.1.Takes e.2))

namespace Atom

variable {a b : Atom} {args : List Ty}

theorem takes_nil (a : Atom) : a.Takes [] := fun _ => rfl

theorem Takes.congr (hab : (a == b) = true) (h : a.Takes args) : b.Takes args := by
  intro hb
  refine h ?_
  cases a with
  | classifier c =>
      cases b with
      | classifier d => cases hb
      | var v => cases hab
  | var v => rfl

theorem Takes.of_length {args' : List Ty} (h : a.Takes args) (hlen : args'.length = args.length) :
    a.Takes args' := by
  intro ha
  rw [h ha] at hlen
  exact List.length_eq_zero_iff.1 hlen

theorem Takes.merge {p : Policy} {holds : Comparison} {current incoming merged : List Ty}
    (hcurrent : a.Takes current) (hincoming : a.Takes incoming)
    (h : Payload.merge p holds a current incoming = .ok (some merged)) : a.Takes merged := by
  rcases (Payload.merge_origin h).1 with hlen | hlen
  · exact hcurrent.of_length hlen
  · exact hincoming.of_length hlen

end Atom

/-- The errors that a type is known to have while nothing is solved. -/
theorem View.apt_interpretWith (t : Ty) : (interpretWith .empty t).known.Apt := by
  intro e he
  rcases stemsFrom_interpretWith e he with ⟨x, rfl⟩ | ⟨c, -, -, hc, -⟩
  · exact Atom.takes_nil _
  · intro hnone
    rw [hc] at hnone
    cases hnone

theorem Obligation.Arises.apt {sup sub : Ty} {c : Constraint} (h : Arises sup sub c) :
    ∀ set ∈ c.errorSets, set.Apt := by
  obtain ⟨view, ds, hview, hds, hc⟩ := h
  have hknown : ∀ t, (view.interpret t).known.Apt := by
    intro t
    rw [View.interpret, hview]
    exact View.apt_interpretWith t
  exact each_of_demands (P := Atom.Takes) Atom.Takes.congr (hknown sup) (hknown sub) hds hc

/-! ## The solver -/

namespace Holding

variable {p : Policy} {holds : Comparison}

/-- Two lists for one variable are both empty and merge, so only classifiers
clash. -/
theorem faultsIn_absorbEntries (hholds : holds.FaultsIn Fault.Unending)
    {es : List (Atom × List Ty)} (hes : ∀ e ∈ es, e.1.Takes e.2) {h : Holding}
    (hh : ∀ a args, h.atoms.get? a = some args → a.Takes args) (grew : Bool) :
    FaultsIn Fault.Unending (absorbEntries p holds es h grew) := by
  induction es generalizing h grew with
  | nil => exact .ok _
  | cons e rest ih =>
      obtain ⟨atom, args⟩ := e
      have hargs : atom.Takes args := hes _ List.mem_cons_self
      replace ih := @ih fun e he => hes e (List.mem_cons_of_mem _ he)
      have hinsert : ∀ {new : List Ty}, atom.Takes new → ∀ a args,
          (h.atoms.insert atom new).get? a = some args → a.Takes args := by
        intro new hnew a args hget
        rw [Table.get?_insert] at hget
        split at hget
        · next ha => cases hget; exact hnew.congr ha
        · exact hh a args hget
      rw [absorbEntries]
      split
      · exact ih (hinsert hargs) _
      · next old hold =>
          refine .bind (Payload.faultsIn_merge hholds p atom old args) fun merged hmerged => ?_
          split
          · exact .ite (ih hh _) (ih (hinsert ((hh atom old hold).merge hargs hmerged)) _)
          · split
            · exact .ok _
            · next v =>
                rw [hh _ old hold rfl, hargs rfl] at hmerged
                cases hmerged

end Holding

namespace Fixpoint

/-- A variable is in play without arguments, if it is offered without any. -/
theorem AllInPlay.takes {offers : List (Atom × List Ty)} (hoffers : ∀ e ∈ offers, e.1.Takes e.2)
    {t : Instantiations} (h : AllInPlay offers t) : ∀ e ∈ t.entries, e.1.Takes e.2 := by
  intro d hd
  obtain ⟨e, he, hed, hlen, _⟩ := h.2 d hd
  exact ((hoffers e he).of_length hlen).congr hed

section Run

variable {p : Problem} (hp : ∀ c ∈ p.constraints, ∀ set ∈ c.errorSets, set.Apt)

include hp

theorem takes_offered : ∀ e ∈ offered .empty p.constraints, e.1.Takes e.2 :=
  offered_each (fun _ h => absurd h List.not_mem_nil) hp fun v => Atom.takes_nil (.var v)

/-- What variables hold in a state, and what constraints offer them there. -/
theorem Regular.apt {s : State} (hs : Regular p.constraints .empty s) :
    (∀ v, (s.holdings.of v).toSet.Apt) ∧
      ∀ c ∈ p.constraints, ∀ t incoming, c.contribution? s.holdings = some (t, incoming) →
        incoming.toSet.Apt :=
  ⟨fun v e he => (hs.inPlay v).takes (takes_offered hp) e (ErrorSet.mem_entries_ofEntries.1 he),
    fun _ hc _ _ hcon e he => (contribution_allInPlay hc hs.inPlay hcon).takes (takes_offered hp) e
      (ErrorSet.mem_entries_ofEntries.1 he)⟩

variable (hholds : p.holds.FaultsIn Fault.Unending)

include hholds

theorem faultsIn_step {s : State} (hs : Regular p.constraints .empty s) (place : Nat)
    (rest : List Nat) : FaultsIn Fault.Unending (p.step s place rest) := by
  unfold Problem.step
  dsimp only
  split
  · next c hc =>
      unfold Problem.applyTo
      split
      · exact .ok _
      · next target incoming hcon =>
          have hin := contribution_allInPlay (List.mem_of_getElem? hc) hs.inPlay hcon
          refine .bind (Holding.faultsIn_absorbEntries hholds (hin.takes (takes_offered hp))
            (fun a args hget => ?_) _) fun absorbed _ => ?_
          · obtain ⟨k, hk, hka⟩ := Table.mem_of_get? hget
            exact ((hs.inPlay target).takes (takes_offered hp) _ hk).congr hka
          · split
            · exact .ok _
            · exact .ite (.ok _) (.ok _)
  · exact .ok _

theorem faultsIn_run (n : Nat) {s : State} (hs : Regular p.constraints .empty s) :
    FaultsIn Fault.Unending (p.run n s) := by
  induction n generalizing s with
  | zero =>
      unfold Problem.run
      split
      · exact .ok _
      · exact .error (.inr rfl)
  | succ n ih =>
      unfold Problem.run
      split
      · exact .ok _
      · next place rest hq =>
          refine .bind (faultsIn_step hp hholds hs place rest) fun out hout => ?_
          split
          · exact ih (hs.step hq hout)
          · exact .ok _

end Run

theorem faultsIn_violationFrom (view : View) (solution : Solution) (seen : List ErrorVar)
    (cs : List Constraint) :
    FaultsIn Fault.Unending (violationFrom view.covers solution seen cs) := by
  have hbound : ∀ c, FaultsIn Fault.Unending (boundViolation view.covers solution c) := by
    intro c
    unfold boundViolation
    split
    · exact .bind (View.faultsIn_coversWith view.faultsIn_holds _ _) fun _ _ => .ite (.ok _) (.ok _)
    · exact .ok _
  induction cs generalizing seen with
  | nil => exact .ok _
  | cons c cs ih =>
      refine .bind (hbound c) fun found _ => ?_
      split
      · exact .ok _
      · dsimp only
        split
        · exact .ok _
        · exact ih _

theorem faultsIn_solveBy (policy : Policy) (r : Registry) (view : View) {cs : List Constraint}
    (hcs : ∀ c ∈ cs, ∀ set ∈ c.errorSets, set.Apt) :
    FaultsIn Fault.Unending (solveBy policy r view cs .empty) := by
  unfold solveBy
  split
  · exact .ok _
  · refine .bind (faultsIn_run (p := ⟨cs, policy, view.holds⟩) hcs view.faultsIn_holds _
      (Regular.start .empty cs)) fun out _ => ?_
    split
    · exact .ok _
    · refine .bind (faultsIn_violationFrom view _ [] cs) fun found _ => ?_
      split
      · exact .ok _
      · exact .ok _

end Fixpoint

/-! ## Sessions -/

/-- Whether a fault tells of a mistake inside the checker, or of a policy that is no
name. -/
def Fault.isInternal : Fault → Bool
  | .argumentsOnVariable _ | .noTarget | .notAName _ => true
  | _ => false

/-- Whether a fault is one that a host may bring about. -/
def Fault.External (f : Fault) : Prop := f.isInternal = false

theorem Fault.Unending.external {f : Fault} (h : f.Unending) : f.External := by
  rcases h with rfl | rfl
  · rfl
  · rfl

/-- The fault that a computation ends in, if it does. -/
def faultOf {α : Type} : Except Fault α → Option Fault
  | .ok _ => none
  | .error f => some f

namespace Session

/-- The fault that an action ends in, if it does. -/
def fault? (s : Session) : Action → Option Fault
  | .op (.freshErrorVar base bound) => faultOf (s.freshErrorVar base bound).1
  | .op (.freshTyVar base) => faultOf (s.freshTyVar base).1
  | .op (.union _ _) => none
  | .op (.require sup sub location) => faultOf (s.require sup sub location).1
  | .op (.requireExpr sup e) => faultOf (s.requireExpr sup e).1
  | .op (.instantiate sig location) => faultOf (s.instantiate sig location).1
  | .op (.call sig args location) => faultOf (s.call sig args location).1
  | .op (.annotateNode node t) => faultOf (s.annotateNode node t).1
  | .op (.annotateExpr _ _) => none
  | .solve => faultOf s.solve.1
  | .cancel => faultOf s.cancel.1
  | .resolve t => faultOf (s.resolve t)

section Faults

variable (s : Session)

theorem faultsIn_whileOpen {α : Type} {op : Except Fault α × Session}
    (h : FaultsIn Fault.External op.1) : FaultsIn Fault.External (s.whileOpen op).1 := by
  unfold whileOpen
  split
  · exact h
  · exact .error rfl

theorem faultsIn_freshParams (params : List TypeParam) (images : Table Ty Ty) :
    FaultsIn Fault.External (s.freshParams params images).1 := by
  induction params generalizing s images with
  | nil => exact .ok _
  | cons param rest ih =>
      cases param with
      | type name flexible =>
          have hfresh : FaultsIn Fault.External (s.freshTyVar name).1 :=
            s.faultsIn_whileOpen (.ok _)
          rw [freshParams]
          split
          · next h => rw [h] at hfresh; exact .error (hfresh _ rfl)
          · exact ih _ _
      | error v =>
          have hfresh : FaultsIn Fault.External (s.freshErrorVar v.name v.bound).1 :=
            s.faultsIn_whileOpen (.ok _)
          rw [freshParams]
          split
          · next h => rw [h] at hfresh; exact .error (hfresh _ rfl)
          · exact ih _ _

theorem faultsIn_instantiate (sig : Signature) (location : Location) :
    FaultsIn Fault.External (s.instantiate sig location).1 := by
  have hfresh := s.faultsIn_freshParams sig.typeParams .empty
  unfold instantiate
  split
  · next h => rw [h] at hfresh; exact .error (hfresh _ rfl)
  · exact .ok _

theorem faultsIn_require (sup sub : Ty) (location : Location) :
    FaultsIn Fault.External (s.require sup sub location).1 := by
  have hcheck := (s.engine.faultsIn_check sup sub location).mono fun _ => Fault.Unending.external
  refine s.faultsIn_whileOpen ?_
  split
  · exact .ok _
  · next h => rw [h] at hcheck; exact hcheck

theorem faultsIn_requireArgs (pairs : List (Ty × TypedExpr)) :
    FaultsIn Fault.External (s.requireArgs pairs).1 := by
  induction pairs generalizing s with
  | nil => exact .ok _
  | cons pair rest ih =>
      have hreq : FaultsIn Fault.External (s.requireExpr pair.1 pair.2).1 :=
        s.faultsIn_require _ _ _
      unfold requireArgs
      split
      · next h => rw [h] at hreq; exact .error (hreq _ rfl)
      · exact ih _

theorem faultsIn_call (sig : Signature) (args : List TypedExpr) (location : Location) :
    FaultsIn Fault.External (s.call sig args location).1 := by
  have hinst := s.faultsIn_instantiate sig location
  unfold call
  split
  · exact .error rfl
  · split
    · next h => rw [h] at hinst; exact .error (hinst _ rfl)
    · next params returns s' _ =>
        have hargs := s'.faultsIn_requireArgs (params.zip args)
        split
        · next h => rw [h] at hargs; exact .error (hargs _ rfl)
        · exact .ok _

theorem faultsIn_resolution (t : Ty) : FaultsIn Fault.External (s.resolution t) :=
  .bind ((s.bindings.faultsIn_apply _).mono fun _ => Fault.Unending.external) fun _ _ =>
    .ite (.ok _) (.ok _)

theorem faultsIn_revalidate (solution : Solution) (ps : List Pending) :
    FaultsIn Fault.External (s.revalidate solution ps).1 := by
  induction ps generalizing s with
  | nil => exact .ok _
  | cons p rest ih =>
      have hholds := (View.mk s.options.order solution s.bindings).faultsIn_holds p.sup p.sub
      rw [revalidate]
      split
      · next h => exact .error (hholds _ h).external
      · exact ih _
      · exact ih _

theorem faultsIn_resolveAll (es : List (String × Ty × Location)) (types : Table String Ty) :
    FaultsIn Fault.External (s.resolveAll es types).1 := by
  induction es generalizing s types with
  | nil => exact .ok _
  | cons e rest ih =>
      rw [resolveAll]
      split
      · next h => exact .error (s.faultsIn_resolution _ _ h)
      · exact ih _ _
      · exact ih _ _

theorem faultsIn_finish : FaultsIn Fault.External s.finish.1 := by
  have hall := s.faultsIn_resolveAll s.annotations.entries .empty
  unfold finish
  split
  · next h => rw [h] at hall; exact .error (hall _ rfl)
  · exact .ok _

theorem faultsIn_review (outcome : Fixpoint.Outcome) :
    FaultsIn Fault.External (s.review outcome).1 := by
  unfold review
  split
  · split
    · exact s.faultsIn_revalidate _ _
    · exact .ok _
  · exact .ok _

end Faults

/-- What is true of every session under the same options. -/
structure Apt (options : Options) (s : Session) : Prop where
  options : s.options = options
  constraints : ∀ c ∈ s.constraints, ∀ set ∈ c.errorSets, set.Apt
  solution : ∀ solution, s.solution = some solution →
    ∀ v set, solution.get? v = some set → set.Apt

namespace Apt

variable {options : Options} {s : Session}

theorem new (options : Options) (registry : Registry) :
    Apt options (Session.new options registry) :=
  ⟨rfl, fun _ h => absurd h List.not_mem_nil, fun _ h => by cases h⟩

theorem faultsIn_outcome (hs : s.Apt options) {policy : Policy}
    (hpolicy : options.policy.resolve = .ok policy) : FaultsIn Fault.External s.outcome := by
  unfold outcome Fixpoint.solve
  rw [hs.options, hpolicy]
  exact (Fixpoint.faultsIn_solveBy policy _ _ hs.constraints).mono fun _ => Fault.Unending.external

theorem faultsIn_solve (hs : s.Apt options) {policy : Policy}
    (hpolicy : options.policy.resolve = .ok policy) : FaultsIn Fault.External s.solve.1 := by
  refine s.faultsIn_whileOpen ?_
  split
  · next h => exact .error (hs.faultsIn_outcome hpolicy _ h)
  · next outcome _ =>
      have hreview := (s.close outcome).faultsIn_review outcome
      split
      · next h => rw [h] at hreview; exact .error (hreview _ rfl)
      · exact faultsIn_finish _

/-- No action ends in an internal fault. -/
theorem external_of_fault? (hs : s.Apt options) {policy : Policy}
    (hpolicy : options.policy.resolve = .ok policy) {a : Action} {f : Fault}
    (h : s.fault? a = some f) : f.External := by
  have hof : ∀ {α : Type} {x : Except Fault α}, FaultsIn Fault.External x →
      faultOf x = some f → f.External := by
    intro α x hx hf
    cases x with
    | ok a => cases hf
    | error g => cases hf; exact hx _ rfl
  cases a with
  | op op =>
      cases op with
      | freshErrorVar base bound => exact hof (s.faultsIn_whileOpen (.ok _)) h
      | freshTyVar base => exact hof (s.faultsIn_whileOpen (.ok _)) h
      | union members location => cases h
      | require sup sub location => exact hof (s.faultsIn_require _ _ _) h
      | requireExpr sup e => exact hof (s.faultsIn_require _ _ _) h
      | instantiate sig location => exact hof (s.faultsIn_instantiate _ _) h
      | call sig args location => exact hof (s.faultsIn_call _ _ _) h
      | annotateNode node t =>
          cases t with
          | none => cases h; rfl
          | some t => cases h
      | annotateExpr e t => cases h
  | solve => exact hof (hs.faultsIn_solve hpolicy) h
  | cancel =>
      refine hof (x := s.cancel.1) ?_ h
      unfold cancel
      split
      · exact .error rfl
      · exact .ok _
  | resolve t => exact hof (.bind (s.faultsIn_resolution t) fun _ _ => .ok _) h

theorem quiet {s' : Session} (hs : s.Apt options) (h : Quiet s s') : s'.Apt options where
  options := h.options.trans hs.options
  constraints := by rw [h.constraints]; exact hs.constraints
  solution := by rw [h.solution]; exact hs.solution

theorem require {s' : Session} (hs : s.Apt options) {sup sub : Ty} {location : Location}
    {answer : Except Fault Verdict} (h : s.require sup sub location = (answer, s')) :
    s'.Apt options := by
  obtain ⟨b, cs, ds, ps, hr, -, hmade⟩ := s.require_leaves sup sub location
  rw [h] at hr
  change s' = _ at hr
  rw [hr]
  refine ⟨hs.options, fun c hc => ?_, hs.solution⟩
  rcases hmade c hc with hc | hc
  · exact hs.constraints c hc
  · exact hc.apt

theorem perform (hs : s.Apt options) (op : Op) : (s.perform op).Apt options := by
  have hkeeps : Keeps (fun _ => True) fun s _ => Apt options s :=
    ⟨fun hs h => hs.quiet h, fun hs _ h => hs.require h⟩
  exact @Keeps.perform _ _ hkeeps s [] hs op fun _ _ => trivial

theorem close (hs : s.Apt options) {outcome : Fixpoint.Outcome} (ho : s.outcome = .ok outcome) :
    (s.close outcome).Apt options := by
  obtain ⟨policy, hsolve⟩ := solveBy_of_outcome ho
  unfold Session.close
  cases hv : outcome.violation with
  | some d =>
      exact ⟨hs.options, hs.constraints, fun solution h v set hset => by cases h; cases hset⟩
  | none =>
      have hsuccess : outcome.success = true := by rw [Fixpoint.Outcome.success, hv]; rfl
      obtain ⟨state, hrun, _, rfl⟩ := Fixpoint.solveBy_success hsolve hsuccess
      refine ⟨hs.options, hs.constraints, fun solution h v set hset => ?_⟩
      cases h
      rcases Solution.get?_extend ((Fixpoint.run_distinct hrun).mapValues _) s.issued v with
        hget | ⟨_, hget⟩
      · rw [Holdings.eq_toSet_of_get? (hget.symm.trans hset)]
        exact (Fixpoint.Regular.apt (p := ⟨s.constraints, policy, _⟩) hs.constraints
          (Fixpoint.Regular.run hrun)).1 v
      · cases hget.symm.trans hset
        exact fun e he => absurd he List.not_mem_nil

theorem act (hs : s.Apt options) (a : Action) : (s.act a).Apt options := by
  cases a with
  | op op => exact hs.perform op
  | solve =>
      show s.solve.2.Apt options
      by_cases hopen : s.status = .active
      · rcases solve_cases hopen with ⟨f, _, hf⟩ | ⟨outcome, ho, ds, hreports⟩
        · rw [hf]
          exact hs
        · rw [hreports]
          exact ⟨(hs.close ho).options, (hs.close ho).constraints, (hs.close ho).solution⟩
      · rw [solve, whileOpen_of_not_active hopen]
        exact hs
  | cancel =>
      show s.cancel.2.Apt options
      unfold Session.cancel
      split
      · exact hs
      · exact ⟨hs.options, fun _ h => absurd h List.not_mem_nil, hs.solution⟩
  | resolve t => exact hs

end Apt

/-- With a policy chosen, no action ends in an internal fault. In the constraints that
a session has recorded, in what is held and offered at every step of solving them, and
in the solution, no error variable has arguments. -/
theorem internal_faults_unreachable (options : Options) (registry : Registry) {policy : Policy}
    (hpolicy : options.policy.resolve = .ok policy) (actions : List Action) {s : Session}
    (hs : (Session.new options registry).actAll actions = s) :
    (∀ c ∈ s.constraints, ∀ set ∈ c.errorSets, set.Apt) ∧
    (∀ n state, (Fixpoint.Problem.mk s.constraints policy
          (View.mk s.options.order .empty s.bindings).holds).stateAfter
          (Fixpoint.State.start .empty s.constraints) n = some state →
      (∀ v, (state.holdings.of v).toSet.Apt) ∧
      ∀ c ∈ s.constraints, ∀ v incoming, c.contribution? state.holdings = some (v, incoming) →
        incoming.toSet.Apt) ∧
    (∀ solution, s.solution = some solution → ∀ v set, solution.get? v = some set → set.Apt) ∧
    ∀ a f, s.fault? a = some f → f.isInternal = false := by
  have hapt : s.Apt options :=
    hs ▸ actAll_keeps (fun a _ h => h.act a) (Apt.new options registry)
  refine ⟨hapt.constraints, fun n state hstate => ?_, hapt.solution, fun a f hf => ?_⟩
  · exact Fixpoint.Regular.apt (p := ⟨s.constraints, policy, _⟩) hapt.constraints
      (Fixpoint.Regular.stateAfter hstate)
  · exact hapt.external_of_fault? hpolicy hf

/-! One classifier comes with two arguments, and a rigid variable comes twice. The
arguments clash, the variable does not. -/

def disputed : Classifier := ⟨0, [], "A", [.invariant], some 0⟩

def disputedVar : ErrorVar := ⟨"E$0", .unbounded, true⟩

def rigidGuest : ErrorVar := ⟨"X", .unbounded, false⟩

def disputedSide (name : String) : Ty :=
  .union [.errorVar rigidGuest, .errorConst disputed [.con (.named name) []]]

def dispute : Session :=
  (Session.new .default (.holding 0 [disputed])).actAll
    [.op (.freshErrorVar "E" .unbounded),
      .op (.require (.errorVar disputedVar) (disputedSide "int") .unknown),
      .op (.require (.errorVar disputedVar) (disputedSide "str") .unknown)]

theorem internal_faults_unreachable_in_dispute :
    dispute.constraints.length = 2 ∧ (∀ c ∈ dispute.constraints, ∀ set ∈ c.errorSets, set.Apt) ∧
    (∃ state, (Fixpoint.Problem.mk dispute.constraints .strict
        (View.mk dispute.options.order .empty dispute.bindings).holds).stateAfter
        (Fixpoint.State.start .empty dispute.constraints) 1 = some state ∧
      (state.holdings.of disputedVar).toSet.contains (.var rigidGuest) = true ∧
      (state.holdings.of disputedVar).toSet.Apt) ∧
    ∃ f, dispute.fault? (.op (.annotateNode "n" none)) = some f ∧ f.isInternal = false := by
  obtain ⟨hconstraints, hstates, -, hfaults⟩ :=
    internal_faults_unreachable (s := dispute) .default _ rfl _ rfl
  exact ⟨rfl, hconstraints, ⟨_, rfl, rfl, (hstates 1 _ rfl).1 _⟩, _, rfl,
    hfaults (.op (.annotateNode "n" none)) _ rfl⟩

end Session

end Fallible
