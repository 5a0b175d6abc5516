import Fallible.Proofs.SessionRun
import Fallible.Session.Conclusion

/-!
# The life of a session

A session is open until it is solved or abandoned, and nothing opens it again.
Its host may go on: some operations ask first whether the session is open, and
others do not. It makes no difference to what the session was concluded with.
Those that ask end in a fault before they change anything. Those that do not ask
build unions, put types in the place of parameters, or attach types to nodes,
and only leave diagnostics and annotations behind. Abandoning a session once
more empties what is empty.

What a type resolves to rests on the bindings, the solution and the poisoned
variables alone, so after the conclusion every type keeps its answer.
-/

namespace Fallible

namespace Session

/-! ## What a host does -/

/-- What a host may do with a session at any time. -/
inductive Action where
  /-- One of the operations that are meant for an open session. -/
  | op (op : Op)
  | solve
  | cancel
  | resolve (t : Ty)

/-- The session after an action, also after one that ends in a fault. -/
def act (s : Session) : Action → Session
  | .op op => s.perform op
  | .solve => s.solve.2
  | .cancel => s.cancel.2
  | .resolve _ => s

/-- The session after several actions. -/
def actAll (s : Session) : List Action → Session
  | [] => s
  | a :: as => (s.act a).actAll as

/-- What each action keeps, every run keeps. -/
theorem actAll_keeps {P : Session → Prop} {as : List Action}
    (hstep : ∀ {s : Session}, ∀ a ∈ as, P s → P (s.act a)) {s : Session} (hs : P s) :
    P (s.actAll as) := by
  induction as generalizing s with
  | nil => exact hs
  | cons a as ih =>
      exact ih (fun b hb => hstep b (List.mem_cons_of_mem a hb)) (hstep a List.mem_cons_self hs)

/-! ## Operations that only report -/

/-- Whether one session is another with other diagnostics. -/
def Reports (s s' : Session) : Prop := ∃ ds, s' = { s with diagnostics := ds }

theorem Reports.refl (s : Session) : Reports s s := ⟨s.diagnostics, rfl⟩

theorem Reports.trans {s s' s'' : Session} (h : Reports s s') (h' : Reports s' s'') :
    Reports s s'' := by
  obtain ⟨ds, rfl⟩ := h
  obtain ⟨ds', rfl⟩ := h'
  exact ⟨ds', rfl⟩

theorem reports_report (s : Session) (location : Location) (cause : Cause) :
    Reports s (s.report location cause) := ⟨_, rfl⟩

theorem reports_union (s : Session) (members : List Ty) (location : Location) :
    Reports s (s.union members location).2 := by
  unfold union
  split
  · exact s.reports_report location _
  · exact .refl s

theorem reports_checked (s : Session) (location : Location) (t : Ty) :
    Reports s (s.checked location t).2 := by
  unfold checked
  split
  · exact s.reports_report location _
  · exact .refl s

theorem reports_checkedAll (s : Session) (location : Location) (ts : List Ty) :
    Reports s (s.checkedAll location ts).2 := by
  induction ts generalizing s with
  | nil => exact .refl s
  | cons t ts ih => exact (s.reports_checked location t).trans (ih _)

theorem reports_revalidate (s : Session) (solution : Solution) (ps : List Pending) :
    Reports s (s.revalidate solution ps).2 := by
  induction ps generalizing s with
  | nil => exact .refl s
  | cons p rest ih =>
      unfold revalidate
      split
      · exact .refl s
      · exact ih s
      · exact (s.reports_report p.location _).trans (ih _)

theorem reports_review (s : Session) (outcome : Fixpoint.Outcome) :
    Reports s (s.review outcome).2 := by
  unfold review
  split
  · split
    · exact s.reports_revalidate _ _
    · exact .refl s
  · exact .refl s

theorem reports_resolveAll (s : Session) (es : List (String × Ty × Location))
    (types : Table String Ty) : Reports s (s.resolveAll es types).2 := by
  induction es generalizing s types with
  | nil => exact .refl s
  | cons e rest ih =>
      obtain ⟨node, t, location⟩ := e
      unfold resolveAll
      split
      · exact .refl s
      · exact ih s _
      · exact (s.reports_report location _).trans (ih _ _)

theorem reports_finish (s : Session) : Reports s s.finish.2 := by
  have hall := s.reports_resolveAll s.annotations.entries .empty
  unfold finish
  split
  · next h => rw [h] at hall; exact hall
  · next h => rw [h] at hall; exact hall

/-! ## What checks leave alone -/

/-- What only a conclusion changes, and the annotations. -/
structure Frame where
  options : Options
  registry : Registry
  status : Status
  solution : Option Solution
  poisoned : List ErrorVar
  annotations : Table String (Ty × Location)

/-- The part of a session that checks leave alone. -/
def frame (s : Session) : Frame :=
  ⟨s.options, s.registry, s.status, s.solution, s.poisoned, s.annotations⟩

/-- What an operation attaches to a node. -/
def Op.annotation? : Op → Option (String × Ty × Location)
  | .annotateNode node t => t.map fun t => (node, t, .unknown)
  | .annotateExpr e t => some (e.node, t.getD e.type, e.location)
  | _ => none

theorem Reports.frame {s s' : Session} (h : Reports s s') : s'.frame = s.frame := by
  obtain ⟨ds, rfl⟩ := h
  rfl

section Frame

variable (s : Session)

theorem frame_whileOpen {α : Type} {s : Session} {op : Except Fault α × Session}
    (h : op.2.frame = s.frame) : (s.whileOpen op).2.frame = s.frame := by
  rcases s.whileOpen_cases op with ho | ⟨f, ho⟩
  · rw [ho]; exact h
  · rw [ho]

theorem frame_freshParams (params : List TypeParam) (images : Table Ty Ty) :
    (s.freshParams params images).2.frame = s.frame := by
  induction params generalizing s images with
  | nil => rfl
  | cons p rest ih =>
      cases p with
      | type name flexible =>
          have hfresh : (s.freshTyVar name).2.frame = s.frame := frame_whileOpen rfl
          unfold freshParams
          split
          · next h => rw [h] at hfresh; exact hfresh
          · next h => rw [h] at hfresh; exact (ih _ _).trans hfresh
      | error v =>
          have hfresh : (s.freshErrorVar v.name v.bound).2.frame = s.frame := frame_whileOpen rfl
          unfold freshParams
          split
          · next h => rw [h] at hfresh; exact hfresh
          · next h => rw [h] at hfresh; exact (ih _ _).trans hfresh

theorem frame_instantiate (sig : Signature) (location : Location) :
    (s.instantiate sig location).2.frame = s.frame := by
  have hfresh := s.frame_freshParams sig.typeParams .empty
  unfold instantiate
  split
  · next h => rw [h] at hfresh; exact hfresh
  · next h =>
      rw [h] at hfresh
      exact ((reports_checkedAll _ location _).trans (reports_checked _ location _)).frame.trans
        hfresh

theorem frame_require (sup sub : Ty) (location : Location) :
    (s.require sup sub location).2.frame = s.frame := by
  rcases s.require_cases sup sub location with ⟨f, hr⟩ | ⟨f, e, _, hr⟩ | ⟨verdict, e, _, hr⟩
  · rw [hr]
  · rw [hr]; rfl
  · rw [hr]; cases verdict <;> rfl

theorem frame_requireArgs (pairs : List (Ty × TypedExpr)) :
    (s.requireArgs pairs).2.frame = s.frame := by
  induction pairs generalizing s with
  | nil => rfl
  | cons pair rest ih =>
      obtain ⟨param, arg⟩ := pair
      have hreq : (s.requireExpr param arg).2.frame = s.frame := frame_require s _ _ _
      unfold requireArgs
      split
      · next h => rw [h] at hreq; exact hreq
      · next h => rw [h] at hreq; exact (ih _).trans hreq

theorem frame_call (sig : Signature) (args : List TypedExpr) (location : Location) :
    (s.call sig args location).2.frame = s.frame := by
  have hinst := s.frame_instantiate sig location
  unfold call
  split
  · rfl
  · split
    · next h => rw [h] at hinst; exact hinst
    · next params returns s' h =>
        rw [h] at hinst
        have hargs := s'.frame_requireArgs (params.zip args)
        split
        · next hr => rw [hr] at hargs; exact hargs.trans hinst
        · next hr => rw [hr] at hargs; exact hargs.trans hinst

/-- An operation changes the frame by what it attaches to a node, if anything. -/
theorem frame_perform (op : Op) :
    (s.perform op).frame = match op.annotation? with
      | none => s.frame
      | some (node, t, location) => (s.annotate node t location).frame := by
  cases op with
  | freshErrorVar base bound => exact frame_whileOpen rfl
  | freshTyVar base => exact frame_whileOpen rfl
  | union members location => exact (s.reports_union members location).frame
  | require sup sub location => exact s.frame_require sup sub location
  | requireExpr sup e => exact s.frame_require sup e.type e.location
  | instantiate sig location => exact s.frame_instantiate sig location
  | call sig args location => exact s.frame_call sig args location
  | annotateNode node t => cases t <;> rfl
  | annotateExpr e t => rfl

end Frame

/-! ## What a conclusion consists of -/

/-- All that answers after the conclusion rest on. -/
structure Core where
  status : Status
  constraints : List Constraint
  pending : List Pending
  bindings : Bindings
  solution : Option Solution
  poisoned : List ErrorVar

/-- The part of a session that its conclusion settles. -/
def core (s : Session) : Core :=
  ⟨s.status, s.constraints, s.pending, s.bindings, s.solution, s.poisoned⟩

theorem Reports.core {s s' : Session} (h : Reports s s') : s'.core = s.core := by
  obtain ⟨ds, rfl⟩ := h
  rfl

theorem resolve_of_core {s s' : Session} (h : s'.core = s.core) (t : Ty) :
    s'.resolve t = s.resolve t := by
  have hbindings : s'.bindings = s.bindings := congrArg Core.bindings h
  have hsolution : s'.solution = s.solution := congrArg Core.solution h
  have hpoisoned : s'.poisoned = s.poisoned := congrArg Core.poisoned h
  unfold resolve resolution
  rw [hbindings, hsolution, hpoisoned]

/-- Whether nothing is left of the checks that were made. -/
structure Cleared (s : Session) : Prop where
  constraints : s.constraints = []
  pending : s.pending = []
  bindings : s.bindings = .empty

/-- Whether a session is solved, or abandoned with nothing left. -/
def Closed (s : Session) : Prop := s.status = .solved ∨ s.status = .cancelled ∧ s.Cleared

theorem Closed.not_active {s : Session} (h : s.Closed) : s.status ≠ .active := by
  rcases h with h | ⟨h, _⟩ <;> rw [h] <;> exact Status.noConfusion

theorem Closed.of_core {s s' : Session} (hs : s.Closed) (h : s'.core = s.core) : s'.Closed := by
  have hstatus : s'.status = s.status := congrArg Core.status h
  rcases hs with hs | ⟨hs, hc, hp, hb⟩
  · exact Or.inl (hstatus.trans hs)
  · exact Or.inr ⟨hstatus.trans hs, (congrArg Core.constraints h).trans hc,
      (congrArg Core.pending h).trans hp, (congrArg Core.bindings h).trans hb⟩

/-! ## Actions on a closed session -/

theorem whileOpen_of_active {α : Type} {s : Session} (h : s.status = .active)
    (op : Except Fault α × Session) : s.whileOpen op = op := by
  unfold whileOpen
  rw [h]

section Closed

variable {s : Session} (h : s.status ≠ .active)

include h

theorem whileOpen_of_not_active {α : Type} (op : Except Fault α × Session) :
    s.whileOpen op = (.error (.notOpen s.status), s) := by
  unfold whileOpen
  split
  · next ha => exact absurd ha h
  · rfl

/-- Fresh variables are refused, so only a signature without parameters is used. -/
theorem freshParams_of_not_active (params : List TypeParam) (images : Table Ty Ty) :
    (s.freshParams params images).2 = s := by
  cases params with
  | nil => rfl
  | cons p rest =>
      cases p with
      | type name flexible => rw [freshParams, freshTyVar, whileOpen_of_not_active h]
      | error v => rw [freshParams, freshErrorVar, whileOpen_of_not_active h]

theorem reports_instantiate (sig : Signature) (location : Location) :
    Reports s (s.instantiate sig location).2 := by
  have hfresh := freshParams_of_not_active h sig.typeParams .empty
  unfold instantiate
  split
  · next hf => rw [hf] at hfresh; subst hfresh; exact .refl _
  · next hf =>
      rw [hf] at hfresh
      subst hfresh
      exact (reports_checkedAll _ location _).trans (reports_checked _ location _)

theorem requireArgs_of_not_active (pairs : List (Ty × TypedExpr)) :
    (s.requireArgs pairs).2 = s := by
  cases pairs with
  | nil => rfl
  | cons pair rest =>
      obtain ⟨param, arg⟩ := pair
      rw [requireArgs, requireExpr, require, whileOpen_of_not_active h]

theorem reports_call (sig : Signature) (args : List TypedExpr) (location : Location) :
    Reports s (s.call sig args location).2 := by
  have hinst := reports_instantiate h sig location
  unfold call
  split
  · exact .refl s
  · split
    · next hi => rw [hi] at hinst; exact hinst
    · next params returns s' hi =>
        rw [hi] at hinst
        have hopen : s'.status ≠ .active := fun ha =>
          h ((congrArg Core.status hinst.core).symm.trans ha)
        have hargs := requireArgs_of_not_active hopen (params.zip args)
        split
        · next hr => rw [hr] at hargs; subst hargs; exact hinst
        · next hr => rw [hr] at hargs; subst hargs; exact hinst

theorem core_perform (op : Op) : (s.perform op).core = s.core := by
  cases op with
  | freshErrorVar base bound => rw [perform, freshErrorVar, whileOpen_of_not_active h]
  | freshTyVar base => rw [perform, freshTyVar, whileOpen_of_not_active h]
  | union members location => exact (s.reports_union members location).core
  | require sup sub location => rw [perform, require, whileOpen_of_not_active h]
  | requireExpr sup e => rw [perform, requireExpr, require, whileOpen_of_not_active h]
  | instantiate sig location => exact (reports_instantiate h sig location).core
  | call sig args location => exact (reports_call h sig args location).core
  | annotateNode node t => cases t <;> rfl
  | annotateExpr e t => rfl

end Closed

/-- No action changes what a session was concluded with. -/
theorem Closed.core_act {s : Session} (hs : s.Closed) (a : Action) : (s.act a).core = s.core := by
  have hopen := hs.not_active
  cases a with
  | op op => exact core_perform hopen op
  | solve => rw [act, solve, whileOpen_of_not_active hopen]
  | resolve t => rfl
  | cancel =>
      rcases hs with hs | ⟨hs, hc, hp, hb⟩
      · rw [act, cancel, hs]
      · rw [act, cancel, hs, core, core, hs, hc, hp, hb]

/-- No run of actions changes what a session was concluded with. -/
theorem Closed.core_actAll {s : Session} (hs : s.Closed) (as : List Action) :
    (s.actAll as).core = s.core :=
  actAll_keeps (P := fun s' => s'.core = s.core)
    (fun a _ h => ((hs.of_core h).core_act a).trans h) rfl

/-! ## Conclusions -/

/-- Solving an open session leaves it as it is, if its constraints cannot be solved
at all, and otherwise closes it, whatever comes of the checks that follow. -/
theorem solve_cases {s : Session} (h : s.status = .active) :
    (∃ f, s.outcome = .error f ∧ s.solve = (.error f, s)) ∨
      ∃ outcome, s.outcome = .ok outcome ∧ Reports (s.close outcome) s.solve.2 := by
  rw [solve, whileOpen_of_active h]
  cases ho : s.outcome with
  | error f => exact Or.inl ⟨f, rfl, rfl⟩
  | ok outcome =>
      have hreview := (s.close outcome).reports_review outcome
      refine Or.inr ⟨outcome, rfl, ?_⟩
      dsimp only
      split
      · next hr => rw [hr] at hreview; exact hreview
      · next hr => rw [hr] at hreview; exact hreview.trans (reports_finish _)

theorem status_close (s : Session) (outcome : Fixpoint.Outcome) :
    (s.close outcome).status = .solved := by
  unfold close
  split <;> rfl

theorem solved_of_solve {s s' : Session} {report : SessionReport}
    (h : s.solve = (.ok report, s')) : s'.status = .solved := by
  by_cases hopen : s.status = .active
  · rcases solve_cases hopen with ⟨f, _, hf⟩ | ⟨outcome, _, hreports⟩
    · cases hf.symm.trans h
    · rw [h] at hreports
      exact (congrArg Core.status hreports.core).trans (status_close s outcome)
  · rw [solve, whileOpen_of_not_active hopen] at h
    cases h

theorem cancelled_of_cancel {s s' : Session} (h : s.cancel = (.ok (), s')) :
    s'.status = .cancelled ∧ s'.Cleared := by
  unfold cancel at h
  split at h
  · cases h
  · cases h
    exact ⟨rfl, rfl, rfl, rfl⟩

/-- Whether a later session still stands where an earlier one did. -/
structure Frozen (s later : Session) : Prop where
  status : later.status = s.status
  constraints : later.constraints = s.constraints
  pending : later.pending = s.pending
  bindings : later.bindings = s.bindings
  solution : later.solution = s.solution
  resolve : ∀ t, later.resolve t = s.resolve t

theorem Closed.frozen {s : Session} (hs : s.Closed) (as : List Action) :
    Frozen s (s.actAll as) :=
  have hcore := hs.core_actAll as
  ⟨congrArg Core.status hcore, congrArg Core.constraints hcore, congrArg Core.pending hcore,
    congrArg Core.bindings hcore, congrArg Core.solution hcore, resolve_of_core hcore⟩

/-- A session that was solved or abandoned stays so, and keeps what it was concluded
with, whatever its host does. One that was abandoned has nothing left, and is never
solved. -/
theorem conclusion_is_final (s s' : Session) (actions : List Action) :
    (∀ report, s.solve = (.ok report, s') →
      s'.status = .solved ∧ Frozen s' (s'.actAll actions)) ∧
    (s.cancel = (.ok (), s') →
      s'.status = .cancelled ∧ Frozen s' (s'.actAll actions) ∧
        (s'.actAll actions).constraints = [] ∧ (s'.actAll actions).pending = [] ∧
        (s'.actAll actions).bindings = .empty ∧
        (s'.actAll actions).solve = (.error (.notOpen .cancelled), s'.actAll actions)) := by
  refine ⟨fun report h => ?_, fun h => ?_⟩
  · have hsolved := solved_of_solve h
    exact ⟨hsolved, Closed.frozen (Or.inl hsolved) actions⟩
  · obtain ⟨hcancelled, hcleared⟩ := cancelled_of_cancel h
    have hfrozen := Closed.frozen (Or.inr ⟨hcancelled, hcleared⟩) actions
    have hstatus := hfrozen.status.trans hcancelled
    refine ⟨hcancelled, hfrozen, hfrozen.constraints.trans hcleared.constraints,
      hfrozen.pending.trans hcleared.pending, hfrozen.bindings.trans hcleared.bindings, ?_⟩
    rw [solve, whileOpen_of_not_active (by rw [hstatus]; exact Status.noConfusion), hstatus]

/-! A requirement binds a projection and has to wait for an error. Afterwards every
kind of action is tried. -/

def errandFault : Classifier := ⟨0, [], "A", [], some 0⟩

def errandRegistry : Registry := .holding 0 [errandFault]

def errandInt : Ty := .con (.named "int") []

def errandVar : Ty := .errorVar ⟨"E$0", .unbounded, true⟩

def errand : Session :=
  (Session.new .default errandRegistry).run
    [.freshErrorVar "E" .unbounded, .freshTyVar "T",
      .require (.union [.valueProj "T$1" true, errandVar])
        (.union [errandInt, .errorConst errandFault []]) .unknown]

def errandSignature : Signature := ⟨"pair", [], [], .union [errandInt, errandVar, errandVar]⟩

def errandActions : List Action :=
  [.op (.freshErrorVar "E" .unbounded), .op (.freshTyVar "T"),
    .op (.union [errandInt, errandInt] .unknown), .op (.require errandVar .error .unknown),
    .op (.requireExpr errandVar ⟨"n", .error, .unknown⟩),
    .op (.instantiate errandSignature .unknown), .op (.call errandSignature [] .unknown),
    .op (.annotateNode "n" (some errandVar)), .op (.annotateExpr ⟨"m", errandVar, .unknown⟩ none),
    .solve, .cancel, .resolve errandVar]

theorem conclusion_is_final_for_errand :
    (∃ report s', errand.solve = (.ok report, s') ∧ report.success = true ∧
      s'.bindings.contains "T$1" = true ∧ s'.resolve errandVar = .ok (.errorConst errandFault []) ∧
      (s'.actAll errandActions).diagnostics.length = 3 ∧ Frozen s' (s'.actAll errandActions)) ∧
    ∃ s', errand.cancel = (.ok (), s') ∧ (s'.actAll errandActions).diagnostics.length = 3 ∧
      Frozen s' (s'.actAll errandActions) ∧
      (s'.actAll errandActions).solve =
        (.error (.notOpen .cancelled), s'.actAll errandActions) :=
  ⟨⟨_, _, rfl, rfl, rfl, rfl, rfl,
      ((conclusion_is_final errand _ errandActions).1 _ rfl).2⟩,
    ⟨_, rfl, rfl, ((conclusion_is_final errand _ errandActions).2 rfl).2.1,
      ((conclusion_is_final errand _ errandActions).2 rfl).2.2.2.2.2⟩⟩

end Session

end Fallible
