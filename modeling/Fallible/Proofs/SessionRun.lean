import Fallible.Proofs.Requirement
import Fallible.Session.Call

/-!
# Runs of an open session

While a session is open its host may do nine things with it, in any order. Only
requirements matter to what the session will find out; some are made outright
and some by checking a call, one for each argument until there is a fault. All
other operations are quiet: they hand out variables, report, and attach types
to nodes.

A property that quiet operations and requirements keep holds after every run. One
such property is this: bindings have grown one by one, constraints are plain,
variables that were handed out are flexible, and as long as nothing was reported
every requirement that got an answer is met.
-/

namespace Fallible

namespace Session

/-! ## What a host does -/

/-- A requirement that was made, and what came of it. -/
structure Request where
  sup : Ty
  sub : Ty
  answer : Except Fault Verdict

/-- What a host may do with an open session. -/
inductive Op where
  | freshErrorVar (base : String) (bound : Universe)
  | freshTyVar (base : String)
  | union (members : List Ty) (location : Location)
  | require (sup sub : Ty) (location : Location)
  /-- An expression is assigned, or returned, where a type is expected. -/
  | requireExpr (sup : Ty) (e : TypedExpr)
  | instantiate (sig : Signature) (location : Location)
  | call (sig : Signature) (args : List TypedExpr) (location : Location)
  | annotateNode (node : String) (t : Option Ty)
  | annotateExpr (e : TypedExpr) (t : Option Ty)

/-- The session after an operation. -/
def perform (s : Session) : Op → Session
  | .freshErrorVar base bound => (s.freshErrorVar base bound).2
  | .freshTyVar base => (s.freshTyVar base).2
  | .union members location => (s.union members location).2
  | .require sup sub location => (s.require sup sub location).2
  | .requireExpr sup e => (s.requireExpr sup e).2
  | .instantiate sig location => (s.instantiate sig location).2
  | .call sig args location => (s.call sig args location).2
  | .annotateNode node t => (s.annotateNode node t).2
  | .annotateExpr e t => s.annotateExpr e t

/-- The requirements that checking arguments makes. -/
def argRequests (s : Session) : List (Ty × TypedExpr) → List Request
  | [] => []
  | (param, arg) :: rest =>
      match s.requireExpr param arg with
      | (.error f, _) => [⟨param, arg.type, .error f⟩]
      | (.ok verdict, s) => ⟨param, arg.type, .ok verdict⟩ :: s.argRequests rest

/-- The requirements that an operation makes. -/
def requests (s : Session) : Op → List Request
  | .require sup sub location => [⟨sup, sub, (s.require sup sub location).1⟩]
  | .requireExpr sup e => [⟨sup, e.type, (s.requireExpr sup e).1⟩]
  | .call sig args location =>
      if args.length != sig.params.length then []
      else
        match s.instantiate sig location with
        | (.error _, _) => []
        | (.ok (params, _), s) => s.argRequests (params.zip args)
  | _ => []

/-- The session after several operations. -/
def run (s : Session) : List Op → Session
  | [] => s
  | op :: ops => (s.perform op).run ops

/-- The requirements that several operations make. -/
def allRequests (s : Session) : List Op → List Request
  | [] => []
  | op :: ops => s.requests op ++ (s.perform op).allRequests ops

/-- Whether both types of a requirement may be asked about. -/
structure Request.Admissible (known : ErrorVar → Prop) (r : Request) : Prop where
  sup : r.sup.Admissible known
  sub : r.sub.Admissible known

instance (known : ErrorVar → Prop) [DecidablePred known] (r : Request) :
    Decidable (r.Admissible known) :=
  decidable_of_iff (r.sup.Admissible known ∧ r.sub.Admissible known)
    ⟨fun h => ⟨h.1, h.2⟩, fun h => ⟨h.sup, h.sub⟩⟩

/-! ## Quiet operations -/

theorem whileOpen_cases {α : Type} (s : Session) (op : Except Fault α × Session) :
    s.whileOpen op = op ∨ ∃ f, s.whileOpen op = (.error f, s) := by
  unfold whileOpen
  split
  · exact Or.inl rfl
  · exact Or.inr ⟨_, rfl⟩

/-- Whether an operation leaves everything alone that requirements rest on. -/
structure Quiet (s s' : Session) : Prop where
  options : s'.options = s.options
  solution : s'.solution = s.solution
  poisoned : s'.poisoned = s.poisoned
  bindings : s'.bindings = s.bindings
  constraints : s'.constraints = s.constraints
  issued : ∀ v ∈ s'.issued, v ∈ s.issued ∨ v.flexible = true
  diagnostics : s'.diagnostics = [] → s.diagnostics = []

theorem Quiet.refl (s : Session) : Quiet s s :=
  ⟨rfl, rfl, rfl, rfl, rfl, fun _ hv => Or.inl hv, fun h => h⟩

theorem Quiet.trans {s s' s'' : Session} (h : Quiet s s') (h' : Quiet s' s'') : Quiet s s'' where
  options := h'.options.trans h.options
  solution := h'.solution.trans h.solution
  poisoned := h'.poisoned.trans h.poisoned
  bindings := h'.bindings.trans h.bindings
  constraints := h'.constraints.trans h.constraints
  issued v hv := by
    rcases h'.issued v hv with hv | hv
    · exact h.issued v hv
    · exact Or.inr hv
  diagnostics hd := h.diagnostics (h'.diagnostics hd)

theorem quiet_report (s : Session) (location : Location) (cause : Cause) :
    Quiet s (s.report location cause) :=
  { Quiet.refl s with diagnostics := fun hd => by simp [report] at hd }

theorem quiet_whileOpen {α : Type} {s : Session} {op : Except Fault α × Session}
    (h : Quiet s op.2) : Quiet s (s.whileOpen op).2 := by
  rcases s.whileOpen_cases op with ho | ⟨f, ho⟩
  · rw [ho]; exact h
  · rw [ho]; exact .refl s

theorem quiet_issue (s : Session) {v : ErrorVar} (hv : v.flexible = true) :
    Quiet s (s.issue v) :=
  { Quiet.refl s with
    issued := fun w hw => by
      unfold issue at hw
      simp only at hw
      split at hw
      · exact Or.inl hw
      · rcases List.mem_append.1 hw with hw | hw
        · exact Or.inl hw
        · rw [List.mem_singleton.1 hw]; exact Or.inr hv }

theorem quiet_freshErrorVar (s : Session) (base : String) (bound : Universe) :
    Quiet s (s.freshErrorVar base bound).2 :=
  quiet_whileOpen (quiet_issue s rfl)

theorem quiet_freshTyVar (s : Session) (base : String) : Quiet s (s.freshTyVar base).2 :=
  quiet_whileOpen (quiet_issue s rfl)

theorem quiet_union (s : Session) (members : List Ty) (location : Location) :
    Quiet s (s.union members location).2 := by
  unfold union
  split
  · exact quiet_report s location _
  · exact .refl s

theorem quiet_checked (s : Session) (location : Location) (t : Ty) :
    Quiet s (s.checked location t).2 := by
  unfold checked
  split
  · exact quiet_report s location _
  · exact .refl s

theorem quiet_checkedAll (location : Location) (ts : List Ty) (s : Session) :
    Quiet s (s.checkedAll location ts).2 := by
  induction ts generalizing s with
  | nil => exact .refl s
  | cons t ts ih => exact (quiet_checked s location t).trans (ih _)

theorem quiet_freshParams (params : List TypeParam) (s : Session) (images : Table Ty Ty) :
    Quiet s (s.freshParams params images).2 := by
  induction params generalizing s images with
  | nil => exact .refl s
  | cons p rest ih =>
      cases p with
      | type name flexible =>
          have hfresh := quiet_freshTyVar s name
          unfold freshParams
          split
          · next h => rw [h] at hfresh; exact hfresh
          · next h => rw [h] at hfresh; exact hfresh.trans (ih _ _)
      | error v =>
          have hfresh := quiet_freshErrorVar s v.name v.bound
          unfold freshParams
          split
          · next h => rw [h] at hfresh; exact hfresh
          · next h => rw [h] at hfresh; exact hfresh.trans (ih _ _)

theorem quiet_instantiate (s : Session) (sig : Signature) (location : Location) :
    Quiet s (s.instantiate sig location).2 := by
  have hfresh := quiet_freshParams sig.typeParams s .empty
  unfold instantiate
  split
  · next h => rw [h] at hfresh; exact hfresh
  · next h =>
      rw [h] at hfresh
      exact (hfresh.trans (quiet_checkedAll location _ _)).trans (quiet_checked _ location _)

theorem quiet_annotateNode (s : Session) (node : String) (t : Option Ty) :
    Quiet s (s.annotateNode node t).2 := by
  cases t with
  | none => exact .refl s
  | some t => exact ⟨rfl, rfl, rfl, rfl, rfl, fun _ hv => Or.inl hv, fun h => h⟩

/-! ## What every operation keeps -/

/-- Whether a property of sessions, and of the requirements made in them, is kept by
quiet steps and by requirements that are allowed. -/
structure Keeps (allowed : Request → Prop) (P : Session → List Request → Prop) : Prop where
  quiet : ∀ {s s' : Session} {asked : List Request}, P s asked → Quiet s s' → P s' asked
  require : ∀ {s s' : Session} {asked : List Request} {sup sub : Ty} {location : Location}
    {answer : Except Fault Verdict}, P s asked → allowed ⟨sup, sub, answer⟩ →
    s.require sup sub location = (answer, s') → P s' (asked ++ [⟨sup, sub, answer⟩])

namespace Keeps

variable {allowed : Request → Prop} {P : Session → List Request → Prop} (hP : Keeps allowed P)

include hP

theorem requireArgs (pairs : List (Ty × TypedExpr)) :
    ∀ {s : Session} {asked : List Request}, P s asked →
      (∀ r ∈ s.argRequests pairs, allowed r) →
      P (s.requireArgs pairs).2 (asked ++ s.argRequests pairs) := by
  induction pairs with
  | nil => intro s asked hs _; rw [argRequests, List.append_nil]; exact hs
  | cons pair rest ih =>
      intro s asked hs hall
      obtain ⟨param, arg⟩ := pair
      rw [Session.requireArgs]
      rw [argRequests] at hall ⊢
      cases hreq : s.requireExpr param arg with
      | mk answer s' =>
          rw [hreq] at hall
          cases answer with
          | error f => exact hP.require hs (hall _ List.mem_cons_self) hreq
          | ok verdict =>
              have hnext := ih (hP.require hs (hall _ List.mem_cons_self) hreq)
                fun r hr => hall r (List.mem_cons_of_mem _ hr)
              rw [List.append_assoc] at hnext
              exact hnext

theorem call {s : Session} {asked : List Request} (hs : P s asked) {sig : Signature}
    {args : List TypedExpr} {location : Location}
    (hall : ∀ r ∈ s.requests (.call sig args location), allowed r) :
    P (s.call sig args location).2 (asked ++ s.requests (.call sig args location)) := by
  rw [requests] at hall ⊢
  rw [Session.call]
  have hquiet := quiet_instantiate s sig location
  split
  · rw [List.append_nil]; exact hs
  · next hlen =>
      rw [if_neg hlen] at hall
      cases hinst : s.instantiate sig location with
      | mk answer s' =>
          rw [hinst] at hall hquiet
          cases answer with
          | error f =>
              rw [List.append_nil]
              exact hP.quiet hs hquiet
          | ok types =>
              obtain ⟨params, returns⟩ := types
              have hargs := hP.requireArgs (params.zip args) (hP.quiet hs hquiet) hall
              dsimp only
              split
              · next h => rw [h] at hargs; exact hargs
              · next h => rw [h] at hargs; exact hargs

theorem perform {s : Session} {asked : List Request} (hs : P s asked) (op : Op)
    (hall : ∀ r ∈ s.requests op, allowed r) : P (s.perform op) (asked ++ s.requests op) := by
  have hsilent : ∀ {s' : Session}, Quiet s s' → P s' (asked ++ []) := by
    intro s' h
    rw [List.append_nil]
    exact hP.quiet hs h
  cases op with
  | freshErrorVar base bound => exact hsilent (quiet_freshErrorVar s base bound)
  | freshTyVar base => exact hsilent (quiet_freshTyVar s base)
  | union members location => exact hsilent (quiet_union s members location)
  | require sup sub location => exact hP.require hs (hall _ List.mem_cons_self) rfl
  | requireExpr sup e => exact hP.require hs (hall _ List.mem_cons_self) rfl
  | instantiate sig location => exact hsilent (quiet_instantiate s sig location)
  | call sig args location => exact hP.call hs hall
  | annotateNode node t => exact hsilent (quiet_annotateNode s node t)
  | annotateExpr e t =>
      exact hsilent ⟨rfl, rfl, rfl, rfl, rfl, fun _ hv => Or.inl hv, fun h => h⟩

/-- What each step keeps, every run keeps. -/
theorem run (ops : List Op) : ∀ {s : Session} {asked : List Request}, P s asked →
    (∀ r ∈ s.allRequests ops, allowed r) → P (s.run ops) (asked ++ s.allRequests ops) := by
  induction ops with
  | nil => intro s asked hs _; rw [allRequests, List.append_nil]; exact hs
  | cons op ops ih =>
      intro s asked hs hall
      rw [Session.run]
      rw [allRequests] at hall ⊢
      rw [← List.append_assoc]
      exact ih (hP.perform hs op fun r hr => hall r (List.mem_append_left _ hr))
        fun r hr => hall r (List.mem_append_right _ hr)

end Keeps

/-! ## Sound sessions -/

/-- What is true of an open session and the requirements made in it. -/
structure Sound (known : ErrorVar → Prop) (s : Session) (asked : List Request) : Prop where
  order : s.options.order = .classes
  poisoned : s.poisoned = []
  issued : ∀ v ∈ s.issued, v.flexible = true
  grown : s.bindings.Grown known
  plain : ∀ c ∈ s.constraints, c.Plain
  admissible : ∀ r ∈ asked, r.Admissible known
  met : s.diagnostics = [] → ∀ r ∈ asked, ∀ verdict, r.answer = .ok verdict →
    Met s.bindings s.constraints r.sup r.sub

section Sound

variable {known : ErrorVar → Prop} {s : Session} {asked : List Request}

theorem Sound.new {options : Options} (h : options.order = .classes) (registry : Registry) :
    Sound known (Session.new options registry) [] where
  order := h
  poisoned := rfl
  issued _ hv := absurd hv List.not_mem_nil
  grown := .empty
  plain _ hc := absurd hc List.not_mem_nil
  admissible _ hr := absurd hr List.not_mem_nil
  met _ _ hr := absurd hr List.not_mem_nil

theorem Sound.quiet (hs : Sound known s asked) {s' : Session} (h : Quiet s s') :
    Sound known s' asked where
  order := by rw [h.options]; exact hs.order
  poisoned := by rw [h.poisoned]; exact hs.poisoned
  issued v hv := by
    rcases h.issued v hv with hv | hv
    · exact hs.issued v hv
    · exact hv
  grown := by rw [h.bindings]; exact hs.grown
  plain := by rw [h.constraints]; exact hs.plain
  admissible := hs.admissible
  met hd r hr verdict hv := by
    rw [h.bindings, h.constraints]
    exact hs.met (h.diagnostics hd) r hr verdict hv

/-- What a requirement changes in a session. -/
structure Requires (known : ErrorVar → Prop) (s : Session) (r : Request) (s' : Session) :
    Prop where
  options : s'.options = s.options
  poisoned : s'.poisoned = s.poisoned
  issued : s'.issued = s.issued
  bindings : s.bindings.Step known s'.bindings
  constraints : Added s.constraints s'.constraints
  diagnostics : s'.diagnostics = [] → s.diagnostics = []
  met : s'.diagnostics = [] → ∀ verdict, r.answer = .ok verdict →
    Met s'.bindings s'.constraints r.sup r.sub

theorem require_cases (s : Session) (sup sub : Ty) (location : Location) :
    (∃ f, s.require sup sub location = (.error f, s)) ∨
    (∃ f e, s.engine.check sup sub location = (.error f, e) ∧
      s.require sup sub location = (.error f, s.withTraces e)) ∨
    ∃ verdict e, s.engine.check sup sub location = (.ok verdict, e) ∧
      s.require sup sub location =
        (.ok verdict, (s.withTraces e).record sup sub location verdict) := by
  unfold require whileOpen
  split
  · cases hc : s.engine.check sup sub location with
    | mk answer e =>
        cases answer with
        | error f => exact Or.inr (Or.inl ⟨f, e, rfl, rfl⟩)
        | ok verdict => exact Or.inr (Or.inr ⟨verdict, e, rfl, rfl⟩)
  · exact Or.inl ⟨_, rfl⟩

theorem requires_of_require (hs : Sound known s asked) {sup sub : Ty}
    (hsup : sup.Admissible known) (hsub : sub.Admissible known) {location : Location}
    {answer : Except Fault Verdict} {s' : Session}
    (h : s.require sup sub location = (answer, s')) :
    Requires known s ⟨sup, sub, answer⟩ s' := by
  have hengine : s.engine = Engine.mk .classes .empty (some s.bindings) (some s.constraints) := by
    rw [engine, hs.order]
  rcases s.require_cases sup sub location with ⟨f, hr⟩ | ⟨f, e, hc, hr⟩ | ⟨verdict, e, hc, hr⟩
  · cases hr.symm.trans h
    exact ⟨rfl, rfl, rfl, Or.inl rfl, .refl _, fun h => h, fun _ _ h => by cases h⟩
  · cases hr.symm.trans h
    rw [hengine] at hc
    obtain ⟨b, cs, rfl, hstep, hadded, _⟩ := Engine.check_grown hs.grown hsup hsub hc
    exact ⟨rfl, rfl, rfl, hstep, hadded, fun h => h, fun _ _ h => by cases h⟩
  · cases hr.symm.trans h
    rw [hengine] at hc
    obtain ⟨b, cs, rfl, hstep, hadded, hmet⟩ := Engine.check_grown hs.grown hsup hsub hc
    have hmet : verdict = .fails ∨ Met b cs sup sub := by
      rcases hmet with ⟨f, hf⟩ | hf | hm
      · cases hf
      · exact Or.inl (Except.ok.inj hf)
      · exact Or.inr hm
    cases verdict with
    | holds =>
        refine ⟨rfl, rfl, rfl, hstep, hadded, fun h => h, fun _ _ _ => ?_⟩
        exact hmet.resolve_left fun h => by cases h
    | pending =>
        refine ⟨rfl, rfl, rfl, hstep, hadded, fun h => h, fun _ _ _ => ?_⟩
        exact hmet.resolve_left fun h => by cases h
    | fails =>
        -- A failure is reported, so there is nothing to show.
        have hno : ∀ {P : Prop}, ((s.withTraces ⟨.classes, .empty, some b, some cs⟩).record
            sup sub location .fails).diagnostics = [] → P := by
          intro P hd
          simp [record, report] at hd
        exact ⟨rfl, rfl, rfl, hstep, hadded, hno, hno⟩

theorem Sound.requires (hs : Sound known s asked) {r : Request} (hr : r.Admissible known)
    {s' : Session} (h : Requires known s r s') : Sound known s' (asked ++ [r]) where
  order := by rw [h.options]; exact hs.order
  poisoned := by rw [h.poisoned]; exact hs.poisoned
  issued := by rw [h.issued]; exact hs.issued
  grown := hs.grown.step h.bindings
  plain c hc := by
    rcases h.constraints.plain c hc with hc | hc
    · exact hs.plain c hc
    · exact hc
  admissible q hq := by
    rcases List.mem_append.1 hq with hq | hq
    · exact hs.admissible q hq
    · rw [List.mem_singleton.1 hq]; exact hr
  met hd q hq verdict hv := by
    rcases List.mem_append.1 hq with hq | hq
    · have hadm := hs.admissible q hq
      exact (hs.met (h.diagnostics hd) q hq verdict hv).step hs.grown hadm.sup hadm.sub h.bindings
        h.constraints.kept
    · rw [List.mem_singleton.1 hq] at hv ⊢
      exact h.met hd verdict hv

theorem Sound.require (hs : Sound known s asked) {sup sub : Ty} {location : Location}
    {answer : Except Fault Verdict} {s' : Session}
    (h : s.require sup sub location = (answer, s'))
    (hr : Request.Admissible known ⟨sup, sub, answer⟩) :
    Sound known s' (asked ++ [⟨sup, sub, answer⟩]) :=
  hs.requires hr (requires_of_require hs hr.sup hr.sub h)

theorem Sound.keeps : Keeps (Request.Admissible known) (Sound known) where
  quiet hs h := hs.quiet h
  require hs hr h := hs.require h hr

/-- Every run keeps a session sound. -/
theorem Sound.run (ops : List Op) {s : Session} {asked : List Request} (hs : Sound known s asked)
    (hadm : ∀ r ∈ s.allRequests ops, r.Admissible known) :
    Sound known (s.run ops) (asked ++ s.allRequests ops) :=
  Sound.keeps.run ops hs hadm

end Sound

end Session

end Fallible
