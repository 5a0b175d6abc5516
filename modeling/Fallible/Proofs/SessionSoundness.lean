import Fallible.Proofs.Resolution
import Fallible.Proofs.SessionRun

/-!
# A session that passes keeps its promises

When solving a session reports nothing, no requirement had failed and the
constraints have a solution. Checking the comparisons again that had to wait,
and resolving what was attached to nodes, can only report more, so it does not
matter whether that is done. Every requirement of the run that got an answer is
then met, and with the solution it is true: of the two types that were compared,
what the one resolves to covers what the other resolves to.
-/

namespace Fallible

namespace Session

/-! ## Solving -/

theorem quiet_revalidate (solution : Solution) (ps : List Pending) (s : Session) :
    Quiet s (s.revalidate solution ps).2 := by
  induction ps generalizing s with
  | nil => exact .refl s
  | cons p rest ih =>
      unfold revalidate
      split
      · exact .refl s
      · exact ih s
      · exact (quiet_report s p.location _).trans (ih _)

theorem quiet_resolveAll (es : List (String × Ty × Location)) (s : Session)
    (types : Table String Ty) : Quiet s (s.resolveAll es types).2 := by
  induction es generalizing s types with
  | nil => exact .refl s
  | cons e rest ih =>
      obtain ⟨node, t, location⟩ := e
      unfold resolveAll
      split
      · exact .refl s
      · exact ih s _
      · exact (quiet_report s location _).trans (ih _ _)

theorem quiet_review (s : Session) (outcome : Fixpoint.Outcome) :
    Quiet s (s.review outcome).2 := by
  unfold review
  split
  · split
    · exact quiet_revalidate _ _ s
    · exact .refl s
  · exact .refl s

theorem finish_ok {s s' : Session} {report : SessionReport} (h : s.finish = (.ok report, s')) :
    Quiet s s' ∧ report.diagnostics = s'.diagnostics ∧
      report.solution = s'.solution.getD .empty := by
  have hquiet := quiet_resolveAll s.annotations.entries s .empty
  unfold finish at h
  split at h
  · cases h
  · next hall =>
      rw [hall] at hquiet
      cases h
      exact ⟨hquiet, rfl, rfl⟩

/-- Solving closes the session with an outcome, and may report more. -/
theorem solve_ok {s s' : Session} {report : SessionReport} (h : s.solve = (.ok report, s')) :
    ∃ outcome, s.outcome = .ok outcome ∧ Quiet (s.close outcome) s' ∧
      report.diagnostics = s'.diagnostics ∧ report.solution = s'.solution.getD .empty := by
  unfold solve whileOpen at h
  split at h
  · split at h
    · cases h
    · next outcome ho =>
        have hreview := quiet_review (s.close outcome) outcome
        split at h
        · cases h
        · next hr =>
            rw [hr] at hreview
            obtain ⟨hfinish, hd⟩ := finish_ok h
            exact ⟨outcome, ho, hreview.trans hfinish, hd⟩
  · cases h

theorem solveBy_of_outcome {s : Session} {outcome : Fixpoint.Outcome}
    (h : s.outcome = .ok outcome) :
    ∃ policy, Fixpoint.solveBy policy s.registry ⟨s.options.order, .empty, s.bindings⟩
      s.constraints .empty = .ok outcome := by
  unfold Session.outcome Fixpoint.solve at h
  cases hp : s.options.policy.resolve with
  | error f => rw [hp] at h; cases h
  | ok policy => rw [hp] at h; exact ⟨policy, h⟩

/-- A session whose solving reports nothing was closed with a solution. -/
theorem close_of_silent {s : Session} {outcome : Fixpoint.Outcome}
    (h : (s.close outcome).diagnostics = []) :
    outcome.success = true ∧ s.diagnostics = [] ∧
      (s.close outcome).bindings = s.bindings ∧ (s.close outcome).poisoned = s.poisoned ∧
      (s.close outcome).solution = some (outcome.solution.extend s.emptySets) := by
  unfold close at h ⊢
  cases hv : outcome.violation with
  | none =>
      rw [hv] at h
      exact ⟨by rw [Fixpoint.Outcome.success, hv]; rfl, h, rfl, rfl, rfl⟩
  | some d =>
      rw [hv] at h
      simp at h

/-- What a session that passes has found out. -/
structure Passed (known : ErrorVar → Prop) (s : Session) (solution : Solution) (s' : Session) :
    Prop where
  silent : s.diagnostics = []
  bindings : s'.bindings = s.bindings
  poisoned : s'.poisoned = []
  closed : s'.solution = some solution
  ground : solution.Ground
  distinct : solution.sets.Distinct
  solved : ∀ v, known v → solution.contains v = true
  holds : ∀ c ∈ s.constraints, c.demand.HoldsIn solution

theorem Sound.passed {known : ErrorVar → Prop} {s : Session} {asked : List Request}
    (hs : Sound known s asked) (hknown : ∀ v, known v → s.issued.contains v = true)
    {report : SessionReport} {s' : Session} (h : s.solve = (.ok report, s'))
    (hok : report.success = true) : ∃ solution, Passed known s solution s' := by
  obtain ⟨outcome, ho, hquiet, hd, _⟩ := solve_ok h
  have hnone : s'.diagnostics = [] := by
    rw [← hd]
    exact List.isEmpty_iff.1 hok
  obtain ⟨hsuccess, hsilent, hbindings, hpoisoned, hsolution⟩ :=
    close_of_silent (hquiet.diagnostics hnone)
  obtain ⟨policy, hby⟩ := solveBy_of_outcome ho
  obtain ⟨hground, hdistinct, hholds⟩ := Fixpoint.holdsIn_of_solveBy hs.plain hby hsuccess
  refine ⟨outcome.solution.extend s.emptySets, hsilent, hquiet.bindings.trans hbindings, ?_,
    hquiet.solution.trans hsolution, hground.extend hdistinct s.issued hs.issued,
    (Table.distinct_ofList _).insertAll _, fun v hv => ?_, fun c hc => ?_⟩
  · rw [hquiet.poisoned, hpoisoned]
    exact hs.poisoned
  · exact Solution.contains_extend s.issued (hknown v hv)
  · exact (hholds c hc).congr fun v => (Solution.getD_extend hdistinct s.issued v).symm

/-! ## Resolving -/

/-- A type whose bindings can be written out resolves to its resolution, unless a
variable in it is poisoned. -/
theorem resolution_eq {s : Session} {solution : Solution} {t : Ty}
    (happly : s.bindings.apply t.canonical = .ok (s.bindings.written t.canonical))
    (hs : s.solution = some solution) :
    s.resolution t =
      .ok (if (s.bindings.written t.canonical).freeErrorVars.any s.poisoned.contains then
        (.erroneous, none)
      else (resolved s.bindings solution t,
        Grammar.violation? (resolved s.bindings solution t))) := by
  unfold resolution
  rw [happly, hs]
  show (if _ then _ else _) = _
  split
  · rfl
  · rfl

theorem resolve_eq {s : Session} {solution : Solution} {t : Ty}
    (happly : s.bindings.apply t.canonical = .ok (s.bindings.written t.canonical))
    (hs : s.solution = some solution) (hp : s.poisoned = []) :
    s.resolve t = .ok (if (Grammar.violation? (resolved s.bindings solution t)).isSome then
      .erroneous else resolved s.bindings solution t) := by
  have hclean : ∀ vs : List ErrorVar, vs.any s.poisoned.contains = false := by
    intro vs
    rw [hp]
    exact List.any_eq_false.2 fun _ _ => Bool.false_ne_true
  unfold resolve
  rw [resolution_eq happly hs, hclean, if_neg Bool.false_ne_true]
  rfl

theorem isSubtype_of_failed {order : ValueOrder} {sup sub : Ty}
    (h : (sup.failed || sub.failed) = true) : isSubtype order sup sub = true := by
  rw [isSubtype, View.compareWith, h, if_pos rfl]
  rfl

/-- What two types resolve to compares as the two types did, whether or not it
obeys the grammar. -/
theorem Passed.isSubtype_resolve {known : ErrorVar → Prop} {s s' : Session}
    {solution : Solution} (h : Passed known s solution s') (hb : s.bindings.Grown known)
    {sup sub : Ty} (hsup : sup.Admissible known) (hsub : sub.Admissible known)
    (hmet : Met s.bindings s.constraints sup sub) :
    ∃ above below, s'.resolve sup = .ok above ∧ s'.resolve sub = .ok below ∧
      isSubtype .classes above below = true := by
  have hb' : s'.bindings.Grown known := by rw [h.bindings]; exact hb
  have hcovers := covers_resolved hb h.ground h.distinct h.solved hsup hsub
    (hmet.solved hsup hsub h.solved h.holds)
  rw [← h.bindings] at hcovers
  refine ⟨_, _, resolve_eq (hb'.apply _) h.closed h.poisoned,
    resolve_eq (hb'.apply _) h.closed h.poisoned, ?_⟩
  split
  · exact isSubtype_of_failed rfl
  · split
    · exact isSubtype_of_failed (Bool.or_true _)
    · exact Except.ok.inj ((holds_plain_eq_isSubtype .classes _ _).symm.trans hcovers)

/-- Solving a session that passes makes every requirement of its run true. -/
theorem requirements_hold_when_solved {options : Options} (horder : options.order = .classes)
    (registry : Registry) (ops : List Op)
    (hadm : ∀ r ∈ (Session.new options registry).allRequests ops,
      r.Admissible fun v => ((Session.new options registry).run ops).issued.contains v = true)
    {report : SessionReport} {solved : Session}
    (hsolve : ((Session.new options registry).run ops).solve = (.ok report, solved))
    (hok : report.success = true) :
    ∀ r ∈ (Session.new options registry).allRequests ops, ∀ verdict, r.answer = .ok verdict →
      ∃ sup sub, solved.resolve r.sup = .ok sup ∧ solved.resolve r.sub = .ok sub ∧
        isSubtype .classes sup sub = true := by
  intro r hr verdict hanswer
  have hsound := (Sound.new horder registry).run ops hadm
  rw [List.nil_append] at hsound
  obtain ⟨solution, hpassed⟩ := hsound.passed (fun _ hv => hv) hsolve hok
  exact hpassed.isSubtype_resolve hsound.grown (hadm r hr).sup (hadm r hr).sub
    (hsound.met hpassed.silent r hr verdict hanswer)

/-! An error goes into a variable, from there with a value into a type variable,
and from there through a call into the type variable of a signature. All three
requirements have to wait. -/

def chainFault : Classifier := ⟨0, [], "A", [], some 0⟩

def chainRegistry : Registry := .holding 0 [chainFault]

def chainInt : Ty := .con (.named "int") []

def chainVar : Ty := .errorVar ⟨"E$0", .unbounded, true⟩

def chainSignature : Signature :=
  ⟨"same", [.type "X" false], [.var "X" false], .var "X" false⟩

def chain : List Op :=
  [.freshErrorVar "E" .unbounded, .freshTyVar "T",
    .require (.union [chainInt, chainVar]) (.union [chainInt, .errorConst chainFault []]) .unknown,
    .require (.var "T$1" true) (.union [chainInt, chainVar]) .unknown,
    .call chainSignature [⟨"n", .var "T$1" true, .unknown⟩] .unknown]

/-- What the chain carries to its end. -/
def chainLoad : Ty := .union [chainInt, .errorConst chainFault []]

theorem requirements_hold_in_chain :
    ∃ report solved,
      ((Session.new .default chainRegistry).run chain).solve = (.ok report, solved) ∧
      report.success = true ∧
      ((Session.new .default chainRegistry).allRequests chain).map (·.answer.toOption) =
        [some .pending, some .pending, some .pending] ∧
      ∀ r ∈ (Session.new .default chainRegistry).allRequests chain,
        ∃ sup sub, solved.resolve r.sup = .ok sup ∧ solved.resolve r.sub = .ok sub ∧
          (sup == chainLoad) = true ∧ (sub == chainLoad) = true ∧
          isSubtype .classes sup sub = true := by
  have hpass : ((Session.new .default chainRegistry).run chain).solve.1.toOption.any
      SessionReport.success = true := by decide +kernel
  have hanswers : ((Session.new .default chainRegistry).allRequests chain).map
      (·.answer.toOption) = [some .pending, some .pending, some .pending] := by decide +kernel
  have hloads : ∀ r ∈ (Session.new .default chainRegistry).allRequests chain, ∀ t ∈ [r.sup, r.sub],
      (((Session.new .default chainRegistry).run chain).solve.2.resolve t).toOption.any
        (· == chainLoad) = true := by decide +kernel
  cases hsolve : ((Session.new .default chainRegistry).run chain).solve with
  | mk answer solved =>
      rw [hsolve] at hpass hloads
      cases answer with
      | error f => cases hpass
      | ok report =>
          refine ⟨report, solved, rfl, hpass, hanswers, fun r hr => ?_⟩
          have hmem := List.mem_map_of_mem (f := (·.answer.toOption)) hr
          rw [hanswers] at hmem
          cases hr' : r.answer with
          | error f => simp [hr', Except.toOption] at hmem
          | ok verdict =>
              obtain ⟨sup, sub, hsup, hsub, hholds⟩ :=
                requirements_hold_when_solved rfl chainRegistry chain (by decide +kernel)
                  hsolve hpass r hr verdict hr'
              have hload := hloads r hr
              simp only [List.forall_mem_cons, hsup, hsub] at hload
              exact ⟨sup, sub, hsup, hsub, hload.1, hload.2.1, hholds⟩

end Session

end Fallible
