import Fallible.Proofs.ClosedResolution
import Fallible.Proofs.Lifecycle

/-!
# What a failed solution leaves behind

If the constraints of a session have no solution, the sets that were found on the
way are thrown away. The solution is empty, and every flexible variable that the
session handed out, or that one of its constraints names, is poisoned. A type that
mentions a poisoned variable, at any depth and also only once its bindings are
written out, resolves to a failed type.

Any other type resolves as if the constraints had never been there: as it does in
a session that has the same bindings and nothing else, and is solved.
-/

namespace Fallible

namespace Session

/-! ## Sessions that are not concluded -/

/-- What is true of a session at any time. -/
structure Orderly (s : Session) : Prop where
  solution : s.status ≠ .solved → s.solution = none
  poisoned : s.status ≠ .solved → s.poisoned = []
  annotations : s.annotations.Distinct

namespace Orderly

variable {s s' : Session}

theorem new (options : Options) (registry : Registry) : (Session.new options registry).Orderly :=
  ⟨fun _ => rfl, fun _ => rfl, Table.distinct_empty⟩

theorem of_frame (hs : s.Orderly) (h : s'.frame = s.frame) : s'.Orderly := by
  have hstatus : s'.status = s.status := congrArg Frame.status h
  refine ⟨fun hopen => ?_, fun hopen => ?_, ?_⟩
  · exact (congrArg Frame.solution h).trans (hs.solution (hstatus ▸ hopen))
  · exact (congrArg Frame.poisoned h).trans (hs.poisoned (hstatus ▸ hopen))
  · have hannotations : s'.annotations = s.annotations := congrArg Frame.annotations h
    rw [hannotations]
    exact hs.annotations

theorem annotate (hs : s.Orderly) (node : String) (t : Ty) (location : Location) :
    (s.annotate node t location).Orderly :=
  ⟨hs.solution, hs.poisoned, hs.annotations.insert node (t, location)⟩

theorem perform (hs : s.Orderly) (op : Op) : (s.perform op).Orderly := by
  have hframe := s.frame_perform op
  split at hframe
  · exact hs.of_frame hframe
  · exact (hs.annotate _ _ _).of_frame hframe

theorem solve (hs : s.Orderly) : s.solve.2.Orderly := by
  by_cases hopen : s.status = .active
  · rcases solve_cases hopen with ⟨f, _, hf⟩ | ⟨outcome, _, hreports⟩
    · rw [hf]
      exact hs
    · refine of_frame ⟨fun h => ?_, fun h => ?_, ?_⟩ hreports.frame
      · exact absurd (status_close s outcome) h
      · exact absurd (status_close s outcome) h
      · unfold close
        split <;> exact hs.annotations
  · rw [Session.solve, whileOpen_of_not_active hopen]
    exact hs

theorem cancel (hs : s.Orderly) : s.cancel.2.Orderly := by
  unfold Session.cancel
  split
  · exact hs
  · next hstatus =>
      exact ⟨fun _ => hs.solution hstatus, fun _ => hs.poisoned hstatus, Table.distinct_empty⟩

theorem act (hs : s.Orderly) (a : Action) : (s.act a).Orderly := by
  cases a with
  | op op => exact hs.perform op
  | solve => exact hs.solve
  | cancel => exact hs.cancel
  | resolve t => exact hs

/-- Every session that a host gets to is orderly. -/
theorem actAll (options : Options) (registry : Registry) (actions : List Action) :
    ((Session.new options registry).actAll actions).Orderly :=
  actAll_keeps (fun a _ h => h.act a) (new options registry)

end Orderly

/-! ## The types of a report -/

theorem resolve_of_resolution {s : Session} {t resolved : Ty} {violation : Option Cause}
    (h : s.resolution t = .ok (resolved, violation)) :
    s.resolve t = .ok (if violation.isSome then .erroneous else resolved) := by
  rw [resolve, h]
  rfl

/-- What annotations come to: each node of the list gets what its type resolves to,
and other nodes keep what they have. -/
theorem resolveAll_ok {es : List (String × Ty × Location)} {s s' : Session}
    {types types' : Table String Ty} (hd : (Table.mk es).Distinct)
    (h : s.resolveAll es types = (.ok types', s')) :
    (∀ node t location, (node, t, location) ∈ es →
      ∃ u, s.resolve t = .ok u ∧ types'.get? node = some u) ∧
    ∀ node, (Table.mk es).contains node = false → types'.get? node = types.get? node := by
  induction es generalizing s types with
  | nil =>
      cases h
      exact ⟨fun _ _ _ h => absurd h List.not_mem_nil, fun _ _ => rfl⟩
  | cons e rest ih =>
      obtain ⟨node, t, location⟩ := e
      obtain ⟨hhead, hrest⟩ := List.pairwise_cons.1 hd
      -- Later nodes are others, so what is put in for this one stays.
      have hlater : (Table.mk rest).contains node = false := by
        refine List.any_eq_false.2 fun d hd hdn => ?_
        rw [BEq.comm, hhead d.1 (List.mem_map_of_mem hd)] at hdn
        cases hdn
      have hstep : ∀ {s₁ : Session} {u : Ty},
          s₁.resolveAll rest (types.insert node u) = (.ok types', s') →
          s₁.core = s.core → s.resolve t = .ok u →
          (∀ n x l, (n, x, l) ∈ (node, t, location) :: rest →
            ∃ u, s.resolve x = .ok u ∧ types'.get? n = some u) ∧
          ∀ n, (Table.mk ((node, t, location) :: rest)).contains n = false →
            types'.get? n = types.get? n := by
        intro s₁ u h hcore hu
        obtain ⟨hin, hout⟩ := ih hrest h
        refine ⟨fun n x l hmem => ?_, fun n hn => ?_⟩
        · rcases List.mem_cons.1 hmem with heq | hmem
          · cases heq
            refine ⟨u, hu, ?_⟩
            rw [hout node hlater, Table.get?_insert, if_pos BEq.rfl]
          · obtain ⟨w, hw, hget⟩ := hin n x l hmem
            exact ⟨w, (resolve_of_core hcore x).symm.trans hw, hget⟩
        · have hn' : ((node == n) || (Table.mk rest).contains n) = false := hn
          rw [Bool.or_eq_false_iff] at hn'
          rw [hout n hn'.2, Table.get?_insert, hn'.1, if_neg Bool.false_ne_true]
      unfold resolveAll at h
      split at h
      · cases h
      · next hr => exact hstep h rfl (resolve_of_resolution hr)
      · next hr => exact hstep h rfl (resolve_of_resolution hr)

theorem finish_types {s s' : Session} (hd : s.annotations.Distinct) {report : SessionReport}
    (h : s.finish = (.ok report, s')) (node : String) :
    (∀ t location, s.annotations.get? node = some (t, location) →
      ∃ u, s.resolve t = .ok u ∧ report.types.get? node = some u) ∧
    (s.annotations.contains node = false → report.types.get? node = none) := by
  unfold finish at h
  split at h
  · cases h
  · next hall =>
      cases h
      obtain ⟨hin, hout⟩ := resolveAll_ok hd hall
      refine ⟨fun t location hget => ?_, hout node⟩
      obtain ⟨k, hk, hkn⟩ := Table.mem_of_get? hget
      obtain ⟨u, hu, hget⟩ := hin k t location hk
      rw [beq_iff_eq.1 hkn] at hget
      exact ⟨u, hu, hget⟩

/-- The report of a solved session gives every annotated node what its type resolves
to, and no other node anything. -/
theorem solve_types {s s' : Session} (hd : s.annotations.Distinct) {report : SessionReport}
    (h : s.solve = (.ok report, s')) (node : String) :
    (∀ t location, s.annotations.get? node = some (t, location) →
      ∃ u, s'.resolve t = .ok u ∧ report.types.get? node = some u) ∧
    (s.annotations.contains node = false → report.types.get? node = none) := by
  unfold solve whileOpen at h
  split at h
  · split at h
    · cases h
    · next outcome ho =>
        have hreview := (s.close outcome).reports_review outcome
        split at h
        · cases h
        · next s₁ hr =>
            rw [hr] at hreview
            have hannotations : s₁.annotations = s.annotations := by
              refine (congrArg Frame.annotations hreview.frame).trans ?_
              unfold close
              split <;> rfl
            have hcore := (reports_finish s₁).core
            rw [h] at hcore
            rw [← hannotations] at hd ⊢
            obtain ⟨hin, hout⟩ := finish_types hd h node
            refine ⟨fun t location hget => ?_, hout⟩
            obtain ⟨u, hu, hget⟩ := hin t location hget
            exact ⟨u, (resolve_of_core hcore t).trans hu, hget⟩
  · cases h

/-- Annotations are resolved if their bindings can be written out. -/
theorem resolveAll_returns {es : List (String × Ty × Location)} {s : Session}
    (h : ∀ e ∈ es, ∃ u, s.bindings.apply e.2.1.canonical = .ok u) (types : Table String Ty) :
    ∃ types' s', s.resolveAll es types = (.ok types', s') := by
  induction es generalizing s types with
  | nil => exact ⟨types, s, rfl⟩
  | cons e rest ih =>
      obtain ⟨node, t, location⟩ := e
      obtain ⟨u, hu⟩ := h _ List.mem_cons_self
      have hrest : ∀ e ∈ rest, ∃ u, s.bindings.apply e.2.1.canonical = .ok u :=
        fun e he => h e (List.mem_cons_of_mem _ he)
      have hresolution : ∃ r, s.resolution t = .ok r := by
        unfold resolution
        rw [hu]
        by_cases hp : u.freeErrorVars.any s.poisoned.contains = true
        · exact ⟨_, if_pos hp⟩
        · exact ⟨_, if_neg hp⟩
      obtain ⟨⟨resolved, violation⟩, hr⟩ := hresolution
      unfold resolveAll
      rw [hr]
      cases violation with
      | none => exact ih hrest _
      | some cause => exact ih (s := s.report location cause) hrest _

/-! ## Failing -/

section Failure

variable {s : Session} {outcome : Fixpoint.Outcome}

/-- Whether a variable was handed out by the session, or is a flexible variable of one
of its constraints. -/
def Involves (s : Session) (v : ErrorVar) : Prop :=
  (∃ w ∈ s.issued, (v == w) = true) ∨
    ∃ c ∈ s.constraints, ∃ w ∈ c.vars, w.flexible = true ∧ (v == w) = true

theorem contains_flexibleVariables {v : ErrorVar} :
    s.flexibleVariables.contains v = true ↔ s.Involves v := by
  rw [List.contains_iff_exists_mem_beq, flexibleVariables, Involves]
  constructor
  · rintro ⟨w, hw, hvw⟩
    rcases List.mem_append.1 hw with hw | hw
    · exact Or.inl ⟨w, hw, hvw⟩
    · obtain ⟨hw, hflex⟩ := List.mem_filter.1 hw
      obtain ⟨c, hc, hw⟩ := List.mem_flatMap.1 hw
      exact Or.inr ⟨c, hc, w, hw, hflex, hvw⟩
  · rintro (⟨w, hw, hvw⟩ | ⟨c, hc, w, hw, hflex, hvw⟩)
    · exact ⟨w, List.mem_append_left _ hw, hvw⟩
    · have hw' := List.mem_filter.2 ⟨List.mem_flatMap.2 ⟨c, hc, hw⟩, hflex⟩
      exact ⟨w, List.mem_append_right _ hw', hvw⟩

theorem core_close_of_failure (hp : s.poisoned = []) (hfail : outcome.success = false) :
    (s.close outcome).core =
      ⟨.solved, s.constraints, s.pending, s.bindings, some .empty, s.flexibleVariables⟩ := by
  unfold close
  cases hv : outcome.violation with
  | none =>
      rw [Fixpoint.Outcome.success, hv] at hfail
      cases hfail
  | some d =>
      rw [core, hp]
      rfl

/-- What a failed session comes to. -/
theorem core_solve_of_failure (hs : s.Orderly) (hopen : s.status = .active)
    (ho : s.outcome = .ok outcome) (hfail : outcome.success = false) :
    s.solve.2.core =
      ⟨.solved, s.constraints, s.pending, s.bindings, some .empty, s.flexibleVariables⟩ := by
  have hp : s.poisoned = [] := hs.poisoned (by rw [hopen]; exact Status.noConfusion)
  rcases solve_cases hopen with ⟨f, hf, _⟩ | ⟨outcome', ho', hreports⟩
  · cases hf.symm.trans ho
  · cases ho'.symm.trans ho
    exact hreports.core.trans (core_close_of_failure hp hfail)

/-- A failed session is not compared again, so its report depends on the annotations
alone. -/
theorem solve_returns_of_failure (hopen : s.status = .active) (ho : s.outcome = .ok outcome)
    (hfail : outcome.success = false)
    (h : ∀ e ∈ s.annotations.entries, ∃ u, s.bindings.apply e.2.1.canonical = .ok u) :
    ∃ report, s.solve.1 = .ok report := by
  have hreview : (s.close outcome).review outcome = (.ok (), s.close outcome) := by
    unfold review
    rw [hfail]
    split <;> rfl
  have hsame : (s.close outcome).annotations = s.annotations ∧
      (s.close outcome).bindings = s.bindings := by
    unfold close
    split <;> exact ⟨rfl, rfl⟩
  rw [← hsame.1, ← hsame.2] at h
  obtain ⟨types, s', hall⟩ := resolveAll_returns h .empty
  refine ⟨⟨s'.diagnostics, s'.solution.getD .empty, types⟩, ?_⟩
  rw [solve, whileOpen_of_active hopen, ho]
  dsimp only
  rw [hreview]
  dsimp only
  rw [finish, hall]

/-- The session that has the bindings of another and nothing else. -/
def bindingsOnly (s : Session) : Session :=
  { Session.new s.options s.registry with bindings := s.bindings }

theorem solve_bindingsOnly (ho : s.outcome = .ok outcome) :
    s.bindingsOnly.solve = (.ok ⟨[], .empty, .empty⟩,
      { s.bindingsOnly with status := .solved, solution := some .empty }) := by
  obtain ⟨policy, hpolicy⟩ : ∃ policy, s.options.policy.resolve = .ok policy := by
    unfold Session.outcome Fixpoint.solve at ho
    cases hp : s.options.policy.resolve with
    | error f => rw [hp] at ho; cases ho
    | ok policy => exact ⟨policy, rfl⟩
  have hpolicy' : s.bindingsOnly.options.policy.resolve = .ok policy := hpolicy
  have houtcome : s.bindingsOnly.outcome = .ok ⟨.empty, none, 0, []⟩ := by
    rw [Session.outcome, Fixpoint.solve, hpolicy']
    rfl
  have hreview : (s.bindingsOnly.close ⟨.empty, none, 0, []⟩).review ⟨.empty, none, 0, []⟩ =
      (.ok (), s.bindingsOnly.close ⟨.empty, none, 0, []⟩) := by
    unfold review
    split
    · split <;> rfl
    · rfl
  rw [solve, whileOpen_of_active rfl, houtcome]
  dsimp only
  rw [hreview]
  rfl

/-- What a type comes to once its bindings are written out. -/
def concluded (s : Session) (w : Ty) : Ty :=
  match s.solution with
  | none => w.canonical
  | some solution => solution.settled w

/-- What a type resolves to, if its bindings can be written out. -/
theorem resolve_of_written {t w : Ty} (hw : s.bindings.apply t.canonical = .ok w) :
    s.resolve t = .ok (if w.mentions.any s.poisoned.contains then .erroneous
      else if (Grammar.violation? (s.concluded w)).isSome then .erroneous
      else s.concluded w) := by
  have hresolution : s.resolution t = .ok (if w.freeErrorVars.any s.poisoned.contains then
      (.erroneous, none) else (s.concluded w, Grammar.violation? (s.concluded w))) := by
    unfold resolution
    rw [hw]
    show (if _ then _ else _) = _
    split
    · rfl
    · rfl
  rw [resolve, hresolution, Ty.any_freeErrorVars]
  by_cases hp : w.mentions.any s.poisoned.contains = true
  · rw [if_pos hp, if_pos hp]
    rfl
  · rw [if_neg hp, if_neg hp]
    rfl

theorem resolve_of_unfolded {solution : Solution} {t u : Ty}
    (hu : s.bindings.apply t.canonical = .ok u) (hs : s.solution = some solution) :
    s.resolve t = .ok (if u.mentions.any s.poisoned.contains then .erroneous
      else if (Grammar.violation? (solution.settled u)).isSome then .erroneous
      else solution.settled u) := by
  rw [resolve_of_written hu, concluded, hs]

/-- If the constraints of a session have no solution, it reports an empty one. A type
that involves a variable of the session resolves to a failed type, and any other
type as it does in a solved session that has nothing but the same bindings. Nodes
get what their types resolve to. -/
theorem failed_solving_leaks_nothing (options : Options) (registry : Registry)
    (actions : List Action) (hs : (Session.new options registry).actAll actions = s)
    (hopen : s.status = .active) (ho : s.outcome = .ok outcome) (hfail : outcome.success = false) :
    s.solve.2.status = .solved ∧ s.solve.2.solution = some .empty ∧
    (s.bindings.Acyclic → ∃ report, s.solve.1 = .ok report) ∧
    (∀ report, s.solve.1 = .ok report → report.solution = .empty ∧
      ∀ node t location, s.annotations.get? node = some (t, location) →
        ∃ w, s.solve.2.resolve t = .ok w ∧ report.types.get? node = some w) ∧
    ∀ t u, s.bindings.apply t.canonical = .ok u →
      ((∃ v ∈ u.mentions, s.Involves v) → s.solve.2.resolve t = .ok .erroneous) ∧
      ((∀ v ∈ u.mentions, ¬ s.Involves v) → ∃ report solved w,
        s.bindingsOnly.solve = (.ok report, solved) ∧ solved.resolve t = .ok w ∧
          s.solve.2.resolve t = .ok w) := by
  have horderly : s.Orderly := hs ▸ Orderly.actAll options registry actions
  have hcore := core_solve_of_failure horderly hopen ho hfail
  have hsolution : s.solve.2.solution = some .empty := congrArg Core.solution hcore
  have hpoisoned : s.solve.2.poisoned = s.flexibleVariables := congrArg Core.poisoned hcore
  refine ⟨congrArg Core.status hcore, hsolution, fun hacyclic => ?_, fun report hreport => ?_,
    fun t u hu => ?_⟩
  · exact solve_returns_of_failure hopen ho hfail fun e _ => ⟨_, hacyclic.apply _⟩
  · have hsolve : s.solve = (.ok report, s.solve.2) := Prod.ext hreport rfl
    obtain ⟨_, _, _, _, hreported⟩ := solve_ok hsolve
    rw [hreported, hsolution]
    exact ⟨rfl, fun node => (solve_types horderly.annotations hsolve node).1⟩
  · have hu' : s.solve.2.bindings.apply t.canonical = .ok u := by
      have hbindings : s.solve.2.bindings = s.bindings := congrArg Core.bindings hcore
      rw [hbindings]
      exact hu
    have hresolve := resolve_of_unfolded hu' hsolution
    rw [hpoisoned] at hresolve
    refine ⟨?_, fun hout => ?_⟩
    · rintro ⟨v, hv, hin⟩
      rw [hresolve, if_pos (List.any_eq_true.2 ⟨v, hv, contains_flexibleVariables.2 hin⟩)]
    · have hnone : u.mentions.any s.flexibleVariables.contains = false :=
        List.any_eq_false.2 fun v hv hin => hout v hv (contains_flexibleVariables.1 hin)
      rw [hnone, if_neg Bool.false_ne_true] at hresolve
      refine ⟨_, _, _, solve_bindingsOnly ho, ?_, hresolve⟩
      let solved := { s.bindingsOnly with status := .solved, solution := some .empty }
      have hnone' : ¬ u.mentions.any solved.poisoned.contains = true := by
        simp [solved, bindingsOnly, Session.new]
      rw [resolve_of_unfolded (s := solved) hu rfl, if_neg hnone']

end Failure

/-! A bounded variable gets an error from outside its bound. The variable is also
what a type variable is bound to, below a constructor. -/

def expected : Classifier := ⟨0, [], "A", [], some 0⟩

def stray : Classifier := ⟨1, [], "B", [], some 0⟩

def strayBound : Universe := .bounded ⟨"Expected", [expected], List.pairwise_singleton _ _⟩

def strayVar : Ty := .errorVar ⟨"E$0", strayBound, true⟩

def strayNode : Ty := .con (.named "dict") [.valueProj "T$1" true]

def calmNode : Ty := .union [.con (.named "int") [], .errorConst stray []]

def astray : Session :=
  (Session.new .default (.holding 0 [expected, stray])).actAll
    [.op (.freshErrorVar "E" strayBound), .op (.freshTyVar "T"),
      .op (.require (.valueProj "T$1" true) (.con (.named "list") [strayVar]) .unknown),
      .op (.require strayVar (.errorConst stray []) .unknown),
      .op (.annotateNode "n" (some strayNode)), .op (.annotateNode "m" (some calmNode))]

theorem failed_solving_leaks_nothing_astray :
    astray.solve.2.solution = some .empty ∧
    (∃ report, astray.solve.1 = .ok report ∧ report.types.get? "n" = some .erroneous ∧
      report.types.get? "m" = some calmNode) ∧
    (∃ u, astray.bindings.apply strayNode = .ok u ∧ (∃ v ∈ u.mentions, astray.Involves v) ∧
      astray.solve.2.resolve strayNode = .ok .erroneous) ∧
    ∃ report solved, astray.bindingsOnly.solve = (.ok report, solved) ∧
      solved.resolve calmNode = .ok calmNode ∧ astray.solve.2.resolve calmNode = .ok calmNode := by
  obtain ⟨-, hsolution, -, hreport, hresolve⟩ :=
    failed_solving_leaks_nothing (s := astray) _ _ _ rfl rfl rfl rfl
  obtain ⟨w, hw, hn⟩ := (hreport _ rfl).2 "n" strayNode .unknown rfl
  obtain ⟨w', hw', hm⟩ := (hreport _ rfl).2 "m" calmNode .unknown rfl
  have hinvolved : ∃ v ∈ Ty.mentions (.con (.named "dict") [.con (.named "list") [strayVar]]),
      astray.Involves v := ⟨_, .head _, .inl ⟨_, .head _, rfl⟩⟩
  have hstray := (hresolve strayNode _ rfl).1 hinvolved
  obtain ⟨report, solved, w'', hsolved, hcalm, hcalm'⟩ :=
    (hresolve calmNode _ rfl).2 fun v hv => absurd hv List.not_mem_nil
  have hcalmNode : astray.solve.2.resolve calmNode = .ok calmNode := rfl
  cases hw.symm.trans hstray
  cases hw'.symm.trans hcalmNode
  cases hcalm'.symm.trans hcalmNode
  exact ⟨hsolution, ⟨_, rfl, hn, hm⟩, ⟨_, rfl, hinvolved, hstray⟩, report, solved, hsolved, hcalm,
    hcalmNode⟩

end Session

end Fallible
