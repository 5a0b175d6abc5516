import Fallible.Fixpoint.Solve
import Fallible.Proofs.Errors
import Fallible.Proofs.Settling

/-!
# The worklist computes the least solution

Three facts hold of every state of a run. Every constraint whose place is not
in the queue is met. The holdings extend the given sets. And they lie below
every assignment that extends the given sets and meets all constraints. At the
end the queue is empty, so the first fact covers all constraints, and together
they say that the result is the least solution.

The first fact is the delicate one. A step may break a constraint that was met
only by making its source grow, and then the constraint is a reader of the
variable just written and is queued again. A constraint whose source is its own
target is no exception: it is among the readers too.

Nothing here looks at the arguments of atoms, so the facts hold whatever the
policy and however arguments compare. That the loop ends at all is another
matter, and is settled only for sets without arguments; then the checks at the
end have an answer too, since they never compare arguments.
-/

namespace Fallible

/-! ## The start -/

namespace Holdings

theorem start_extends (initial : Table ErrorVar ErrorSet) (cs : List Constraint) :
    (start initial cs).assignment.Extends initial := by
  intro v s hv
  refine ⟨fun a ha => ?_, fun hu => ?_⟩
  · show (of (start initial cs) v).atoms.contains a = true
    rw [of_start, hv]
    exact ha
  · show (of (start initial cs) v).universal = true
    rw [of_start, hv]
    exact hu

theorem start_le {initial : Table ErrorVar ErrorSet} {cs : List Constraint} {A : Assignment}
    (h : A.Extends initial) : (start initial cs).assignment ≤ A := by
  refine ⟨fun v a ha => ?_, fun v hu => ?_⟩
  · change (of (start initial cs) v).atoms.contains a = true at ha
    rw [of_start] at ha
    cases hv : initial.get? v with
    | none => rw [hv] at ha; cases ha
    | some s => rw [hv] at ha; exact (h v s hv).1 a ha
  · change (of (start initial cs) v).universal = true at hu
    rw [of_start] at hu
    cases hv : initial.get? v with
    | none => rw [hv] at hu; cases hu
    | some s => rw [hv] at hu; exact (h v s hv).2 hu

/-! ## Writing what was absorbed -/

section Absorbed

variable {hs : Holdings} {t : ErrorVar} {inc h' : Holding}

/-- Absorbing never takes anything away. -/
theorem le_insert (hu : h'.universal = ((of hs t).universal || inc.universal))
    (ha : ∀ a, h'.atoms.contains a = ((of hs t).atoms.contains a || inc.atoms.contains a)) :
    assignment hs ≤ assignment (hs.insert t h') := by
  refine ⟨fun v a hva => ?_, fun v hvu => ?_⟩
  · show (of (hs.insert t h') v).atoms.contains a = true
    rw [of_insert]
    split
    · next htv => rw [ha, of_congr hs htv, Bool.or_eq_true]; exact Or.inl hva
    · exact hva
  · show (of (hs.insert t h') v).universal = true
    rw [of_insert]
    split
    · next htv => rw [hu, of_congr hs htv, Bool.or_eq_true]; exact Or.inl hvu
    · exact hvu

/-- What is absorbed stays below an assignment that has to hold it anyway. -/
theorem insert_le {c : Constraint} {A : Assignment}
    (hu : h'.universal = ((of hs t).universal || inc.universal))
    (ha : ∀ a, h'.atoms.contains a = ((of hs t).atoms.contains a || inc.atoms.contains a))
    (hcon : c.contribution? hs = some (t, inc)) (hle : assignment hs ≤ A)
    (hmet : c.MetBy A) : assignment (hs.insert t h') ≤ A := by
  obtain ⟨htarget, hasks, hall⟩ := Constraint.contribution?_some hcon
  obtain ⟨hmetAtoms, hmetAll⟩ := hmet t htarget
  refine ⟨fun v a hva => ?_, fun v hvu => ?_⟩
  · change (of (hs.insert t h') v).atoms.contains a = true at hva
    rw [of_insert] at hva
    split at hva
    · next htv =>
        apply A.holds_congr htv BEq.rfl
        rw [ha, Bool.or_eq_true] at hva
        rcases hva with hold | hnew
        · exact hle.1 t a hold
        · exact hmetAtoms a (((hasks a).1 hnew).mono hle)
    · exact hle.1 v a hva
  · change (of (hs.insert t h') v).universal = true at hvu
    rw [of_insert] at hvu
    split at hvu
    · next htv =>
        apply A.universal_congr htv
        rw [hu, Bool.or_eq_true] at hvu
        rcases hvu with hold | hnew
        · exact hle.2 t hold
        · exact hmetAll ((hall.1 hnew).mono hle)
    · exact hle.2 v hvu

/-! A write to another variable than the source does not show in what a
constraint asks. -/

theorem asks_of_insert {c : Constraint} (hsrc : ∀ u, c.source? = some u → (u == t) = false)
    {a : Atom} (h : c.Asks (assignment (hs.insert t h')) a) : c.Asks (assignment hs) a := by
  refine h.of_source fun u hu b hb => ?_
  change (of (hs.insert t h') u).atoms.contains b = true at hb
  rw [of_insert, BEq.comm, hsrc u hu] at hb
  exact hb

theorem asksAll_of_insert {c : Constraint}
    (hsrc : ∀ u, c.source? = some u → (u == t) = false)
    (h : c.AsksAll (assignment (hs.insert t h'))) : c.AsksAll (assignment hs) := by
  refine h.of_source fun u hu hb => ?_
  change (of (hs.insert t h') u).universal = true at hb
  rw [of_insert, BEq.comm, hsrc u hu] at hb
  exact hb

theorem metBy_insert {c : Constraint} (hle : assignment hs ≤ assignment (hs.insert t h'))
    (hsrc : ∀ u, c.source? = some u → (u == t) = false) (hmet : c.MetBy (assignment hs)) :
    c.MetBy (assignment (hs.insert t h')) := by
  intro w hw
  obtain ⟨hatoms, hall⟩ := hmet w hw
  exact ⟨fun a ha => hle.1 w a (hatoms a (asks_of_insert hsrc ha)),
    fun h => hle.2 w (hall (asksAll_of_insert hsrc h))⟩

/-- The constraint just applied is met, unless it reads its own target. -/
theorem metBy_insert_self {c : Constraint}
    (hu : h'.universal = ((of hs t).universal || inc.universal))
    (ha : ∀ a, h'.atoms.contains a = ((of hs t).atoms.contains a || inc.atoms.contains a))
    (hcon : c.contribution? hs = some (t, inc))
    (hsrc : ∀ u, c.source? = some u → (u == t) = false) :
    c.MetBy (assignment (hs.insert t h')) := by
  obtain ⟨htarget, hasks, hall⟩ := Constraint.contribution?_some hcon
  intro w hw
  cases htarget.symm.trans hw
  refine ⟨fun a hask => ?_, fun hask => ?_⟩
  · show (of (hs.insert t h') t).atoms.contains a = true
    rw [of_insert, if_pos BEq.rfl, ha, (hasks a).2 (asks_of_insert hsrc hask), Bool.or_true]
  · show (of (hs.insert t h') t).universal = true
    rw [of_insert, if_pos BEq.rfl, hu, hall.2 (asksAll_of_insert hsrc hask), Bool.or_true]

end Absorbed

/-- Without growth a write does not show. -/
theorem assignment_insert_self {hs : Holdings} {t : ErrorVar} {h' : Holding}
    (h : h' = of hs t) : assignment (hs.insert t h') = assignment hs := by
  have hof : ∀ v, of (hs.insert t h') v = of hs v := by
    intro v
    rw [of_insert]
    split
    · next htv => rw [h, of_congr hs htv]
    · rfl
  apply Assignment.ext
  · funext v a
    show ((of (hs.insert t h') v).atoms.contains a = true) = _
    rw [hof]
    rfl
  · funext v
    show ((of (hs.insert t h') v).universal = true) = _
    rw [hof]
    rfl

end Holdings

namespace Fixpoint

/-! ## The invariant of a run -/

/-- What holds of every state of a run. -/
structure Sound (cs : List Constraint) (initial : Table ErrorVar ErrorSet) (s : State) :
    Prop where
  /-- A constraint is met unless it waits in the queue. -/
  met : ∀ i c, cs[i]? = some c → i ∉ s.queue → c.MetBy s.holdings.assignment
  given : s.holdings.assignment.Extends initial
  keys : ∀ v, initial.contains v = true → s.holdings.contains v = true
  least : ∀ A : Assignment, A.Extends initial → (∀ c ∈ cs, c.MetBy A) →
    s.holdings.assignment ≤ A

theorem Sound.start (initial : Table ErrorVar ErrorSet) (cs : List Constraint) :
    Sound cs initial (State.start initial cs) where
  met i c hc hi := by
    refine absurd (List.mem_range.2 ?_) hi
    exact (List.getElem?_eq_some_iff.1 hc).1
  given := Holdings.start_extends initial cs
  keys v hv := by
    show (Holdings.start initial cs).contains v = true
    rw [Holdings.contains_start, hv, Bool.true_or]
  least _ hA _ := Holdings.start_le hA

theorem Sound.step {p : Problem} {initial : Table ErrorVar ErrorSet} {s s' : State}
    {place : Nat} {rest : List Nat} (hs : Sound p.constraints initial s)
    (hq : s.queue = place :: rest) (hstep : p.step s place rest = .ok (.next s')) :
    Sound p.constraints initial s' := by
  rcases Problem.step_next hstep with ⟨hnone, rfl⟩ |
    ⟨c, t, inc, h', grew, hc, hcon, habs, rfl⟩
  · -- The constraint has no target and is met by anything.
    refine ⟨fun i d hd hi => ?_, hs.given, hs.keys, hs.least⟩
    by_cases hip : i = place
    · subst hip
      intro w hw
      rw [hnone d hd] at hw
      cases hw
    · refine hs.met i d hd ?_
      rw [hq, List.mem_cons, not_or]
      exact ⟨hip, hi⟩
  · obtain ⟨hu, ha, hno⟩ := Holding.absorb_done habs
    have hle : s.holdings.assignment ≤ Holdings.assignment (s.holdings.insert t h') :=
      Holdings.le_insert hu ha
    refine ⟨fun i d hd hi => ?_, fun v set hv => ?_, fun v hv => ?_, fun A hA hmet => ?_⟩
    · change i ∉ (if grew then p.requeue rest t else rest) at hi
      show d.MetBy (Holdings.assignment (s.holdings.insert t h'))
      cases grew with
      | true =>
          rw [if_pos rfl, Problem.mem_requeue, not_or] at hi
          have hsrc : ∀ u, d.source? = some u → (u == t) = false := by
            intro u hu
            cases hut : u == t with
            | false => rfl
            | true => exact absurd (Problem.mem_readers.2 ⟨d, u, hd, hu, hut⟩) hi.2
          by_cases hip : i = place
          · subst hip
            cases hc.symm.trans hd
            exact Holdings.metBy_insert_self hu ha hcon hsrc
          · refine Holdings.metBy_insert hle hsrc (hs.met i d hd ?_)
            rw [hq, List.mem_cons, not_or]
            exact ⟨hip, hi.1⟩
      | false =>
          rw [if_neg Bool.false_ne_true] at hi
          rw [Holdings.assignment_insert_self (hno rfl)]
          by_cases hip : i = place
          · -- Nothing grew, so the target holds what is asked already.
            subst hip
            cases hc.symm.trans hd
            obtain ⟨htarget, hasks, hall⟩ := Constraint.contribution?_some hcon
            rw [hno rfl] at hu ha
            intro w hw
            cases htarget.symm.trans hw
            refine ⟨fun a hask => ?_, fun hask => ?_⟩
            · show (s.holdings.of t).atoms.contains a = true
              rw [ha, (hasks a).2 hask, Bool.or_true]
            · show (s.holdings.of t).universal = true
              rw [hu, hall.2 hask, Bool.or_true]
          · refine hs.met i d hd ?_
            rw [hq, List.mem_cons, not_or]
            exact ⟨hip, hi⟩
    · exact ⟨fun a h => hle.1 v a ((hs.given v set hv).1 a h),
        fun h => hle.2 v ((hs.given v set hv).2 h)⟩
    · show (s.holdings.insert t h').contains v = true
      rw [Table.contains_insert, hs.keys v hv, Bool.or_true]
    · exact Holdings.insert_le hu ha hcon (hs.least A hA hmet)
        (hmet c (List.mem_of_getElem? hc))

/-! ## The outcome -/

/-- A success is the end of a run, with the checks passed. -/
theorem solveBy_success {policy : Policy} {r : Registry} {view : View}
    {cs : List Constraint} {initial : Table ErrorVar ErrorSet} {o : Outcome}
    (h : solveBy policy r view cs initial = .ok o) (ho : o.success = true) :
    ∃ s, (Problem.mk cs policy view.holds).run (stepBound initial cs)
        (State.start initial cs) = .ok (.next s) ∧
      violation? view.covers s.holdings.toSolution cs = .ok none ∧
      o = ⟨s.holdings.toSolution, none, s.steps, s.growth⟩ := by
  unfold solveBy at h
  cases hu : unknown? r cs with
  | some d => rw [hu] at h; cases h; cases ho
  | none =>
      rw [hu] at h
      simp only [] at h
      cases hr : (Problem.mk cs policy view.holds).run (stepBound initial cs)
          (State.start initial cs) with
      | error f => rw [hr] at h; cases h
      | ok out =>
          rw [hr] at h
          simp only [bind, Except.bind] at h
          cases out with
          | conflict s d => cases h; cases ho
          | next s =>
              simp only [] at h
              unfold conclude at h
              cases hv : violation? view.covers s.holdings.toSolution cs with
              | error f => rw [hv] at h; cases h
              | ok v =>
                  rw [hv] at h
                  cases v with
                  | some d => cases h; cases ho
                  | none => cases h; exact ⟨s, rfl, hv, rfl⟩

theorem unknown?_of_success {policy : Policy} {r : Registry} {view : View}
    {cs : List Constraint} {initial : Table ErrorVar ErrorSet} {o : Outcome}
    (h : solveBy policy r view cs initial = .ok o) (ho : o.success = true) :
    unknown? r cs = none := by
  cases hu : unknown? r cs with
  | none => rfl
  | some d =>
      rw [solveBy, hu] at h
      cases h
      cases ho

/-- The end of a run, with the checks passed, is a success. -/
theorem solveBy_of_run {policy : Policy} {r : Registry} {view : View}
    {cs : List Constraint} {initial : Table ErrorVar ErrorSet} {s : State}
    (hu : unknown? r cs = none)
    (hrun : (Problem.mk cs policy view.holds).run (stepBound initial cs)
      (State.start initial cs) = .ok (.next s))
    (hv : violation? view.covers s.holdings.toSolution cs = .ok none) :
    solveBy policy r view cs initial =
      .ok ⟨s.holdings.toSolution, none, s.steps, s.growth⟩ := by
  rw [solveBy, hu]
  simp only [hrun, bind, Except.bind, conclude, hv]
  rfl

/-- Where a run ends, the holdings are the least assignment that extends the
given sets and meets the constraints. -/
theorem run_isLeast {p : Problem} {initial : Table ErrorVar ErrorSet} {n : Nat} {s : State}
    (h : p.run n (State.start initial p.constraints) = .ok (.next s)) :
    IsLeast {A : Assignment | A.Extends initial ∧ ∀ c ∈ p.constraints, c.MetBy A}
      s.holdings.assignment := by
  obtain ⟨hs, hq⟩ := Problem.run_next (I := Sound p.constraints initial)
    (fun hi hq hstep => hi.step hq hstep) (Sound.start initial p.constraints) h
  refine ⟨⟨hs.given, fun c hc => ?_⟩, fun A hA => hs.least A hA.1 hA.2⟩
  obtain ⟨i, hi⟩ := List.getElem?_of_mem hc
  refine hs.met i c hi ?_
  rw [hq]
  exact List.not_mem_nil

theorem run_keys {p : Problem} {initial : Table ErrorVar ErrorSet} {n : Nat} {s : State}
    (h : p.run n (State.start initial p.constraints) = .ok (.next s)) {v : ErrorVar}
    (hv : initial.contains v = true) : s.holdings.contains v = true :=
  (Problem.run_next (I := Sound p.constraints initial)
    (fun hi hq hstep => hi.step hq hstep) (Sound.start initial p.constraints) h).1.keys v hv

/-! ## The checks have an answer -/

/-- What is true of the entries of all sets, and of variables without arguments, is
true of what is offered. -/
theorem offered_each {P : Atom × List Ty → Prop} {cs : List Constraint}
    {initial : Table ErrorVar ErrorSet} (hinit : ∀ set ∈ initial.values, ∀ e ∈ set.entries, P e)
    (hcs : ∀ c ∈ cs, ∀ set ∈ c.errorSets, ∀ e ∈ set.entries, P e) (hvar : ∀ v, P (.var v, [])) :
    ∀ e ∈ offered initial cs, P e := by
  intro e he
  rcases List.mem_append.1 he with he | he
  · obtain ⟨set, hset, he⟩ := List.mem_flatMap.1 he
    exact hinit set hset e he
  · obtain ⟨c, hc, he⟩ := List.mem_flatMap.1 he
    have hsets := hcs c hc
    unfold Constraint.errorSets at hsets
    cases hd : c.demand with
    | subset sub sup known => rw [hd] at he; rw [List.mem_singleton.1 he]; exact hvar sub
    | unionSubset v known required =>
        rw [hd] at he hsets
        exact hsets required (by simp) e he
    | upperBound v bound => rw [hd] at he; cases he
    | none => rw [hd] at he; cases he

/-- The checks have an answer if those against the bounds do. -/
theorem violationFrom_of_bounds {covers : ErrorSet → ErrorSet → Except Fault Bool}
    {solution : Solution} {cs : List Constraint}
    (h : ∀ c ∈ cs, ∃ b, boundViolation covers solution c = .ok b) (seen : List ErrorVar) :
    ∃ r, violationFrom covers solution seen cs = .ok r := by
  induction cs generalizing seen with
  | nil => exact ⟨none, rfl⟩
  | cons c rest ih =>
      obtain ⟨b, hb⟩ := h c (List.mem_cons_self ..)
      rw [violationFrom, hb]
      cases b with
      | some d => exact ⟨some d, rfl⟩
      | none =>
          simp only [bind, Except.bind]
          cases (firstMentions seen c.vars).findSome? (aliasViolation solution c) with
          | some d => exact ⟨some d, rfl⟩
          | none => exact ih (fun d hd => h d (List.mem_cons_of_mem _ hd)) _

theorem violationFrom_answers {cs : List Constraint} (holds : Comparison)
    (solution : Solution) (hcs : ∀ c ∈ cs, ∀ set ∈ c.errorSets, set.PayloadFree)
    (seen : List ErrorVar) :
    ∃ r, violationFrom (View.coversWith holds) solution seen cs = .ok r := by
  refine violationFrom_of_bounds (fun c hc => ?_) seen
  have hsets := hcs c hc
  unfold Constraint.errorSets at hsets
  unfold boundViolation
  cases hd : c.demand with
  | upperBound v bound =>
      rw [hd] at hsets
      obtain ⟨b, hb⟩ := (View.coversWith_iff_includes holds (hsets bound (by simp))
        (finalSet solution v)).1
      simp only [hb, bind, Except.bind]
      cases b <;> exact ⟨_, rfl⟩
  | _ => exact ⟨none, rfl⟩

theorem solveBy_answers {policy : Policy} {r : Registry} {view : View}
    {cs : List Constraint} {initial : Table ErrorVar ErrorSet} {s : State}
    (hcs : ∀ c ∈ cs, ∀ set ∈ c.errorSets, set.PayloadFree)
    (hrun : (Problem.mk cs policy view.holds).run (stepBound initial cs)
      (State.start initial cs) = .ok (.next s)) :
    ∃ o, solveBy policy r view cs initial = .ok o := by
  unfold solveBy
  cases unknown? r cs with
  | some d => exact ⟨_, rfl⟩
  | none =>
      simp only [hrun, bind, Except.bind]
      obtain ⟨v, hv⟩ := violationFrom_answers view.holds s.holdings.toSolution hcs []
      unfold conclude violation?
      rw [show view.covers = View.coversWith view.holds from rfl, hv]
      cases v <;> exact ⟨_, rfl⟩

/-- Without arguments the loop reaches an empty queue and solving has an answer.
A success extends the given sets, meets the constraints, and is contained in
everything that does both. -/
theorem solve_reaches_least_solution (policy : Policy) (r : Registry) (view : View)
    (cs : List Constraint) (initial : Table ErrorVar ErrorSet) :
    ((∀ set ∈ initial.values, set.PayloadFree) ∧
        (∀ c ∈ cs, ∀ set ∈ c.errorSets, set.PayloadFree) →
      (∃ s, (Problem.mk cs policy view.holds).run (stepBound initial cs)
          (State.start initial cs) = .ok (.next s) ∧ s.queue = []) ∧
        ∃ o, solveBy policy r view cs initial = .ok o) ∧
    ∀ o, solveBy policy r view cs initial = .ok o → o.success = true →
      (∀ v, initial.contains v = true → o.solution.contains v = true) ∧
        IsLeast {A : Assignment | A.Extends initial ∧ ∀ c ∈ cs, c.MetBy A}
          o.solution.assignment := by
  refine ⟨fun ⟨hinit, hcs⟩ => ?_, fun o ho hok => ?_⟩
  · obtain ⟨s, hrun, hq⟩ := run_of_payloadFree (p := ⟨cs, policy, view.holds⟩)
      (offered_each hinit hcs fun _ => rfl)
    exact ⟨⟨s, hrun, hq⟩, solveBy_answers hcs hrun⟩
  · obtain ⟨s, hrun, _, rfl⟩ := solveBy_success ho hok
    refine ⟨fun v hv => ?_, ?_⟩
    · show (s.holdings.mapValues Holding.toSet).contains v = true
      rw [Table.contains_mapValues]
      exact run_keys hrun hv
    · rw [Holdings.assignment_toSolution]
      exact run_isLeast hrun

/-! A rigid variable and a classifier that go round between two variables, one
of them given a set. -/

def ringFault : Classifier := ⟨0, [], "A", [], some 0⟩

def ringVar (name : String) : ErrorVar := ⟨name, .unbounded, true⟩

def ring : List Constraint :=
  [⟨.subset ⟨"R", .unbounded, false⟩ (ringVar "E") .empty, .unknown, ""⟩,
    ⟨.subset (ringVar "E") (ringVar "F") .empty, .unknown, ""⟩,
    ⟨.subset (ringVar "F") (ringVar "E") .empty, .unknown, ""⟩]

def ringGiven : Table ErrorVar ErrorSet :=
  .ofList [(ringVar "F", .ofAtoms [.classifier ringFault])]

theorem least_solution_of_ring :
    ∃ o, solveBy .strict (.holding 0 [ringFault]) (View.plain .classes) ring ringGiven = .ok o ∧
      o.success = true ∧
      IsLeast {A : Assignment | A.Extends ringGiven ∧ ∀ c ∈ ring, c.MetBy A}
        o.solution.assignment := by
  obtain ⟨hends, hleast⟩ := solve_reaches_least_solution .strict (.holding 0 [ringFault])
    (View.plain .classes) ring ringGiven
  obtain ⟨o, ho⟩ := (hends ⟨by decide, by decide⟩).2
  have hok : o.success = true := by
    have hval : ∃ o', solveBy .strict (.holding 0 [ringFault]) (View.plain .classes) ring
        ringGiven = .ok o' ∧ o'.success = true := ⟨_, rfl, rfl⟩
    obtain ⟨o', ho', hok⟩ := hval
    cases ho.symm.trans ho'
    exact hok
  exact ⟨o, ho, hok, (hleast o ho hok).2⟩

end Fixpoint

end Fallible
