import Fallible.Proofs.FirstViolation
import Fallible.Proofs.Generation
import Fallible.Proofs.Receiving

/-!
# Routing finds a placement whenever there is one

A comparison that has to wait sends each missing atom to one variable of the
upper type. Where it sends it is decided at once, before anything is solved, and
whether that was allowed is checked by other code at the end, after solving.

The two agree. An atom fits a variable that has no bound, or whose alias has all
that the atom stands for. Routing sends an atom to a variable that it fits, if
there is one. The constraints that come out name each variable once and have no
sources, so solving gives every variable exactly what was sent to it, and the
check at the end asks for each variable whether that fits. So solving succeeds
exactly if every missing atom fits some variable, and no other placement could
have done better.
-/

namespace Fallible

/-! ## Where an atom fits -/

/-- Whether a variable may hold an atom: it has no bound, or its alias has the
classifier, or its alias has the whole alias of the variable that the atom is. -/
inductive ErrorVar.Fits (t : ErrorVar) : Atom → Prop
  | unbounded {a : Atom} : t.bound = .unbounded → t.Fits a
  | classifier {limit : Alias} {c : Classifier} : t.bound = .bounded limit →
      limit.contains c = true → t.Fits (.classifier c)
  | inside {limit within : Alias} {x : ErrorVar} : t.bound = .bounded limit →
      x.bound = .bounded within → (∀ c ∈ within.members, limit.contains c = true) →
      t.Fits (.var x)

namespace ErrorVar

variable {t u : ErrorVar} {a b : Atom}

theorem fits_iff : t.Fits a ↔ ∀ limit, t.bound = .bounded limit → a.isWithin limit = true := by
  constructor
  · rintro (hb | ⟨hb, hc⟩ | ⟨hb, hx, hall⟩) limit hlimit
    · rw [hb] at hlimit
      cases hlimit
    · cases hb.symm.trans hlimit
      exact hc
    · cases hb.symm.trans hlimit
      rw [Atom.isWithin, hx]
      exact List.all_eq_true.2 hall
  · intro h
    cases hb : t.bound with
    | unbounded => exact .unbounded hb
    | bounded limit =>
        have hin := h limit hb
        cases a with
        | classifier c => exact .classifier hb hin
        | var x =>
            cases hx : x.bound with
            | unbounded => rw [Atom.isWithin, hx] at hin; cases hin
            | bounded within =>
                rw [Atom.isWithin, hx] at hin
                exact .inside hb hx (List.all_eq_true.1 hin)

theorem Fits.congr (htu : (t == u) = true) (hab : (a == b) = true) (h : t.Fits a) : u.Fits b := by
  rw [fits_iff] at h ⊢
  intro limit hu
  have hbare : t.bound.bare = u.bound.bare := congrArg ErrorVar.bound (beq_iff_bare.1 htu)
  cases ht : t.bound with
  | unbounded => rw [ht, hu] at hbare; cases hbare
  | bounded limit' =>
      rw [ht, hu] at hbare
      injection hbare with hlimit
      rw [← Atom.isWithin_bare, ← hlimit, Atom.isWithin_bare, ← Atom.isWithin_congr limit' hab]
      exact h limit' ht

end ErrorVar

/-- An atom is sent to a variable that it fits, if there is one. -/
theorem Obligation.route_fits_iff {a : Atom} {targets : List ErrorVar} {t : ErrorVar}
    (h : route a targets = .ok t) : t.Fits a ↔ ∃ u ∈ targets, u.Fits a := by
  refine ⟨fun ht => ⟨t, route_mem h, ht⟩, fun ⟨u, hu, hfits⟩ => ?_⟩
  rw [ErrorVar.fits_iff] at hfits ⊢
  unfold route at h
  split at h
  · next w hw =>
      cases h
      have hin := List.find?_some hw
      intro limit hlimit
      rw [hlimit] at hin
      exact hin
  · next hnone =>
      split at h
      · next w hw =>
          cases h
          have hopen := List.find?_some hw
          intro limit hlimit
          rw [hlimit] at hopen
          cases hopen
      · next hbounded =>
          -- A variable that the atom fits would have been found before.
          have hno := List.find?_eq_none.1 hnone u hu
          have hno' := List.find?_eq_none.1 hbounded u hu
          cases hb : u.bound with
          | unbounded => rw [hb] at hno'; exact absurd rfl hno'
          | bounded limit =>
              rw [hb] at hno
              exact absurd (hfits limit hb) hno

/-! ## Constraints that only require -/

/-- What is absorbed into nothing is taken as it is. -/
theorem Holding.absorb_empty (p : Policy) (holds : Comparison) {inc : Holding}
    (hd : inc.atoms.Distinct) : ∃ grew, absorb p holds .empty inc = .ok (.done inc grew) := by
  obtain ⟨⟨es⟩, universal⟩ := inc
  exact ⟨_, absorbEntries_of_new p holds es [] _ hd⟩

namespace Fixpoint

/-- Whether constraints only require atoms outright, each of a variable of its own. -/
structure Outright (cs : List Constraint) : Prop where
  required : ∀ c ∈ cs, ∃ t known required, c.demand = .unionSubset t known required
  apart : cs.Pairwise fun c d => ∀ t u, c.target? = some t → d.target? = some u → (t == u) = false

/-- What constraints require outright of each variable. -/
def requirements (cs : List Constraint) : Assignment where
  holds v a := ∃ c ∈ cs, ∃ t known required, c.demand = .unionSubset t known required ∧
    (t == v) = true ∧ required.contains a = true ∧ known.contains a = false
  universal v := ∃ c ∈ cs, ∃ t known required, c.demand = .unionSubset t known required ∧
    (t == v) = true ∧ required.universal = true ∧ known.universal = false
  holds_congr := by
    rintro v w a b hvw hab ⟨c, hc, t, known, required, hd, htv, ha, hk⟩
    rw [ErrorSet.contains_congr _ hab] at ha hk
    exact ⟨c, hc, t, known, required, hd, BEq.trans htv hvw, ha, hk⟩
  universal_congr := by
    rintro v w hvw ⟨c, hc, t, known, required, hd, htv, hall⟩
    exact ⟨c, hc, t, known, required, hd, BEq.trans htv hvw, hall⟩

namespace Outright

variable {p : Problem}

theorem readers (h : Outright p.constraints) (v : ErrorVar) : p.readers v = [] := by
  refine List.eq_nil_iff_forall_not_mem.2 fun i hi => ?_
  obtain ⟨c, u, hc, hu, -⟩ := Problem.mem_readers.1 hi
  obtain ⟨t, known, required, hd⟩ := h.required c (List.mem_of_getElem? hc)
  rw [Constraint.source?, hd] at hu
  cases hu

theorem requeue (h : Outright p.constraints) (rest : List Nat) (v : ErrorVar) :
    p.requeue rest v = rest := by
  rw [Problem.requeue, h.readers, List.filter_nil, List.append_nil]

theorem target_ne (h : Outright p.constraints) {i j : Nat} (hij : i ≠ j) {c d : Constraint}
    {t u : ErrorVar} (hc : p.constraints[i]? = some c) (hd : p.constraints[j]? = some d)
    (ht : c.target? = some t) (hu : d.target? = some u) : (t == u) = false := by
  obtain ⟨hi, rfl⟩ := List.getElem?_eq_some_iff.1 hc
  obtain ⟨hj, rfl⟩ := List.getElem?_eq_some_iff.1 hd
  rcases Nat.lt_or_gt_of_ne hij with hlt | hlt
  · exact List.pairwise_iff_getElem.1 h.apart i j hi hj hlt t u ht hu
  · rw [BEq.comm]
    exact List.pairwise_iff_getElem.1 h.apart j i hj hi hlt u t hu ht

/-- A constraint whose target holds nothing is applied without fault, and the queue
gets no longer. -/
theorem step (h : Outright p.constraints) (s : State) {place : Nat} (rest : List Nat)
    (hempty : ∀ c t, p.constraints[place]? = some c → c.target? = some t →
      s.holdings.of t = .empty) :
    (∃ c t inc growth, p.constraints[place]? = some c ∧ c.target? = some t ∧
      p.step s place rest =
        .ok (.next ⟨s.holdings.insert t inc, rest, s.steps + 1, growth⟩)) ∨
    p.step s place rest = .ok (.next (s.skipped rest)) := by
  rcases p.idle_or_contribution s.holdings place with hidle | ⟨c, t, inc, hc, hcon⟩
  · exact Or.inr (Problem.step_of_no_target hidle)
  · have htarget := (Constraint.contribution?_some hcon).1
    have hd : inc.atoms.Distinct := by
      obtain ⟨v, known, required, hdemand⟩ := h.required c (List.mem_of_getElem? hc)
      rw [Constraint.contribution?, hdemand] at hcon
      cases hcon
      exact Table.Distinct.filterKeys (Table.distinct_ofList _) _
    obtain ⟨grew, habs⟩ := Holding.absorb_empty p.policy p.holds hd
    rw [← hempty c t hc htarget] at habs
    have hstep : p.step s place rest = .ok (.next (s.written p rest t inc grew)) :=
      Problem.step_of_done hc hcon habs
    rw [State.written, h.requeue, ite_self] at hstep
    exact Or.inl ⟨c, t, inc, _, hc, htarget, hstep⟩

/-- The run ends when every constraint has been applied once. -/
theorem run (h : Outright p.constraints) (queue : List Nat) (hnodup : queue.Nodup) (n : Nat)
    (hn : queue.length ≤ n) (hs : Holdings) (steps : Nat) (growth : List (ErrorVar × ErrorSet))
    (hempty : ∀ i ∈ queue, ∀ c t, p.constraints[i]? = some c → c.target? = some t →
      hs.of t = .empty) :
    ∃ s, p.run n ⟨hs, queue, steps, growth⟩ = .ok (.next s) := by
  induction queue generalizing n hs steps growth with
  | nil => exact ⟨_, by rw [Problem.run.eq_def]; rfl⟩
  | cons place rest ih =>
      obtain ⟨n, rfl⟩ := Nat.exists_eq_add_of_le' hn
      obtain ⟨hplace, hrest⟩ := List.nodup_cons.1 hnodup
      rw [List.length_cons, ← Nat.add_assoc, Problem.run]
      rcases h.step ⟨hs, place :: rest, steps, growth⟩ rest (hempty place List.mem_cons_self) with
        ⟨c, t, inc, growth', hc, ht, hstep⟩ | hstep
      · simp only [hstep, bind, Except.bind]
        refine ih hrest _ (Nat.le_add_left _ _) _ _ _ fun i hi d u hd hu => ?_
        have hne : place ≠ i := by
          rintro rfl
          exact hplace hi
        rw [Holdings.of_insert, h.target_ne hne hc hd ht hu]
        exact hempty i (List.mem_cons_of_mem _ hi) d u hd hu
      · simp only [hstep, bind, Except.bind, State.skipped]
        exact ih hrest _ (Nat.le_add_left _ _) _ _ _ fun i hi =>
          hempty i (List.mem_cons_of_mem _ hi)

/-- In the end every variable holds what is required of it, and nothing else. -/
theorem assignment_eq (h : Outright p.constraints) {n : Nat} {s : State}
    (hrun : p.run n (State.start .empty p.constraints) = .ok (.next s)) :
    s.holdings.toSolution.assignment = requirements p.constraints := by
  obtain ⟨⟨-, hmet⟩, hleast⟩ := run_isLeast hrun
  have hle : s.holdings.assignment ≤ requirements p.constraints := by
    refine hleast ⟨fun v set hv => ?_, fun c hc t ht => ?_⟩
    · cases hv
    · obtain ⟨u, known, required, hd⟩ := h.required c hc
      rw [Constraint.target?, hd] at ht
      cases ht
      rw [Constraint.AsksAll, hd]
      refine ⟨fun a ha => ?_, fun hall => ⟨c, hc, t, known, required, hd, BEq.rfl, hall⟩⟩
      rw [Constraint.Asks, hd] at ha
      exact ⟨c, hc, t, known, required, hd, BEq.rfl, ha⟩
  have hge : requirements p.constraints ≤ s.holdings.assignment := by
    refine ⟨fun v a => ?_, fun v => ?_⟩
    all_goals
      rintro ⟨c, hc, t, known, required, hd, htv, hask⟩
      obtain ⟨hatoms, hall⟩ := hmet c hc t (by rw [Constraint.target?, hd])
    · exact Assignment.holds_congr _ htv BEq.rfl (hatoms a (by rw [Constraint.Asks, hd]; exact hask))
    · exact Assignment.universal_congr _ htv (hall (by rw [Constraint.AsksAll, hd]; exact hask))
  rw [Holdings.assignment_toSolution]
  exact Assignment.ext (funext fun v => funext fun a => propext ⟨hle.1 v a, hge.1 v a⟩)
    (funext fun v => propext ⟨hle.2 v, hge.2 v⟩)

/-- Solving has an answer, and it is a success if what is required of the variables
stays within their aliases. -/
theorem solveBy {cs : List Constraint} (h : Outright cs) (policy : Policy) {r : Registry}
    (hknown : unknown? r cs = none) (view : View) :
    ∃ sets o, Solution.assignment sets = requirements cs ∧
      Fixpoint.solveBy policy r view cs .empty = .ok o ∧
      (o.success = true ↔
        ∀ c ∈ cs, ∀ v ∈ c.vars, v.flexible = true → WithinAlias sets v) := by
  obtain ⟨s, hrun⟩ := run (p := ⟨cs, policy, view.holds⟩) h (List.range cs.length)
    List.nodup_range (stepBound .empty cs) (by rw [List.length_range]; exact le_stepBound _ cs)
    (Holdings.start .empty cs) 0 [] fun _ _ _ t _ _ => Holdings.of_start .empty cs t
  have hbound : ∀ c ∈ cs, boundViolation view.covers s.holdings.toSolution c = .ok none := by
    intro c hc
    obtain ⟨t, known, required, hd⟩ := h.required c hc
    rw [boundViolation, hd]
    rfl
  have hpass : violation? view.covers s.holdings.toSolution cs = .ok none ↔
      ∀ c ∈ cs, ∀ v ∈ c.vars, v.flexible = true → WithinAlias s.holdings.toSolution v :=
    violation?_none_iff.trans (forall₂_congr fun c hc => and_iff_right (hbound c hc))
  obtain ⟨found, hfound⟩ : ∃ found, violation? view.covers s.holdings.toSolution cs = .ok found :=
    violationFrom_of_bounds (fun c hc => ⟨none, hbound c hc⟩) []
  have hsets := assignment_eq (p := ⟨cs, policy, view.holds⟩) h hrun
  have hsolve := solveBy_of_next hknown hrun
  rw [conclude, hfound] at hsolve
  cases found with
  | none => exact ⟨_, _, hsets, hsolve, iff_of_true rfl (hpass.1 hfound)⟩
  | some d =>
      refine ⟨_, _, hsets, hsolve, iff_of_false Bool.false_ne_true fun hall => ?_⟩
      rw [hpass.2 hall] at hfound
      cases hfound

end Outright

/-- What a variable holds is within its alias if every atom fits, and if it holds
everything only where it has no bound. -/
theorem withinAlias_iff_fits {sets : Solution} {v : ErrorVar} :
    WithinAlias sets v ↔ (sets.assignment.universal v → v.bound.isUnbounded = true) ∧
      ∀ a, sets.assignment.holds v a → v.Fits a := by
  simp only [WithinAlias, fitsAlias_iff, ErrorVar.fits_iff]
  constructor
  · intro h
    refine ⟨fun hall => ?_, fun a ha limit hlimit => ?_⟩
    · cases hb : v.bound with
      | unbounded => rfl
      | bounded limit =>
          have hnot := (h limit hb).1
          rw [show (sets.getD v).universal = true from hall] at hnot
          cases hnot
    · obtain ⟨e, he, hea⟩ := ErrorSet.contains_iff.1 ha
      rw [← Atom.isWithin_congr limit hea]
      exact (h limit hlimit).2 e he
  · rintro ⟨hall, hatoms⟩ limit hlimit
    refine ⟨Bool.eq_false_iff.2 fun hu => ?_, fun e he => ?_⟩
    · have hopen := hall hu
      rw [hlimit] at hopen
      cases hopen
    · exact hatoms e.1 (ErrorSet.contains_of_mem he) limit hlimit

end Fixpoint

/-! ## What a comparison sends -/

namespace Obligation

open Fixpoint

section Received

variable {above below : Interpretation} {ds : List Demand} (location : Location) (reason : String)
  (h : received above (absorber? above below) (View.missingOf above.known below.known) = .ok ds)

include h

theorem outright_of_received :
    Outright (ds.map fun d => (⟨d, location, reason⟩ : Constraint)) := by
  obtain ⟨r, hroutes, -, rfl⟩ := received_spec h
  rw [List.map_map]
  refine ⟨fun c hc => ?_, ?_⟩
  · obtain ⟨e, -, rfl⟩ := List.mem_map.1 hc
    exact ⟨_, _, _, rfl⟩
  · rw [List.pairwise_map]
    refine (List.pairwise_map.1 hroutes.distinct).imp fun {d e} hde t u ht hu => ?_
    cases ht
    cases hu
    exact hde

/-- A variable of the upper type is required to hold what is sent to it. -/
theorem requirements_of_received (v : ErrorVar) (a : Atom) :
    (requirements (ds.map fun d => (⟨d, location, reason⟩ : Constraint))).holds v a ↔
      Sent above.flexible (View.missingOf above.known below.known).entries v a := by
  obtain ⟨r, hroutes, -, rfl⟩ := received_spec h
  rw [← hroutes.sent]
  constructor
  · rintro ⟨c, hc, t, known, required, hd, htv, ha, -⟩
    obtain ⟨d, hd', rfl⟩ := List.mem_map.1 hc
    obtain ⟨e, he, rfl⟩ := List.mem_map.1 hd'
    cases hd
    rw [ErrorSet.contains_ofTable] at ha
    exact ⟨e.2, (Table.get?_congr r htv).symm.trans (hroutes.distinct.get?_of_mem he), ha⟩
  · rintro ⟨atoms, hget, hin⟩
    obtain ⟨t, ht, htv⟩ := Table.mem_of_get? hget
    have hmissing : (View.missingOf above.known below.known).contains a = true := by
      obtain ⟨e, he, hea, -⟩ := (hroutes.sent v a).1 ⟨atoms, hget, hin⟩
      exact ErrorSet.contains_iff.2 ⟨e, he, hea⟩
    rw [View.contains_missingOf, View.leaves, Bool.and_eq_true, Bool.and_eq_true,
      Bool.not_eq_true'] at hmissing
    refine ⟨_, List.mem_map_of_mem (List.mem_map_of_mem ht), t, _, _, rfl, htv, ?_, hmissing.2.1⟩
    rw [ErrorSet.contains_ofTable]
    exact hin

/-- Everything is required only of variables without bound. -/
theorem universal_of_received {v : ErrorVar}
    (hv : (requirements (ds.map fun d => (⟨d, location, reason⟩ : Constraint))).universal v) :
    v.bound.isUnbounded = true := by
  obtain ⟨r, -, -, rfl⟩ := received_spec h
  obtain ⟨c, hc, t, known, required, hd, htv, hall, -⟩ := hv
  obtain ⟨d, hd', rfl⟩ := List.mem_map.1 hc
  obtain ⟨e, he, rfl⟩ := List.mem_map.1 hd'
  cases hd
  obtain ⟨u, hu, heu⟩ := (Option.any_eq_true _ _).1 hall
  have hopen : u.bound.isUnbounded = true := by
    unfold absorber? at hu
    split at hu
    · have hfound := List.find?_some hu
      exact hfound
    · cases hu
  rw [← View.isUnbounded_congr htv, View.isUnbounded_congr heu, hopen]

/-- Solving the constraints of a comparison passes the checks exactly if every
missing atom fits some variable. -/
theorem within_iff_fits (hflexible : ∀ t ∈ above.flexible, t.flexible = true)
    (hsome : (View.missingOf above.known below.known).isEmpty = false → above.flexible ≠ [])
    {sets : Solution} (hsets : sets.assignment =
      requirements (ds.map fun d => (⟨d, location, reason⟩ : Constraint))) :
    (∀ c ∈ ds.map fun d => (⟨d, location, reason⟩ : Constraint), ∀ v ∈ c.vars,
      v.flexible = true → WithinAlias sets v) ↔
      ∀ a, (View.missingOf above.known below.known).contains a = true →
        ∃ t ∈ above.flexible, t.Fits a := by
  simp only [withinAlias_iff_fits, hsets, requirements_of_received location reason h]
  constructor
  · intro hall a ha
    obtain ⟨r, hroutes, -, rfl⟩ := received_spec h
    have hne : above.flexible ≠ [] := hsome (Bool.eq_false_iff.2 fun hempty => by
      rw [((ErrorSet.isEmpty_iff _).1 hempty).1 a] at ha
      cases ha)
    obtain ⟨e, he, hea⟩ := ErrorSet.contains_iff.1 ha
    obtain ⟨t, ht⟩ := route_of_ne_nil hne e.1
    obtain ⟨atoms, hget, -⟩ := (hroutes.sent t a).2 ⟨e, he, hea, t, ht, BEq.rfl⟩
    obtain ⟨u, hu, hut⟩ := Table.mem_of_get? hget
    have hmem := hroutes.keys u (List.mem_map_of_mem hu)
    refine ⟨u, hmem, (hall _ (List.mem_map_of_mem (List.mem_map_of_mem hu)) u List.mem_cons_self
      (hflexible u hmem)).2 a ⟨e, he, hea, t, ht, BEq.symm hut⟩⟩
  · rintro hfits c - v - -
    refine ⟨universal_of_received location reason h, ?_⟩
    rintro a ⟨e, he, hea, u, hu, huv⟩
    exact ((route_fits_iff hu).2 (hfits e.1 (ErrorSet.contains_of_mem he))).congr huv hea

end Received

end Obligation

/-! ## Classifiers that are issued -/

/-- The classifiers that the errors of a type name, and those in the aliases of its
variables. -/
def Ty.errorRecords (t : Ty) : List Classifier :=
  t.errorPart.flatMap fun
    | .errorConst c _ => [c]
    | .errorVar x =>
        match x.bound with
        | .bounded a => a.members
        | .unbounded => []
    | _ => []

theorem Ty.mem_errorRecords_of_known {t : Ty} {c : Classifier} {args : List Ty}
    (h : (.classifier c, args) ∈ (View.interpretWith .empty t).known.entries) :
    c ∈ t.errorRecords := by
  rcases View.stemsFrom_interpretWith _ h with ⟨x, hx⟩ | ⟨d, args', -, hd, -, hmem, -⟩
  · cases hx
  · cases hd
    exact List.mem_flatMap.2 ⟨_, hmem, List.mem_cons_self⟩

theorem View.key_of_missingOf {sup sub : ErrorSet} {e : Atom × List Ty}
    (h : e ∈ (missingOf sup sub).entries) : ∃ d ∈ sub.entries, d.1 = e.1 := by
  obtain ⟨d, hd, hde⟩ := Table.mem_keys_ofList
    (List.mem_map_of_mem (ErrorSet.mem_entries_ofEntries.1 h))
  exact ⟨d, (List.mem_filter.1 hd).1, hde⟩

theorem Obligation.unknown?_of_issued {r : Registry} {sup sub : Ty} {ds : List Demand}
    (hsup : ∀ c ∈ sup.errorRecords, r.contains c = true)
    (hsub : ∀ c ∈ sub.errorRecords, r.contains c = true) (location : Location) (reason : String)
    (h : received (View.interpretWith .empty sup)
      (absorber? (View.interpretWith .empty sup) (View.interpretWith .empty sub))
      (View.missingOf (View.interpretWith .empty sup).known (View.interpretWith .empty sub).known) =
        .ok ds) :
    Fixpoint.unknown? r (ds.map fun d => ⟨d, location, reason⟩) = none := by
  obtain ⟨routes, hroutes, -, rfl⟩ := received_spec h
  rw [Fixpoint.unknown?_eq_none_iff]
  intro c hc k hk
  obtain ⟨d, hd, rfl⟩ := List.mem_map.1 hc
  obtain ⟨e, he, rfl⟩ := List.mem_map.1 hd
  rcases List.mem_append.1 hk with hk | hk
  · obtain ⟨set, hset, hk⟩ := List.mem_flatMap.1 hk
    obtain ⟨args, hargs⟩ := ErrorSet.mem_of_mem_classifiers hk
    rcases List.mem_cons.1 hset with rfl | hset
    · exact hsup k (Ty.mem_errorRecords_of_known hargs)
    · obtain rfl := List.mem_singleton.1 hset
      -- A required classifier is spelt as in the lower type.
      obtain ⟨m, hm, hmk⟩ := hroutes.atoms e he _
        (List.mem_map_of_mem (ErrorSet.mem_entries_ofEntries.1 hargs))
      obtain ⟨⟨a, args'⟩, ha, ham⟩ := View.key_of_missingOf hm
      cases ham.trans hmk
      exact hsub k (Ty.mem_errorRecords_of_known ha)
  · obtain ⟨v, hv, hk⟩ := List.mem_flatMap.1 hk
    obtain rfl := List.mem_singleton.1 hv
    have hmem := hroutes.keys e.1 (List.mem_map_of_mem he)
    exact hsup k (List.mem_flatMap.2 ⟨_, (View.mem_flexible_interpretWith.1 hmem).1, hk⟩)

/-! ## The main statement -/

namespace Engine

theorem compareValues_frame (order : ValueOrder) (s : Solution) (bindings : Option Bindings)
    (obligations : Option (List Constraint)) (x y : Ty) :
    ∃ answer bindings', (Engine.mk order s bindings obligations).compareValues x y =
      (answer, ⟨order, s, bindings', obligations⟩) := by
  unfold compareValues
  split
  · split <;> exact ⟨_, _, rfl⟩
  · exact ⟨_, _, rfl⟩
  · exact ⟨_, _, rfl⟩

/-- What a comparison that has to wait leaves behind. -/
theorem check_waiting {order : ValueOrder} {bindings : Option Bindings} {before : List Constraint}
    {sup sub : Ty} {location : Location} {e : Engine}
    (h : (Engine.mk order .empty bindings (some before)).check sup sub location =
      (.ok .pending, e)) :
    View.errorVerdict (View.interpretWith .empty sup) (View.interpretWith .empty sub) = .pending ∧
      ∃ b ds, Obligation.demands ⟨order, .empty, b⟩ sup sub = .ok ds ∧
        e.obligations = some (before ++ ds.map fun d => ⟨d, location, Obligation.reason sup sub⟩) := by
  rcases check_ok h with ⟨-, hr, -⟩ | ⟨-, -, hr⟩ | ⟨-, e₁, hvalues, herrors⟩
  · cases hr
  · cases hr
  obtain ⟨answer, bindings', hframe⟩ := compareValues_frame order .empty bindings (some before)
    sup.valuePart sub.valuePart
  rw [hframe] at hvalues
  cases hvalues
  obtain ⟨hcompare, hmade⟩ := compareErrors_ok herrors
  obtain ⟨hclash, hverdict⟩ :=
    View.compareErrors_answer (View.distinct_interpretWith .empty sup) hcompare
  refine ⟨(hverdict fun hc => ?_).symm, ?_⟩
  · cases hclash hc
  · rcases hmade with ⟨hne, -⟩ | ⟨-, hnone, -⟩ | ⟨-, -, made, hmade, rfl⟩
    · exact absurd rfl hne
    · cases hnone
    · obtain ⟨ds, hds, rfl⟩ := Obligation.constraints_ok hmade
      exact ⟨_, ds, hds, rfl⟩

end Engine

/-- Where a comparison has to wait and the lower type has no flexible variables, the
constraints it leaves can be solved exactly if every error of the lower type that
the upper type is not known to cover fits some flexible variable of the upper type. -/
theorem generated_constraints_solvable_iff_fits (order : ValueOrder) (bindings : Option Bindings)
    (before : List Constraint) (sup sub : Ty) (location : Location) (e : Engine)
    (hpending : (Engine.mk order .empty bindings (some before)).check sup sub location =
      (.ok .pending, e))
    (hrigid : ∀ x, .errorVar x ∈ sub.errorPart → x.flexible = false) (policy : Policy)
    (r : Registry) (view : View) (hsup : ∀ c ∈ sup.errorRecords, r.contains c = true)
    (hsub : ∀ c ∈ sub.errorRecords, r.contains c = true) :
    ∃ made o, e.obligations = some (before ++ made) ∧
      Fixpoint.solveBy policy r view made .empty = .ok o ∧
      (o.success = true ↔
        ∀ a, (View.interpretWith .empty sub).known.contains a = true →
          View.leaves (View.interpretWith .empty sup).known a = true →
          ∃ t ∈ (View.interpretWith .empty sup).flexible, t.Fits a) := by
  obtain ⟨hverdict, b, ds, hds, hobligations⟩ := Engine.check_waiting hpending
  obtain ⟨rs, fs, hrec, hflow, rfl⟩ := Obligation.demands_ok hds
  have hnone : (View.interpretWith .empty sub).flexible = [] := by
    refine List.eq_nil_iff_forall_not_mem.2 fun x hx => ?_
    obtain ⟨hmem, hflex, -⟩ := View.mem_flexible_interpretWith.1 hx
    rw [hrigid x hmem] at hflex
    cases hflex
  change Obligation.flows _ (View.interpretWith .empty sub).flexible = .ok fs at hflow
  rw [hnone] at hflow
  cases hflow
  rw [List.append_nil] at hobligations
  obtain ⟨sets, o, hsets, hsolve, hsuccess⟩ :=
    (Obligation.outright_of_received location (Obligation.reason sup sub) hrec).solveBy policy
      (Obligation.unknown?_of_issued hsup hsub location (Obligation.reason sup sub) hrec) view
  refine ⟨_, o, hobligations, hsolve, hsuccess.trans ?_⟩
  rw [Obligation.within_iff_fits location (Obligation.reason sup sub) hrec
    (fun t ht => (View.mem_flexible_interpretWith.1 ht).2.1)
    (View.errorVerdict_pending hverdict).2.2 hsets]
  simp only [View.contains_missingOf, Bool.and_eq_true, and_imp]
  rfl

/-! Two variables with an alias each, and errors that fit one of them each: a
classifier with an argument, and a rigid variable. -/

def splitSup : Ty :=
  .union [.errorVar (Fixpoint.tiedVar "E" (Fixpoint.strayFault "A" 0)),
    .errorVar (Fixpoint.tiedVar "F" (Fixpoint.strayFault "B" 1))]

/-- A rigid variable that may hold `B`. -/
def splitVar : ErrorVar := ⟨"R", .bounded (.of "Net" [Fixpoint.strayFault "B" 1]), false⟩

def splitSub : Ty :=
  .union [.errorVar splitVar, .errorConst (Fixpoint.strayFault "A" 0) [.con (.host .int) []]]

/-- Each error goes to the variable that it fits, so solving succeeds. -/
theorem generated_constraints_of_split :
    ∃ e made o, (Engine.mk .classes .empty none (some [])).check splitSup splitSub .unknown =
        (.ok .pending, e) ∧
      e.obligations = some made ∧
      Fixpoint.solveBy .strict Fixpoint.strayRegistry (View.plain .classes) made .empty = .ok o ∧
      o.success = true := by
  have hrigid : ∀ x, .errorVar x ∈ splitSub.errorPart → x.flexible = false := by
    intro x hx
    rcases List.mem_cons.1 hx with h | h
    · cases h; rfl
    · cases List.mem_singleton.1 h
  obtain ⟨made, o, hmade, hsolve, hsuccess⟩ := generated_constraints_solvable_iff_fits .classes none
    [] splitSup splitSub .unknown _ rfl hrigid .strict Fixpoint.strayRegistry (View.plain .classes)
    (by decide) (by decide)
  refine ⟨_, made, o, rfl, hmade, hsolve, hsuccess.2 fun a ha _ => ?_⟩
  obtain ⟨e, he, hea⟩ := ErrorSet.contains_iff.1 ha
  rcases List.mem_cons.1 he with rfl | he
  · exact ⟨_, List.mem_cons_self,
      .congr BEq.rfl hea (.classifier rfl (by decide))⟩
  · obtain rfl := List.mem_singleton.1 he
    refine ⟨_, List.mem_cons_of_mem _ List.mem_cons_self, .congr BEq.rfl hea (.inside rfl rfl ?_)⟩
    decide

end Fallible
