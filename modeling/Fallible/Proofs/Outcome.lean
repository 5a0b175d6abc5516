import Fallible.Proofs.Generation
import Fallible.Proofs.LeastFixpoint

/-!
# What a successful run of the solver leaves behind

The constraints of a session are plain: their variables are flexible, and their
sets have neither arguments nor flexible variables. Then the same is true of the
sets that the solver finds. Arguments can only come from what is offered. A
flexible variable in a set would have to come from somewhere too, but there it
is the least solution that excludes it: dropping all flexible variables from the
sets leaves every constraint met.

Every demand holds in what the solver finds: those that make a set grow because
the run has ended, upper bounds because they were checked.
-/

namespace Fallible

/-- Whether the variables in a set are rigid. -/
def ErrorSet.Rigid (s : ErrorSet) : Prop := ∀ x, s.contains (.var x) = true → x.flexible = false

/-- Constraints as comparisons make them. -/
structure Constraint.Clean (c : Constraint) : Prop where
  flexible : ∀ v ∈ c.vars, v.flexible = true
  rigid : ∀ set ∈ c.errorSets, set.Rigid

/-- Constraints as comparisons of types without arguments make them. -/
structure Constraint.Plain (c : Constraint) : Prop where
  flexible : ∀ v ∈ c.vars, v.flexible = true
  free : ∀ set ∈ c.errorSets, set.PayloadFree
  rigid : ∀ set ∈ c.errorSets, set.Rigid

theorem Constraint.Plain.clean {c : Constraint} (h : c.Plain) : c.Clean := ⟨h.flexible, h.rigid⟩

/-- A solution of flexible variables by sets without flexible variables, arguments
apart. -/
structure Solution.Clean (s : Solution) : Prop where
  rigid : ∀ v set, s.get? v = some set → set.Rigid
  keys : ∀ v, s.contains v = true → v.flexible = true

/-- A solution of flexible variables by sets that need no solving. -/
structure Solution.Ground (s : Solution) : Prop where
  free : s.PayloadFree
  rigid : ∀ v set, s.get? v = some set → set.Rigid
  keys : ∀ v, s.contains v = true → v.flexible = true

theorem Solution.Ground.clean {s : Solution} (h : s.Ground) : s.Clean := ⟨h.rigid, h.keys⟩

theorem ErrorVar.flexible_congr {v w : ErrorVar} (h : (v == w) = true) :
    v.flexible = w.flexible := by
  have hbare := congrArg ErrorVar.flexible (ErrorVar.beq_iff_bare.1 h)
  exact hbare

theorem Constraint.target_mem_vars {c : Constraint} {t : ErrorVar} (h : c.target? = some t) :
    t ∈ c.vars := by
  unfold target? at h
  unfold vars
  cases hd : c.demand with
  | subset sub sup known => rw [hd] at h; cases h; simp
  | unionSubset v known required => rw [hd] at h; cases h; simp
  | upperBound v bound => rw [hd] at h; cases h
  | none => rw [hd] at h; cases h

theorem Holdings.eq_toSet_of_get? {hs : Holdings} {v : ErrorVar} {set : ErrorSet}
    (h : hs.toSolution.get? v = some set) : set = (hs.of v).toSet := by
  rw [← Holdings.getD_toSolution, Solution.getD, h, Option.getD_some]

namespace Fixpoint

/-! ## What the sets are like -/

section Run

variable {p : Problem} {n : Nat} {s : State}

/-- Holdings stay a map. -/
theorem run_distinct (hrun : p.run n (State.start .empty p.constraints) = .ok (.next s)) :
    s.holdings.Distinct := by
  refine (Problem.run_next (I := fun s => s.holdings.Distinct) ?_ ?_ hrun).1
  · intro s s' place rest hs _ hstep
    rcases Problem.step_next hstep with ⟨_, rfl⟩ | ⟨c, t, inc, h', grew, _, _, _, rfl⟩
    · exact hs
    · exact hs.insert t h'
  · exact Holdings.distinct_start Table.distinct_empty p.constraints

/-- Only variables of the constraints come to hold something. -/
theorem run_mentioned (hrun : p.run n (State.start .empty p.constraints) = .ok (.next s))
    {v : ErrorVar} (hv : s.holdings.contains v = true) :
    ∃ c ∈ p.constraints, ∃ w ∈ c.vars, (w == v) = true := by
  refine (Problem.run_next (I := fun s => ∀ v, s.holdings.contains v = true →
    ∃ c ∈ p.constraints, ∃ w ∈ c.vars, (w == v) = true) ?_ ?_ hrun).1 v hv
  · intro s s' place rest hs _ hstep v hv
    rcases Problem.step_next hstep with ⟨_, rfl⟩ | ⟨c, t, inc, h', grew, hc, hcon, _, rfl⟩
    · exact hs v hv
    · change (s.holdings.insert t h').contains v = true at hv
      rw [Table.contains_insert, Bool.or_eq_true] at hv
      rcases hv with hv | hv
      · exact ⟨c, List.mem_of_getElem? hc, t,
          Constraint.target_mem_vars (Constraint.contribution?_some hcon).1, hv⟩
      · exact hs v hv
  · intro v hv
    change (Holdings.start .empty p.constraints).contains v = true at hv
    rw [Holdings.contains_start, Bool.or_eq_true] at hv
    rcases hv with hv | hv
    · cases hv
    · obtain ⟨w, hw, hwv⟩ := List.any_eq_true.1 hv
      obtain ⟨c, hc, hw⟩ := List.mem_flatMap.1 (List.mem_filter.1 hw).1
      exact ⟨c, hc, w, hw, hwv⟩

variable (hclean : ∀ c ∈ p.constraints, c.Clean)
  (hrun : p.run n (State.start .empty p.constraints) = .ok (.next s))

include hclean hrun

/-- Only flexible variables come to hold something. -/
theorem run_flexible {v : ErrorVar} (hv : s.holdings.contains v = true) : v.flexible = true := by
  obtain ⟨c, hc, w, hw, hwv⟩ := run_mentioned hrun hv
  rw [← ErrorVar.flexible_congr hwv]
  exact (hclean c hc).flexible w hw

/-- The least solution holds no flexible variable. -/
theorem run_rigid (v : ErrorVar) : ((s.holdings.of v).toSet).Rigid := by
  obtain ⟨⟨_, hmet⟩, hleast⟩ := run_isLeast hrun
  -- What is held, less the flexible variables, meets the constraints too.
  let A : Assignment :=
    { holds := fun v a => s.holdings.assignment.holds v a ∧
        ∀ x, (Atom.var x == a) = true → x.flexible = false
      universal := s.holdings.assignment.universal
      holds_congr := fun hv ha h =>
        ⟨s.holdings.assignment.holds_congr hv ha h.1,
          fun x hx => h.2 x (BEq.trans hx (BEq.symm ha))⟩
      universal_congr := s.holdings.assignment.universal_congr }
  have hle : A ≤ s.holdings.assignment := ⟨fun _ _ h => h.1, fun _ h => h⟩
  have hA : ∀ c ∈ p.constraints, c.MetBy A := by
    intro c hc t ht
    obtain ⟨hatoms, hall⟩ := hmet c hc t ht
    refine ⟨fun a ha => ⟨hatoms a (ha.mono hle), fun x hx => ?_⟩, fun h => hall (h.mono hle)⟩
    have hc := hclean c hc
    unfold Constraint.Asks at ha
    cases hd : c.demand with
    | subset sub sup known =>
        rw [hd] at ha
        have hflow := ha.1
        unfold Assignment.Flows at hflow
        split at hflow
        · exact hflow.2 x hx
        · next hsub => exact absurd (hc.flexible sub (by simp [Constraint.vars, hd])) hsub
    | unionSubset w known required =>
        rw [hd] at ha
        have hrigid := hc.rigid required (by simp [Constraint.errorSets, hd])
        refine hrigid x ?_
        rw [ErrorSet.contains_congr required hx]
        exact ha.1
    | upperBound w bound => rw [hd] at ha; exact ha.elim
    | none => rw [hd] at ha; exact ha.elim
  intro x hx
  rw [Holding.contains_toSet] at hx
  exact ((hleast ⟨fun _ _ h => absurd h (by simp), hA⟩).1 v (.var x) hx).2 x BEq.rfl

theorem run_clean : s.holdings.toSolution.Clean := by
  refine ⟨fun v set hset => ?_, fun v hv => ?_⟩
  · rw [Holdings.eq_toSet_of_get? hset]
    exact run_rigid hclean hrun v
  · refine run_flexible hclean hrun (v := v) ?_
    rw [← hv]
    exact (Table.contains_mapValues Holding.toSet s.holdings v).symm

omit hclean in
theorem run_payloadFree (hplain : ∀ c ∈ p.constraints, c.Plain) (v : ErrorVar) :
    ((s.holdings.of v).toSet).PayloadFree := by
  have hregular := Regular.run hrun
  have hoffers : ∀ e ∈ offered .empty p.constraints, e.2 = [] :=
    offered_each (fun _ h => absurd h List.not_mem_nil) (fun c hc => (hplain c hc).free)
      fun _ => rfl
  intro e he
  exact ((hregular.inPlay v).2 e (ErrorSet.mem_entries_ofEntries.1 he)).eq_nil hoffers

omit hclean in
theorem run_ground (hplain : ∀ c ∈ p.constraints, c.Plain) : s.holdings.toSolution.Ground := by
  have hclean := run_clean (fun c hc => (hplain c hc).clean) hrun
  refine ⟨fun v set hset => ?_, hclean.rigid, hclean.keys⟩
  rw [Holdings.eq_toSet_of_get? hset]
  exact run_payloadFree hrun hplain v

end Run

/-! ## What the demands come to -/

theorem boundViolation_of_none {covers : ErrorSet → ErrorSet → Except Fault Bool}
    {solution : Solution} : ∀ {cs : List Constraint} {seen : List ErrorVar},
      violationFrom covers solution seen cs = .ok none →
      ∀ c ∈ cs, boundViolation covers solution c = .ok none := by
  intro cs
  induction cs with
  | nil => intro seen _ c hc; exact absurd hc List.not_mem_nil
  | cons d cs ih =>
      intro seen h c hc
      rw [violationFrom] at h
      cases hb : boundViolation covers solution d with
      | error f => rw [hb] at h; cases h
      | ok r =>
          rw [hb] at h
          cases r with
          | some diagnostic => cases h
          | none =>
              simp only [bind, Except.bind] at h
              split at h
              · cases h
              · rcases List.mem_cons.1 hc with rfl | hc
                · exact hb
                · exact ih h c hc

/-- A set that is asked to grow until nothing more is asked supplies what is
required. -/
theorem supplies_of_asks {set known required : ErrorSet}
    (hatoms : ∀ a, required.contains a = true → known.contains a = false →
      set.contains a = true)
    (hall : required.universal = true → known.universal = false → set.universal = true) :
    set.Supplies known required := by
  by_cases hknown : known.universal = true
  · exact Or.inl hknown
  by_cases hset : set.universal = true
  · exact Or.inr (Or.inl hset)
  rw [Bool.not_eq_true] at hknown hset
  refine Or.inr (Or.inr ⟨Bool.eq_false_iff.2 fun hr => ?_, fun a ha => ?_⟩)
  · rw [hall hr hknown] at hset
    cases hset
  · cases hk : known.contains a with
    | true => exact Or.inl rfl
    | false => exact Or.inr (hatoms a ha hk)

/-- What the solver finds for constraints that comparisons made. -/
theorem clean_of_solveBy {policy : Policy} {r : Registry} {view : View} {cs : List Constraint}
    {o : Outcome} (hclean : ∀ c ∈ cs, c.Clean) (h : solveBy policy r view cs .empty = .ok o)
    (ho : o.success = true) : o.solution.Clean ∧ o.solution.sets.Distinct := by
  obtain ⟨s, hrun, _, rfl⟩ := solveBy_success h ho
  exact ⟨run_clean (p := ⟨cs, policy, view.holds⟩) hclean hrun, (run_distinct hrun).mapValues _⟩

/-- What the solver finds meets every demand. -/
theorem holdsIn_of_solveBy {policy : Policy} {r : Registry} {view : View}
    {cs : List Constraint} {o : Outcome} (hplain : ∀ c ∈ cs, c.Plain)
    (h : solveBy policy r view cs .empty = .ok o) (ho : o.success = true) :
    o.solution.Ground ∧ o.solution.sets.Distinct ∧ ∀ c ∈ cs, c.demand.HoldsIn o.solution := by
  obtain ⟨s, hrun, hviolation, rfl⟩ := solveBy_success h ho
  have hmet := (run_isLeast hrun).1.2
  rw [← Holdings.assignment_toSolution] at hmet
  refine ⟨run_ground (p := ⟨cs, policy, view.holds⟩) hrun hplain,
    (run_distinct hrun).mapValues _, fun c hc => ?_⟩
  have hp := hplain c hc
  have hm := hmet c hc
  have hbound := boundViolation_of_none hviolation c hc
  unfold Constraint.MetBy Constraint.target? Constraint.Asks Constraint.AsksAll at hm
  unfold boundViolation at hbound
  cases hd : c.demand with
  | subset sub sup known =>
      rw [hd] at hm
      have hsub : sub.flexible = true := hp.flexible sub (by simp [Constraint.vars, hd])
      obtain ⟨hatoms, hall⟩ := hm sup rfl
      show ((Holdings.toSolution s.holdings).getD sup).Supplies known
        (finalSet (Holdings.toSolution s.holdings) sub)
      rw [finalSet_of_flexible hsub]
      refine supplies_of_asks (fun a ha hk => hatoms a ⟨?_, hk⟩) fun hr hk => hall ⟨⟨hsub, hr⟩, hk⟩
      unfold Assignment.Flows
      rw [if_pos hsub]
      exact ha
  | unionSubset v known required =>
      rw [hd] at hm
      obtain ⟨hatoms, hall⟩ := hm v rfl
      exact supplies_of_asks (fun a ha hk => hatoms a ⟨ha, hk⟩) fun hr hk => hall ⟨hr, hk⟩
  | upperBound v bound =>
      rw [hd] at hbound
      have hfree := hp.free bound (by simp [Constraint.errorSets, hd])
      have hcovers : view.covers bound (finalSet s.holdings.toSolution v) = .ok true := by
        cases hc : view.covers bound (finalSet s.holdings.toSolution v) with
        | error f => simp only [hc] at hbound; cases hbound
        | ok answer =>
            cases answer with
            | true => rfl
            | false => simp only [hc] at hbound; cases hbound
      exact (View.coversWith_iff_includes _ hfree _).2.2
        ((View.coversWith_iff_includes _ hfree _).2.1 hcovers)
  | none => trivial

end Fixpoint

/-! ## Variables that no constraint mentions -/

/-- A demand looks at sets only through what variables hold. -/
theorem Demand.HoldsIn.congr {s s' : Solution} (hs : ∀ v, s.getD v = s'.getD v) {d : Demand}
    (h : d.HoldsIn s) : d.HoldsIn s' := by
  have hfinal : ∀ v, Fixpoint.finalSet s v = Fixpoint.finalSet s' v := by
    intro v
    unfold Fixpoint.finalSet
    rw [hs]
  cases d with
  | subset sub sup known =>
      show (s'.getD sup).Supplies known (Fixpoint.finalSet s' sub)
      rw [← hs, ← hfinal]
      exact h
  | unionSubset v known required =>
      show (s'.getD v).Supplies known required
      rw [← hs]
      exact h
  | upperBound v bound =>
      show (View.plain .classes).covers bound (Fixpoint.finalSet s' v) = .ok true
      rw [← hfinal]
      exact h
  | none => trivial

namespace Solution

variable {s : Solution} (hd : s.sets.Distinct) (vs : List ErrorVar)

theorem empty_of_get? {v : ErrorVar} {set : ErrorSet}
    (h : (Table.ofList (vs.map fun w => (w, ErrorSet.empty))).get? v = some set) :
    set = .empty := by
  obtain ⟨w, hw, _⟩ := Table.mem_of_get? h
  refine Table.forall_insertAll (P := fun set => set = ErrorSet.empty)
    (fun e he => absurd he List.not_mem_nil) (fun e he => ?_) _ hw
  obtain ⟨x, _, rfl⟩ := List.mem_map.1 he
  rfl

theorem contains_extend {v : ErrorVar} (hv : vs.contains v = true) :
    (s.extend (.ofList (vs.map fun w => (w, .empty)))).contains v = true := by
  show (Table.insertAll _ s.sets.entries).contains v = true
  rw [Table.contains_insertAll, Table.contains_ofList, List.any_map, Bool.or_eq_true]
  obtain ⟨w, hw, hvw⟩ := List.contains_iff_exists_mem_beq.1 hv
  exact Or.inl (List.any_eq_true.2 ⟨w, hw, BEq.symm hvw⟩)

include hd

theorem get?_extend (v : ErrorVar) :
    (s.extend (.ofList (vs.map fun w => (w, .empty)))).get? v = s.get? v ∨
      s.get? v = none ∧
        (s.extend (.ofList (vs.map fun w => (w, .empty)))).get? v = some .empty := by
  have hget : (s.extend (.ofList (vs.map fun w => (w, .empty)))).get? v =
      if s.sets.contains v then s.sets.get? v
      else (Table.ofList (vs.map fun w => (w, ErrorSet.empty))).get? v := Table.get?_overlay _ hd v
  rw [hget]
  cases hv : s.sets.contains v with
  | true => exact Or.inl rfl
  | false =>
      have hnone : s.get? v = none := Table.get?_eq_none.2 hv
      rw [if_neg Bool.false_ne_true, hnone]
      cases hn : (Table.ofList (vs.map fun w => (w, ErrorSet.empty))).get? v with
      | none => exact Or.inl rfl
      | some set =>
          rw [empty_of_get? vs hn]
          exact Or.inr ⟨rfl, rfl⟩

theorem getD_extend (v : ErrorVar) :
    (s.extend (.ofList (vs.map fun w => (w, .empty)))).getD v = s.getD v := by
  unfold Solution.getD
  rcases get?_extend hd vs v with h | ⟨h, h'⟩
  · rw [h]
  · rw [h, h']; rfl

theorem Clean.extend (hs : s.Clean) (hvs : ∀ v ∈ vs, v.flexible = true) :
    (s.extend (.ofList (vs.map fun w => (w, .empty)))).Clean := by
  refine ⟨fun v set hset => ?_, fun v hv => ?_⟩
  · rcases get?_extend hd vs v with h | ⟨_, h⟩
    · exact hs.rigid v set (h ▸ hset)
    · rw [h] at hset
      cases hset
      exact fun x hx => Bool.noConfusion hx
  · change (Table.insertAll _ s.sets.entries).contains v = true at hv
    rw [Table.contains_insertAll, Table.contains_ofList, List.any_map, Bool.or_eq_true] at hv
    rcases hv with hv | hv
    · obtain ⟨w, hw, hwv⟩ := List.any_eq_true.1 hv
      rw [← ErrorVar.flexible_congr hwv]
      exact hvs w hw
    · exact hs.keys v hv

theorem Ground.extend (hs : s.Ground) (hvs : ∀ v ∈ vs, v.flexible = true) :
    (s.extend (.ofList (vs.map fun w => (w, .empty)))).Ground := by
  have hclean := hs.clean.extend hd vs hvs
  refine ⟨fun v set hset => ?_, hclean.rigid, hclean.keys⟩
  rcases get?_extend hd vs v with h | ⟨_, h⟩
  · exact hs.free v set (h ▸ hset)
  · rw [h] at hset
    cases hset
    exact fun e he => absurd he List.not_mem_nil

end Solution

end Fallible
