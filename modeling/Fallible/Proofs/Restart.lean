import Fallible.Proofs.Closing
import Fallible.Proofs.LeastFixpoint

/-!
# Solving from a solution

A run that starts from closed holdings has nothing to do: each constraint is
applied once, what it contributes is there already, and no variable grows. The
holdings that a solution is turned into are closed if it was found under the
strict policy, because the holdings it was made from are, and going through sets
loses nothing but the order in which atoms were taken up.

That the holdings come out the very same table, and not only the same map, is
because every target has been written before: a step without growth writes what
is there.
-/

namespace Fallible

/-! ## Between holdings and sets -/

namespace Holding

variable {h : Holding}

theorem toSet_ofSet {s : ErrorSet} (hs : s.Distinct) : (ofSet s).toSet = s := by
  rw [toSet, ofSet, ErrorSet.index, Table.ofList_of_distinct hs]
  exact ErrorSet.ofTable_entries s s.universal

theorem get?_ofSet_toSet (hdis : h.atoms.Distinct) (a : Atom) :
    (ofSet h.toSet).atoms.get? a = h.atoms.get? a :=
  ErrorSet.get?_ofTable hdis h.universal a

theorem ofSet_toSet_le (hdis : h.atoms.Distinct) : ofSet h.toSet ≤ h :=
  ⟨id, fun a args hget => ⟨args, get?_ofSet_toSet hdis a ▸ hget, .refl args⟩⟩

theorem le_ofSet_toSet (hdis : h.atoms.Distinct) : h ≤ ofSet h.toSet :=
  ⟨id, fun a args hget => ⟨args, (get?_ofSet_toSet hdis a).trans hget, .refl args⟩⟩

end Holding

namespace Holdings

theorem start_of_contains {initial : Table ErrorVar ErrorSet} {cs : List Constraint}
    (h : ∀ c ∈ cs, ∀ v ∈ c.vars, v.flexible = true → initial.contains v = true) :
    start initial cs = initial.mapValues Holding.ofSet := by
  have hfold : ∀ (vs : List ErrorVar) (hs : Holdings), (∀ v ∈ vs, hs.contains v = true) →
      vs.foldl (fun hs v => hs.insertNew v .empty) hs = hs := by
    intro vs
    induction vs with
    | nil => exact fun _ _ => rfl
    | cons v vs ih =>
        intro hs hvs
        rw [List.foldl_cons, Table.insertNew, if_pos (hvs v (by simp))]
        exact ih hs fun w hw => hvs w (by simp [hw])
  refine hfold _ _ fun v hv => ?_
  obtain ⟨hmem, hflex⟩ := List.mem_filter.1 hv
  obtain ⟨c, hc, hvc⟩ := List.mem_flatMap.1 hmem
  rw [Table.contains_mapValues]
  exact h c hc v hvc hflex

section Again

variable (hs : Holdings) (cs : List Constraint)

theorem of_start_toSolution (v : ErrorVar) :
    of (start hs.toSolution.sets cs) v = .ofSet (hs.of v).toSet := by
  rw [of_start, toSolution, Table.get?_mapValues, of]
  cases hs.get? v <;> rfl

theorem start_toSolution_le (hdis : ∀ v, (hs.of v).atoms.Distinct) :
    start hs.toSolution.sets cs ≤ hs := fun v =>
  of_start_toSolution hs cs v ▸ Holding.ofSet_toSet_le (hdis v)

theorem le_start_toSolution (hdis : ∀ v, (hs.of v).atoms.Distinct) :
    hs ≤ start hs.toSolution.sets cs := fun v =>
  of_start_toSolution hs cs v ▸ Holding.le_ofSet_toSet (hdis v)

theorem toSolution_start_toSolution (hdis : ∀ e ∈ hs.entries, e.2.atoms.Distinct)
    (hflex : ∀ c ∈ cs, ∀ v ∈ c.vars, v.flexible = true → hs.contains v = true) :
    (start hs.toSolution.sets cs).toSolution = hs.toSolution := by
  rw [start_of_contains fun c hc v hv hf => ?_, toSolution, toSolution, Table.mapValues,
    Table.mapValues, Table.mapValues, List.map_map, List.map_map]
  · refine congrArg (fun es => Solution.mk ⟨es⟩) (List.map_congr_left fun e he => ?_)
    exact congrArg (Prod.mk e.1)
      (Holding.toSet_ofSet (ErrorSet.distinct_ofTable (hdis e he) _))
  · rw [toSolution, Table.contains_mapValues]
    exact hflex c hc v hv hf

end Again

end Holdings

namespace Fixpoint

/-! ## Runs that find everything in place -/

/-- From closed holdings every constraint is applied once, and nothing grows. -/
theorem Problem.run_of_closed {p : Problem} {hs : Holdings} (hclosed : hs.Closed p.constraints)
    (hdis : ∀ v, (hs.of v).atoms.Distinct)
    (htargets : ∀ c ∈ p.constraints, ∀ t, c.target? = some t → hs.contains t = true)
    (growth : List (ErrorVar × ErrorSet)) :
    ∀ {queue : List Nat} {n steps : Nat}, queue.length ≤ n →
      p.run n ⟨hs, queue, steps, growth⟩ =
        .ok (.next ⟨hs, [], steps + queue.length, growth⟩) := by
  intro queue
  induction queue with
  | nil => intro n steps _; rw [Problem.run]; rfl
  | cons place rest ih =>
      intro n steps hn
      obtain ⟨n, rfl⟩ : ∃ m, n = m + 1 := ⟨n - 1, by simp at hn; omega⟩
      have hstep : p.step ⟨hs, place :: rest, steps, growth⟩ place rest =
          .ok (.next ⟨hs, rest, steps + 1, growth⟩) := by
        rcases p.idle_or_contribution hs place with hidle | ⟨c, t, inc, hc, hcon⟩
        · exact Problem.step_of_no_target hidle
        · have hmem := List.mem_of_getElem? hc
          have habs : (hs.of t).absorb p.policy p.holds inc = .ok (.done (hs.of t) false) :=
            Holding.absorb_of_le (Constraint.contribution?_distinct hdis hcon)
              (hclosed c hmem t inc hcon)
          have hget : hs.get? t = some (hs.of t) := by
            obtain ⟨h, hh⟩ := Table.get?_of_contains
              (htargets c hmem t (Constraint.contribution?_some hcon).1)
            rw [Holdings.of, hh, Option.getD_some]
          rw [Problem.step_of_done hc hcon habs, State.written, Table.insert_of_get? hget]
          rfl
      rw [Problem.run]
      simp only [hstep, bind, Except.bind]
      rw [ih (by simpa using hn), List.length_cons, Nat.add_assoc, Nat.add_comm 1]

/-! ## What a run has written -/

/-- Which variables have an entry in a state, and that the entries are maps. -/
structure Stored (cs : List Constraint) (s : State) : Prop where
  targets : ∀ i c t, cs[i]? = some c → i ∉ s.queue → c.target? = some t →
    s.holdings.contains t = true
  flexible : ∀ c ∈ cs, ∀ v ∈ c.vars, v.flexible = true → s.holdings.contains v = true
  distinct : ∀ e ∈ s.holdings.entries, e.2.atoms.Distinct

theorem Stored.start (initial : Table ErrorVar ErrorSet) (cs : List Constraint) :
    Stored cs (State.start initial cs) where
  targets i c t hc hi := by
    refine absurd (List.mem_range.2 ?_) hi
    exact (List.getElem?_eq_some_iff.1 hc).1
  flexible c hc v hv hflex := by
    show (Holdings.start initial cs).contains v = true
    rw [Holdings.contains_start, Bool.or_eq_true, List.any_eq_true]
    exact Or.inr ⟨v, List.mem_filter.2 ⟨List.mem_flatMap.2 ⟨c, hc, hv⟩, hflex⟩, BEq.rfl⟩
  distinct := by
    have hfold : ∀ (vs : List ErrorVar) (hs : Holdings),
        (∀ e ∈ hs.entries, e.2.atoms.Distinct) →
        ∀ e ∈ (vs.foldl (fun hs v => hs.insertNew v .empty) hs).entries, e.2.atoms.Distinct := by
      intro vs
      induction vs with
      | nil => exact fun _ h => h
      | cons v vs ih =>
          intro hs h
          refine ih _ fun e he => ?_
          rcases Table.mem_insertNew he with he | rfl
          · exact h e he
          · exact Table.distinct_empty
    refine hfold _ _ fun e he => ?_
    obtain ⟨d, _, rfl⟩ := List.mem_map.1 he
    exact Table.distinct_ofList _

theorem Stored.step {p : Problem} {initial : Table ErrorVar ErrorSet} {s s' : State}
    {place : Nat} {rest : List Nat} (hreg : Regular p.constraints initial s)
    (hs : Stored p.constraints s) (hq : s.queue = place :: rest)
    (hstep : p.step s place rest = .ok (.next s')) : Stored p.constraints s' := by
  have hwaits : ∀ {i}, i ≠ place → i ∉ rest → i ∉ s.queue := fun hip hi =>
    hq ▸ List.not_mem_cons_of_ne_of_not_mem hip hi
  rcases Problem.step_next hstep with ⟨hnone, rfl⟩ | ⟨c, t, inc, h', grew, hc, hcon, habs, rfl⟩
  · refine ⟨fun i d w hd hi hw => ?_, hs.flexible, hs.distinct⟩
    by_cases hip : i = place
    · subst hip
      rw [hnone d hd] at hw
      cases hw
    · exact hs.targets i d w hd (hwaits hip hi) hw
  · have hkeep : ∀ {v}, s.holdings.contains v = true →
        (s.holdings.insert t h').contains v = true := by
      intro v hv
      rw [Table.contains_insert, hv, Bool.or_true]
    refine ⟨fun i d w hd hi hw => ?_, fun d hd v hv hf => hkeep (hs.flexible d hd v hv hf),
      fun e he => ?_⟩
    · show (s.holdings.insert t h').contains w = true
      by_cases hip : i = place
      · subst hip
        cases hc.symm.trans hd
        cases (Constraint.contribution?_some hcon).1.symm.trans hw
        rw [Table.contains_insert, BEq.rfl, Bool.true_or]
      · exact hkeep (hs.targets i d w hd (hwaits hip (State.not_mem_of_written hi)) hw)
    · rcases Table.mem_insert he with ⟨_, hv⟩ | hold
      · rw [hv]
        exact absorb_distinct (hreg.distinct t) habs
      · exact hs.distinct e hold

theorem le_stepBound (initial : Table ErrorVar ErrorSet) (cs : List Constraint) :
    cs.length ≤ stepBound initial cs := by
  have hqueue : cs.length ≤ queueBound cs.length := by
    cases hn : cs.length with
    | zero => exact Nat.zero_le _
    | succ n => exact (Nat.le_succ _).trans (Nat.le_self_pow (Nat.succ_ne_zero n) _)
  have hhold : 0 < Nat.pow (holdingBound (offered initial cs)) cs.length := by
    refine Nat.pow_pos ?_
    exact Nat.mul_pos (by omega) (Nat.pow_pos (by omega))
  calc cs.length ≤ queueBound cs.length := hqueue
    _ ≤ queueBound cs.length * Nat.pow (holdingBound (offered initial cs)) cs.length :=
      Nat.le_mul_of_pos_right _ hhold
    _ ≤ stepBound initial cs := Nat.le_mul_of_pos_left _ (Nat.succ_pos _)

/-! ## Once more -/

/-- Solving from a solution of the strict policy gives that solution, after
applying each constraint once and without any growth. -/
theorem solving_again_changes_nothing (r : Registry) (view : View) (cs : List Constraint)
    (initial : Table ErrorVar ErrorSet) (o : Outcome)
    (hvar : ∀ e ∈ offered initial cs, ∀ i, e.1.variance i ≠ .contravariant)
    (h : solveBy .strict r view cs initial = .ok o) (ho : o.success = true) :
    solveBy .strict r view cs o.solution.sets = .ok ⟨o.solution, none, cs.length, []⟩ := by
  have hunknown := unknown?_of_success h ho
  obtain ⟨s, hrun, hviolation, rfl⟩ := solveBy_success h ho
  obtain ⟨⟨hreg, hstored⟩, hq⟩ := Problem.run_next
    (I := fun s => Regular cs initial s ∧ Stored cs s)
    (fun hi hq hstep => ⟨hi.1.step hq hstep, hi.2.step hi.1 hq hstep⟩)
    ⟨Regular.start initial cs, Stored.start initial cs⟩ hrun
  have hsolves := (run_strict_isLeast (p := ⟨cs, .strict, view.holds⟩) rfl hvar hrun).1
  -- The second run starts from the same holdings, sorted, and these are closed.
  have hrun' : (Problem.mk cs .strict view.holds).run
      (stepBound s.holdings.toSolution.sets cs) (State.start s.holdings.toSolution.sets cs) =
      .ok (.next ⟨Holdings.start s.holdings.toSolution.sets cs, [], cs.length, []⟩) := by
    have hlen : (List.range cs.length).length ≤ stepBound s.holdings.toSolution.sets cs := by
      rw [List.length_range]
      exact le_stepBound _ cs
    rw [State.start, Problem.run_of_closed (p := ⟨cs, .strict, view.holds⟩) ?_ ?_ ?_ [] hlen,
      List.length_range, Nat.zero_add]
    · intro c hc t inc hcon
      obtain ⟨inc', hcon', hle⟩ := Constraint.contribution?_mono
        (Holdings.start_toSolution_le s.holdings cs hreg.distinct) hcon
      exact (hle.trans (hsolves.closed c hc t inc' hcon')).trans
        (Holdings.le_start_toSolution s.holdings cs hreg.distinct t)
    · exact (Regular.start s.holdings.toSolution.sets cs).distinct
    · intro c hc t ht
      obtain ⟨i, hi⟩ := List.getElem?_of_mem hc
      rw [Holdings.contains_start, Holdings.toSolution, Table.contains_mapValues,
        hstored.targets i c t hi (by rw [hq]; exact List.not_mem_nil) ht, Bool.true_or]
  have hsolution := Holdings.toSolution_start_toSolution s.holdings cs hstored.distinct
    hstored.flexible
  have hanswer := solveBy_of_run hunknown hrun' (by rw [hsolution]; exact hviolation)
  rw [hsolution] at hanswer
  exact hanswer

/-! A classifier whose argument becomes known only after it has gone round
between two variables. -/

def roundFault : Classifier := ⟨0, [], "A", [.covariant], some 0⟩

def roundVar (name : String) : ErrorVar := ⟨name, .unbounded, true⟩

def roundGiven (name : String) (args : List Ty) : Constraint :=
  ⟨.unionSubset (roundVar name) .empty (.ofEntries [(.classifier roundFault, args)] false),
    .unknown, ""⟩

def roundFlow (sub sup : String) : Constraint :=
  ⟨.subset (roundVar sub) (roundVar sup) .empty, .unknown, ""⟩

def round (args : List Ty) : List Constraint :=
  [roundGiven "E" [], roundFlow "E" "F", roundFlow "F" "E", roundGiven "F" args]

theorem solving_round_again : ∃ o,
    solveBy .strict (.holding 0 [roundFault]) (View.plain .classes) (round [.value]) .empty =
        .ok o ∧
      o.success = true ∧ o.steps = 6 ∧
      solveBy .strict (.holding 0 [roundFault]) (View.plain .classes) (round [.value])
        o.solution.sets = .ok ⟨o.solution, none, 4, []⟩ := by
  have hfirst : ∃ o, solveBy .strict (.holding 0 [roundFault]) (View.plain .classes)
      (round [.value]) .empty = .ok o ∧ o.success = true ∧ o.steps = 6 := ⟨_, rfl, rfl, rfl⟩
  have hvar : ∀ e ∈ offered .empty (round [.value]), ∀ c ∈ e.1.classifier?,
      .contravariant ∉ c.variances := by decide
  obtain ⟨o, ho, hok, hsteps⟩ := hfirst
  exact ⟨o, ho, hok, hsteps, solving_again_changes_nothing _ _ _ _ o
    (fun e he => Atom.variance_ne_contravariant (hvar e he)) ho hok⟩

end Fixpoint

end Fallible
