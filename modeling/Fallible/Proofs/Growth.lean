import Fallible.Proofs.Reaching
import Fallible.Proofs.Termination
import Mathlib.Data.List.Chain

/-!
# Growth only goes up

Each time a variable grows, its new set is reported. This file reads the reports
on one variable, in order and with the given set before them, as a chain: no
atom is lost from one to the next, the flag is not taken back, and two
neighbours always differ. Absorbing reports growth only for a reason, and since
a contribution lists an atom once, what was written for that reason is still
there when absorbing is done (`absorb_grows`). In between, a step that reports
nothing on the variable has left it alone, so the last report is what the
variable holds.

That arguments have changed does not mean that they have become wider; a list may
give way to one that it covers. So the chain does not bound the number of
reports, and it is stated for runs that never end as well.
-/

namespace Fallible

/-- Whether nothing of a set is lost in another, and something is new there: an
atom, the flag, or the arguments of an atom. -/
structure ErrorSet.Grows (s t : ErrorSet) : Prop where
  atoms : ∀ a, s.contains a = true → t.contains a = true
  universal : s.universal = true → t.universal = true
  differs : (∃ a, s.contains a = false ∧ t.contains a = true) ∨
    (s.universal = false ∧ t.universal = true) ∨
    ∃ a old new, s.get? a = some old ∧ t.get? a = some new ∧ (new == old) = false

/-- Whether two sets are the same map. One may list an atom more than once. -/
structure ErrorSet.SameMap (s t : ErrorSet) : Prop where
  get? : ∀ a, s.get? a = t.get? a
  universal : s.universal = t.universal

theorem ErrorSet.SameMap.contains {s t : ErrorSet} (h : s.SameMap t) (a : Atom) :
    s.contains a = t.contains a := by
  rw [← ErrorSet.isSome_get?, ← ErrorSet.isSome_get?, h.get?]

/-- Growth depends on the map only. -/
theorem ErrorSet.Grows.of_sameMap {s s' t : ErrorSet} (h : s.Grows t) (hs : s.SameMap s') :
    s'.Grows t where
  atoms a ha := h.atoms a ((hs.contains a).trans ha)
  universal hu := h.universal (hs.universal.trans hu)
  differs := by
    rcases h.differs with ⟨a, hold, hnew⟩ | ⟨hold, hnew⟩ | ⟨a, old, new, hold, hnew, hne⟩
    · exact Or.inl ⟨a, (hs.contains a).symm.trans hold, hnew⟩
    · exact Or.inr (Or.inl ⟨hs.universal.symm.trans hold, hnew⟩)
    · exact Or.inr (Or.inr ⟨a, old, new, (hs.get? a).symm.trans hold, hnew, hne⟩)

/-! ## Absorbing -/

namespace Holding

theorem sameMap_toSet_ofSet (s : ErrorSet) : (ofSet s).toSet.SameMap s where
  get? a := ErrorSet.get?_ofTable (Table.distinct_ofList s.entries) s.universal a
  universal := rfl

variable {p : Policy} {holds : Comparison} {h h' inc : Holding}

/-- An atom that no entry names keeps its arguments. -/
theorem absorbEntries_frame {es : List (Atom × List Ty)} {grew grew' : Bool} {a : Atom}
    (ha : ∀ e ∈ es, (e.1 == a) = false)
    (hd : absorbEntries p holds es h grew = .ok (.done h' grew')) :
    h'.atoms.get? a = h.atoms.get? a := by
  refine absorbEntries_invariant (I := fun t => t.get? a = h.atoms.get? a) ?_ ?_ rfl hd
  · intro e he t _ ht
    rw [Table.get?_insert, ha e he]
    exact ht
  · intro e he t old m _ _ _ ht
    rw [Table.get?_insert, ha e he]
    exact ht

/-- Entries that name each atom once are reported as growth only if there is a
new atom, or a new list for an atom, when all of them are absorbed. -/
theorem absorbEntries_grew : ∀ {es : List (Atom × List Ty)} {h : Holding},
    (Table.mk es).Distinct → absorbEntries p holds es h false = .ok (.done h' true) →
    (∃ a, h.atoms.contains a = false ∧ h'.atoms.contains a = true) ∨
      ∃ a old new, h.atoms.get? a = some old ∧ h'.atoms.get? a = some new ∧
        (new == old) = false := by
  intro es
  induction es with
  | nil => intro h _ hd; cases hd
  | cons e rest ih =>
      intro h hdis hd
      obtain ⟨atom, args⟩ := e
      obtain ⟨hhead, htail⟩ := List.pairwise_cons.1 hdis
      rcases absorbEntries_cons hd with ⟨hget, hr⟩ | ⟨old, m, hget, _, ⟨_, hr⟩ | ⟨hne, hr⟩⟩
      · refine Or.inl ⟨atom, Table.get?_eq_none.1 hget, ?_⟩
        rw [(absorbEntries_done hr).2.1, Table.contains_insert, BEq.rfl]
        rfl
      · exact ih htail hr
      · refine Or.inr ⟨atom, old, m, hget, ?_, hne⟩
        -- The rest names other atoms, so the merged list stays.
        have hother : ∀ e ∈ rest, (e.1 == atom) = false := fun e he => by
          rw [BEq.comm]
          exact hhead e.1 (List.mem_map_of_mem he)
        rw [absorbEntries_frame hother hr, Table.get?_insert, BEq.rfl]
        rfl

/-- What is reported as growth is growth. -/
theorem absorb_grows (hdis : h.atoms.Distinct) (hinc : inc.atoms.Distinct)
    (hd : h.absorb p holds inc = .ok (.done h' true)) : h.toSet.Grows h'.toSet := by
  obtain ⟨hu, ha, _⟩ := absorb_done hd
  refine ⟨fun a hc => ?_, fun hc => ?_, ?_⟩
  · rw [contains_toSet] at hc ⊢
    rw [ha, hc]
    rfl
  · have hc' : h.universal = true := hc
    exact hu.trans (by rw [hc']; rfl)
  · cases hflag : inc.universal && !h.universal with
    | true =>
        rw [Bool.and_eq_true, Bool.not_eq_true'] at hflag
        exact Or.inr (Or.inl ⟨hflag.2, hu.trans (by rw [hflag.1, Bool.or_true])⟩)
    | false =>
        have hdis' : h'.atoms.Distinct := Fixpoint.absorb_distinct hdis hd
        rw [absorb, hflag] at hd
        rcases absorbEntries_grew hinc hd with ⟨a, hold, hnew⟩ | ⟨a, old, new, hold, hnew, hne⟩
        · exact Or.inl ⟨a, (contains_toSet h a).trans hold, (contains_toSet h' a).trans hnew⟩
        · exact Or.inr (Or.inr ⟨a, old, new, (ErrorSet.get?_ofTable hdis _ a).trans hold,
            (ErrorSet.get?_ofTable hdis' _ a).trans hnew, hne⟩)

end Holding

/-! ## The reports of a run -/

namespace Fixpoint

/-- The sets that were reported for a variable, oldest first. -/
def reportsOn (growth : List (ErrorVar × ErrorSet)) (v : ErrorVar) : List ErrorSet :=
  (growth.filter fun e => e.1 == v).map Prod.snd

theorem reportsOn_snoc (growth : List (ErrorVar × ErrorSet)) (t v : ErrorVar) (s : ErrorSet) :
    reportsOn (growth ++ [(t, s)]) v =
      if t == v then reportsOn growth v ++ [s] else reportsOn growth v := by
  unfold reportsOn
  rw [List.filter_append, List.map_append]
  cases htv : t == v <;> simp [htv]

/-- The set that a variable is given, or the empty one. -/
def given (initial : Table ErrorVar ErrorSet) (v : ErrorVar) : ErrorSet :=
  (initial.get? v).getD .empty

/-- The history of a variable: the given set, with each atom listed once, and the
reports. -/
def history (initial : Table ErrorVar ErrorSet) (growth : List (ErrorVar × ErrorSet))
    (v : ErrorVar) : List ErrorSet :=
  (Holding.ofSet (given initial v)).toSet :: reportsOn growth v

theorem history_snoc (initial : Table ErrorVar ErrorSet) (growth : List (ErrorVar × ErrorSet))
    (t v : ErrorVar) (s : ErrorSet) :
    history initial (growth ++ [(t, s)]) v =
      if t == v then history initial growth v ++ [s] else history initial growth v := by
  unfold history
  rw [reportsOn_snoc]
  split <;> rfl

/-- Whether the history of a variable is a chain that leads to what it holds. -/
structure Documented (initial : Table ErrorVar ErrorSet) (v : ErrorVar) (s : State) : Prop where
  chain : List.IsChain ErrorSet.Grows (history initial s.growth v)
  last : (history initial s.growth v).getLast? = some (s.holdings.of v).toSet

section Run

variable {p : Problem} {initial : Table ErrorVar ErrorSet} {v : ErrorVar} {s s' : State}

theorem Documented.start (initial : Table ErrorVar ErrorSet) (cs : List Constraint)
    (v : ErrorVar) : Documented initial v (State.start initial cs) := by
  refine ⟨.singleton _, ?_⟩
  show some _ = some ((Holdings.start initial cs).of v).toSet
  rw [Holdings.of_start, given]
  cases initial.get? v <;> rfl

/-- Writing to another variable, or without growth, leaves the history as it is;
a report goes to its end. -/
theorem Documented.step {place : Nat} {rest : List Nat}
    (hreg : Regular p.constraints initial s) (h : Documented initial v s)
    (hstep : p.step s place rest = .ok (.next s')) : Documented initial v s' := by
  rcases Problem.step_next hstep with ⟨_, rfl⟩ | ⟨c, t, inc, h', grew, hc, hcon, habs, rfl⟩
  · exact ⟨h.chain, h.last⟩
  · have hof : (s.written p rest t h' grew).holdings.of v =
        if t == v then h' else s.holdings.of v := Holdings.of_insert ..
    cases grew with
    | false =>
        refine ⟨h.chain, h.last.trans ?_⟩
        rw [hof, (Holding.absorb_done habs).2.2 rfl]
        split
        · next htv => rw [Holdings.of_congr _ htv]
        · rfl
    | true =>
        have hrep : history initial (s.written p rest t h' true).growth v =
            if t == v then history initial s.growth v ++ [h'.toSet]
            else history initial s.growth v := history_snoc ..
        cases htv : t == v with
        | false =>
            rw [htv] at hof hrep
            exact ⟨by rw [hrep]; exact h.chain, by rw [hrep, hof]; exact h.last⟩
        | true =>
            rw [htv] at hof hrep
            refine ⟨?_, by rw [hrep, hof]; exact List.getLast?_concat⟩
            rw [hrep]
            refine List.isChain_append.2 ⟨h.chain, .singleton _, ?_⟩
            intro x hx y hy
            rw [h.last, ← Holdings.of_congr _ htv] at hx
            cases hx
            cases hy
            exact Holding.absorb_grows (hreg.distinct t)
              (Constraint.contribution?_distinct hreg.distinct hcon) habs

theorem Documented.stateAfter {n : Nat}
    (h : p.stateAfter (State.start initial p.constraints) n = some s) (v : ErrorVar) :
    Documented initial v s :=
  (Problem.stateAfter_invariant
    (I := fun s => Regular p.constraints initial s ∧ Documented initial v s)
    (fun hi hq hstep => ⟨hi.1.step hq hstep, hi.2.step hi.1 hstep⟩)
    ⟨Regular.start initial p.constraints, Documented.start initial p.constraints v⟩ h).2

/-- The given set itself can stand at the head of the history. -/
theorem Documented.chain_given (h : Documented initial v s) :
    List.IsChain ErrorSet.Grows (given initial v :: reportsOn s.growth v) := by
  obtain ⟨hhead, htail⟩ := List.isChain_cons.1 h.chain
  exact List.isChain_cons.2
    ⟨fun y hy => (hhead y hy).of_sameMap (Holding.sameMap_toSet_ofSet _), htail⟩

/-- A conflict comes before anything is written. -/
theorem Problem.step_conflict {place : Nat} {rest : List Nat} {d : Diagnostic}
    (h : p.step s place rest = .ok (.conflict s' d)) : s'.growth = s.growth := by
  rcases p.idle_or_contribution s.holdings place with hidle | ⟨c, t, inc, hc, hcon⟩
  · rw [Problem.step_of_no_target hidle] at h
    cases h
  · cases habs : (s.holdings.of t).absorb p.policy p.holds inc with
    | error f =>
        unfold Problem.step at h
        simp only [hc, Problem.applyTo, hcon, habs, bind, Except.bind] at h
        cases h
    | ok out =>
        cases out with
        | clash k first second =>
            rw [Problem.step_of_clash hc hcon habs] at h
            cases h
            rfl
        | done h' grew =>
            rw [Problem.step_of_done hc hcon habs] at h
            cases h

/-- Where a run stops, the reports are those of a state that it has reached. -/
theorem Problem.run_reached {n : Nat} {out : Progress} (h : p.run n s = .ok out) :
    ∃ k u, p.stateAfter s k = some u ∧
      (out = .next u ∨ ∃ u' d, out = .conflict u' d ∧ u'.growth = u.growth) := by
  rcases p.run_cases s n with hrun | ⟨k, u, hk, hrun⟩
  · rw [hrun] at h
    cases h
  · rw [hrun, Problem.answer] at h
    cases hq : u.queue with
    | nil => rw [hq] at h; cases h; exact ⟨k, u, hk, Or.inl rfl⟩
    | cons place rest =>
        rw [hq] at h
        cases out with
        | next u' =>
            refine ⟨k + 1, u', ?_, Or.inl rfl⟩
            have hadv : p.advance u = some u' := by
              unfold Problem.advance
              rw [hq]
              simp only [h]
            rw [Problem.stateAfter, hk]
            exact hadv
        | conflict u' d => exact ⟨k, u, hk, Or.inr ⟨u', d, rfl, Problem.step_conflict h⟩⟩

end Run

/-! ## The outcome -/

section Outcome

variable {policy : Policy} {r : Registry} {view : View} {cs : List Constraint}
  {initial : Table ErrorVar ErrorSet}

/-- An outcome has the reports of a state that the loop reaches, and if it is a
success, what is held there. -/
theorem solveBy_reached {o : Outcome} (h : solveBy policy r view cs initial = .ok o) :
    ∃ n s, (Problem.mk cs policy view.holds).stateAfter (State.start initial cs) n = some s ∧
      o.growth = s.growth ∧ (o.success = true → o.solution = s.holdings.toSolution) := by
  cases hu : unknown? r cs with
  | some d =>
      rw [solveBy, hu] at h
      cases h
      exact ⟨0, _, rfl, rfl, fun ho => by cases ho⟩
  | none =>
      cases hrun : (Problem.mk cs policy view.holds).run (stepBound initial cs)
          (State.start initial cs) with
      | error f =>
          rw [solveBy, hu] at h
          simp only [hrun, bind, Except.bind] at h
          cases h
      | ok out =>
          obtain ⟨n, s, hn, rfl | ⟨s', d, rfl, hgrowth⟩⟩ := Problem.run_reached hrun
          · rw [solveBy_of_next hu hrun, conclude] at h
            cases hv : violation? view.covers s.holdings.toSolution cs with
            | error f => rw [hv] at h; cases h
            | ok violation =>
                rw [hv] at h
                cases violation with
                | some d => cases h; exact ⟨n, s, hn, rfl, fun ho => by cases ho⟩
                | none => cases h; exact ⟨n, s, hn, rfl, fun _ => rfl⟩
          · rw [solveBy_of_conflict hu hrun] at h
            cases h
            exact ⟨n, s, hn, hgrowth, fun ho => by cases ho⟩

end Outcome

/-- **Growth is strictly monotone.** Whatever the constraints, the given sets and
the policy, and however far the loop has come, the reports on a variable are a
chain that starts from the set the variable was given: each has the atoms and the
flag of the one before, and an atom, the flag or arguments that are new. The same
is true of the reports in any outcome. In a success the variable has the set that
was reported last. If there was no report it has the set it was given, as a map:
an atom that was listed more than once is listed once, with its last arguments. -/
theorem growth_strictly_monotone (policy : Policy) (r : Registry) (view : View)
    (cs : List Constraint) (initial : Table ErrorVar ErrorSet) (v : ErrorVar) :
    (∀ n s, (Problem.mk cs policy view.holds).stateAfter (State.start initial cs) n = some s →
      List.IsChain ErrorSet.Grows (given initial v :: reportsOn s.growth v)) ∧
    ∀ o, solveBy policy r view cs initial = .ok o →
      List.IsChain ErrorSet.Grows (given initial v :: reportsOn o.growth v) ∧
      (o.success = true →
        (∀ s, (reportsOn o.growth v).getLast? = some s → o.solution.getD v = s) ∧
        (reportsOn o.growth v = [] →
          (o.solution.getD v).SameMap (given initial v) ∧ (o.solution.getD v).Distinct ∧
          ((given initial v).Distinct → o.solution.getD v = given initial v))) := by
  refine ⟨fun n s hn => (Documented.stateAfter hn v).chain_given, fun o ho => ?_⟩
  obtain ⟨n, s, hn, hgrowth, hsol⟩ := solveBy_reached ho
  have hdoc : Documented initial v s := Documented.stateAfter hn v
  rw [hgrowth]
  refine ⟨hdoc.chain_given, fun hsuccess => ?_⟩
  have hlast := hdoc.last
  rw [hsol hsuccess, Holdings.getD_toSolution]
  refine ⟨fun set hset => ?_, fun hnone => ?_⟩
  · rw [history, List.getLast?_cons, hset] at hlast
    exact (Option.some.inj hlast).symm
  · rw [history, hnone] at hlast
    rw [← Option.some.inj hlast]
    exact ⟨Holding.sameMap_toSet_ofSet _, ErrorSet.distinct_ofTable (Table.distinct_ofList _) _,
      Holding.toSet_ofSet⟩

/-! A classifier comes with a list of arguments, and then with a wider one. -/

def growingFault : Classifier := ⟨0, [], "A", [.covariant], some 0⟩

def growingVar (name : String) : ErrorVar := ⟨name, .unbounded, true⟩

/-- The classifier, once with each of some lists. -/
def growingSet (lists : List (List Ty)) : ErrorSet :=
  .ofEntries (lists.map fun args => (.classifier growingFault, args)) false

def growingConstraints : List Constraint :=
  [⟨.unionSubset (growingVar "E") .empty (growingSet [[.nothing]]), .unknown, ""⟩,
    ⟨.unionSubset (growingVar "E") .empty (growingSet [[.value]]), .unknown, ""⟩]

/-- One variable grows twice, the second time in its arguments only; another keeps
the set it was given. -/
theorem growth_of_growingConstraints :
    ∃ s o, (Problem.mk growingConstraints .soft (View.plain .classes).holds).stateAfter
        (State.start .empty growingConstraints) 1 = some s ∧
      List.IsChain ErrorSet.Grows (given .empty (growingVar "E") ::
        reportsOn s.growth (growingVar "E")) ∧
      solveBy .soft (.holding 0 [growingFault]) (View.plain .classes) growingConstraints
        ⟨[(growingVar "F", growingSet [[.value]])]⟩ = .ok o ∧
      reportsOn o.growth (growingVar "E") = [growingSet [[.nothing]], growingSet [[.value]]] ∧
      (growingSet [[.nothing]]).Grows (growingSet [[.value]]) ∧
      o.solution.getD (growingVar "E") = growingSet [[.value]] ∧
      o.solution.getD (growingVar "F") = growingSet [[.value]] := by
  have hE := (growth_strictly_monotone .soft (.holding 0 [growingFault]) (View.plain .classes)
    growingConstraints ⟨[(growingVar "F", growingSet [[.value]])]⟩ (growingVar "E")).2 _ rfl
  have hF := (growth_strictly_monotone .soft (.holding 0 [growingFault]) (View.plain .classes)
    growingConstraints ⟨[(growingVar "F", growingSet [[.value]])]⟩ (growingVar "F")).2 _ rfl
  refine ⟨_, _, rfl, (growth_strictly_monotone .soft (.holding 0 [growingFault])
    (View.plain .classes) growingConstraints .empty (growingVar "E")).1 1 _ rfl, rfl, rfl, ?_,
    (hE.2 rfl).1 _ rfl, ((hF.2 rfl).2 rfl).2.2 ?_⟩
  · exact (List.isChain_cons_cons.1 (List.isChain_cons_cons.1 hE.1).2).1
  · exact List.pairwise_singleton ..

/-- A set that lists an atom more than once does not come back as it was given. -/
theorem getD_ne_given_of_listed_twice :
    ¬ ∀ (policy : Policy) (r : Registry) (cs : List Constraint)
      (initial : Table ErrorVar ErrorSet) (o : Outcome) (v : ErrorVar),
      solveBy policy r (View.plain .classes) cs initial = .ok o → o.success = true →
      reportsOn o.growth v = [] → o.solution.getD v = given initial v := by
  intro h
  have heq := h .strict (.holding 0 [growingFault]) []
    ⟨[(growingVar "E", growingSet [[.nothing], [.value]])]⟩ _ (growingVar "E") rfl rfl rfl
  have hlength := congrArg (fun s => s.entries.length) heq
  exact absurd hlength (by decide)

end Fixpoint

end Fallible
