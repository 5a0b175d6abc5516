import Fallible.Fixpoint.Worklist
import Fallible.Proofs.Assignment

/-!
# One step of the worklist

Absorbing a contribution is the only thing that ever changes what a variable
holds. It adds the atoms of the contribution and no others, and when it reports
no growth it has changed nothing. That is `absorb_done`, and it does not depend
on how arguments are merged.

A step takes a place from the queue. Either its constraint has no target, and
only the queue changes, or one variable is written and, if that variable grew,
the constraints that read it are queued. `step_next` says this once and for
all; what a run preserves is then a matter of one case analysis and of
`run_next`, which carries an invariant from step to step.

A run is given a number of steps, and being out of steps is an answer of `run`
but nothing that happens to the loop. `stateAfter` walks without a limit: it
says where the loop is after so many steps, as long as it goes on. The last
section ties the two together.
-/

namespace Fallible

/-! ## Absorbing -/

namespace Holding

/-- All that absorbing the first of some entries can do when it succeeds. -/
theorem absorbEntries_cons {p : Policy} {holds : Comparison} {atom : Atom} {args : List Ty}
    {rest : List (Atom × List Ty)} {h h' : Holding} {grew grew' : Bool}
    (hd : absorbEntries p holds ((atom, args) :: rest) h grew = .ok (.done h' grew')) :
    (h.atoms.get? atom = none ∧
      absorbEntries p holds rest { h with atoms := h.atoms.insert atom args } true =
        .ok (.done h' grew')) ∨
    ∃ old m, h.atoms.get? atom = some old ∧
      Payload.merge p holds atom old args = .ok (some m) ∧
      (((m == old) = true ∧ absorbEntries p holds rest h grew = .ok (.done h' grew')) ∨
       ((m == old) = false ∧
        absorbEntries p holds rest { h with atoms := h.atoms.insert atom m } true =
          .ok (.done h' grew'))) := by
  rw [absorbEntries] at hd
  cases hget : h.atoms.get? atom with
  | none => rw [hget] at hd; exact Or.inl ⟨rfl, hd⟩
  | some old =>
      rw [hget] at hd
      simp only [] at hd
      cases hm : Payload.merge p holds atom old args with
      | error f => rw [hm] at hd; cases hd
      | ok merged =>
          rw [hm] at hd
          simp only [bind, Except.bind] at hd
          cases merged with
          | none =>
              cases atom with
              | classifier c => cases hd
              | var v => cases hd
          | some m =>
              refine Or.inr ⟨old, m, rfl, hm, ?_⟩
              simp only [] at hd
              split at hd
              · next he => exact Or.inl ⟨he, hd⟩
              · next he => exact Or.inr ⟨by simpa using he, hd⟩

theorem absorbEntries_done {p : Policy} {holds : Comparison} :
    ∀ {es : List (Atom × List Ty)} {h h' : Holding} {grew grew' : Bool},
      absorbEntries p holds es h grew = .ok (.done h' grew') →
      h'.universal = h.universal ∧
      (∀ a, h'.atoms.contains a = (h.atoms.contains a || es.any fun e => e.1 == a)) ∧
      (grew' = false → grew = false ∧ h' = h) := by
  intro es
  induction es with
  | nil =>
      intro h h' grew grew' hd
      rw [absorbEntries] at hd
      cases hd
      exact ⟨rfl, fun a => (Bool.or_false _).symm, fun hg => ⟨hg, rfl⟩⟩
  | cons e rest ih =>
      intro h h' grew grew' hd
      obtain ⟨atom, args⟩ := e
      -- Writing under the atom adds it; what follows is the rest's business.
      have hwrite : ∀ {args' : List Ty},
          absorbEntries p holds rest
            { h with atoms := h.atoms.insert atom args' } true =
              .ok (.done h' grew') →
          h'.universal = h.universal ∧
          (∀ a, h'.atoms.contains a =
            (h.atoms.contains a || ((atom, args) :: rest).any fun e => e.1 == a)) ∧
          (grew' = false → grew = false ∧ h' = h) := by
        intro args' hr
        obtain ⟨hu, ha, hg⟩ := ih hr
        refine ⟨hu, fun a => ?_, fun hf => Bool.noConfusion (hg hf).1⟩
        rw [ha, Table.contains_insert, List.any_cons]
        cases atom == a <;> cases h.atoms.contains a <;> rfl
      rcases absorbEntries_cons hd with ⟨_, hr⟩ | ⟨old, m, hget, _, ⟨_, hr⟩ | ⟨_, hr⟩⟩
      · exact hwrite hr
      · obtain ⟨hu, ha, hg⟩ := ih hr
        refine ⟨hu, fun a => ?_, hg⟩
        rw [ha, List.any_cons]
        cases hk : atom == a with
        | false => rfl
        | true =>
            rw [← Table.contains_congr _ hk, Table.contains_of_get? hget]
            rfl
      · exact hwrite hr

/-- What writing a new atom and writing a merged list both keep, absorbing
keeps. -/
theorem absorbEntries_invariant {p : Policy} {holds : Comparison}
    {I : Instantiations → Prop} {es : List (Atom × List Ty)}
    (hnew : ∀ e ∈ es, ∀ t : Instantiations, t.get? e.1 = none → I t → I (t.insert e.1 e.2))
    (hmerge : ∀ e ∈ es, ∀ (t : Instantiations) (old m : List Ty), t.get? e.1 = some old →
      Payload.merge p holds e.1 old e.2 = .ok (some m) → (m == old) = false → I t →
      I (t.insert e.1 m)) :
    ∀ {h h' : Holding} {grew grew' : Bool}, I h.atoms →
      absorbEntries p holds es h grew = .ok (.done h' grew') → I h'.atoms := by
  induction es with
  | nil =>
      intro h h' grew grew' hi hd
      rw [absorbEntries] at hd
      cases hd
      exact hi
  | cons e rest ih =>
      intro h h' grew grew' hi hd
      replace ih := @ih (fun d hd' => hnew d (List.mem_cons_of_mem _ hd'))
        (fun d hd' => hmerge d (List.mem_cons_of_mem _ hd'))
      rcases absorbEntries_cons hd with ⟨hget, hr⟩ | ⟨old, m, hget, hm, ⟨_, hr⟩ | ⟨hne, hr⟩⟩
      · exact ih (hnew e (List.mem_cons_self ..) _ hget hi) hr
      · exact ih hi hr
      · exact ih (hmerge e (List.mem_cons_self ..) _ old m hget hm hne hi) hr

theorem absorb_invariant {p : Policy} {holds : Comparison} {I : Instantiations → Prop}
    {h inc h' : Holding} {grew : Bool}
    (hnew : ∀ e ∈ inc.atoms.entries, ∀ t : Instantiations, t.get? e.1 = none → I t →
      I (t.insert e.1 e.2))
    (hmerge : ∀ e ∈ inc.atoms.entries, ∀ (t : Instantiations) (old m : List Ty),
      t.get? e.1 = some old → Payload.merge p holds e.1 old e.2 = .ok (some m) →
      (m == old) = false → I t → I (t.insert e.1 m))
    (hi : I h.atoms) (hd : h.absorb p holds inc = .ok (.done h' grew)) : I h'.atoms := by
  have hi' : I ({ h with universal := h.universal || inc.universal } : Holding).atoms := hi
  exact absorbEntries_invariant hnew hmerge hi' hd

/-- Absorbing adds the atoms and the flag of the contribution, and nothing
else. Without growth nothing has changed. -/
theorem absorb_done {p : Policy} {holds : Comparison} {h inc h' : Holding} {grew : Bool}
    (hd : h.absorb p holds inc = .ok (.done h' grew)) :
    h'.universal = (h.universal || inc.universal) ∧
      (∀ a, h'.atoms.contains a = (h.atoms.contains a || inc.atoms.contains a)) ∧
      (grew = false → h' = h) := by
  obtain ⟨hu, ha, hg⟩ := absorbEntries_done hd
  refine ⟨hu, ha, fun hf => ?_⟩
  obtain ⟨hflag, heq⟩ := hg hf
  rw [heq]
  obtain ⟨atoms, universal⟩ := h
  cases universal with
  | true => rfl
  | false =>
      simp only [Bool.not_false, Bool.and_true] at hflag
      simp [hflag]

end Holding

namespace Fixpoint

/-! ## The queue -/

/-- The readers of a variable are the places of the constraints it is the
source of. -/
theorem Problem.mem_readers {p : Problem} {v : ErrorVar} {i : Nat} :
    i ∈ p.readers v ↔
      ∃ c u, p.constraints[i]? = some c ∧ c.source? = some u ∧ (u == v) = true := by
  unfold Problem.readers
  simp only [List.mem_map, List.mem_filter, Prod.exists, exists_eq_right]
  constructor
  · rintro ⟨c, hmem, hs⟩
    rw [List.mem_zipIdx_iff_getElem?] at hmem
    cases hu : c.source? with
    | none => rw [hu] at hs; cases hs
    | some u => rw [hu] at hs; exact ⟨c, u, hmem, hu, hs⟩
  · rintro ⟨c, u, hmem, hu, huv⟩
    refine ⟨c, List.mem_zipIdx_iff_getElem?.2 hmem, ?_⟩
    rw [hu]
    exact huv

/-- The places that are queued once a variable has grown. -/
def Problem.requeue (p : Problem) (rest : List Nat) (t : ErrorVar) : List Nat :=
  rest ++ (p.readers t).filter fun i => !rest.contains i

theorem Problem.mem_requeue {p : Problem} {rest : List Nat} {t : ErrorVar} {i : Nat} :
    i ∈ p.requeue rest t ↔ i ∈ rest ∨ i ∈ p.readers t := by
  unfold Problem.requeue
  rw [List.mem_append, List.mem_filter]
  by_cases hi : i ∈ rest
  · simp [hi]
  · simp [hi]

/-! ## The step -/

/-- The state after a step that left every holding alone. -/
def State.skipped (s : State) (rest : List Nat) : State :=
  ⟨s.holdings, rest, s.steps + 1, s.growth⟩

/-- The state after a step that wrote `h` to `t`. -/
def State.written (p : Problem) (s : State) (rest : List Nat) (t : ErrorVar) (h : Holding)
    (grew : Bool) : State :=
  ⟨s.holdings.insert t h, if grew then p.requeue rest t else rest, s.steps + 1,
    if grew then s.growth ++ [(t, h.toSet)] else s.growth⟩

/-- All that a step which goes on can do. -/
theorem Problem.step_next {p : Problem} {s s' : State} {place : Nat} {rest : List Nat}
    (h : p.step s place rest = .ok (.next s')) :
    ((∀ c, p.constraints[place]? = some c → c.target? = none) ∧ s' = s.skipped rest) ∨
    ∃ c t inc h' grew, p.constraints[place]? = some c ∧
      c.contribution? s.holdings = some (t, inc) ∧
      (s.holdings.of t).absorb p.policy p.holds inc = .ok (.done h' grew) ∧
      s' = s.written p rest t h' grew := by
  unfold Problem.step at h
  cases hc : p.constraints[place]? with
  | none =>
      rw [hc] at h
      cases h
      exact Or.inl ⟨fun c hc' => absurd hc' (by simp), rfl⟩
  | some c =>
      rw [hc] at h
      simp only [] at h
      unfold Problem.applyTo at h
      cases hcon : c.contribution? s.holdings with
      | none =>
          rw [hcon] at h
          cases h
          refine Or.inl ⟨fun c' hc' => ?_, rfl⟩
          cases hc'
          exact Constraint.target?_of_contribution?_none hcon
      | some ti =>
          obtain ⟨t, inc⟩ := ti
          rw [hcon] at h
          simp only [] at h
          cases ha : (s.holdings.of t).absorb p.policy p.holds inc with
          | error f => rw [ha] at h; cases h
          | ok out =>
              rw [ha] at h
              simp only [bind, Except.bind] at h
              cases out with
              | clash k first second => cases h
              | done h' grew =>
                  refine Or.inr ⟨c, t, inc, h', grew, rfl, hcon, ha, ?_⟩
                  cases grew with
                  | true => cases h; rfl
                  | false => cases h; rfl

/-- An invariant that every step keeps holds where a run stops, and there the
queue is empty. -/
theorem Problem.run_next {p : Problem} {I : State → Prop}
    (hstep : ∀ {s s' : State} {place : Nat} {rest : List Nat}, I s →
      s.queue = place :: rest → p.step s place rest = .ok (.next s') → I s') :
    ∀ {n : Nat} {s s' : State}, I s → p.run n s = .ok (.next s') →
      I s' ∧ s'.queue = [] := by
  intro n
  induction n with
  | zero =>
      intro s s' hi hr
      unfold Problem.run at hr
      cases hq : s.queue with
      | nil => rw [hq] at hr; cases hr; exact ⟨hi, hq⟩
      | cons place rest => rw [hq] at hr; cases hr
  | succ n ih =>
      intro s s' hi hr
      unfold Problem.run at hr
      cases hq : s.queue with
      | nil => rw [hq] at hr; cases hr; exact ⟨hi, hq⟩
      | cons place rest =>
          rw [hq] at hr
          simp only [] at hr
          cases hs : p.step s place rest with
          | error f => rw [hs] at hr; cases hr
          | ok out =>
              rw [hs] at hr
              simp only [bind, Except.bind] at hr
              cases out with
              | conflict s'' d => cases hr
              | next s'' => exact ih (hstep hi hq hs) hr

/-! ## Walking without a limit -/

/-- The state after one more step, if there is one and the loop goes on. -/
def Problem.advance (p : Problem) (s : State) : Option State :=
  match s.queue with
  | [] => none
  | place :: rest =>
      match p.step s place rest with
      | .ok (.next s') => some s'
      | _ => none

/-- The state after so many steps, if the loop goes on that long. -/
def Problem.stateAfter (p : Problem) (s : State) : Nat → Option State
  | 0 => some s
  | n + 1 => (p.stateAfter s n).bind p.advance

/-- Whether the loop stops, for whatever reason. -/
def Problem.Ends (p : Problem) (s : State) : Prop := ∃ n, p.stateAfter s n = none

/-- What the loop answers where it stops. -/
def Problem.answer (p : Problem) (s : State) : Except Fault Progress :=
  match s.queue with
  | [] => .ok (.next s)
  | place :: rest => p.step s place rest

theorem Problem.advance_some {p : Problem} {s s' : State} (h : p.advance s = some s') :
    ∃ place rest, s.queue = place :: rest ∧ p.step s place rest = .ok (.next s') := by
  unfold Problem.advance at h
  cases hq : s.queue with
  | nil => rw [hq] at h; cases h
  | cons place rest =>
      rw [hq] at h
      simp only [] at h
      split at h
      · next s'' hs => cases h; exact ⟨place, rest, rfl, hs⟩
      · cases h

theorem Problem.stateAfter_add (p : Problem) (s : State) (n m : Nat) :
    p.stateAfter s (n + m) = (p.stateAfter s n).bind fun s' => p.stateAfter s' m := by
  induction m with
  | zero =>
      rw [Nat.add_zero]
      cases p.stateAfter s n <;> rfl
  | succ m ih =>
      rw [← Nat.add_assoc, stateAfter, ih]
      cases p.stateAfter s n <;> rfl

theorem Problem.stateAfter_none_mono {p : Problem} {s : State} {n m : Nat}
    (h : p.stateAfter s n = none) (hle : n ≤ m) : p.stateAfter s m = none := by
  obtain ⟨k, rfl⟩ := Nat.exists_eq_add_of_le hle
  rw [p.stateAfter_add, h]
  rfl

/-- The loop that is going on has been going on before. -/
theorem Problem.stateAfter_some_mono {p : Problem} {s s' : State} {n m : Nat}
    (h : p.stateAfter s m = some s') (hle : n ≤ m) : ∃ u, p.stateAfter s n = some u := by
  cases hn : p.stateAfter s n with
  | some u => exact ⟨u, rfl⟩
  | none => rw [stateAfter_none_mono hn hle] at h; cases h

/-- An invariant that every step keeps holds wherever the loop gets. -/
theorem Problem.stateAfter_invariant {p : Problem} {I : State → Prop}
    (hstep : ∀ {s s' : State} {place : Nat} {rest : List Nat}, I s →
      s.queue = place :: rest → p.step s place rest = .ok (.next s') → I s')
    {s : State} (hi : I s) : ∀ {n : Nat} {s' : State}, p.stateAfter s n = some s' → I s' := by
  intro n
  induction n with
  | zero => intro s' h; cases h; exact hi
  | succ n ih =>
      intro s' h
      rw [stateAfter] at h
      obtain ⟨u, hu, hadv⟩ := Option.bind_eq_some_iff.1 h
      obtain ⟨place, rest, hq, hs⟩ := Problem.advance_some hadv
      exact hstep (ih hu) hq hs

/-! ## Walking and running -/

theorem Problem.run_succ_of_advance {p : Problem} {s s' : State} (n : Nat)
    (h : p.advance s = some s') : p.run (n + 1) s = p.run n s' := by
  obtain ⟨place, rest, hq, hs⟩ := Problem.advance_some h
  rw [Problem.run, hq]
  simp only []
  rw [hs]
  rfl

theorem Problem.run_add {p : Problem} {s s' : State} {k : Nat} (m : Nat)
    (h : p.stateAfter s k = some s') : p.run (k + m) s = p.run m s' := by
  induction k generalizing s' m with
  | zero => cases h; rw [Nat.zero_add]
  | succ k ih =>
      rw [stateAfter] at h
      obtain ⟨u, hu, hadv⟩ := Option.bind_eq_some_iff.1 h
      rw [Nat.add_right_comm, Nat.add_assoc, ih (m + 1) hu, run_succ_of_advance m hadv]

/-- A loop that has more to do after so many steps is out of steps then. -/
theorem Problem.run_of_running {p : Problem} {s s' : State} {n : Nat}
    (h : p.stateAfter s n = some s') (hq : s'.queue ≠ []) :
    p.run n s = .error .unsettled := by
  have hrun := p.run_add 0 h
  rw [Nat.add_zero] at hrun
  rw [hrun, Problem.run]
  cases hs : s'.queue with
  | nil => exact absurd hs hq
  | cons place rest => rfl

/-- More steps do not change an answer. -/
theorem Problem.run_mono {p : Problem} {s : State} {n m : Nat} {r : Except Fault Progress}
    (h : p.run n s = r) (hr : r ≠ .error .unsettled) (hle : n ≤ m) : p.run m s = r := by
  induction n generalizing s m with
  | zero =>
      rw [Problem.run] at h ⊢
      cases hq : s.queue with
      | nil => rw [hq] at h; exact h
      | cons place rest => rw [hq] at h; exact absurd h.symm hr
  | succ n ih =>
      obtain ⟨d, rfl⟩ : ∃ d, m = d + 1 := ⟨m - 1, by omega⟩
      rw [Problem.run] at h ⊢
      cases hq : s.queue with
      | nil => rw [hq] at h; exact h
      | cons place rest =>
          rw [hq] at h
          simp only [] at h ⊢
          cases hs : p.step s place rest with
          | error f => rw [hs] at h; exact h
          | ok out =>
              rw [hs] at h
              simp only [bind, Except.bind] at h ⊢
              cases out with
              | next s' => exact ih h (by omega)
              | conflict s' d' => exact h

/-- A loop that has stopped has an answer, and every larger number of steps
gives that answer. -/
theorem Problem.run_of_stopped {p : Problem} {s : State} {n : Nat}
    (h : p.stateAfter s n = none) :
    ∃ k s', p.stateAfter s k = some s' ∧ p.advance s' = none ∧
      ∀ m, n ≤ m → p.run m s = p.answer s' := by
  induction n with
  | zero => cases h
  | succ n ih =>
      cases hn : p.stateAfter s n with
      | none =>
          obtain ⟨k, s', hk, hadv, hrun⟩ := ih hn
          exact ⟨k, s', hk, hadv, fun m hm => hrun m (by omega)⟩
      | some u =>
          rw [stateAfter, hn] at h
          change p.advance u = none at h
          refine ⟨n, u, hn, h, fun m hm => ?_⟩
          obtain ⟨d, rfl⟩ : ∃ d, m = n + (d + 1) := ⟨m - n - 1, by omega⟩
          rw [p.run_add (d + 1) hn, Problem.run]
          unfold Problem.advance at h
          unfold Problem.answer
          cases hq : u.queue with
          | nil => rfl
          | cons place rest =>
              rw [hq] at h
              simp only [] at h ⊢
              cases hs : p.step u place rest with
              | error f => rfl
              | ok out =>
                  rw [hs] at h
                  cases out with
                  | next s'' => cases h
                  | conflict s'' d' => rfl

end Fixpoint

end Fallible
