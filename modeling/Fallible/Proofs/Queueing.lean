import Fallible.Proofs.Closing
import Fallible.Proofs.LeastFixpoint

/-!
# What waits in the queue

A place is queued only if it does not wait in the queue already. To know this
without a look through the queue, a loop can keep a mark on each place that
waits: the mark goes when the place is taken out, and a place with a mark is not
queued. Such a loop never looks at its queue except to take out the first place.

`advanceMarked_marked` says that marks and queue stay together. A step turns a
state whose places are all marked, and no others, into another such state, the
one that looking through the queue leads to. For this the queue must not hold a
place twice: one of the two would be left without a mark.

What does not wait has nothing to add. Growth of a variable may undo this for
any constraint that reads it, the one just applied among them, and these are the
constraints that are queued.
-/

namespace Fallible.Fixpoint

/-! ## A loop with marks -/

/-- A state of the loop and the places that are marked. -/
structure Marked where
  state : State
  marks : Finset Nat

/-- A state whose places are all marked, and no others. -/
def State.marked (s : State) : Marked := ⟨s, s.queue.toFinset⟩

/-- Queues a place and marks it, unless it has a mark. -/
def Marked.push (m : Marked) (place : Nat) : Marked :=
  if place ∈ m.marks then m
  else ⟨{ m.state with queue := m.state.queue ++ [place] }, insert place m.marks⟩

/-- Applies a constraint and pushes what reads its target, if that has grown. -/
def Problem.applyMarked (p : Problem) (m : Marked) (c : Constraint) : Option Marked :=
  match c.contribution? m.state.holdings with
  | none => some m
  | some (target, incoming) =>
      match (m.state.holdings.of target).absorb p.policy p.holds incoming with
      | .ok (.done h true) =>
          some ((p.readers target).foldl Marked.push
            ⟨(m.state.store target h).report target h, m.marks⟩)
      | .ok (.done h false) => some ⟨m.state.store target h, m.marks⟩
      | _ => none

/-- The state after one more step, if there is one and the loop goes on. The
place that is taken from the queue loses its mark before its constraint is
applied. -/
def Problem.advanceMarked (p : Problem) (m : Marked) : Option Marked :=
  match m.state.queue with
  | [] => none
  | place :: rest =>
      let m : Marked := ⟨{ m.state with queue := rest, steps := m.state.steps + 1 },
        m.marks.erase place⟩
      match p.constraints[place]? with
      | some c => p.applyMarked m c
      | none => some m

/-- The state after so many steps, if the loop goes on that long. -/
def Problem.markedAfter (p : Problem) (m : Marked) : Nat → Option Marked
  | 0 => some m
  | n + 1 => (p.markedAfter m n).bind p.advanceMarked

/-! ## Marks and the queue -/

theorem State.push_marked (s : State) (place : Nat) :
    s.marked.push place = (s.enqueue [place]).marked := by
  unfold Marked.push marked enqueue
  by_cases h : place ∈ s.queue
  · simp [h]
  · have hmarks : insert place s.queue.toFinset = (s.queue ++ [place]).toFinset := by
      ext i
      simp
    rw [if_neg (mt List.mem_toFinset.1 h), hmarks]
    simp [h]

theorem State.enqueue_cons (s : State) {place : Nat} {places : List Nat}
    (h : place ∉ places) :
    s.enqueue (place :: places) = (s.enqueue [place]).enqueue places := by
  unfold enqueue
  by_cases hq : place ∈ s.queue
  · simp [hq]
  · have hsame : places.filter (fun i => !(s.queue ++ [place]).contains i) =
        places.filter fun i => !s.queue.contains i := by
      refine List.filter_congr fun i hi => ?_
      have hne : i ≠ place := fun he => h (he ▸ hi)
      simp [hne]
    have hfresh : ∀ is : List Nat, (place :: is).filter (fun i => !s.queue.contains i) =
        place :: is.filter fun i => !s.queue.contains i :=
      fun is => List.filter_cons_of_pos (by simp [hq])
    simp only [hfresh, List.filter_nil, hsame, List.append_assoc, List.singleton_append]

/-- Pushing different places one by one queues those that are not in the queue. -/
theorem State.foldl_push_marked {places : List Nat} (h : places.Nodup) (s : State) :
    places.foldl Marked.push s.marked = (s.enqueue places).marked := by
  induction places generalizing s with
  | nil => simp [enqueue]
  | cons place places ih =>
      rw [List.nodup_cons] at h
      rw [List.foldl_cons, push_marked, ih h.2, ← enqueue_cons s h.1]

theorem State.erase_marks {place : Nat} {rest : List Nat} (h : (place :: rest).Nodup) :
    (place :: rest).toFinset.erase place = rest.toFinset := by
  rw [List.toFinset_cons, Finset.erase_insert]
  rw [List.mem_toFinset]
  exact (List.nodup_cons.1 h).1

/-- Marks and queue stay together. -/
theorem Problem.advanceMarked_marked (p : Problem) {s : State} (h : s.queue.Nodup) :
    p.advanceMarked s.marked = (p.advance s).map State.marked := by
  unfold Problem.advanceMarked Problem.advance Problem.step
  cases hq : s.queue with
  | nil => simp only [State.marked, hq, Option.map_none]
  | cons place rest =>
      rw [hq] at h
      simp only [State.marked, hq, State.erase_marks h]
      cases hc : p.constraints[place]? with
      | none => rfl
      | some c =>
          simp only [Problem.applyMarked, Problem.applyTo]
          cases hcon : c.contribution? s.holdings with
          | none => rfl
          | some ti =>
              obtain ⟨t, inc⟩ := ti
              cases habs : (s.holdings.of t).absorb p.policy p.holds inc with
              | error f => simp only [habs]; rfl
              | ok out =>
                  cases out with
                  | clash k first second => simp only [habs]; rfl
                  | done h' grew =>
                      cases grew with
                      | false => simp only [habs]; rfl
                      | true =>
                          simp only [habs]
                          exact congrArg some
                            (State.foldl_push_marked (p.nodup_readers t) _)

/-- The loop with marks goes through the states of the loop without. -/
theorem Problem.markedAfter_start (p : Problem) (initial : Table ErrorVar ErrorSet) (n : Nat) :
    p.markedAfter (State.start initial p.constraints).marked n =
      (p.stateAfter (State.start initial p.constraints) n).map State.marked := by
  induction n with
  | zero => rfl
  | succ n ih =>
      rw [markedAfter, stateAfter, ih]
      cases hs : p.stateAfter (State.start initial p.constraints) n with
      | none => rfl
      | some s => exact p.advanceMarked_marked (Regular.stateAfter hs).nodup

/-! ## What does not wait -/

/-- A target that holds what a constraint asks of it absorbs the contribution without
growth, if there are no arguments. -/
theorem Regular.absorb_of_metBy {p : Problem} {initial : Table ErrorVar ErrorSet} {s : State}
    (hs : Regular p.constraints initial s)
    (hfree : ∀ e ∈ offered initial p.constraints, e.2 = []) {c : Constraint} {t : ErrorVar}
    {inc : Holding} (hc : c ∈ p.constraints) (hmet : c.MetBy s.holdings.assignment)
    (hcon : c.contribution? s.holdings = some (t, inc)) :
    (s.holdings.of t).absorb p.policy p.holds inc = .ok (.done (s.holdings.of t) false) := by
  obtain ⟨htarget, hasks, hall⟩ := Constraint.contribution?_some hcon
  obtain ⟨hatoms, huniversal⟩ := hmet t htarget
  refine Holding.absorb_of_le (Constraint.contribution?_distinct hs.distinct hcon)
    ⟨fun hu => huniversal (hall.1 hu), fun a args hget => ?_⟩
  obtain ⟨args', hget'⟩ := Table.get?_of_contains
    (hatoms a ((hasks a).1 (Table.contains_of_get? hget)))
  refine ⟨args', hget', Or.inl ?_⟩
  exact ((contribution_allInPlay hc hs.inPlay hcon).get? hget).eq_nil hfree

/-- At every head of the loop no place waits twice, the marked places are those that wait,
and each constraint whose place does not wait is met: its target holds the atoms that it
asks for. If no arguments are given, absorbing what it contributes leaves its target as it
is. -/
theorem unmarked_constraints_add_nothing (p : Problem) (initial : Table ErrorVar ErrorSet)
    (n : Nat) :
    (p.markedAfter (State.start initial p.constraints).marked n).map Marked.state =
        p.stateAfter (State.start initial p.constraints) n ∧
      ∀ m, p.markedAfter (State.start initial p.constraints).marked n = some m →
        m.state.queue.Nodup ∧ (∀ i, i ∈ m.marks ↔ i ∈ m.state.queue) ∧
          ∀ i c, p.constraints[i]? = some c → i ∉ m.state.queue →
            c.MetBy m.state.holdings.assignment ∧
              ((∀ e ∈ offered initial p.constraints, e.2 = []) →
                ∀ t inc, c.contribution? m.state.holdings = some (t, inc) →
                  (m.state.holdings.of t).absorb p.policy p.holds inc =
                    .ok (.done (m.state.holdings.of t) false)) := by
  rw [p.markedAfter_start]
  refine ⟨?_, fun m hm => ?_⟩
  · rw [Option.map_map]
    exact Option.map_id'
  obtain ⟨s, hs, rfl⟩ := Option.map_eq_some_iff.1 hm
  have hreg := Regular.stateAfter hs
  have hsound : Sound p.constraints initial s :=
    Problem.stateAfter_invariant (fun hi hq hstep => hi.step hq hstep)
      (Sound.start initial p.constraints) hs
  refine ⟨hreg.nodup, fun i => List.mem_toFinset, fun i c hc hi => ?_⟩
  have hmet := hsound.met i c hc hi
  exact ⟨hmet, fun hfree t inc hcon =>
    hreg.absorb_of_metBy hfree (List.mem_of_getElem? hc) hmet hcon⟩

/-! Around a ring the second constraint is applied before its source has all its atoms, and
waits again once the third has been applied. -/

def ringProblem : Problem := ⟨ring, .strict, fun _ _ => .ok true⟩

theorem ring_waits_again :
    (∀ e ∈ offered ringGiven ring, e.2 = []) ∧
      ∃ m, ringProblem.markedAfter (State.start ringGiven ring).marked 3 = some m ∧
        m.state.queue = [1] ∧ (∀ i, i ∈ m.marks ↔ i = 1) ∧
        ∀ i c, ring[i]? = some c → i ≠ 1 →
          ∀ t inc, c.contribution? m.state.holdings = some (t, inc) →
            (m.state.holdings.of t).absorb .strict (fun _ _ => .ok true) inc =
              .ok (.done (m.state.holdings.of t) false) := by
  have hfree : ∀ e ∈ offered ringGiven ring, e.2 = [] := by decide
  have hval : ∃ m, ringProblem.markedAfter (State.start ringGiven ring).marked 3 = some m ∧
      m.state.queue = [1] := ⟨_, rfl, rfl⟩
  obtain ⟨m, hm, hq⟩ := hval
  obtain ⟨_, hmarks, hsettled⟩ :=
    (unmarked_constraints_add_nothing ringProblem ringGiven 3).2 m hm
  rw [hq] at hmarks hsettled
  refine ⟨hfree, m, hm, hq, fun i => (hmarks i).trans List.mem_singleton, ?_⟩
  intro i c hc hi
  exact (hsettled i c hc (mt List.mem_singleton.1 hi)).2 hfree

end Fallible.Fixpoint
