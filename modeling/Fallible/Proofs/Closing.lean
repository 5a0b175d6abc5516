import Fallible.Proofs.Fixing
import Fallible.Proofs.Settling

/-!
# Runs under the strict policy close up

Holdings are closed under some constraints if every target holds what its
constraint contributes, arguments included. Contributions are monotone and
absorbing joins, so the worklist does with arguments what it does with atoms: at
every state the constraints that are not in the queue are settled, and what is
held lies below everything closed that lies above the start.

Two things follow. Where a run ends, it has reached the least closed holdings.
And it ends at a conflict only if there are none: something closed bounds all
that is ever absorbed, and bounded contributions do not clash. So whether there
is a conflict, and what is held if there is none, are facts about the
constraints and the start, and about no particular order of steps.
-/

namespace Fallible

/-! ## Contributions -/

theorem Holdings.source_mono {hs ks : Holdings} (h : hs ≤ ks) (v : ErrorVar) :
    hs.source v ≤ ks.source v := by
  unfold source
  split
  · exact h v
  · exact le_refl _

namespace Constraint

variable {c : Constraint} {hs ks : Holdings} {t : ErrorVar} {inc : Holding}

theorem contribution?_mono (h : hs ≤ ks) (hcon : c.contribution? hs = some (t, inc)) :
    ∃ inc', c.contribution? ks = some (t, inc') ∧ inc ≤ inc' := by
  unfold contribution? at hcon ⊢
  cases hd : c.demand with
  | subset sub sup known =>
      simp only [hd, Option.some.injEq, Prod.mk.injEq] at hcon
      obtain ⟨rfl, rfl⟩ := hcon
      exact ⟨_, rfl, Holding.beyond_mono (Holdings.source_mono h sub) known⟩
  | unionSubset v known required =>
      simp only [hd, Option.some.injEq, Prod.mk.injEq] at hcon
      obtain ⟨rfl, rfl⟩ := hcon
      exact ⟨_, rfl, le_refl _⟩
  | upperBound v bound => rw [hd] at hcon; cases hcon
  | none => rw [hd] at hcon; cases hcon

/-- A constraint reads nothing but its source. -/
theorem contribution?_insert {h : Holding}
    (hsrc : ∀ u, c.source? = some u → (u == t) = false) :
    c.contribution? (hs.insert t h) = c.contribution? hs := by
  unfold contribution?
  unfold source? at hsrc
  cases hd : c.demand with
  | subset sub sup known =>
      rw [hd] at hsrc
      have hsub : (t == sub) = false := by rw [BEq.comm]; exact hsrc sub rfl
      simp [Holdings.source, Holdings.of_insert, hsub]
  | unionSubset v known required => rfl
  | upperBound v bound => rfl
  | none => rfl

theorem contribution?_distinct (hdis : ∀ v, (hs.of v).atoms.Distinct)
    (hcon : c.contribution? hs = some (t, inc)) : inc.atoms.Distinct := by
  unfold contribution? at hcon
  cases hd : c.demand with
  | subset sub sup known =>
      simp only [hd, Option.some.injEq, Prod.mk.injEq] at hcon
      obtain ⟨rfl, rfl⟩ := hcon
      refine Table.Distinct.filterKeys ?_ _
      unfold Holdings.source
      split
      · exact hdis sub
      · exact Table.distinct_ofList _
  | unionSubset v known required =>
      simp only [hd, Option.some.injEq, Prod.mk.injEq] at hcon
      obtain ⟨rfl, rfl⟩ := hcon
      exact Table.Distinct.filterKeys (Table.distinct_ofList _) _
  | upperBound v bound => rw [hd] at hcon; cases hcon
  | none => rw [hd] at hcon; cases hcon

end Constraint

/-- Whether every target holds what its constraint contributes. -/
def Holdings.Closed (cs : List Constraint) (hs : Holdings) : Prop :=
  ∀ c ∈ cs, ∀ t inc, c.contribution? hs = some (t, inc) → inc ≤ hs.of t

/-- Whether holdings are closed and lie above the given sets. -/
structure Holdings.Solves (hs : Holdings) (initial : Table ErrorVar ErrorSet)
    (cs : List Constraint) : Prop where
  above : start initial cs ≤ hs
  closed : hs.Closed cs

namespace Fixpoint

variable {p : Problem} {initial : Table ErrorVar ErrorSet}

/-! ## The invariant -/

theorem Regular.variance {s : State} (hs : Regular p.constraints initial s)
    (hvar : ∀ e ∈ offered initial p.constraints, ∀ i, e.1.variance i ≠ .contravariant)
    {c : Constraint} (hc : c ∈ p.constraints) {t : ErrorVar} {inc : Holding}
    (hcon : c.contribution? s.holdings = some (t, inc)) :
    ∀ e ∈ inc.atoms.entries, ∀ i, e.1.variance i ≠ .contravariant := by
  intro e he
  have hkey := (contribution_allInPlay hc hs.inPlay hcon).1 (List.mem_map_of_mem he)
  obtain ⟨d, hd, hde⟩ := List.mem_map.1 hkey
  exact hde ▸ hvar d hd

theorem State.not_mem_of_written {s : State} {rest : List Nat} {t : ErrorVar} {h : Holding}
    {grew : Bool} {i : Nat} (hi : i ∉ (s.written p rest t h grew).queue) : i ∉ rest := by
  refine fun hmem => hi ?_
  show i ∈ (if grew then p.requeue rest t else rest)
  split
  · exact Problem.mem_requeue.2 (Or.inl hmem)
  · exact hmem

/-- Unless it is queued again, a constraint contributes what it did. -/
theorem State.contribution?_of_written {s : State} {rest : List Nat} {t : ErrorVar}
    {inc h : Holding} {grew : Bool}
    (habs : (s.holdings.of t).absorb p.policy p.holds inc = .ok (.done h grew)) {i : Nat}
    {c : Constraint} (hc : p.constraints[i]? = some c)
    (hi : i ∉ (s.written p rest t h grew).queue) :
    c.contribution? (s.holdings.insert t h) = c.contribution? s.holdings := by
  cases grew with
  | true =>
      refine Constraint.contribution?_insert fun u hu => ?_
      cases hut : u == t with
      | false => rfl
      | true =>
          refine absurd (Problem.mem_requeue.2 (Or.inr ?_)) hi
          exact Problem.mem_readers.2 ⟨c, u, hc, hu, hut⟩
  | false =>
      refine contribution?_of_same (fun v => ?_) c
      rw [Holdings.of_insert, (Holding.absorb_done habs).2.2 rfl]
      split
      · next htv => rw [Holdings.of_congr s.holdings htv]
      · rfl

/-- What holds of the arguments in every state of a run. -/
structure Closing (cs : List Constraint) (initial : Table ErrorVar ErrorSet) (s : State) :
    Prop where
  /-- The target of a constraint holds its contribution unless it waits. -/
  settled : ∀ i c, cs[i]? = some c → i ∉ s.queue → ∀ t inc,
    c.contribution? s.holdings = some (t, inc) → inc ≤ s.holdings.of t
  above : Holdings.start initial cs ≤ s.holdings
  least : ∀ ks : Holdings, ks.Solves initial cs → s.holdings ≤ ks

theorem Closing.start (initial : Table ErrorVar ErrorSet) (cs : List Constraint) :
    Closing cs initial (State.start initial cs) where
  settled i c hc hi := by
    refine absurd (List.mem_range.2 ?_) hi
    exact (List.getElem?_eq_some_iff.1 hc).1
  above := le_refl _
  least _ hks := hks.above

theorem Closing.step (hpol : p.policy = .strict)
    (hvar : ∀ e ∈ offered initial p.constraints, ∀ i, e.1.variance i ≠ .contravariant)
    {s s' : State} {place : Nat} {rest : List Nat} (hreg : Regular p.constraints initial s)
    (hs : Closing p.constraints initial s) (hq : s.queue = place :: rest)
    (hstep : p.step s place rest = .ok (.next s')) : Closing p.constraints initial s' := by
  have hwaits : ∀ {i}, i ≠ place → i ∉ rest → i ∉ s.queue := fun hip hi =>
    hq ▸ List.not_mem_cons_of_ne_of_not_mem hip hi
  rcases Problem.step_next hstep with ⟨hnone, rfl⟩ | ⟨c, t, inc, h', grew, hc, hcon, habs, rfl⟩
  · refine ⟨fun i d hd hi w inc hdcon => ?_, hs.above, hs.least⟩
    by_cases hip : i = place
    · subst hip
      have htarget := (Constraint.contribution?_some hdcon).1
      rw [hnone d hd] at htarget
      cases htarget
    · exact hs.settled i d hd (hwaits hip hi) w inc hdcon
  · have hmem := List.mem_of_getElem? hc
    obtain ⟨hupper, hlower⟩ := Holding.absorb_isLUB (hreg.variance hvar hmem hcon)
      (Constraint.contribution?_distinct hreg.distinct hcon) (hpol ▸ habs)
    have hold : s.holdings.of t ≤ h' := hupper (by simp)
    have hnew : inc ≤ h' := hupper (by simp)
    have hof : ∀ w, s.holdings.of w ≤ Holdings.of (s.holdings.insert t h') w := by
      intro w
      rw [Holdings.of_insert]
      split
      · next htw => rw [← Holdings.of_congr s.holdings htw]; exact hold
      · exact le_refl _
    refine ⟨fun i d hd hi w dinc hdcon => ?_, hs.above.trans hof, fun ks hks v => ?_⟩
    · have hsame := (State.contribution?_of_written habs hd hi).symm.trans hdcon
      show dinc ≤ Holdings.of (s.holdings.insert t h') w
      by_cases hip : i = place
      · subst hip
        cases hc.symm.trans hd
        cases hcon.symm.trans hsame
        rw [Holdings.of_insert, if_pos BEq.rfl]
        exact hnew
      · exact (hs.settled i d hd (hwaits hip (State.not_mem_of_written hi)) w dinc hsame).trans (hof w)
    · show Holdings.of (s.holdings.insert t h') v ≤ _
      rw [Holdings.of_insert]
      split
      · next htv =>
          rw [← Holdings.of_congr ks htv]
          obtain ⟨inc', hcon', hle⟩ := Constraint.contribution?_mono (hs.least ks hks) hcon
          refine hlower ?_
          rintro x (rfl | rfl)
          · exact hs.least ks hks t
          · exact hle.trans (hks.closed c hmem t inc' hcon')
      · exact hs.least ks hks v

/-! ## The end of a run -/

section Strict

variable (hpol : p.policy = .strict)
  (hvar : ∀ e ∈ offered initial p.constraints, ∀ i, e.1.variance i ≠ .contravariant)

include hpol hvar

theorem Closing.stateAfter {n : Nat} {s : State}
    (h : p.stateAfter (State.start initial p.constraints) n = some s) :
    Closing p.constraints initial s :=
  (Problem.stateAfter_invariant
    (I := fun s => Regular p.constraints initial s ∧ Closing p.constraints initial s)
    (fun hi hq hstep => ⟨hi.1.step hq hstep, hi.2.step hpol hvar hi.1 hq hstep⟩)
    ⟨Regular.start initial p.constraints, Closing.start initial p.constraints⟩ h).2

/-- Where a run ends, it has reached the least closed holdings. -/
theorem run_strict_isLeast {n : Nat} {s : State}
    (h : p.run n (State.start initial p.constraints) = .ok (.next s)) :
    IsLeast {ks : Holdings | ks.Solves initial p.constraints} s.holdings := by
  obtain ⟨⟨_, hs⟩, hq⟩ := Problem.run_next
    (I := fun s => Regular p.constraints initial s ∧ Closing p.constraints initial s)
    (fun hi hq hstep => ⟨hi.1.step hq hstep, hi.2.step hpol hvar hi.1 hq hstep⟩)
    ⟨Regular.start initial p.constraints, Closing.start initial p.constraints⟩ h
  refine ⟨⟨hs.above, fun c hc t inc hcon => ?_⟩, fun ks hks => hs.least ks hks⟩
  obtain ⟨i, hi⟩ := List.getElem?_of_mem hc
  refine hs.settled i c hi ?_ t inc hcon
  rw [hq]
  exact List.not_mem_nil

/-- A run comes to an empty queue exactly if something closed lies above its
start. -/
theorem run_strict_iff_solvable :
    (∃ s, p.run (stepBound initial p.constraints) (State.start initial p.constraints) =
      .ok (.next s)) ↔ ∃ ks : Holdings, ks.Solves initial p.constraints := by
  constructor
  · rintro ⟨s, hs⟩
    exact ⟨s.holdings, (run_strict_isLeast hpol hvar hs).1⟩
  · rintro ⟨ks, hks⟩
    obtain ⟨s, hs, _⟩ := Problem.run_of_steps (settles_of_strict hpol hvar).ends
      fun hk place rest => Problem.step_of_absorbs fun c t inc hc hcon => by
        have hreg := Regular.stateAfter hk
        have hle := (Closing.stateAfter hpol hvar hk).least ks hks
        have hmem := List.mem_of_getElem? hc
        obtain ⟨inc', hcon', hinc⟩ := Constraint.contribution?_mono hle hcon
        rw [hpol]
        exact Holding.absorb_of_bounded (hreg.variance hvar hmem hcon)
          (Constraint.contribution?_distinct hreg.distinct hcon) (hle t)
          (hinc.trans (hks.closed c hmem t inc' hcon'))
    exact ⟨s, hs⟩

end Strict

end Fixpoint

end Fallible
