import Fallible.Proofs.Settling
import Fallible.Subtyping.Answer

/-!
# When the loop ends

One would like the loop to end always: there are finitely many atoms, and a step
only adds some. But a step also merges arguments, and merging may put a list in
the place of another that it covers and is covered by. That counts as growth.
Three variables that pass their sets round in a circle can then exchange two
such lists for ever; `circle` does, with `Any` and `Value | Error`.

What is true is that there are exactly three ways for the loop to go on. It
comes to an empty queue or to a conflict; or an error variable is given two
lists of arguments that do not merge, which is a fault; or the queue and the
holdings come back to where they were before, and the loop never ends. Since a
plain comparison of arguments always has an answer, there is no fourth way. The
bound on the number of steps tells the third from the others.
-/

namespace Fallible

/-! ## The only fault -/

/-- Whether a comparison always has an answer. -/
def Comparison.Total (holds : Comparison) : Prop := ∀ a b, ∃ r, holds a b = .ok r

namespace Payload

variable {holds : Comparison}

theorem mergeArg_total (h : holds.Total) (p : Policy) (v : Variance) (old new : Ty) :
    ∃ r, mergeArg p holds v old new = .ok r := by
  obtain ⟨b₁, h₁⟩ := h old new
  obtain ⟨b₂, h₂⟩ := h new old
  have hwidest : ∀ fallback, ∃ r, widest holds fallback old new = .ok r := by
    intro fallback
    unfold widest
    rw [h₁, h₂]
    cases b₁ <;> cases b₂ <;> exact ⟨_, rfl⟩
  have hnarrowest : ∀ fallback, ∃ r, narrowest holds fallback old new = .ok r := by
    intro fallback
    unfold narrowest
    rw [h₁, h₂]
    cases b₁ <;> cases b₂ <;> exact ⟨_, rfl⟩
  cases v with
  | invariant => exact ⟨_, rfl⟩
  | covariant =>
      cases p with
      | strict => exact ⟨_, rfl⟩
      | soft => exact hwidest (some .value)
  | contravariant =>
      cases p with
      | strict => exact hnarrowest none
      | soft => exact hnarrowest (some .nothing)

theorem mergeFrom_total (h : holds.Total) (p : Policy) (atom : Atom) :
    ∀ (i : Nat) (as bs : List Ty), ∃ r, mergeFrom p holds atom i as bs = .ok r := by
  intro i as
  induction as generalizing i with
  | nil => intro bs; exact ⟨_, by simp only [mergeFrom]; rfl⟩
  | cons a as ih =>
      intro bs
      cases bs with
      | nil => exact ⟨_, by simp only [mergeFrom]; rfl⟩
      | cons b bs =>
          obtain ⟨m, hm⟩ := mergeArg_total h p (atom.variance i) a b
          obtain ⟨ms, hms⟩ := ih (i + 1) bs
          rw [mergeFrom, hm, hms]
          cases m with
          | none => exact ⟨_, rfl⟩
          | some m =>
              cases ms with
              | none => exact ⟨_, rfl⟩
              | some ms => exact ⟨_, rfl⟩

theorem merge_total (h : holds.Total) (p : Policy) (atom : Atom) (cur inc : List Ty) :
    ∃ r, merge p holds atom cur inc = .ok r := by
  unfold merge
  split
  · exact ⟨_, rfl⟩
  · split
    · exact ⟨_, rfl⟩
    · split
      · exact ⟨_, rfl⟩
      · exact mergeFrom_total h p atom 0 cur inc

end Payload

namespace Fixpoint

/-- Whether two lists in play for an error variable do not merge, and which
variable it is. -/
def BadVariable (p : Problem) (offers : List (Atom × List Ty)) (v : ErrorVar) : Prop :=
  ∃ cur inc, InPlay offers (.var v) cur ∧ InPlay offers (.var v) inc ∧
    Payload.merge p.policy p.holds (.var v) cur inc = .ok none

theorem absorbEntries_error {p : Problem} {offers : List (Atom × List Ty)}
    (htotal : p.holds.Total) {f : Fault} :
    ∀ {es : List (Atom × List Ty)} {h : Holding} {grew : Bool},
      (∀ e ∈ es, e.1 ∈ offers.map Prod.fst ∧ InPlay offers e.1 e.2) →
      AllInPlay offers h.atoms →
      Holding.absorbEntries p.policy p.holds es h grew = .error f →
      ∃ v, f = .argumentsOnVariable v ∧ BadVariable p offers v := by
  intro es
  induction es with
  | nil =>
      intro h grew _ _ he
      rw [Holding.absorbEntries] at he
      cases he
  | cons e rest ih =>
      intro h grew hes hh he
      obtain ⟨atom, args⟩ := e
      obtain ⟨hname, hplay⟩ := hes _ (List.mem_cons_self ..)
      have hrest : ∀ d ∈ rest, d.1 ∈ offers.map Prod.fst ∧ InPlay offers d.1 d.2 :=
        fun d hd => hes d (List.mem_cons_of_mem _ hd)
      rw [Holding.absorbEntries] at he
      cases hget : h.atoms.get? atom with
      | none =>
          rw [hget] at he
          exact ih hrest (hh.insert hname hplay) he
      | some old =>
          have hold := hh.get? hget
          obtain ⟨merged, hm⟩ := Payload.merge_total htotal p.policy atom old args
          rw [hget] at he
          simp only [hm, bind, Except.bind] at he
          cases merged with
          | none =>
              cases atom with
              | classifier c => cases he
              | var v => cases he; exact ⟨v, rfl, old, args, hold, hplay, hm⟩
          | some m =>
              simp only [] at he
              split at he
              · exact ih hrest hh he
              · exact ih hrest (hh.insert hname (hold.merge hplay hm)) he

theorem Problem.step_error {p : Problem} {initial : Table ErrorVar ErrorSet}
    (htotal : p.holds.Total) {s : State} (hs : Regular p.constraints initial s) {place : Nat}
    {rest : List Nat} {f : Fault} (he : p.step s place rest = .error f) :
    ∃ v, f = .argumentsOnVariable v ∧ BadVariable p (offered initial p.constraints) v := by
  unfold Problem.step at he
  cases hc : p.constraints[place]? with
  | none => rw [hc] at he; cases he
  | some c =>
      rw [hc] at he
      simp only [Problem.applyTo] at he
      cases hcon : c.contribution? s.holdings with
      | none => rw [hcon] at he; cases he
      | some ti =>
          obtain ⟨t, inc⟩ := ti
          have hinc := contribution_allInPlay (List.mem_of_getElem? hc) hs.inPlay hcon
          have hh : AllInPlay (offered initial p.constraints)
              ({ s.holdings.of t with
                universal := (s.holdings.of t).universal || inc.universal } :
                Holding).atoms := hs.inPlay t
          rw [hcon] at he
          simp only [] at he
          cases ha : (s.holdings.of t).absorb p.policy p.holds inc with
          | error g =>
              rw [ha] at he
              cases he
              exact absorbEntries_error htotal
                (fun e he => ⟨hinc.1 (List.mem_map_of_mem he), hinc.2 e he⟩) hh ha
          | ok out =>
              rw [ha] at he
              cases out with
              | clash k first second => cases he
              | done h' grew => cases grew <;> cases he

/-! ## The three ways -/

/-- Every run is out of steps, or gives the answer that the loop comes to. -/
theorem Problem.run_cases (p : Problem) (s : State) (n : Nat) :
    p.run n s = .error .unsettled ∨
      ∃ k s', p.stateAfter s k = some s' ∧ p.run n s = p.answer s' := by
  cases h : p.stateAfter s n with
  | none =>
      obtain ⟨k, s', hk, _, hrun⟩ := Problem.run_of_stopped h
      exact Or.inr ⟨k, s', hk, hrun n (Nat.le_refl n)⟩
  | some u =>
      cases hq : u.queue with
      | cons place rest =>
          exact Or.inl (Problem.run_of_running h (by rw [hq]; exact List.cons_ne_nil _ _))
      | nil =>
          refine Or.inr ⟨n, u, h, ?_⟩
          have hrun := p.run_add 0 h
          rw [Nat.add_zero] at hrun
          rw [hrun, Problem.run, hq, Problem.answer, hq]
          rfl

section Ways

variable {p : Problem} {initial : Table ErrorVar ErrorSet}

theorem Problem.answer_error (htotal : p.holds.Total) {s : State}
    (hs : Regular p.constraints initial s) {f : Fault} (h : p.answer s = .error f) :
    ∃ v, f = .argumentsOnVariable v ∧ BadVariable p (offered initial p.constraints) v := by
  unfold Problem.answer at h
  cases hq : s.queue with
  | nil => rw [hq] at h; cases h
  | cons place rest => rw [hq] at h; exact Problem.step_error htotal hs h

/-- A run is at fault only for want of steps or because of a variable. -/
theorem Problem.run_error (htotal : p.holds.Total) {n : Nat} {f : Fault}
    (h : p.run n (State.start initial p.constraints) = .error f) :
    f = .unsettled ∨
      ∃ v, f = .argumentsOnVariable v ∧ BadVariable p (offered initial p.constraints) v := by
  rcases p.run_cases (State.start initial p.constraints) n with hout | ⟨k, s', hk, hans⟩
  · rw [hout] at h
    cases h
    exact Or.inl rfl
  · rw [hans] at h
    exact Or.inr (Problem.answer_error htotal (Regular.stateAfter hk) h)

theorem Problem.Recurs.run {s : State} (h : p.Recurs s) (n : Nat) :
    p.run n s = .error .unsettled := by
  obtain ⟨u, hu⟩ := h.stateAfter n
  refine Problem.run_of_running hu ?_
  intro hq
  -- With an empty queue there would be no next state.
  obtain ⟨w, hw⟩ := h.stateAfter (n + 1)
  rw [Problem.stateAfter, hu] at hw
  change p.advance u = some w at hw
  rw [Problem.advance, hq] at hw
  cases hw

/-- A run that the bound stops has no end. -/
theorem Problem.recurs_of_run (htotal : p.holds.Total)
    (h : p.run (stepBound initial p.constraints) (State.start initial p.constraints) =
      .error .unsettled) : p.Recurs (State.start initial p.constraints) := by
  cases hb : p.stateAfter (State.start initial p.constraints)
      (stepBound initial p.constraints) with
  | some u => exact Problem.recurs_of_running hb
  | none =>
      obtain ⟨k, s', hk, _, hrun⟩ := Problem.run_of_stopped hb
      rw [hrun _ (Nat.le_refl _)] at h
      obtain ⟨v, hv, _⟩ := Problem.answer_error htotal (Regular.stateAfter hk) h
      cases hv

theorem Problem.exists_run_iff (htotal : p.holds.Total) :
    (∃ n r, p.run n (State.start initial p.constraints) = .ok r) ↔
      ¬ p.Recurs (State.start initial p.constraints) ∧
        ∀ n v, p.run n (State.start initial p.constraints) ≠
          .error (.argumentsOnVariable v) := by
  constructor
  · rintro ⟨n, r, hr⟩
    refine ⟨fun hrec => ?_, fun m v hv => ?_⟩
    · rw [hrec.run n] at hr
      cases hr
    · -- Both runs have stopped, so both give the answer of the longer one.
      have h₁ := Problem.run_mono hr (by simp) (Nat.le_max_left n m)
      have h₂ := Problem.run_mono hv (by simp) (Nat.le_max_right n m)
      rw [h₁] at h₂
      cases h₂
  · rintro ⟨hrec, hvar⟩
    cases hr : p.run (stepBound initial p.constraints)
        (State.start initial p.constraints) with
    | ok r => exact ⟨_, r, hr⟩
    | error f =>
        rcases Problem.run_error htotal hr with rfl | ⟨v, rfl, _⟩
        · exact absurd (Problem.recurs_of_run htotal hr) hrec
        · exact absurd hr (hvar _ v)

theorem not_badVariable {offers : List (Atom × List Ty)}
    (h : ∀ v args, (.var v, args) ∈ offers → args = []) (v : ErrorVar) :
    ¬ BadVariable p offers v := by
  have hnil : ∀ {args}, InPlay offers (.var v) args → args = [] := by
    rintro args ⟨⟨a, as⟩, he, hea, hlen, _⟩
    cases a with
    | classifier c => cases hea
    | var w =>
        rw [h w as he] at hlen
        exact List.length_eq_zero_iff.1 hlen
  rintro ⟨cur, inc, hcur, hinc, hm⟩
  rw [hnil hcur, hnil hinc] at hm
  cases hm

end Ways

/-- The loop comes to an empty queue or to a conflict exactly if it never comes
back to where it was and no variable is given arguments that do not merge. The
bound on the steps decides whether it comes back. It does not without arguments,
nor under the strict policy without contravariant parameters. -/
theorem loop_stops_iff_not_recurs (o : ValueOrder) (policy : Policy)
    (initial : Table ErrorVar ErrorSet) (cs : List Constraint) :
    let p := Problem.mk cs policy (View.plain o).holds
    let s := State.start initial cs
    ((∃ n r, p.run n s = .ok r) ↔
      ¬ p.Recurs s ∧ ∀ n v, p.run n s ≠ .error (.argumentsOnVariable v)) ∧
    (p.Recurs s ↔ ∀ n, p.run n s = .error .unsettled) ∧
    (p.Recurs s ↔ p.run (stepBound initial cs) s = .error .unsettled) ∧
    ((∀ v args, (.var v, args) ∈ offered initial cs → args = []) →
      ∀ n v, p.run n s ≠ .error (.argumentsOnVariable v)) ∧
    ((∀ e ∈ offered initial cs, e.2 = []) ∨
        policy = .strict ∧
          (∀ e ∈ offered initial cs, ∀ i, e.1.variance i ≠ .contravariant) →
      ¬ p.Recurs s) := by
  intro p s
  have htotal : p.holds.Total := View.holds_plain_answers o
  refine ⟨Problem.exists_run_iff htotal, ?_, ?_, ?_, ?_⟩
  · exact ⟨fun h n => h.run n, fun h => Problem.recurs_of_run htotal (h _)⟩
  · exact ⟨fun h => h.run _, fun h => Problem.recurs_of_run htotal h⟩
  · intro hvar n v hv
    rcases Problem.run_error htotal hv with hout | ⟨w, _, hbad⟩
    · cases hout
    · exact not_badVariable hvar w hbad
  · intro h hrec
    refine Problem.recurs_iff.1 hrec ?_
    rcases h with hfree | ⟨hpol, hvar⟩
    · exact (settles_of_payloadFree p hfree).ends
    · exact (settles_of_strict hpol hvar).ends

/-! ## A loop without an end -/

/-- A classifier with one contravariant parameter. -/
def circleFault : Classifier := ⟨0, [], "A", [.contravariant], none⟩

/-- A variable gets the classifier with an argument. -/
def circleGiven (name : String) (arg : Ty) : Constraint :=
  ⟨.unionSubset ⟨name, .unbounded, true⟩ .empty
    (.ofEntries [(.classifier circleFault, [arg])] false), .unknown, ""⟩

def circleFlow (sub sup : String) : Constraint :=
  ⟨.subset ⟨sub, .unbounded, true⟩ ⟨sup, .unbounded, true⟩ .empty, .unknown, ""⟩

/-- Three variables in a circle, two of which are given one classifier with
arguments that cover each other and are not equal. -/
def circle : List Constraint :=
  [circleGiven "F" .any, circleGiven "G" (.union [.value, .error]), circleFlow "G" "E",
    circleFlow "F" "G", circleFlow "E" "F"]

/-- However many steps it is given, the loop is never done with the circle. -/
theorem run_circle_unsettled :
    ¬ ∃ n r, (Problem.mk circle .strict (View.plain .classes).holds).run n
      (State.start .empty circle) = .ok r := by
  rintro ⟨n, r, hr⟩
  -- After ten steps the lists are where they were after four.
  have hrec : (Problem.mk circle .strict (View.plain .classes).holds).Recurs
      (State.start .empty circle) :=
    ⟨4, 10, _, _, by omega, rfl, rfl, ⟨rfl, fun v => rfl⟩⟩
  rw [hrec.run n] at hr
  cases hr

end Fixpoint

end Fallible
