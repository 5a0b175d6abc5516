import Fallible.Proofs.Checks
import Fallible.Proofs.Restart

/-!
# Where arguments come from

A list of arguments reaches a variable if it is given to it, required of it, or
flows into it from a variable that it reaches. This says nothing of queues or of
states: a list that is filled in late has still to reach all the places that its
atom has reached long before, along circles too.

Under the strict policy a run finds out exactly what reaches what. At every
state, each list that is held and not open reaches the variable that holds it;
so do both lists of a conflict. Conversely, closed holdings hold all that
reaches, and one variable cannot hold two different lists of one atom. So there
is a conflict exactly if two different lists of one classifier reach one
variable, however many steps lie between.
-/

namespace Fallible.Fixpoint

/-- Whether an atom with some arguments, not none, comes to a variable. -/
inductive Reaches (initial : Table ErrorVar ErrorSet) (cs : List Constraint) :
    ErrorVar → Atom → List Ty → Prop
  | given {v : ErrorVar} {set : ErrorSet} {a : Atom} {args : List Ty} :
      initial.get? v = some set → set.get? a = some args → args ≠ [] →
      Reaches initial cs v a args
  | required {c : Constraint} {v w : ErrorVar} {known required : ErrorSet} {a : Atom}
      {args : List Ty} : c ∈ cs → c.demand = .unionSubset w known required →
      (w == v) = true → required.get? a = some args → known.contains a = false → args ≠ [] →
      Reaches initial cs v a args
  | flows {c : Constraint} {u v w : ErrorVar} {known : ErrorSet} {a : Atom} {args : List Ty} :
      c ∈ cs → c.demand = .subset u w known → u.flexible = true → (w == v) = true →
      known.contains a = false → Reaches initial cs u a args → Reaches initial cs v a args

namespace Reaches

variable {initial : Table ErrorVar ErrorSet} {cs : List Constraint} {v w : ErrorVar} {a b : Atom}
  {args : List Ty}

theorem ne_nil (h : Reaches initial cs v a args) : args ≠ [] := by
  induction h with
  | given _ _ hne => exact hne
  | required _ _ _ _ _ hne => exact hne
  | flows _ _ _ _ _ _ ih => exact ih

theorem congr (h : Reaches initial cs v a args) (hv : (v == w) = true) (ha : (a == b) = true) :
    Reaches initial cs w b args := by
  induction h generalizing w with
  | given hset hget hne =>
      exact .given ((Table.get?_congr initial hv).symm.trans hset)
        ((ErrorSet.get?_congr _ ha).symm.trans hget) hne
  | required hc hd hw hget hknown hne =>
      exact .required hc hd (BEq.trans hw hv) ((ErrorSet.get?_congr _ ha).symm.trans hget)
        ((ErrorSet.contains_congr _ ha).symm.trans hknown) hne
  | flows hc hd hflex hw hknown _ ih =>
      exact .flows hc hd hflex (BEq.trans hw hv)
        ((ErrorSet.contains_congr _ ha).symm.trans hknown) (ih BEq.rfl ha)

/-- Closed holdings hold what reaches a variable. -/
theorem held {ks : Holdings} (hks : ks.Solves initial cs) (h : Reaches initial cs v a args) :
    ∃ args', (ks.of v).atoms.get? a = some args' ∧ Payload.UpTo args args' := by
  induction h with
  | given hset hget _ =>
      refine (hks.above _).2 _ _ ?_
      rw [Holdings.of_start, hset]
      exact hget
  | required hc hd hw hget hknown _ =>
      rw [← Holdings.of_congr ks hw]
      refine (hks.closed _ hc _ _ (by rw [Constraint.contribution?, hd])).2 _ _ ?_
      rw [Holding.get?_beyond, hknown, if_neg Bool.false_ne_true]
      exact hget
  | flows hc hd hflex hw hknown _ ih =>
      obtain ⟨args', hget, hup⟩ := ih
      obtain ⟨args'', hget', hup'⟩ :=
        (hks.closed _ hc _ _ (by rw [Constraint.contribution?, hd])).2 _ args' (by
          rw [Holding.get?_beyond, hknown, if_neg Bool.false_ne_true, Holdings.source, if_pos hflex]
          exact hget)
      exact ⟨args'', Holdings.of_congr ks hw ▸ hget', hup.trans hup'⟩

/-- In the presence of something closed, the lists that reach are the same. -/
theorem beq {args' : List Ty} {ks : Holdings} (hks : ks.Solves initial cs)
    (h : Reaches initial cs v a args) (h' : Reaches initial cs v a args') :
    (args == args') = true := by
  obtain ⟨xs, hxs, hup⟩ := h.held hks
  obtain ⟨ys, hys, hup'⟩ := h'.held hks
  cases hxs.symm.trans hys
  exact hup.beq hup' h.ne_nil h'.ne_nil

end Reaches

/-- Whether each list of a table that is not open reaches a variable. -/
def Traced (initial : Table ErrorVar ErrorSet) (cs : List Constraint) (v : ErrorVar)
    (t : Instantiations) : Prop :=
  ∀ a args, t.get? a = some args → args = [] ∨ Reaches initial cs v a args

section Traced

variable {initial : Table ErrorVar ErrorSet} {cs : List Constraint} {v : ErrorVar}

theorem Traced.congr {t : Instantiations} {w : ErrorVar} (h : Traced initial cs v t)
    (hvw : (v == w) = true) : Traced initial cs w t :=
  fun a args hget => (h a args hget).imp_right fun hr => hr.congr hvw BEq.rfl

theorem Traced.insert {t : Instantiations} (h : Traced initial cs v t) {a : Atom}
    {args : List Ty} (ha : args = [] ∨ Reaches initial cs v a args) :
    Traced initial cs v (t.insert a args) := by
  intro b bs hb
  rw [Table.get?_insert] at hb
  split at hb
  · next hab =>
      cases hb
      exact ha.imp_right fun hr => hr.congr BEq.rfl hab
  · exact h b bs hb

theorem traced_start (initial : Table ErrorVar ErrorSet) (cs : List Constraint) (v : ErrorVar) :
    Traced initial cs v (Holdings.of (Holdings.start initial cs) v).atoms := by
  intro a args hget
  rw [Holdings.of_start] at hget
  cases hset : initial.get? v with
  | none => rw [hset] at hget; cases hget
  | some set =>
      rw [hset] at hget
      exact (em (args = [])).imp_right (.given hset hget)

theorem traced_contribution {c : Constraint} (hc : c ∈ cs) {hs : Holdings} {inc : Holding}
    (hhs : ∀ v, Traced initial cs v (hs.of v).atoms)
    (hcon : c.contribution? hs = some (v, inc)) : Traced initial cs v inc.atoms := by
  intro a args hget
  unfold Constraint.contribution? at hcon
  cases hd : c.demand with
  | subset sub sup known =>
      simp only [hd, Option.some.injEq, Prod.mk.injEq] at hcon
      obtain ⟨rfl, rfl⟩ := hcon
      rw [Holding.get?_beyond] at hget
      split at hget
      · cases hget
      · next hknown =>
          unfold Holdings.source at hget
          split at hget
          · next hflex =>
              exact (hhs sub a args hget).imp_right
                (.flows hc hd hflex BEq.rfl (Bool.not_eq_true _ ▸ hknown))
          · obtain ⟨b, hb, _⟩ := Table.mem_of_get? hget
            exact Or.inl (congrArg Prod.snd (List.mem_singleton.1 hb))
  | unionSubset w known required =>
      simp only [hd, Option.some.injEq, Prod.mk.injEq] at hcon
      obtain ⟨rfl, rfl⟩ := hcon
      rw [Holding.get?_beyond] at hget
      split at hget
      · cases hget
      · next hknown =>
          exact (em (args = [])).imp_right
            (.required hc hd BEq.rfl hget (Bool.not_eq_true _ ▸ hknown))
  | upperBound w bound => rw [hd] at hcon; cases hcon
  | none => rw [hd] at hcon; cases hcon

/-- Absorbing what is traced gives something traced, or meets two different
lists that both reach the variable. -/
theorem Traced.absorb (holds : Comparison) {h inc : Holding}
    (hvar : ∀ e ∈ inc.atoms.entries, ∀ i, e.1.variance i ≠ .contravariant)
    (hdis : inc.atoms.Distinct) (hh : Traced initial cs v h.atoms)
    (hinc : Traced initial cs v inc.atoms) :
    (∃ h' grew, h.absorb .strict holds inc = .ok (.done h' grew) ∧
      Traced initial cs v h'.atoms) ∨
    ∃ e ∈ inc.atoms.entries, ∃ old, h.absorb .strict holds inc = Holding.refuse e.1 old e.2 ∧
      Reaches initial cs v e.1 old ∧ Reaches initial cs v e.1 e.2 ∧ (old == e.2) = false := by
  have hentry : ∀ e ∈ inc.atoms.entries, e.2 = [] ∨ Reaches initial cs v e.1 e.2 :=
    fun e he => hinc e.1 e.2 (hdis.get?_of_mem he)
  have hmerge : ∀ e ∈ inc.atoms.entries, ∀ (t : Instantiations) (old m : List Ty),
      t.get? e.1 = some old → Payload.merge .strict holds e.1 old e.2 = .ok (some m) →
      Traced initial cs v t → Traced initial cs v (t.insert e.1 m) := by
    intro e he t old m hget hm ht
    rcases (Payload.merge_strict_some (hvar e he) hm).2.2 with rfl | rfl
    · exact ht.insert (ht e.1 _ hget)
    · exact ht.insert (hentry e he)
  have hcases := @Holding.absorbEntries_cases holds (Traced initial cs v) _ hvar
    (fun e he t _ ht => ht.insert (hentry e he)) hmerge
    ⟨h.atoms, h.universal || inc.universal⟩ (inc.universal && !h.universal) hh
  rcases hcases with ⟨h', grew, hd⟩ | hstuck
  · exact Or.inl ⟨h', grew, hd, Holding.absorb_invariant (I := Traced initial cs v)
      (fun e he t _ ht => ht.insert (hentry e he))
      (fun e he t old m hget hm _ => hmerge e he t old m hget hm) hh hd⟩
  · obtain ⟨e, he, t, old, ht, hget, hm, habs⟩ := hstuck
    obtain ⟨hold, hnew, hne⟩ := Payload.merge_strict_none (hvar e he) hm
    exact Or.inr ⟨e, he, old, habs, (ht e.1 old hget).resolve_left hold,
      (hentry e he).resolve_left hnew, hne⟩

/-- What is closed and traced has what reaches, and nothing else. -/
theorem Traced.reached {ks : Holdings} (h : Traced initial cs v (ks.of v).atoms)
    (hks : ks.Solves initial cs) (a : Atom) :
    match (ks.of v).atoms.get? a with
    | none => ∀ args, ¬ Reaches initial cs v a args
    | some [] => ∀ args, ¬ Reaches initial cs v a args
    | some held => Reaches initial cs v a held ∧
        ∀ args, Reaches initial cs v a args → (args == held) = true := by
  split
  · next hnone =>
      intro args hr
      obtain ⟨args', hget, _⟩ := hr.held hks
      rw [hnone] at hget
      cases hget
  · next hopen =>
      intro args hr
      obtain ⟨args', hget, hup⟩ := hr.held hks
      cases hopen.symm.trans hget
      have hempty : (args == []) = true := hup.resolve_left hr.ne_nil
      cases args with
      | nil => exact hr.ne_nil rfl
      | cons x xs => cases hempty
  · next held hopen hheld =>
      have hr := (h a held hheld).resolve_left fun hnil => hopen hnil
      exact ⟨hr, fun args hargs => hargs.beq hks hr⟩

end Traced

/-! ## Runs -/

/-- Whether what is held is traced, or a conflict is between lists that are. -/
def Progress.Traced (initial : Table ErrorVar ErrorSet) (cs : List Constraint) : Progress → Prop
  | .next s => ∀ v, Fixpoint.Traced initial cs v (s.holdings.of v).atoms
  | .conflict _ d => ∃ v k first second, d.cause = .ambiguousArguments v k first second ∧
      Reaches initial cs v (.classifier k) first ∧ Reaches initial cs v (.classifier k) second ∧
      (first == second) = false

section Strict

variable {p : Problem} {initial : Table ErrorVar ErrorSet} (hpol : p.policy = .strict)
  (hvar : ∀ e ∈ offered initial p.constraints, ∀ i, e.1.variance i ≠ .contravariant)
  (hfree : ∀ x args, (Atom.var x, args) ∈ offered initial p.constraints → args = [])

include hpol hvar hfree

theorem step_traced {s : State} (hreg : Regular p.constraints initial s)
    (hs : (Progress.next s).Traced initial p.constraints) (place : Nat) (rest : List Nat) :
    ∃ out, p.step s place rest = .ok out ∧ out.Traced initial p.constraints := by
  rcases p.idle_or_contribution s.holdings place with hidle | ⟨c, t, inc, hc, hcon⟩
  · exact ⟨_, Problem.step_of_no_target hidle, hs⟩
  have hmem := List.mem_of_getElem? hc
  have hcases := (hs t).absorb p.holds (hreg.variance hvar hmem hcon)
    (Constraint.contribution?_distinct hreg.distinct hcon) (traced_contribution hmem hs hcon)
  rw [← hpol] at hcases
  rcases hcases with ⟨h', grew, habs, hh'⟩ | ⟨⟨atom, args⟩, he, old, habs, hold, hnew, hne⟩
  · refine ⟨_, Problem.step_of_done hc hcon habs, fun v => ?_⟩
    show Fixpoint.Traced initial p.constraints v (Holdings.of (s.holdings.insert t h') v).atoms
    rw [Holdings.of_insert]
    split
    · next htv => exact hh'.congr htv
    · exact hs v
  · cases atom with
    | classifier k =>
        exact ⟨_, Problem.step_of_clash hc hcon habs, t, k, old, args, rfl, hold, hnew, hne⟩
    | var x =>
        -- Variables are offered without arguments.
        obtain ⟨⟨b, bs⟩, hd, hbx, hlen, _⟩ :=
          (contribution_allInPlay hmem hreg.inPlay hcon).2 _ he
        cases b with
        | classifier k => cases hbx
        | var y =>
            rw [hfree y bs hd] at hlen
            exact absurd (List.length_eq_zero_iff.1 hlen) hnew.ne_nil

theorem run_traced : ∃ out,
    p.run (stepBound initial p.constraints) (State.start initial p.constraints) = .ok out ∧
      out.Traced initial p.constraints := by
  obtain ⟨k, s, hk, _, hrun⟩ := Problem.run_of_stopped (settles_of_strict hpol hvar).ends.stopped
  obtain ⟨hreg, hs⟩ := Problem.stateAfter_invariant
    (I := fun s => Regular p.constraints initial s ∧
      (Progress.next s).Traced initial p.constraints)
    (fun {s s' place rest} hi hq hstep => by
      refine ⟨hi.1.step hq hstep, ?_⟩
      obtain ⟨out, hout, htraced⟩ := step_traced hpol hvar hfree hi.1 hi.2 place rest
      cases hstep.symm.trans hout
      exact htraced)
    ⟨Regular.start initial p.constraints, traced_start initial p.constraints⟩ hk
  rw [hrun _ (Nat.le_refl _), Problem.answer]
  cases s.queue with
  | nil => exact ⟨_, rfl, hs⟩
  | cons place rest => exact step_traced hpol hvar hfree hreg hs place rest

end Strict

/-! ## Answers -/

section Answer

variable {policy : Policy} {r : Registry} {view : View} {cs : List Constraint}
  {initial : Table ErrorVar ErrorSet}

theorem solveBy_of_conflict {s : State} {d : Diagnostic} (hu : unknown? r cs = none)
    (hrun : (Problem.mk cs policy view.holds).run (stepBound initial cs)
      (State.start initial cs) = .ok (.conflict s d)) :
    solveBy policy r view cs initial = .ok (.failure d s.steps s.growth) := by
  rw [solveBy, hu]
  simp only [hrun, bind, Except.bind]
  rfl

theorem solveBy_of_next {s : State} (hu : unknown? r cs = none)
    (hrun : (Problem.mk cs policy view.holds).run (stepBound initial cs)
      (State.start initial cs) = .ok (.next s)) :
    solveBy policy r view cs initial = conclude view cs s := by
  rw [solveBy, hu]
  simp only [hrun, bind, Except.bind]

theorem conclude_total (h : view.holds.Total) (s : State) : ∃ o, conclude view cs s = .ok o := by
  obtain ⟨v, hv⟩ : ∃ v, violation? view.covers s.holdings.toSolution cs = .ok v :=
    violationFrom_total (View.coversWith_total h) cs []
  rw [conclude, hv]
  cases v <;> exact ⟨_, rfl⟩

/-- Under the strict policy solving has an answer wherever comparing has. -/
theorem solveBy_strict_total (r : Registry) (h : view.holds.Total)
    (hvar : ∀ e ∈ offered initial cs, ∀ i, e.1.variance i ≠ .contravariant)
    (hfree : ∀ x args, (Atom.var x, args) ∈ offered initial cs → args = []) :
    ∃ o, solveBy .strict r view cs initial = .ok o := by
  cases hu : unknown? r cs with
  | some d => exact ⟨.failure d 0 [], by rw [solveBy, hu]; rfl⟩
  | none =>
      obtain ⟨out, hrun, _⟩ := run_traced (p := ⟨cs, .strict, view.holds⟩) rfl hvar hfree
      cases out with
      | conflict s d => exact ⟨_, solveBy_of_conflict hu hrun⟩
      | next s =>
          rw [solveBy_of_next hu hrun]
          exact conclude_total h s

theorem conclude_not_ambiguous {s : State} {o : Outcome} (h : conclude view cs s = .ok o)
    {v : ErrorVar} {k : Classifier} {first second : List Ty} :
    o.violation.map Diagnostic.cause ≠ some (.ambiguousArguments v k first second) := by
  intro ho
  unfold conclude at h
  cases hv : violation? view.covers s.holdings.toSolution cs with
  | error f => rw [hv] at h; cases h
  | ok found =>
      rw [hv] at h
      cases found with
      | none => cases h; cases ho
      | some d =>
          cases h
          exact violationFrom_not_ambiguous hv (Option.some.inj ho)

end Answer

/-- Under the strict policy, without contravariant parameters and with arguments
on classifiers only, every run ends, and it ends with a conflict exactly if two
different lists of one classifier reach one variable. After a success each
variable has each classifier with the list that reaches it, if there is one. -/
theorem conflict_iff_two_lists_reach (r : Registry) (view : View) (cs : List Constraint)
    (initial : Table ErrorVar ErrorSet)
    (hissued : ∀ c ∈ cs, ∀ k ∈ namedClassifiers c, r.contains k = true)
    (hvar : ∀ e ∈ offered initial cs, ∀ i, e.1.variance i ≠ .contravariant)
    (hfree : ∀ x args, (Atom.var x, args) ∈ offered initial cs → args = []) :
    (∃ out, (Problem.mk cs .strict view.holds).run (stepBound initial cs)
      (State.start initial cs) = .ok out) ∧
    (view.holds.Total → ∃ o, solveBy .strict r view cs initial = .ok o) ∧
    ((∃ o v k first second, solveBy .strict r view cs initial = .ok o ∧
        o.violation.map Diagnostic.cause = some (.ambiguousArguments v k first second)) ↔
      ∃ v k first second, Reaches initial cs v (.classifier k) first ∧
        Reaches initial cs v (.classifier k) second ∧ (first == second) = false) ∧
    ∀ o, solveBy .strict r view cs initial = .ok o → o.success = true → ∀ v k,
      match (o.solution.getD v).get? (.classifier k) with
      | none => ∀ args, ¬ Reaches initial cs v (.classifier k) args
      | some [] => ∀ args, ¬ Reaches initial cs v (.classifier k) args
      | some held => Reaches initial cs v (.classifier k) held ∧
          ∀ args, Reaches initial cs v (.classifier k) args → (args == held) = true := by
  have hunknown := unknown?_eq_none_iff.2 hissued
  obtain ⟨out, hrun, htraced⟩ :=
    run_traced (p := ⟨cs, .strict, view.holds⟩) rfl hvar hfree
  refine ⟨⟨out, hrun⟩, fun htotal => solveBy_strict_total r htotal hvar hfree, ⟨?_, ?_⟩, ?_⟩
  · rintro ⟨o, v, k, first, second, ho, hcause⟩
    cases out with
    | conflict s d =>
        obtain ⟨w, l, xs, ys, _, hreach⟩ := htraced
        exact ⟨w, l, xs, ys, hreach⟩
    | next s =>
        rw [solveBy_of_next hunknown hrun] at ho
        exact absurd hcause (conclude_not_ambiguous ho)
  · rintro ⟨v, k, first, second, hfirst, hsecond, hne⟩
    cases out with
    | conflict s d =>
        obtain ⟨w, l, xs, ys, hcause, _⟩ := htraced
        exact ⟨_, w, l, xs, ys, solveBy_of_conflict hunknown hrun, congrArg some hcause⟩
    | next s =>
        have hsolves := (run_strict_isLeast (p := ⟨cs, .strict, view.holds⟩) rfl hvar hrun).1
        rw [hfirst.beq hsolves hsecond] at hne
        cases hne
  · intro o ho hok v k
    obtain ⟨s, hrun', _, rfl⟩ := solveBy_success ho hok
    cases hrun.symm.trans hrun'
    have hsolves := (run_strict_isLeast (p := ⟨cs, .strict, view.holds⟩) rfl hvar hrun).1
    rw [Holdings.get?_getD_toSolution ((Regular.run hrun).distinct v)]
    exact (htraced v).reached hsolves (.classifier k)

/-- Two arguments of one classifier that meet after one of them has passed
through another variable. -/
def meeting : List Constraint :=
  [roundGiven "F" [.value], roundGiven "E" [], roundFlow "E" "F", roundGiven "E" [.nothing]]

theorem meeting_conflict : ∃ o v k first second,
    solveBy .strict (.holding 0 [roundFault]) (View.plain .classes) meeting .empty = .ok o ∧
      o.violation.map Diagnostic.cause = some (.ambiguousArguments v k first second) := by
  have hvar : ∀ e ∈ offered .empty meeting, ∀ c ∈ e.1.classifier?,
      .contravariant ∉ c.variances := by decide
  have hfree : ∀ e ∈ offered .empty meeting, e.1.classifier? = none → e.2 = [] := by decide
  refine (conflict_iff_two_lists_reach (.holding 0 [roundFault]) (View.plain .classes) meeting
    .empty (by decide) (fun e he => Atom.variance_ne_contravariant (hvar e he))
    fun x args he => hfree _ he rfl).2.2.1.2
    ⟨roundVar "F", roundFault, [.value], [.nothing], ?_, ?_, rfl⟩
  · exact .required (c := roundGiven "F" [.value]) (by simp [meeting]) rfl BEq.rfl rfl rfl (by simp)
  · refine .flows (c := roundFlow "E" "F") (by simp [meeting]) rfl rfl BEq.rfl rfl ?_
    exact .required (c := roundGiven "E" [.nothing]) (by simp [meeting]) rfl BEq.rfl rfl rfl (by simp)

end Fallible.Fixpoint
