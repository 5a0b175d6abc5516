import Fallible.Proofs.Reaching

/-!
# The checks after a run report the first violation

A run ends in sets for the variables. Solving succeeds exactly if every
constraint is kept by them: a bound covers the set of its variable, and the set
of a variable with an alias stays within the alias. Otherwise the report is on
the first constraint that is not kept.

A constraint is only checked for the variables that it mentions first. That
hides nothing: a variable mentioned before has the same set and the same alias,
so if it were outside, an earlier constraint would not be kept.
-/

namespace Fallible

/-! ## What the checks ask for -/

/-- Whether a set holds nothing outside an alias: it is not universal, its
classifiers belong to the alias, and its variables have an alias inside. -/
structure ErrorSet.StaysWithin (s : ErrorSet) (a : Alias) : Prop where
  finite : s.universal = false
  named : ∀ c, s.contains (.classifier c) = true → a.contains c = true
  ranging : ∀ x, s.contains (.var x) = true →
    ∃ b, x.bound = .bounded b ∧ ∀ c ∈ b.members, a.contains c = true

/-- Whether sets keep what a constraint says about the end of solving. -/
structure Constraint.Kept (view : View) (sets : Solution) (c : Constraint) : Prop where
  bound : ∀ v bound, c.demand = .upperBound v bound →
    view.covers bound (Fixpoint.finalSet sets v) = .ok true
  limits : ∀ v ∈ c.vars, v.flexible = true → ∀ a, v.bound = .bounded a →
    (sets.getD v).StaysWithin a

/-- The reports on a constraint that is not kept. -/
inductive Constraint.Breaks (view : View) (sets : Solution) (c : Constraint) : Cause → Prop
  | bound {v : ErrorVar} {bound : ErrorSet} : c.demand = .upperBound v bound →
      view.covers bound (Fixpoint.finalSet sets v) = .ok false →
      Breaks view sets c (.exceedsBound c v bound (Fixpoint.finalSet sets v))
  | limit {v : ErrorVar} {a : Alias} : v ∈ c.vars → v.flexible = true → v.bound = .bounded a →
      ¬ (sets.getD v).StaysWithin a → Breaks view sets c (.exceedsAlias c v a (sets.getD v))

namespace Fixpoint

theorem fitsAlias_iff_staysWithin {a : Alias} {s : ErrorSet} :
    fitsAlias a s = true ↔ s.StaysWithin a := by
  have hvar : ∀ x : ErrorVar, (Atom.var x).isWithin a = true ↔
      ∃ b, x.bound = .bounded b ∧ ∀ c ∈ b.members, a.contains c = true := by
    intro x
    cases hx : x.bound with
    | unbounded => simp [Atom.isWithin, hx]
    | bounded b => simp [Atom.isWithin, hx, Alias.isWithin]
  rw [fitsAlias_iff]
  constructor
  · rintro ⟨hfinite, hall⟩
    have hcontains : ∀ atom, s.contains atom = true → atom.isWithin a = true := by
      intro atom hatom
      obtain ⟨e, he, heq⟩ := ErrorSet.contains_iff.1 hatom
      exact Atom.isWithin_congr a heq ▸ hall e he
    exact ⟨hfinite, fun c hc => hcontains _ hc, fun x hx => (hvar x).1 (hcontains _ hx)⟩
  · rintro ⟨hfinite, hnamed, hranging⟩
    refine ⟨hfinite, fun e he => ?_⟩
    have hin : s.contains e.1 = true := ErrorSet.contains_iff.2 ⟨e, he, BEq.rfl⟩
    cases hatom : e.1 with
    | classifier c => exact hnamed c (hatom ▸ hin)
    | var x => exact (hvar x).2 (hranging x (hatom ▸ hin))

variable {view : View} {sets : Solution}

theorem withinAlias_iff {v : ErrorVar} :
    WithinAlias sets v ↔ ∀ a, v.bound = .bounded a → (sets.getD v).StaysWithin a :=
  forall₂_congr fun _ _ => fitsAlias_iff_staysWithin

theorem kept_iff {c : Constraint} :
    c.Kept view sets ↔ boundViolation view.covers sets c = .ok none ∧
      ∀ v ∈ c.vars, v.flexible = true → WithinAlias sets v := by
  simp only [boundViolation_none_iff, withinAlias_iff]
  exact ⟨fun h => ⟨h.bound, h.limits⟩, fun h => ⟨h.1, h.2⟩⟩

/-! ## The first constraint that is not kept -/

section Scan

variable {covers : ErrorSet → ErrorSet → Except Fault Bool}

/-- Constraints that pass leave behind variables within their aliases. -/
theorem violationFrom_append {before rest : List Constraint} {seen : List ErrorVar}
    (hseen : ∀ v ∈ seen, WithinAlias sets v)
    (h : ∀ c ∈ before, boundViolation covers sets c = .ok none ∧
      ∀ v ∈ c.vars, v.flexible = true → WithinAlias sets v) :
    ∃ seen', (∀ v ∈ seen', WithinAlias sets v) ∧
      violationFrom covers sets seen (before ++ rest) = violationFrom covers sets seen' rest := by
  induction before generalizing seen with
  | nil => exact ⟨seen, hseen, rfl⟩
  | cons c before ih =>
      obtain ⟨⟨hbound, hwithin⟩, hrest⟩ := List.forall_mem_cons.1 h
      have hfresh : ∀ v ∈ firstMentions seen c.vars, WithinAlias sets v :=
        (forall_firstMentions fun _ _ => WithinAlias.congr).2 fun v hv hf => Or.inr (hwithin v hv hf)
      have hnone : (firstMentions seen c.vars).findSome? (aliasViolation sets c) = none :=
        List.findSome?_eq_none_iff.2 fun v hv => aliasViolation_eq_none_iff.2 (hfresh v hv)
      have hseen' : ∀ v ∈ firstMentions seen c.vars ++ seen, WithinAlias sets v := fun v hv =>
        (List.mem_append.1 hv).elim (hfresh v) (hseen v)
      obtain ⟨seen', hwithin', heq⟩ := ih hseen' hrest
      refine ⟨seen', hwithin', ?_⟩
      rw [List.cons_append, violationFrom, hbound]
      simp only [bind, Except.bind, hnone]
      exact heq

theorem mem_of_firstMentions {vs seen : List ErrorVar} {v : ErrorVar}
    (h : v ∈ firstMentions seen vs) : v ∈ vs ∧ v.flexible = true := by
  induction vs generalizing seen with
  | nil => cases h
  | cons w vs ih =>
      rw [firstMentions] at h
      split at h
      · exact (ih h).imp_left (List.mem_cons_of_mem w)
      · next hnew =>
          rw [Bool.not_eq_true, Bool.or_eq_false_iff, Bool.not_eq_false'] at hnew
          rcases List.mem_cons.1 h with rfl | h
          · exact ⟨List.mem_cons_self, hnew.1⟩
          · exact (ih h).imp_left (List.mem_cons_of_mem w)

/-- A variable outside its alias is reported where only variables within theirs
were seen before. -/
theorem exists_aliasViolation {c : Constraint} {seen : List ErrorVar}
    (hseen : ∀ v ∈ seen, WithinAlias sets v)
    (h : ¬ ∀ v ∈ c.vars, v.flexible = true → WithinAlias sets v) :
    ∃ v a, v ∈ c.vars ∧ v.flexible = true ∧ v.bound = .bounded a ∧
      fitsAlias a (sets.getD v) = false ∧
      (firstMentions seen c.vars).findSome? (aliasViolation sets c) =
        some ⟨c.location, .exceedsAlias c v a (sets.getD v)⟩ := by
  cases hfind : (firstMentions seen c.vars).findSome? (aliasViolation sets c) with
  | none =>
      refine absurd (fun v hv hf => ?_) h
      have hfresh : ∀ v ∈ firstMentions seen c.vars, WithinAlias sets v := fun v hv =>
        aliasViolation_eq_none_iff.1 (List.findSome?_eq_none_iff.1 hfind v hv)
      rcases (forall_firstMentions fun _ _ => WithinAlias.congr).1 hfresh v hv hf with hin | hin
      · obtain ⟨w, hw, hvw⟩ := List.contains_iff_exists_mem_beq.1 hin
        exact (hseen w hw).congr (BEq.symm hvw)
      · exact hin
  | some d =>
      obtain ⟨v, hv, hd⟩ := List.exists_of_findSome?_eq_some hfind
      obtain ⟨hmem, hflex⟩ := mem_of_firstMentions hv
      unfold aliasViolation at hd
      cases hb : v.bound with
      | unbounded => rw [hb] at hd; cases hd
      | bounded a =>
          simp only [hb] at hd
          split at hd
          · cases hd
          · next hfit =>
              cases hd
              exact ⟨v, a, hmem, hflex, hb, Bool.eq_false_iff.2 hfit, rfl⟩

theorem boundViolation_cases (covers : ErrorSet → ErrorSet → Except Fault Bool) (sets : Solution)
    (c : Constraint) :
    boundViolation covers sets c = .ok none ∨
    (∃ v bound f, c.demand = .upperBound v bound ∧ covers bound (finalSet sets v) = .error f ∧
      boundViolation covers sets c = .error f) ∨
    ∃ v bound, c.demand = .upperBound v bound ∧ covers bound (finalSet sets v) = .ok false ∧
      boundViolation covers sets c =
        .ok (some ⟨c.location, .exceedsBound c v bound (finalSet sets v)⟩) := by
  unfold boundViolation
  cases hd : c.demand with
  | upperBound v bound =>
      cases hc : covers bound (finalSet sets v) with
      | error f => exact Or.inr (Or.inl ⟨v, bound, f, rfl, hc, by simp [hc, bind, Except.bind]⟩)
      | ok b =>
          cases b with
          | true => exact Or.inl (by simp [hc, bind, Except.bind, pure, Except.pure])
          | false =>
              refine Or.inr (Or.inr ⟨v, bound, rfl, hc, ?_⟩)
              simp [hc, bind, Except.bind, pure, Except.pure]
  | _ => exact Or.inl rfl

end Scan

/-- Where only kept constraints come before, a constraint that is not kept is
reported, unless comparing with its bound is at fault. -/
theorem violation?_of_first {before after : List Constraint} {c : Constraint}
    (hbefore : ∀ d ∈ before, d.Kept view sets) (hc : ¬ c.Kept view sets) :
    (∃ v bound f, c.demand = .upperBound v bound ∧ view.covers bound (finalSet sets v) = .error f ∧
      violation? view.covers sets (before ++ c :: after) = .error f) ∨
    ∃ cause, c.Breaks view sets cause ∧
      violation? view.covers sets (before ++ c :: after) = .ok (some ⟨c.location, cause⟩) := by
  obtain ⟨seen, hseen, hscan⟩ : ∃ seen, (∀ v ∈ seen, WithinAlias sets v) ∧
      violationFrom view.covers sets [] (before ++ c :: after) =
        violationFrom view.covers sets seen (c :: after) :=
    violationFrom_append (fun v hv => absurd hv List.not_mem_nil)
      fun d hd => kept_iff.1 (hbefore d hd)
  rw [violation?, hscan, violationFrom]
  rcases boundViolation_cases view.covers sets c with
    hb | ⟨v, bound, f, hd, hcov, hb⟩ | ⟨v, bound, hd, hcov, hb⟩
  · right
    obtain ⟨v, a, hv, hflex, hbound, hfit, hfind⟩ :=
      exists_aliasViolation hseen fun h => hc (kept_iff.2 ⟨hb, h⟩)
    refine ⟨_, .limit hv hflex hbound fun hin => ?_, ?_⟩
    · rw [fitsAlias_iff_staysWithin.2 hin] at hfit
      cases hfit
    · rw [hb]
      simp only [bind, Except.bind, hfind]
      rfl
  · exact Or.inl ⟨v, bound, f, hd, hcov, by rw [hb]; rfl⟩
  · exact Or.inr ⟨_, .bound hd hcov, by rw [hb]; rfl⟩

/-! ## The main statement -/

/-- Where a run ends, solving succeeds exactly if its sets keep every constraint.
Otherwise the one report is on the first constraint that they do not keep, or
comparing with the bound of that constraint is at fault. Where types can always
be compared, there is no fault. -/
theorem solveBy_reports_first_violation (policy : Policy) (r : Registry) (view : View)
    (cs : List Constraint) (initial : Table ErrorVar ErrorSet) (s : State)
    (hknown : unknown? r cs = none)
    (hrun : (Problem.mk cs policy view.holds).run (stepBound initial cs)
      (State.start initial cs) = .ok (.next s)) :
    ((∃ o, solveBy policy r view cs initial = .ok o ∧ o.success = true) ↔
      ∀ c ∈ cs, c.Kept view s.holdings.toSolution) ∧
    (∀ (i : Nat) (c : Constraint), cs[i]? = some c → ¬ c.Kept view s.holdings.toSolution →
      (∀ (j : Nat) (d : Constraint), j < i → cs[j]? = some d → d.Kept view s.holdings.toSolution) →
      (∃ v bound f, c.demand = .upperBound v bound ∧
        view.covers bound (finalSet s.holdings.toSolution v) = .error f ∧
        solveBy policy r view cs initial = .error f) ∨
      ∃ cause, c.Breaks view s.holdings.toSolution cause ∧
        solveBy policy r view cs initial =
          .ok (.failure ⟨c.location, cause⟩ s.steps s.growth)) ∧
    (view.holds.Total → ∃ o, solveBy policy r view cs initial = .ok o) := by
  have hkept : violation? view.covers s.holdings.toSolution cs = .ok none ↔
      ∀ c ∈ cs, c.Kept view s.holdings.toSolution :=
    violation?_none_iff.trans (forall₂_congr fun _ _ => kept_iff.symm)
  refine ⟨⟨?_, fun h => ?_⟩, fun i c hi hc hbefore => ?_, fun htotal => ?_⟩
  · rintro ⟨o, ho, hsuccess⟩
    obtain ⟨s', hrun', hviolation, -⟩ := solveBy_success ho hsuccess
    cases hrun.symm.trans hrun'
    exact hkept.1 hviolation
  · exact ⟨_, solveBy_of_run hknown hrun (hkept.2 h), rfl⟩
  · rw [solveBy_of_next hknown hrun, conclude]
    obtain ⟨hlt, hget⟩ := List.getElem?_eq_some_iff.1 hi
    have hsplit : cs = cs.take i ++ c :: cs.drop (i + 1) := by
      rw [← hget, List.getElem_cons_drop, List.take_append_drop]
    have hfirst : ∀ d ∈ cs.take i, d.Kept view s.holdings.toSolution := by
      intro d hd
      obtain ⟨j, hj, rfl⟩ := List.mem_take_iff_getElem.1 hd
      exact hbefore j _ (by omega) (List.getElem?_eq_getElem _)
    rcases violation?_of_first hfirst hc with ⟨v, bound, f, hd, hcov, hv⟩ | ⟨cause, hbreaks, hv⟩
    · rw [← hsplit] at hv
      exact Or.inl ⟨v, bound, f, hd, hcov, by rw [hv]; rfl⟩
    · rw [← hsplit] at hv
      exact Or.inr ⟨cause, hbreaks, by rw [hv]; rfl⟩
  · rw [solveBy_of_next hknown hrun]
    exact conclude_total htotal s

/-! A classifier flows from a variable that may hold it to one whose alias does
not have it. -/

def strayFault (name : String) (id : Int) : Classifier := ⟨id, [], name, [], some 0⟩

def strayRegistry : Registry := .holding 0 [strayFault "A" 0, strayFault "B" 1]

/-- A variable without bound, and one whose alias has one classifier. -/
def looseVar : ErrorVar := ⟨"E", .unbounded, true⟩

def tiedVar (name : String) (c : Classifier) : ErrorVar := ⟨name, .bounded (.of "IO" [c]), true⟩

/-- The flow out of the variable without bound. -/
def strayFlow : Constraint :=
  ⟨.subset looseVar (tiedVar "F" (strayFault "B" 1)) .empty, ⟨"main", some 3, none⟩, ""⟩

def strayConstraints : List Constraint :=
  [⟨.unionSubset looseVar .empty (.ofAtoms [.classifier (strayFault "A" 0)]), .unknown, ""⟩,
    ⟨.upperBound looseVar (.ofAtoms [.classifier (strayFault "A" 0)]), .unknown, ""⟩, strayFlow]

/-- The classifier is allowed where it arises, so the report is on the flow. -/
theorem solveBy_reports_strayFlow :
    ∃ s cause, (Problem.mk strayConstraints .strict (View.plain .classes).holds).run
        (stepBound .empty strayConstraints) (State.start .empty strayConstraints) =
        .ok (.next s) ∧
      strayFlow.Breaks (View.plain .classes) s.holdings.toSolution cause ∧
      solveBy .strict strayRegistry (View.plain .classes) strayConstraints .empty =
        .ok (.failure ⟨⟨"main", some 3, none⟩, cause⟩ s.steps s.growth) := by
  have h := (solveBy_reports_first_violation .strict strayRegistry (View.plain .classes)
    strayConstraints .empty _ rfl rfl).2.1 2 strayFlow rfl
    (fun hkept => absurd (fitsAlias_iff_staysWithin.2
      (hkept.limits (tiedVar "F" (strayFault "B" 1)) (List.mem_cons_of_mem _ List.mem_cons_self)
        rfl _ rfl)) (by decide)) ?_
  · rcases h with ⟨v, bound, f, hd, -⟩ | ⟨cause, hbreaks, hsolve⟩
    · cases hd
    · exact ⟨_, cause, rfl, hbreaks, hsolve⟩
  · intro j d hj hd
    obtain rfl | rfl : j = 0 ∨ j = 1 := by omega
    all_goals
      cases hd
      refine kept_iff.2 ⟨rfl, fun v hv _ a ha => ?_⟩
      obtain rfl := List.mem_singleton.1 hv
      cases ha

/-- What stays in an alias is not always rigid: a variable may hold a flexible one
whose alias lies inside its own. -/
theorem not_rigid_of_success :
    ¬ ∀ (r : Registry) (cs : List Constraint) (initial : Table ErrorVar ErrorSet) (o : Outcome),
      solveBy .strict r (View.plain .classes) cs initial = .ok o → o.success = true →
      ∀ c ∈ cs, ∀ v ∈ c.vars, v.flexible = true → ∀ a, v.bound = .bounded a →
        ∀ x, (o.solution.getD v).contains (.var x) = true → x.flexible = false := by
  intro h
  have hrigid := h strayRegistry
    [⟨.unionSubset (tiedVar "E" (strayFault "A" 0)) .empty
      (.ofAtoms [.var (tiedVar "F" (strayFault "A" 0))]), .unknown, ""⟩] .empty _ rfl rfl _
    List.mem_cons_self _ List.mem_cons_self rfl _ rfl (tiedVar "F" (strayFault "A" 0)) rfl
  cases hrigid

end Fixpoint

end Fallible
