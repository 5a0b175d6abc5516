import Fallible.Proofs.LeastFixpoint
import Fallible.Proofs.Termination

/-!
# What the checks around a run say

Before a run every classifier must be known to the registry; after it every set
must stay within its bounds. Both checks report the first violation, so what
they report depends on the order of the constraints. Whether they report
anything does not: each comes down to a condition on the constraints one by one.

The alias of a variable is checked once, where the variable is first mentioned.
Variables that are the same for `==` have the same alias and the same set, so
checking one of them checks all.
-/

namespace Fallible

/-! ## Answers -/

namespace View

variable {holds : Comparison}

theorem uncovered_total (h : holds.Total) (sup : ErrorSet) :
    ∀ (es : List (Atom × List Ty)) (missing mismatched : Instantiations),
      ∃ r, uncovered holds sup es missing mismatched = .ok r :=
  fun _ => uncovered_answers fun x _ y _ => ⟨h x y, h y x⟩

theorem coversWith_total (h : holds.Total) (sup sub : ErrorSet) :
    ∃ r, coversWith holds sup sub = .ok r := by
  unfold coversWith
  split
  · exact ⟨_, rfl⟩
  · split
    · exact ⟨_, rfl⟩
    · obtain ⟨r, hr⟩ := uncovered_total h sup sub.entries .empty .empty
      simp only [residualWith, hr, bind, Except.bind]
      exact ⟨_, rfl⟩

end View

/-! ## Aliases -/

theorem Atom.isWithin_bare (a : Alias) (atom : Atom) : atom.isWithin a.bare = atom.isWithin a := by
  cases atom <;> simp only [isWithin, Alias.isWithin, Alias.contains_bare]

theorem Atom.isWithin_congr (al : Alias) {a b : Atom} (h : (a == b) = true) :
    a.isWithin al = b.isWithin al := by
  have hmember : ∀ c : Classifier, al.contains c.bare = al.contains c := by
    intro c
    rw [Alias.contains, Alias.contains, List.contains_eq_any_beq, List.contains_eq_any_beq]
    rfl
  have hbare : ∀ a : Atom, a.bare.isWithin al = a.isWithin al := by
    intro a
    cases a with
    | classifier c => exact hmember c
    | var x =>
        obtain ⟨name, bound, flexible⟩ := x
        cases bound with
        | unbounded => rfl
        | bounded b =>
            show (b.members.map Classifier.bare).all al.contains = b.members.all al.contains
            rw [List.all_map]
            exact congrArg _ (funext hmember)
  rw [← hbare a, beq_iff.1 h, hbare]

namespace Fixpoint

/-! ## Known classifiers -/

theorem unknown?_eq_none_iff {r : Registry} {cs : List Constraint} :
    unknown? r cs = none ↔ ∀ c ∈ cs, ∀ k ∈ namedClassifiers c, r.contains k = true := by
  simp [unknown?, unknownIn?, List.findSome?_eq_none_iff]

/-! ## Bounds -/

section Violation

variable {covers : ErrorSet → ErrorSet → Except Fault Bool} {solution : Solution}

theorem boundViolation_total (h : ∀ sup sub, ∃ r, covers sup sub = .ok r) (c : Constraint) :
    ∃ r, boundViolation covers solution c = .ok r := by
  unfold boundViolation
  split
  · next v bound _ =>
      obtain ⟨b, hb⟩ := h bound (finalSet solution v)
      simp only [hb, bind, Except.bind]
      split <;> exact ⟨_, rfl⟩
  · exact ⟨_, rfl⟩

theorem boundViolation_none_iff {c : Constraint} :
    boundViolation covers solution c = .ok none ↔
      ∀ v bound, c.demand = .upperBound v bound → covers bound (finalSet solution v) = .ok true := by
  unfold boundViolation
  split
  · next v bound hd =>
      rw [hd]
      simp only [Demand.upperBound.injEq, and_imp, forall_apply_eq_imp_iff, forall_eq']
      cases covers bound (finalSet solution v) with
      | error f => simp [bind, Except.bind]
      | ok b => cases b <;> simp [bind, Except.bind, pure, Except.pure]
  · next hno => exact ⟨fun _ v bound hd => (hno v bound hd).elim, fun _ => rfl⟩

theorem violationFrom_total (h : ∀ sup sub, ∃ r, covers sup sub = .ok r) :
    ∀ (cs : List Constraint) (seen : List ErrorVar),
      ∃ r, violationFrom covers solution seen cs = .ok r :=
  fun _ => violationFrom_of_bounds fun c _ => boundViolation_total h c

section Cause

variable {x : ErrorVar} {k : Classifier} {first second : List Ty} {c : Constraint}
  {d : Diagnostic}

theorem boundViolation_not_ambiguous (h : boundViolation covers solution c = .ok (some d)) :
    d.cause ≠ .ambiguousArguments x k first second := by
  unfold boundViolation at h
  split at h
  · next v bound _ =>
      cases hc : covers bound (finalSet solution v) with
      | error f => rw [hc] at h; cases h
      | ok answer =>
          rw [hc] at h
          cases answer <;> cases h
          exact Cause.noConfusion
  · cases h

theorem aliasViolation_not_ambiguous {v : ErrorVar} (h : aliasViolation solution c v = some d) :
    d.cause ≠ .ambiguousArguments x k first second := by
  unfold aliasViolation at h
  split at h
  · cases h
  · split at h
    · cases h
    · cases h
      exact Cause.noConfusion

theorem violationFrom_not_ambiguous : ∀ {cs : List Constraint} {seen : List ErrorVar},
    violationFrom covers solution seen cs = .ok (some d) →
    d.cause ≠ .ambiguousArguments x k first second := by
  intro cs
  induction cs with
  | nil => intro seen h; cases h
  | cons c cs ih =>
      intro seen h
      rw [violationFrom] at h
      cases hb : boundViolation covers solution c with
      | error f => rw [hb] at h; cases h
      | ok found =>
          rw [hb] at h
          cases found with
          | some d' =>
              cases h
              exact boundViolation_not_ambiguous hb
          | none =>
              simp only [bind, Except.bind] at h
              split at h
              · next d' hd =>
                  cases h
                  obtain ⟨v, _, hv⟩ := List.exists_of_findSome?_eq_some hd
                  exact aliasViolation_not_ambiguous hv
              · exact ih h

end Cause

/-- Whether what a variable holds stays within its alias, if it has one. -/
def WithinAlias (solution : Solution) (v : ErrorVar) : Prop :=
  ∀ a, v.bound = .bounded a → fitsAlias a (solution.getD v) = true

theorem aliasViolation_eq_none_iff {c : Constraint} {v : ErrorVar} :
    aliasViolation solution c v = none ↔ WithinAlias solution v := by
  unfold aliasViolation WithinAlias
  cases v.bound with
  | unbounded => simp
  | bounded a => simp

theorem fitsAlias_bare (a : Alias) (set : ErrorSet) : fitsAlias a.bare set = fitsAlias a set := by
  simp only [fitsAlias, Atom.isWithin_bare]

theorem fitsAlias_iff {a : Alias} {set : ErrorSet} :
    fitsAlias a set = true ↔
      set.universal = false ∧ ∀ e ∈ set.entries, e.1.isWithin a = true := by
  rw [fitsAlias, Bool.and_eq_true, Bool.not_eq_true', List.all_eq_true]
  refine and_congr_right fun _ => ⟨fun h e he => ?_, fun h b hb => ?_⟩
  · have hc : set.atoms.any (fun b => b == e.1) = true := by
      rw [ErrorSet.atoms, ← Table.contains_eq_any_keys]
      exact (ErrorSet.contains_eq_any set e.1).trans (List.any_eq_true.2 ⟨e, he, BEq.rfl⟩)
    obtain ⟨b, hb, hbe⟩ := List.any_eq_true.1 hc
    rw [← Atom.isWithin_congr a hbe]
    exact h b hb
  · have hc : set.contains b = true := by
      rw [ErrorSet.contains, Table.contains_eq_any_keys]
      exact List.any_eq_true.2 ⟨b, hb, BEq.rfl⟩
    rw [ErrorSet.contains_eq_any, List.any_eq_true] at hc
    obtain ⟨e, he, heb⟩ := hc
    rw [← Atom.isWithin_congr a heb]
    exact h e he

theorem WithinAlias.congr {v w : ErrorVar} (hvw : (v == w) = true)
    (h : WithinAlias solution v) : WithinAlias solution w := by
  intro b hb
  have hbound : v.bound.bare = w.bound.bare :=
    congrArg ErrorVar.bound (ErrorVar.beq_iff_bare.1 hvw)
  rw [← solution.getD_congr hvw, ← fitsAlias_bare]
  cases hv : v.bound with
  | unbounded => rw [hv, hb] at hbound; cases hbound
  | bounded a =>
      rw [hv, hb] at hbound
      injection hbound with hab
      rw [← hab, fitsAlias_bare]
      exact h a hv

/-- What holds of the variables mentioned first holds of all. -/
theorem forall_firstMentions {P : ErrorVar → Prop}
    (hP : ∀ v w, (v == w) = true → P v → P w) : ∀ {vs seen : List ErrorVar},
    (∀ v ∈ firstMentions seen vs, P v) ↔
      ∀ v ∈ vs, v.flexible = true → seen.contains v = true ∨ P v := by
  intro vs
  induction vs with
  | nil => intro seen; simp [firstMentions]
  | cons v vs ih =>
      intro seen
      rw [firstMentions]
      split
      · next hskip =>
          rw [ih, List.forall_mem_cons]
          refine ⟨fun h => ⟨fun hf => ?_, h⟩, fun h => h.2⟩
          rw [hf] at hskip
          exact Or.inl (by simpa using hskip)
      · next hnew =>
          rw [Bool.not_eq_true, Bool.or_eq_false_iff, Bool.not_eq_false'] at hnew
          rw [List.forall_mem_cons, List.forall_mem_cons, ih]
          constructor
          · rintro ⟨hv, hvs⟩
            refine ⟨fun _ => Or.inr hv, fun w hw hf => ?_⟩
            rcases hvs w hw hf with hseen | hPw
            · rw [List.contains_cons, Bool.or_eq_true] at hseen
              rcases hseen with hwv | hseen
              · exact Or.inr (hP v w (BEq.symm hwv) hv)
              · exact Or.inl hseen
            · exact Or.inr hPw
          · rintro ⟨hv, hvs⟩
            have hPv : P v := (hv hnew.1).resolve_left (by rw [hnew.2]; exact Bool.false_ne_true)
            refine ⟨hPv, fun w hw hf => ?_⟩
            refine (hvs w hw hf).imp_left fun hseen => ?_
            rw [List.contains_cons, hseen, Bool.or_true]

theorem violationFrom_none_iff : ∀ {cs : List Constraint} {seen : List ErrorVar},
    violationFrom covers solution seen cs = .ok none ↔
      ∀ c ∈ cs, boundViolation covers solution c = .ok none ∧
        ∀ v ∈ c.vars, v.flexible = true → seen.contains v = true ∨ WithinAlias solution v := by
  intro cs
  induction cs with
  | nil => intro seen; simp [violationFrom, pure, Except.pure]
  | cons c cs ih =>
      intro seen
      have hfresh : (firstMentions seen c.vars).findSome? (aliasViolation solution c) = none ↔
          ∀ v ∈ firstMentions seen c.vars, WithinAlias solution v := by
        rw [List.findSome?_eq_none_iff]
        exact forall₂_congr fun v _ => aliasViolation_eq_none_iff
      rw [violationFrom, List.forall_mem_cons,
        ← forall_firstMentions fun v w => WithinAlias.congr, ← hfresh]
      cases hb : boundViolation covers solution c with
      | error f => simp [bind, Except.bind]
      | ok b =>
          cases b with
          | some d => simp [bind, Except.bind, pure, Except.pure]
          | none =>
              cases hf : (firstMentions seen c.vars).findSome? (aliasViolation solution c) with
              | some d => simp [bind, Except.bind, pure, Except.pure, hf]
              | none =>
                  simp only [bind, Except.bind, hf, ih, and_self, true_and]
                  -- A variable seen at this constraint is within its alias.
                  refine forall₂_congr fun d _ => and_congr_right fun _ =>
                    forall₂_congr fun v _ => forall_congr' fun _ => ?_
                  constructor
                  · rintro (hseen | hin)
                    · rw [List.contains_iff_exists_mem_beq] at hseen
                      obtain ⟨w, hw, hvw⟩ := hseen
                      rcases List.mem_append.1 hw with hw | hw
                      · exact Or.inr (((hfresh.1 hf) w hw).congr (BEq.symm hvw))
                      · exact Or.inl (List.contains_iff_exists_mem_beq.2 ⟨w, hw, hvw⟩)
                    · exact Or.inr hin
                  · rintro (hseen | hin)
                    · obtain ⟨w, hw, hvw⟩ := List.contains_iff_exists_mem_beq.1 hseen
                      exact Or.inl (List.contains_iff_exists_mem_beq.2
                        ⟨w, List.mem_append_right _ hw, hvw⟩)
                    · exact Or.inr hin

/-- The sets pass the checks if they do so constraint by constraint. -/
theorem violation?_none_iff {cs : List Constraint} :
    violation? covers solution cs = .ok none ↔
      ∀ c ∈ cs, boundViolation covers solution c = .ok none ∧
        ∀ v ∈ c.vars, v.flexible = true → WithinAlias solution v := by
  rw [violation?, violationFrom_none_iff]
  simp

end Violation

end Fixpoint

end Fallible
