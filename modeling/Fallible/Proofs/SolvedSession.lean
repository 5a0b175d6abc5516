import Fallible.Proofs.Interchange
import Fallible.Proofs.Queries
import Fallible.Proofs.SessionSoundness

/-!
# What solving leaves behind

Nothing is asked here of the types that a session compares: they may have
arguments, and unions that break the grammar. Then little is known of the
bindings and constraints of a session, but it is enough for what types resolve
to. Bound types mention no error variables that the compared types did not.
Constraints name flexible variables, and their sets hold rigid ones only. So
solving gives sets to flexible variables only, and the sets hold rigid ones,
arguments apart; and every variable that was handed out has a set, or is
poisoned.
-/

namespace Fallible

/-! ## What writing out keeps -/

theorem Ty.known_iff {known : ErrorVar → Prop} {t : Ty} :
    t.Known known ↔ ∀ x ∈ t.unknowns, x.Known known := by
  refine ⟨fun h x hx v hv => h v (mentions_of_mem_unknowns hx hv), fun h v hv hflex => ?_⟩
  rcases mem_mentions_iff.1 hv with hx | ⟨name, flexible, hx, rfl⟩
  · exact h _ hx v List.mem_cons_self hflex
  · exact h _ hx _ List.mem_cons_self hflex

theorem Ty.Known.valuePart {known : ErrorVar → Prop} {t : Ty} (h : t.Known known) :
    t.valuePart.Known known := by
  rcases t.valuePart_mem with hv | hv
  · rw [hv]
    exact fun _ hx => absurd hx List.not_mem_nil
  · exact fun v hx => h v (mentions_of_mem_constituents hv hx)

namespace Bindings

theorem eq_graft_of_unfoldWith {image : String → Option (Except Fault Ty)} {t u : Ty}
    (h : unfoldWith image t = .ok u) : u = t.graft (leafOf image) := by
  rw [unfoldWith_eq_graft (unfoldWith_ok_iff.1 ⟨u, h⟩)] at h
  exact (Except.ok.inj h).symm

section Keeps

variable {b : Bindings} {P : Ty → Prop}
  (hP : ∀ {image : String → Option (Except Fault Ty)} {t u : Ty},
    (∀ n u, image n = some (.ok u) → P u) → P t → unfoldWith image t = .ok u → P u)
  (hb : ∀ n t, b.table.get? n = some t → P t)

include hP hb

theorem imageWithin_keeps (k : Nat) :
    ∀ (n : String) (u : Ty), b.imageWithin k n = some (.ok u) → P u := by
  induction k with
  | zero =>
      intro n u h
      rw [imageWithin] at h
      cases hg : b.table.get? n <;> rw [hg] at h <;> cases h
  | succ k ih =>
      intro n u h
      rw [imageWithin] at h
      cases hg : b.table.get? n with
      | none => rw [hg] at h; cases h
      | some t =>
          rw [hg, Option.map_some, Option.some.injEq] at h
          exact hP ih (hb n t hg) h

/-- What holds of bound types holds of what is written out, if it is kept where
projections are replaced once. -/
theorem apply_keeps {t u : Ty} (ht : P t) (h : b.apply t = .ok u) : P u :=
  hP (imageWithin_keeps hP hb _) ht h

theorem follow_keeps {order : ValueOrder} {s : Solution} {t u : Ty} (ht : P t)
    (h : (View.mk order s b).follow t = .ok u) : P u := by
  unfold View.follow at h
  split at h
  · exact apply_keeps hP hb ht h
  · cases h
    exact ht

end Keeps

variable {image : String → Option (Except Fault Ty)} {t u : Ty}

theorem known_unfoldWith {known : ErrorVar → Prop}
    (himage : ∀ n u, image n = some (.ok u) → u.Known known) (ht : t.Known known)
    (h : unfoldWith image t = .ok u) : u.Known known := by
  rw [eq_graft_of_unfoldWith h, Ty.known_iff]
  refine Ty.stable_known.graft fun y hy => ?_
  have hself := Ty.known_iff.1 ht y hy
  rcases Ty.unknown_cases hy with ⟨name, flexible, rfl⟩ | ⟨v, rfl⟩ | ⟨name, flexible, rfl⟩
  · cases flexible with
    | false => exact Ty.known_iff.1 hself
    | true =>
        refine Ty.known_iff.1 ?_
        rw [Ty.graft, leafOf]
        split
        · next u hu => exact himage name u hu
        · exact hself
  · exact Ty.known_iff.1 hself
  · exact Ty.known_iff.1 hself

theorem valueOnly_unfoldWith (himage : ∀ n u, image n = some (.ok u) → u.ValueOnly)
    (ht : t.ValueOnly) (h : unfoldWith image t = .ok u) : u.ValueOnly := by
  rw [eq_graft_of_unfoldWith h]
  rcases ht with rfl | hvalue
  · exact Or.inl rfl
  · cases t with
    | value | con => exact Or.inr rfl
    | valueProj name flexible =>
        cases flexible with
        | false => exact Or.inr rfl
        | true =>
            rw [Ty.graft, leafOf]
            split
            · next u hu => exact himage name u hu
            · exact Or.inr rfl
    | _ => cases hvalue

end Bindings

/-! ## Constraints that comparisons make -/

/-- Whether a constraint is one that comparing two types may add. -/
def Obligation.Arises (sup sub : Ty) (c : Constraint) : Prop :=
  ∃ view ds, view.solution = .empty ∧ demands view sup sub = .ok ds ∧ c.demand ∈ ds

theorem Obligation.Arises.clean {sup sub : Ty} {c : Constraint} (h : Arises sup sub c) :
    c.Clean := by
  obtain ⟨view, ds, hview, hds, hc⟩ := h
  exact clean_of_demands hview hds hc c.location c.reason

namespace Engine

theorem compareValues_obligations (e : Engine) (x y : Ty) :
    (e.compareValues x y).2.solution = e.solution ∧
      (e.compareValues x y).2.obligations = e.obligations := by
  unfold compareValues
  split
  · split
    · exact ⟨rfl, rfl⟩
    · exact ⟨rfl, rfl⟩
    · exact ⟨rfl, rfl⟩
  · exact ⟨rfl, rfl⟩
  · exact ⟨rfl, rfl⟩

variable {e : Engine} {cs : List Constraint}

theorem compareErrors_obligations (hs : e.solution = .empty) (ho : e.obligations = some cs)
    (sup sub : Ty) (location : Location) :
    ∃ cs', (e.compareErrors sup sub location).2.obligations = some cs' ∧
      ∀ c ∈ cs', c ∈ cs ∨ Obligation.Arises sup sub c := by
  unfold compareErrors
  split
  · split
    · unfold generate
      cases hmade : Obligation.constraints e.view sup sub location with
      | error f => exact ⟨cs, ho, fun _ => Or.inl⟩
      | ok made =>
          obtain ⟨ds, hds, rfl⟩ := Obligation.constraints_ok hmade
          refine ⟨_, by unfold oblige; rw [ho]; rfl, fun c hc => ?_⟩
          rcases List.mem_append.1 hc with hc | hc
          · exact Or.inl hc
          · obtain ⟨d, hd, rfl⟩ := List.mem_map.1 hc
            exact Or.inr ⟨e.view, ds, hs, hds, hd⟩
    · exact ⟨cs, ho, fun _ => Or.inl⟩
  · exact ⟨cs, ho, fun _ => Or.inl⟩

theorem check_obligations (hs : e.solution = .empty) (ho : e.obligations = some cs)
    (sup sub : Ty) (location : Location) :
    ∃ cs', (e.check sup sub location).2.obligations = some cs' ∧
      ∀ c ∈ cs', c ∈ cs ∨ Obligation.Arises sup sub c := by
  have hvalues := e.compareValues_obligations sup.valuePart sub.valuePart
  unfold check
  split
  · exact ⟨cs, ho, fun _ => Or.inl⟩
  · cases hv : e.compareValues sup.valuePart sub.valuePart with
    | mk r e₁ =>
        rw [hv] at hvalues
        have ho₁ : e₁.obligations = some cs := hvalues.2.trans ho
        cases r with
        | error f => exact ⟨cs, ho₁, fun _ => Or.inl⟩
        | ok answer =>
            cases answer with
            | false => exact ⟨cs, ho₁, fun _ => Or.inl⟩
            | true => exact compareErrors_obligations (hvalues.1.trans hs) ho₁ sup sub location

end Engine

/-- All that a requirement can do to a session. -/
theorem Session.require_leaves (s : Session) (sup sub : Ty) (location : Location) :
    ∃ b cs ds ps, (s.require sup sub location).2 =
        { s with bindings := b, constraints := cs, diagnostics := ds, pending := ps } ∧
      (View.mk s.options.order .empty s.bindings).Leaves sup sub b ∧
      ∀ c ∈ cs, c ∈ s.constraints ∨ Obligation.Arises sup sub c := by
  obtain ⟨b, made, he, hleaves⟩ := Engine.check_leaves s.options.order .empty s.bindings
    (some s.constraints) sup sub location
  obtain ⟨cs, hcs, hmade⟩ := Engine.check_obligations (e := s.engine) rfl rfl sup sub location
  have hengine : (s.engine.check sup sub location).2 = ⟨s.options.order, .empty, some b, made⟩ := he
  have htraces : s.withTraces (s.engine.check sup sub location).2 =
      { s with bindings := b, constraints := cs } := by
    rw [hengine] at hcs ⊢
    have hmade : made = some cs := hcs
    rw [hmade]
    rfl
  rcases s.require_cases sup sub location with ⟨f, hr⟩ | ⟨f, e, hc, hr⟩ | ⟨verdict, e, hc, hr⟩
  · rw [hr]
    exact ⟨_, _, _, _, rfl, Or.inl rfl, fun _ => Or.inl⟩
  · rw [hc] at htraces
    rw [hr, htraces]
    exact ⟨_, _, _, _, rfl, hleaves, hmade⟩
  · rw [hc] at htraces
    rw [hr, htraces]
    cases verdict with
    | holds | fails | pending => exact ⟨_, _, _, _, rfl, hleaves, hmade⟩

/-- What holds of bound types, and of the value parts of two types, holds of bound types
after the two were compared. -/
theorem View.Leaves.keeps {order : ValueOrder} {s : Solution} {b b' : Bindings} {sup sub : Ty}
    (h : (View.mk order s b).Leaves sup sub b') {P : Ty → Prop}
    (hP : ∀ {image : String → Option (Except Fault Ty)} {t u : Ty},
      (∀ n u, image n = some (.ok u) → P u) → P t → Bindings.unfoldWith image t = .ok u → P u)
    (hb : ∀ n t, b.table.get? n = some t → P t) (hsup : sup.failed = false → P sup.valuePart)
    (hsub : sub.failed = false → P sub.valuePart) :
    ∀ n t, b'.table.get? n = some t → P t := by
  intro n t ht
  rcases h with rfl | ⟨hf, name, u, htie, rfl⟩
  · exact hb n t ht
  · rw [Bool.or_eq_false_iff] at hf
    rw [Bindings.get?_bind] at ht
    split at ht
    · cases ht
      rcases htie.sides with ⟨_, ht⟩ | ⟨_, ht⟩
      · exact Bindings.follow_keeps hP hb (hsub hf.2) ht
      · exact Bindings.follow_keeps hP hb (hsup hf.1) ht
    · exact hb n t ht

/-! ## Tidy sessions -/

namespace Session

/-- What is true of every open session, if the types that it compares mention known
error variables. -/
structure Tidy (known : ErrorVar → Prop) (s : Session) : Prop where
  poisoned : s.poisoned = []
  issued : ∀ v ∈ s.issued, v.flexible = true
  bound : ∀ n t, s.bindings.table.get? n = some t → t.Known known
  values : s.bindings.ValuesOnly
  clean : ∀ c ∈ s.constraints, c.Clean

namespace Tidy

variable {known : ErrorVar → Prop} {s s' : Session}

theorem new (options : Options) (registry : Registry) :
    Tidy known (Session.new options registry) where
  poisoned := rfl
  issued _ hv := absurd hv List.not_mem_nil
  bound _ _ h := by cases h
  values _ _ h := by cases h
  clean _ hc := absurd hc List.not_mem_nil

theorem quiet (hs : Tidy known s) (h : Quiet s s') : Tidy known s' where
  poisoned := by rw [h.poisoned]; exact hs.poisoned
  issued v hv := by
    rcases h.issued v hv with hv | hv
    · exact hs.issued v hv
    · exact hv
  bound := by rw [h.bindings]; exact hs.bound
  values := by rw [h.bindings]; exact hs.values
  clean := by rw [h.constraints]; exact hs.clean

theorem require (hs : Tidy known s) {sup sub : Ty} (hsup : sup.Known known)
    (hsub : sub.Known known) {location : Location} {answer : Except Fault Verdict}
    (h : s.require sup sub location = (answer, s')) : Tidy known s' := by
  obtain ⟨b, cs, ds, ps, hr, hleaves, hmade⟩ := s.require_leaves sup sub location
  rw [h] at hr
  change s' = _ at hr
  rw [hr]
  refine ⟨hs.poisoned, hs.issued, ?_, ?_, fun c hc => ?_⟩
  · exact hleaves.keeps Bindings.known_unfoldWith hs.bound (fun _ => hsup.valuePart)
      fun _ => hsub.valuePart
  · exact hleaves.keeps Bindings.valueOnly_unfoldWith hs.values Ty.valueOnly_valuePart
      Ty.valueOnly_valuePart
  · rcases hmade c hc with hc | hc
    · exact hs.clean c hc
    · exact hc.clean

/-- Every run whose types mention known variables is tidy. -/
theorem run (hs : Tidy known s) (ops : List Op)
    (hknown : ∀ r ∈ s.allRequests ops, r.sup.Known known ∧ r.sub.Known known) :
    Tidy known (s.run ops) := by
  have hkeeps : Keeps (fun r => r.sup.Known known ∧ r.sub.Known known) fun s _ => Tidy known s :=
    ⟨fun hs h => hs.quiet h, fun hs hr h => hs.require hr.1 hr.2 h⟩
  exact @Keeps.run _ _ hkeeps ops s [] hs hknown

end Tidy

/-! ## Solving -/

/-- What a session is like once it is solved. -/
structure Concluded (s : Session) (solution : Solution) (s' : Session) : Prop where
  bindings : s'.bindings = s.bindings
  closed : s'.solution = some solution
  clean : solution.Clean
  distinct : solution.sets.Distinct
  poisoned : ∀ v ∈ s'.poisoned, v.flexible = true
  settled : ∀ v, s.issued.contains v = true →
    solution.contains v = true ∨ s'.poisoned.contains v = true

/-- A session that is closed has sets for the variables that it handed out, unless
they are poisoned. -/
theorem Tidy.close {known : ErrorVar → Prop} {s : Session} (hs : Tidy known s)
    {outcome : Fixpoint.Outcome} (ho : s.outcome = .ok outcome) :
    ∃ solution, Concluded s solution (s.close outcome) := by
  unfold Session.close
  cases hv : outcome.violation with
  | none =>
      have hsuccess : outcome.success = true := by rw [Fixpoint.Outcome.success, hv]; rfl
      obtain ⟨policy, hby⟩ := solveBy_of_outcome ho
      obtain ⟨hclean, hdistinct⟩ := Fixpoint.clean_of_solveBy hs.clean hby hsuccess
      refine ⟨_, rfl, rfl, hclean.extend hdistinct s.issued hs.issued,
        (Table.distinct_ofList _).insertAll _, fun v hv => ?_,
        fun v hv => Or.inl (Solution.contains_extend s.issued hv)⟩
      rw [hs.poisoned] at hv
      cases hv
  | some d =>
      refine ⟨_, rfl, rfl, ⟨fun _ _ h => (by cases h), fun _ h => (by cases h)⟩,
        Table.distinct_empty, fun v hv => ?_, fun v hv => Or.inr ?_⟩
      · rw [hs.poisoned, List.nil_append] at hv
        rcases List.mem_append.1 hv with hv | hv
        · exact hs.issued v hv
        · exact (List.mem_filter.1 hv).2
      · rw [List.contains_eq_any_beq, List.any_append, flexibleVariables, List.any_append,
          ← List.contains_eq_any_beq (l := s.issued), hv, Bool.true_or, Bool.or_true]

/-- Solving concludes a session with the solution that it reports. -/
theorem Tidy.solve {known : ErrorVar → Prop} {s s' : Session} (hs : Tidy known s)
    {report : SessionReport} (h : s.solve = (.ok report, s')) :
    Concluded s report.solution s' := by
  obtain ⟨outcome, ho, hquiet, _, hsolution⟩ := solve_ok h
  obtain ⟨solution, hclose⟩ := hs.close ho
  rw [hsolution, hquiet.solution, hclose.closed, Option.getD_some]
  exact ⟨hquiet.bindings.trans hclose.bindings, hquiet.solution.trans hclose.closed, hclose.clean,
    hclose.distinct, hquiet.poisoned ▸ hclose.poisoned, hquiet.poisoned ▸ hclose.settled⟩

/-- Nothing is poisoned where the constraints have a solution. -/
theorem Tidy.poisoned_solve {known : ErrorVar → Prop} {s s' : Session} (hs : Tidy known s)
    {outcome : Fixpoint.Outcome} (ho : s.outcome = .ok outcome) (hok : outcome.success = true)
    {report : SessionReport} (h : s.solve = (.ok report, s')) : s'.poisoned = [] := by
  obtain ⟨outcome', ho', hquiet, _⟩ := solve_ok h
  cases ho'.symm.trans ho
  rw [hquiet.poisoned, Session.close, Option.isNone_iff_eq_none.1 hok]
  exact hs.poisoned

end Session

end Fallible
