import Fallible.Proofs.Queries
import Fallible.Proofs.SessionRun
import Fallible.Proofs.Verdicts

/-!
# The traces of a requirement

A requirement compares values first and errors second, and each comparison can
leave something behind. Comparing values may bind a projection. Comparing errors
may add constraints. The verdict on errors and the constraints are computed
apart from each other, but they agree. A verdict that has to wait found an atom
missing, a variable flowing, or `Error` uncovered, and each of these makes a
constraint. A verdict that is known makes none.

So whether a requirement waits can be read off the constraints. And a requirement
that fails changes nothing but this: it is reported, and if its values were
settled by binding a projection before the errors failed, the projection stays
bound. A binding is made on first comparison and never taken back.
-/

namespace Fallible

/-! ## Waiting errors leave constraints -/

/-- Errors that have to wait have something left. -/
theorem View.left_of_pending {above below : Interpretation}
    (h : errorVerdict above below = .pending) :
    below.known.universal = true ∨ (missingOf above.known below.known).isEmpty = false ∨
      ∃ x ∈ below.flexible, above.flexible.contains x = false := by
  by_contra hnone
  rw [not_or, not_or, Bool.not_eq_true, Bool.not_eq_false, isEmpty_missingOf] at hnone
  obtain ⟨hpart, hatoms, hflows⟩ := hnone
  have hholds : errorVerdict above below = .holds := by
    refine (errorVerdict_holds_iff above below).2 (Or.inr ⟨⟨hpart, hatoms⟩, fun x hx => ?_⟩)
    by_contra hout
    exact hflows ⟨x, hx, Bool.not_eq_true _ ▸ hout⟩
  rw [h] at hholds
  cases hholds

/-- Whatever is left makes a demand. -/
theorem Obligation.Demanded.ne_nil {above below : Interpretation} {ds : List Demand}
    (hds : Demanded above below ds) (h : View.errorVerdict above below = .pending) : ds ≠ [] := by
  obtain ⟨hknown, hopen, htargets⟩ := View.errorVerdict_pending h
  rcases View.left_of_pending h with hall | hmissing | ⟨x, hx, hout⟩
  · obtain ⟨t, ht⟩ := absorber?_of_unbounded hall hknown (hopen hall)
    obtain ⟨_, _, _, hmem, _⟩ := hds.all t ht
    exact List.ne_nil_of_mem hmem
  · obtain ⟨a, ha⟩ : ∃ a, (View.missingOf above.known below.known).contains a = true := by
      by_contra hno
      have hempty : (View.missingOf above.known below.known).isEmpty = true :=
        (ErrorSet.isEmpty_iff _).2
          ⟨fun a => Bool.eq_false_iff.2 fun ha => hno ⟨a, ha⟩, rfl⟩
      rw [hmissing] at hempty
      cases hempty
    obtain ⟨_, _, _, _, _, hmem, _⟩ := hds.atoms (htargets hmissing) a ha
    exact List.ne_nil_of_mem hmem
  · rcases hds.flows x hx hout with ⟨_, hmem⟩ | ⟨_, _, hmem⟩
    · exact List.ne_nil_of_mem hmem
    · exact List.ne_nil_of_mem hmem

/-- A comparison of errors that has to wait demands something. -/
theorem Obligation.demands_ne_nil {view : View} {sup sub : Ty} {ds : List Demand}
    (hpending : View.compareErrors view.holds (view.interpret sup) (view.interpret sub) =
      .ok .pending) (hds : demands view sup sub = .ok ds) : ds ≠ [] := by
  obtain ⟨hclash, hverdict⟩ :=
    View.compareErrors_answer (View.distinct_interpretWith view.solution sup) hpending
  refine (demands_spec hds).ne_nil (hverdict fun hc => ?_).symm
  cases hclash hc

/-! ## What a comparison adds -/

/-- A constraint as a comparison leaves it. -/
structure Constraint.LeftAt (location : Location) (c : Constraint) : Prop where
  location : c.location = location
  target : ∀ v, c.target? = some v → v.flexible = true
  source : ∀ v, c.source? = some v → v.flexible = true
  /-- The other variable that a constraint may have is the one that it bounds. -/
  vars : ∀ v ∈ c.vars, v.flexible = true
  /-- The sets list classifiers and rigid variables. -/
  listed : ∀ set ∈ c.errorSets, ∀ e ∈ set.entries, ∀ x, e.1 = .var x → x.flexible = false

theorem Constraint.source_mem_vars {c : Constraint} {v : ErrorVar} (h : c.source? = some v) :
    v ∈ c.vars := by
  obtain ⟨demand, location, reason⟩ := c
  cases demand with
  | subset sub sup known => cases h; exact List.mem_cons_self
  | unionSubset | upperBound | none => cases h

theorem Constraint.Clean.leftAt {c : Constraint} (h : c.Clean) : c.LeftAt c.location where
  location := rfl
  target v hv := h.flexible v (target_mem_vars hv)
  source v hv := h.flexible v (source_mem_vars hv)
  vars := h.flexible
  listed set hset _ he x hx := h.rigid set hset x (hx ▸ ErrorSet.contains_of_mem he)

/-- Whether constraints go with an answer: there are some if the comparison has to wait,
and only then. -/
structure Traced (location : Location) (answer : Except Fault Verdict)
    (added : List Constraint) : Prop where
  waits : answer = .ok .pending ↔ added ≠ []
  leftAt : ∀ c ∈ added, c.LeftAt location

theorem Traced.nothing {location : Location} {answer : Except Fault Verdict}
    (h : answer ≠ .ok .pending) : Traced location answer [] :=
  ⟨iff_of_false h fun hne => hne rfl, fun _ hc => absurd hc List.not_mem_nil⟩

theorem Traced.constraints {view : View} (hview : view.solution = .empty) {sup sub : Ty}
    {location : Location} {made : List Constraint}
    (hpending : View.compareErrors view.holds (view.interpret sup) (view.interpret sub) =
      .ok .pending) (hmade : Obligation.constraints view sup sub location = .ok made) :
    Traced location (.ok .pending) made := by
  obtain ⟨ds, hds, rfl⟩ := Obligation.constraints_ok hmade
  refine ⟨iff_of_true rfl ?_, fun c hc => ?_⟩
  · exact mt List.map_eq_nil_iff.1 (Obligation.demands_ne_nil hpending hds)
  · obtain ⟨d, hd, rfl⟩ := List.mem_map.1 hc
    exact (Obligation.clean_of_demands hview hds hd location _).leftAt

namespace Engine

/-- What a comparison of errors adds. -/
theorem compareErrors_added (order : ValueOrder) (b : Bindings) (cs : List Constraint)
    (sup sub : Ty) (location : Location) :
    ∃ answer added,
      (Engine.mk order .empty (some b) (some cs)).compareErrors sup sub location =
        (answer, ⟨order, .empty, some b, some (cs ++ added)⟩) ∧ Traced location answer added := by
  have hnothing : ∀ answer : Except Fault Verdict, answer ≠ .ok .pending →
      ∃ answer' added, (answer, Engine.mk order .empty (some b) (some cs)) =
        (answer', ⟨order, .empty, some b, some (cs ++ added)⟩) ∧ Traced location answer' added :=
    fun answer h => ⟨answer, [], by rw [List.append_nil], .nothing h⟩
  unfold compareErrors
  split
  · next hpending =>
      rw [if_pos (Option.isSome_some), generate]
      cases hmade : Obligation.constraints _ sup sub location with
      | error f => exact hnothing (.error f) (by simp)
      | ok made => exact ⟨.ok .pending, made, rfl, .constraints rfl hpending hmade⟩
  · next hne => exact hnothing _ hne

end Engine

/-! ## When values bind a projection -/

/-- Which binding a comparison of two values makes. -/
structure View.Binds (v : View) (x y : Ty) (name : String) (t : Ty) : Prop
    extends v.Ties x y name t where
  sound : t.isErroneous = false
  /-- Of two projections the one above is bound. -/
  first : v.follow y = .ok (.valueProj name true) →
    ∀ above, t = .valueProj above true → v.bindings.contains above = true

namespace View

variable {x y t : Ty} {name : String}

/-- A binding is made if the values that are compared come down to it. -/
theorem binds_iff {v : View} : v.Binds x y name t ↔ ∃ above below,
    v.follow x = .ok above ∧ v.follow y = .ok below ∧
      valueStep (fun name => !v.bindings.contains name) above below = .bind name t := by
  simp only [valueStep_eq_bind_iff, Bool.not_eq_true', Bool.not_eq_false']
  constructor
  · rintro ⟨⟨hfree, hother, ⟨hx, hy⟩ | ⟨hy, hx⟩⟩, hsound, hfirst⟩
    · exact ⟨_, _, hx, hy, hfree, hother, hsound, Or.inl ⟨rfl, rfl⟩⟩
    · exact ⟨_, _, hx, hy, hfree, hother, hsound, Or.inr ⟨rfl, rfl, hfirst hy⟩⟩
  · rintro ⟨_, _, hx, hy, hfree, hother, hsound, ⟨rfl, rfl⟩ | ⟨rfl, rfl, hfirst⟩⟩
    · refine ⟨⟨hfree, hother, Or.inl ⟨hx, hy⟩⟩, hsound, fun hname => ?_⟩
      exact absurd (Except.ok.inj (hy.symm.trans hname)) hother
    · exact ⟨⟨hfree, hother, Or.inr ⟨hy, hx⟩⟩, hsound, fun _ => hfirst⟩

end View

/-- What a comparison of two values leaves of the bindings in view. -/
def View.Settles (v : View) (x y : Ty) (b : Bindings) : Prop :=
  (∃ name t, v.Binds x y name t ∧ b = v.bindings.bind name t) ∨
    (∀ name t, ¬ v.Binds x y name t) ∧ b = v.bindings

namespace Engine

/-- A comparison of values makes the binding that there is to make, and no other. -/
theorem compareValues_settles (order : ValueOrder) (sol : Solution) (b : Bindings)
    (obligations : Option (List Constraint)) (x y : Ty) :
    ∃ answer b', (Engine.mk order sol (some b) obligations).compareValues x y =
      (answer, ⟨order, sol, some b', obligations⟩) ∧ (View.mk order sol b).Settles x y b' := by
  have hview : (Engine.mk order sol (some b) obligations).view = View.mk order sol b := rfl
  simp only [View.Settles, View.binds_iff]
  rw [compareValues, hview]
  cases hx : (View.mk order sol b).follow x with
  | error f =>
      refine ⟨_, b, rfl, Or.inr ⟨?_, rfl⟩⟩
      rintro name t ⟨_, _, h, _⟩
      cases h
  | ok above =>
      cases hy : (View.mk order sol b).follow y with
      | error f =>
          refine ⟨_, b, rfl, Or.inr ⟨?_, rfl⟩⟩
          rintro name t ⟨_, _, _, h, _⟩
          cases h
      | ok below =>
          cases hs : View.valueStep (Engine.mk order sol (some b) obligations).isFree
              above below with
          | bind name t =>
              refine ⟨.ok true, b.bind name t, by simp only [hs]; rfl, Or.inl ⟨name, t, ?_, rfl⟩⟩
              exact ⟨above, below, rfl, rfl, hs⟩
          | decided answer =>
              refine ⟨_, b, by simp only [hs]; rfl, Or.inr ⟨?_, rfl⟩⟩
              rintro name t ⟨_, _, ⟨⟩, ⟨⟩, h⟩
              cases hs.symm.trans h
          | constructors c as d bs =>
              refine ⟨_, b, by simp only [hs]; rfl, Or.inr ⟨?_, rfl⟩⟩
              rintro name t ⟨_, _, ⟨⟩, ⟨⟩, h⟩
              cases hs.symm.trans h

/-- All that a comparison leaves behind. -/
theorem check_traced (order : ValueOrder) (b : Bindings) (cs : List Constraint) (sup sub : Ty)
    (location : Location) :
    ∃ answer b' added, (Engine.mk order .empty (some b) (some cs)).check sup sub location =
        (answer, ⟨order, .empty, some b', some (cs ++ added)⟩) ∧ Traced location answer added ∧
      (answer = .ok .fails →
        (View.mk order .empty b).Settles sup.valuePart sub.valuePart b') := by
  unfold check
  split
  · exact ⟨.ok .holds, b, [], by rw [List.append_nil], .nothing (by simp), fun h => by cases h⟩
  · obtain ⟨r, b', hv, hsettles⟩ := compareValues_settles order .empty b (some cs)
      sup.valuePart sub.valuePart
    rw [hv]
    cases r with
    | error f =>
        exact ⟨.error f, b', [], by rw [List.append_nil], .nothing (by simp), fun _ => hsettles⟩
    | ok holds =>
        cases holds with
        | false =>
            exact ⟨.ok .fails, b', [], by rw [List.append_nil], .nothing (by simp),
              fun _ => hsettles⟩
        | true =>
            obtain ⟨answer, added, hc, htraced⟩ :=
              compareErrors_added order b' cs sup sub location
            exact ⟨answer, b', added, hc, htraced, fun _ => hsettles⟩

end Engine

/-! ## What a requirement leaves behind -/

namespace Session

/-- Records the answer to a requirement, if there was one. -/
def note (s : Session) (sup sub : Ty) (location : Location) : Except Fault Verdict → Session
  | .ok verdict => s.record sup sub location verdict
  | .error _ => s

/-- All that a requirement leaves behind. -/
theorem require_traced (s : Session) (sup sub : Ty) (location : Location) :
    ∃ answer b added, s.require sup sub location =
        (answer, note { s with bindings := b, constraints := s.constraints ++ added }
          sup sub location answer) ∧ Traced location answer added ∧
      (answer = .ok .fails → s.engine.view.Settles sup.valuePart sub.valuePart b) := by
  obtain ⟨answer, b, added, hcheck, htraced, hsettles⟩ :=
    Engine.check_traced s.options.order s.bindings s.constraints sup sub location
  rcases s.require_cases sup sub location with ⟨f, hr⟩ | ⟨f, e, hc, hr⟩ | ⟨verdict, e, hc, hr⟩
  · refine ⟨.error f, s.bindings, [], ?_, .nothing (by simp), fun h => by cases h⟩
    rw [hr, note, List.append_nil]
  · cases hc.symm.trans hcheck
    exact ⟨.error f, b, added, hr, htraced, hsettles⟩
  · cases hc.symm.trans hcheck
    exact ⟨.ok verdict, b, added, hr, htraced, hsettles⟩

/-- A requirement waits if it adds constraints, and only then. If it waits it is
remembered, if it fails it is reported, and otherwise it is neither. The constraints
that it adds name where it was made, relate flexible variables, and list none. -/
theorem waits_iff_adds_constraints (s : Session) (sup sub : Ty) (location : Location) :
    ∃ answer s' added, s.require sup sub location = (answer, s') ∧
      s'.constraints = s.constraints ++ added ∧
      (answer = .ok .pending ↔ added ≠ []) ∧
      (answer = .ok .pending → s'.pending = s.pending ++ [⟨sup, sub, location⟩]) ∧
      (answer ≠ .ok .pending → s'.pending = s.pending) ∧
      (answer = .ok .fails →
        s'.diagnostics = s.diagnostics ++ [⟨location, .mismatch sup sub⟩]) ∧
      (answer ≠ .ok .fails → s'.diagnostics = s.diagnostics) ∧
      ∀ c ∈ added, c.LeftAt location := by
  obtain ⟨answer, b, added, hr, htraced, _⟩ := s.require_traced sup sub location
  refine ⟨answer, _, added, hr, ?_, htraced.waits, ?_, ?_, ?_, ?_, htraced.leftAt⟩
  -- What is remembered and what is reported depends on the answer alone.
  all_goals rcases answer with f | (_ | _ | _) <;> simp [note, record, report]

/-! A type variable takes a number that may come with an error. -/

def lapse : Classifier := ⟨0, [], "A", [], some 0⟩

def lapsing : Ty := .union [.con (.host .int) [], .errorConst lapse []]

def untaken : Session := ((Session.new .default (.holding 0 [lapse])).freshTyVar "T").2

theorem waits_for_lapsing :
    ∃ s', untaken.require (.var "T$0" true) lapsing .unknown = (.ok .pending, s') ∧
      s'.constraints ≠ [] ∧ (∀ c ∈ s'.constraints, c.LeftAt .unknown) ∧
      s'.pending = [⟨.var "T$0" true, lapsing, .unknown⟩] ∧ s'.diagnostics = [] := by
  obtain ⟨answer, s', added, hr, hadds, hwaits, hpending, -, -, hsilent, hleft⟩ :=
    waits_iff_adds_constraints untaken (.var "T$0" true) lapsing .unknown
  have hanswer : answer = .ok .pending := (congrArg Prod.fst hr).symm
  subst hanswer
  have hconstraints : s'.constraints = added := hadds
  rw [← hconstraints] at hwaits hleft
  exact ⟨s', hr, hwaits.1 rfl, hleft, hpending rfl, hsilent (by simp)⟩

/-- A requirement that fails is reported, and changes nothing else but the bindings. Those
stay as they are, unless comparing the values bound a projection before the errors failed:
then this binding is added. -/
theorem failing_keeps_all_but_binding {s s' : Session} {sup sub : Ty} {location : Location}
    (h : s.require sup sub location = (.ok .fails, s')) :
    s' = { s with
      bindings := s'.bindings
      diagnostics := s.diagnostics ++ [⟨location, .mismatch sup sub⟩] } ∧
    ((∀ name t, ¬ s.engine.view.Binds sup.valuePart sub.valuePart name t) ∧
        s'.bindings = s.bindings ∨
      ∃ name t, s.engine.view.Binds sup.valuePart sub.valuePart name t ∧
        s'.bindings = ⟨⟨s.bindings.table.entries ++ [(name, t)]⟩⟩) := by
  obtain ⟨answer, b, added, hr, htraced, hsettles⟩ := s.require_traced sup sub location
  cases hr.symm.trans h
  have hnone : added = [] := by
    by_contra hadded
    cases htraced.waits.2 hadded
  subst hnone
  refine ⟨by simp [note, record, report], ?_⟩
  rcases hsettles rfl with ⟨name, t, hbinds, rfl⟩ | ⟨hno, rfl⟩
  · refine Or.inr ⟨name, t, hbinds, congrArg Bindings.mk ?_⟩
    exact Table.insert_of_not_contains t hbinds.free
  · exact Or.inl ⟨hno, rfl⟩

theorem failing_keeps_all_but_binding_lapsing :
    ∃ s', untaken.require (.valueProj "T$0" true) lapsing .unknown = (.ok .fails, s') ∧
      s'.diagnostics = [⟨.unknown, .mismatch (.valueProj "T$0" true) lapsing⟩] ∧
      s'.issued = untaken.issued ∧ s'.constraints = [] ∧
      ∃ name t, untaken.engine.view.Binds (.valueProj "T$0" true) (.con (.host .int) []) name t ∧
        s'.bindings = ⟨⟨[(name, t)]⟩⟩ := by
  obtain ⟨s', h⟩ :
      ∃ s', untaken.require (.valueProj "T$0" true) lapsing .unknown = (.ok .fails, s') := ⟨_, rfl⟩
  obtain ⟨hs', ⟨-, hsame⟩ | hbinds⟩ := failing_keeps_all_but_binding h
  · cases h
    cases hsame
  · have hissued : s'.issued = untaken.issued := by rw [hs']
    exact ⟨s', h, congrArg diagnostics hs', hissued, congrArg constraints hs', hbinds⟩

/-- The values agreed, by a binding, and then the errors failed. -/
theorem failing_may_bind :
    untaken.status = .active ∧
    ∃ s', untaken.require (.valueProj "T$0" true) lapsing .unknown = (.ok .fails, s') ∧
      s'.bindings ≠ untaken.bindings := by
  refine ⟨rfl, _, rfl, fun h => ?_⟩
  cases h

end Session

end Fallible
