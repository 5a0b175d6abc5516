import Fallible.Obligation
import Fallible.Proofs.Arguments

/-!
# What a comparison demands

A comparison that has to wait leaves constraints behind. The verdict and the
constraints are computed separately, both from what the two types are known to
hold. This module says what the constraints are, as a set: every atom that is
missing is required of some variable of the upper type, `Error` is required of
one without a bound, and every variable that only the lower type has flows into
one of the upper type's, or is bounded where there are none. Nothing else is
demanded.
-/

namespace Fallible

namespace Obligation

/-! ## Routing -/

theorem route_mem {a : Atom} {targets : List ErrorVar} {t : ErrorVar}
    (h : route a targets = .ok t) : t ∈ targets := by
  unfold route at h
  split at h
  · next u hu => cases h; exact List.mem_of_find?_eq_some hu
  · split at h
    · next u hu => cases h; exact List.mem_of_find?_eq_some hu
    · split at h
      · cases h; exact List.mem_cons_self ..
      · cases h

/-- Whether an atom is on its way to a variable. -/
def Routed (r : Routing) (t : ErrorVar) (a : Atom) : Prop :=
  ∃ atoms, r.get? t = some atoms ∧ atoms.contains a = true

theorem routed_insert (r : Routing) (t u : ErrorVar) (a b : Atom) (args : List Ty) :
    Routed (r.insert t (((r.get? t).getD .empty).insert a args)) u b ↔
      Routed r u b ∨ (t == u) = true ∧ (a == b) = true := by
  unfold Routed
  rw [Table.get?_insert]
  cases htu : t == u with
  | false => simp
  | true =>
      rw [if_pos rfl, ← Table.get?_congr r htu]
      simp only [Option.some.injEq, exists_eq_left', Table.contains_insert, Bool.or_eq_true,
        true_and]
      cases hr : r.get? t with
      | none =>
          simp only [Option.getD_none, reduceCtorEq, false_and, exists_false, false_or]
          exact or_iff_left (by simp [Table.contains_empty])
      | some atoms =>
          simp only [Option.getD_some, Option.some.injEq, exists_eq_left']
          exact or_comm

theorem route_of_ne_nil {targets : List ErrorVar} (h : targets ≠ []) (a : Atom) :
    ∃ t, route a targets = .ok t := by
  cases targets with
  | nil => exact absurd rfl h
  | cons t rest =>
      unfold route
      split
      · exact ⟨_, rfl⟩
      · split <;> exact ⟨_, rfl⟩

/-- Whether an atom is one of those listed and a variable is where it is sent. -/
def Sent (targets : List ErrorVar) (es : List (Atom × List Ty)) (t : ErrorVar) (a : Atom) : Prop :=
  ∃ e ∈ es, (e.1 == a) = true ∧ ∃ u, route e.1 targets = .ok u ∧ (u == t) = true

theorem sent_cons {targets : List ErrorVar} {e : Atom × List Ty} {es : List (Atom × List Ty)}
    {t u : ErrorVar} {a : Atom} (ht : route e.1 targets = .ok t) :
    Sent targets (e :: es) u a ↔ ((t == u) = true ∧ (e.1 == a) = true) ∨ Sent targets es u a := by
  constructor
  · rintro ⟨d, hd, hda, w, hw, hwu⟩
    rcases List.mem_cons.1 hd with rfl | hd
    · cases ht.symm.trans hw
      exact Or.inl ⟨hwu, hda⟩
    · exact Or.inr ⟨d, hd, hda, w, hw, hwu⟩
  · rintro (⟨htu, hea⟩ | ⟨d, hd, hda, w, hw, hwu⟩)
    · exact ⟨e, List.mem_cons_self, hea, t, ht, htu⟩
    · exact ⟨d, List.mem_cons_of_mem _ hd, hda, w, hw, hwu⟩

theorem mem_keys_placed {r : Routing} {t : ErrorVar} {atom a : Atom} {args : List Ty}
    {d : ErrorVar × Instantiations}
    (hd : d ∈ (r.insert t (((r.get? t).getD .empty).insert atom args)).entries)
    (ha : a ∈ d.2.keys) : (∃ d' ∈ r.entries, a ∈ d'.2.keys) ∨ atom = a := by
  rcases Table.mem_insert hd with ⟨-, hnew⟩ | hold
  · rw [hnew] at ha
    rcases Table.mem_keys_insert ha with rfl | ha
    · exact Or.inr rfl
    · cases hget : r.get? t with
      | none => rw [hget] at ha; exact absurd ha List.not_mem_nil
      | some old =>
          rw [hget] at ha
          obtain ⟨k, hk, -⟩ := Table.mem_of_get? hget
          exact Or.inl ⟨(k, old), hk, ha⟩
  · exact Or.inl ⟨d, hold, ha⟩

/-- What routing does with a list of atoms. -/
theorem routeAll_spec {targets : List ErrorVar} :
    ∀ {es : List (Atom × List Ty)} {r r' : Routing}, routeAll targets es r = .ok r' →
      (r.Distinct → r'.Distinct) ∧
      (∀ t ∈ r'.keys, t ∈ r.keys ∨ t ∈ targets) ∧
      (∀ d ∈ r'.entries, ∀ a ∈ d.2.keys, (∃ d' ∈ r.entries, a ∈ d'.2.keys) ∨ ∃ e ∈ es, e.1 = a) ∧
      ∀ t a, Routed r' t a ↔ Routed r t a ∨ Sent targets es t a := by
  intro es
  induction es with
  | nil =>
      intro r r' h
      cases h
      refine ⟨id, fun t => Or.inl, fun d hd a ha => Or.inl ⟨d, hd, ha⟩,
        fun t a => (or_iff_left ?_).symm⟩
      rintro ⟨e, he, -⟩
      cases he
  | cons e rest ih =>
      intro r r' h
      obtain ⟨atom, args⟩ := e
      rw [routeAll] at h
      cases ht : route atom targets with
      | error f => rw [ht] at h; cases h
      | ok t =>
          rw [ht] at h
          obtain ⟨hdis, hkeys, hatoms, hrouted⟩ := ih h
          refine ⟨fun hr => hdis (hr.insert ..), fun u hu => ?_, fun d hd a ha => ?_, fun u a => ?_⟩
          · rcases hkeys u hu with hu | hu
            · rcases Table.mem_keys_insert hu with rfl | hu
              · exact Or.inr (route_mem ht)
              · exact Or.inl hu
            · exact Or.inr hu
          · rcases hatoms d hd a ha with ⟨d', hd', ha'⟩ | ⟨e, he, hea⟩
            · exact (mem_keys_placed hd' ha').imp_right fun h => ⟨_, List.mem_cons_self, h⟩
            · exact Or.inr ⟨e, List.mem_cons_of_mem _ he, hea⟩
          · rw [hrouted, routed_insert, sent_cons ht, or_assoc]

/-! ## What is demanded -/

/-- What the demands of a comparison are. -/
structure Demanded (above below : Interpretation) (ds : List Demand) : Prop where
  /-- A missing atom is required of some variable. -/
  atoms : above.flexible ≠ [] → ∀ a,
    (View.missingOf above.known below.known).contains a = true →
    ∃ t ∈ above.flexible, ∃ u required, (u == t) = true ∧
      .unionSubset u above.known required ∈ ds ∧ required.contains a = true
  /-- `Error` is required of some variable. -/
  all : ∀ t, absorber? above below = some t → ∃ u required, (u == t) = true ∧
    .unionSubset u above.known required ∈ ds ∧ required.universal = true
  /-- A variable of the lower type flows somewhere or is bounded. -/
  flows : ∀ v ∈ below.flexible, above.flexible.contains v = false →
    above.flexible = [] ∧ .upperBound v above.known ∈ ds ∨
      ∃ t ∈ above.flexible, .subset v t above.known ∈ ds
  /-- That is all. -/
  only : ∀ d ∈ ds,
    (∃ t ∈ above.flexible, ∃ u required, (u == t) = true ∧
      d = .unionSubset u above.known required ∧
      (∀ a, required.contains a = true → below.known.contains a = true) ∧
      (required.universal = true → below.known.universal = true)) ∨
    (∃ v ∈ below.flexible, above.flexible = [] ∧ d = .upperBound v above.known) ∨
    ∃ v ∈ below.flexible, ∃ t ∈ above.flexible, d = .subset v t above.known

theorem absorber?_some {above below : Interpretation} {t : ErrorVar}
    (h : absorber? above below = some t) :
    below.known.universal = true ∧ t ∈ above.flexible := by
  unfold absorber? at h
  split at h
  · next hu =>
      rw [Bool.and_eq_true] at hu
      exact ⟨hu.1, List.mem_of_find?_eq_some h⟩
  · cases h

theorem absorber?_of_unbounded {above below : Interpretation}
    (hb : below.known.universal = true) (ha : above.known.universal = false)
    (h : above.flexible.any (fun x => x.bound.isUnbounded) = true) :
    ∃ t, absorber? above below = some t := by
  unfold absorber?
  rw [hb, ha]
  obtain ⟨t, ht, hbound⟩ := List.any_eq_true.1 h
  cases hfind : above.flexible.find? fun t => t.bound.isUnbounded with
  | some u => exact ⟨u, rfl⟩
  | none => exact absurd hbound (List.find?_eq_none.1 hfind t ht)

/-- The routing of the missing atoms, before `Error` gets its place. -/
def routing (above : Interpretation) (missing : ErrorSet) : Except Fault Routing :=
  if above.flexible.isEmpty then .ok .empty
  else routeAll above.flexible missing.entries .empty

/-- The routing with a place for the variable that receives `Error`. -/
def withPlace (absorber : Option ErrorVar) (r : Routing) : Routing :=
  match absorber with
  | some t => r.insertNew t .empty
  | none => r

theorem received_eq (above : Interpretation) (absorber : Option ErrorVar)
    (missing : ErrorSet) :
    received above absorber missing =
      routing above missing >>= fun r =>
        .ok ((withPlace absorber r).entries.map fun e => .unionSubset e.1 above.known
          (.ofTable e.2 (absorber.any fun t => e.1 == t))) := by
  unfold received routing
  cases above.flexible.isEmpty <;> rfl

/-- What a table of routes says about the atoms that were to be sent. -/
structure Routes (targets : List ErrorVar) (es : List (Atom × List Ty)) (r : Routing) : Prop where
  distinct : r.Distinct
  keys : ∀ t ∈ r.keys, t ∈ targets
  atoms : ∀ d ∈ r.entries, ∀ a ∈ d.2.keys, ∃ e ∈ es, e.1 = a
  sent : ∀ t a, Routed r t a ↔ Sent targets es t a

theorem routing_spec {above : Interpretation} {missing : ErrorSet} {r : Routing}
    (h : routing above missing = .ok r) : Routes above.flexible missing.entries r := by
  have hnone : ∀ t a, ¬ Routed .empty t a := by
    rintro t a ⟨atoms, hget, -⟩
    cases hget
  unfold routing at h
  split at h
  · next hempty =>
      cases h
      refine ⟨Table.distinct_empty, fun t ht => absurd ht List.not_mem_nil,
        fun d hd => absurd hd List.not_mem_nil, fun t a => iff_of_false (hnone t a) ?_⟩
      · rintro ⟨e, -, -, u, hu, -⟩
        have hmem := route_mem hu
        rw [List.isEmpty_iff.1 hempty] at hmem
        cases hmem
  · obtain ⟨hdis, hkeys, hatoms, hrouted⟩ := routeAll_spec h
    refine ⟨hdis Table.distinct_empty, fun t ht => ?_, fun d hd a ha => ?_, fun t a => ?_⟩
    · exact (hkeys t ht).resolve_left List.not_mem_nil
    · refine (hatoms d hd a ha).resolve_left ?_
      rintro ⟨d', hd', -⟩
      cases hd'
    · rw [hrouted]
      exact or_iff_right (hnone t a)

/-- What is to be received, as a table from variables to atoms. -/
theorem received_spec {above below : Interpretation} {missing : ErrorSet} {ds : List Demand}
    (h : received above (absorber? above below) missing = .ok ds) :
    ∃ r, Routes above.flexible missing.entries r ∧
      (∀ t, absorber? above below = some t → r.contains t = true) ∧
      ds = r.entries.map fun e => .unionSubset e.1 above.known
        (.ofTable e.2 ((absorber? above below).any fun t => e.1 == t)) := by
  rw [received_eq] at h
  cases hr : routing above missing with
  | error f => rw [hr] at h; cases h
  | ok r =>
  have hroutes := routing_spec hr
  rw [hr] at h
  cases habs : absorber? above below with
  | none =>
      rw [habs] at h
      cases h
      exact ⟨r, hroutes, fun t ht => absurd ht (by simp), rfl⟩
  | some t =>
      rw [habs] at h
      cases h
      have hrouted : ∀ u a, Routed (r.insertNew t .empty) u a ↔ Routed r u a := by
        intro u a
        unfold Routed
        rw [Table.get?_insertNew]
        split
        · next hnew =>
            rw [Bool.and_eq_true, Bool.not_eq_true'] at hnew
            rw [← Table.get?_congr r hnew.2, Table.get?_eq_none.2 hnew.1]
            simp [Table.contains_empty]
        · rfl
      refine ⟨r.insertNew t .empty, ⟨hroutes.distinct.insertNew t .empty, fun u hu => ?_,
        fun d hd a ha => ?_, fun u a => (hrouted u a).trans (hroutes.sent u a)⟩, ?_, rfl⟩
      · obtain ⟨e, he, rfl⟩ := List.mem_map.1 hu
        rcases Table.mem_insertNew he with he | rfl
        · exact hroutes.keys e.1 (List.mem_map_of_mem he)
        · exact (absorber?_some habs).2
      · rcases Table.mem_insertNew hd with hd | rfl
        · exact hroutes.atoms d hd a ha
        · cases ha
      · intro u hu
        cases hu
        rw [Table.contains_insertNew, BEq.rfl, Bool.true_or]

theorem flow_spec {above : Interpretation} {v : ErrorVar} {d : Demand}
    (h : flow above v = .ok d) :
    (above.flexible = [] ∧ d = .upperBound v above.known) ∨
      ∃ t ∈ above.flexible, d = .subset v t above.known := by
  unfold flow at h
  split at h
  · next hempty => cases h; exact Or.inl ⟨List.isEmpty_iff.1 hempty, rfl⟩
  · cases ht : route (.var v) above.flexible with
    | error f => rw [ht] at h; cases h
    | ok t => rw [ht] at h; cases h; exact Or.inr ⟨t, route_mem ht, rfl⟩

/-- Each variable that is not above has its demand, and there are no other demands. -/
theorem mem_flows {above : Interpretation} {vs : List ErrorVar} {ds : List Demand}
    (h : flows above vs = .ok ds) :
    (∀ v ∈ vs, above.flexible.contains v = false → ∃ d ∈ ds, flow above v = .ok d) ∧
      ∀ d ∈ ds, ∃ v ∈ vs, flow above v = .ok d := by
  induction vs generalizing ds with
  | nil =>
      cases h
      exact ⟨fun v hv => absurd hv List.not_mem_nil, fun d hd => absurd hd List.not_mem_nil⟩
  | cons v vs ih =>
      rw [flows] at h
      split at h
      · next hin =>
          obtain ⟨hall, honly⟩ := ih h
          refine ⟨fun w hw hout => ?_, fun d hd => ?_⟩
          · rcases List.mem_cons.1 hw with rfl | hw
            · rw [hin] at hout; cases hout
            · exact hall w hw hout
          · obtain ⟨w, hw, hflow⟩ := honly d hd
            exact ⟨w, List.mem_cons_of_mem _ hw, hflow⟩
      · -- The demand for the first variable, then those for the rest.
        cases hf : flow above v with
        | error f => rw [hf] at h; cases h
        | ok d =>
            rw [hf] at h
            cases hr : flows above vs with
            | error f => rw [hr] at h; cases h
            | ok rest =>
                rw [hr] at h
                cases h
                obtain ⟨hall, honly⟩ := ih hr
                refine ⟨fun w hw hout => ?_, fun e he => ?_⟩
                · rcases List.mem_cons.1 hw with rfl | hw
                  · exact ⟨d, List.mem_cons_self .., hf⟩
                  · obtain ⟨e, he, hflow⟩ := hall w hw hout
                    exact ⟨e, List.mem_cons_of_mem _ he, hflow⟩
                · rcases List.mem_cons.1 he with rfl | he
                  · exact ⟨v, List.mem_cons_self .., hf⟩
                  · obtain ⟨w, hw, hflow⟩ := honly e he
                    exact ⟨w, List.mem_cons_of_mem _ hw, hflow⟩

theorem flows_spec {above : Interpretation} {vs : List ErrorVar} {ds : List Demand}
    (h : flows above vs = .ok ds) :
    (∀ v ∈ vs, above.flexible.contains v = false →
      above.flexible = [] ∧ .upperBound v above.known ∈ ds ∨
        ∃ t ∈ above.flexible, .subset v t above.known ∈ ds) ∧
    ∀ d ∈ ds, (∃ v ∈ vs, above.flexible = [] ∧ d = .upperBound v above.known) ∨
      ∃ v ∈ vs, ∃ t ∈ above.flexible, d = .subset v t above.known := by
  obtain ⟨hall, honly⟩ := mem_flows h
  refine ⟨fun v hv hout => ?_, fun d hd => ?_⟩
  · obtain ⟨d, hd, hflow⟩ := hall v hv hout
    rcases flow_spec hflow with ⟨hnil, rfl⟩ | ⟨t, ht, rfl⟩
    · exact Or.inl ⟨hnil, hd⟩
    · exact Or.inr ⟨t, ht, hd⟩
  · obtain ⟨v, hv, hflow⟩ := honly d hd
    rcases flow_spec hflow with ⟨hnil, hd⟩ | ⟨t, ht, hd⟩
    · exact Or.inl ⟨v, hv, hnil, hd⟩
    · exact Or.inr ⟨v, hv, t, ht, hd⟩

/-- The demands are what is received and what flows. -/
theorem demands_ok {view : View} {sup sub : Ty} {ds : List Demand}
    (h : demands view sup sub = .ok ds) :
    ∃ rs fs, received (view.interpret sup) (absorber? (view.interpret sup) (view.interpret sub))
        (View.missingOf (view.interpret sup).known (view.interpret sub).known) = .ok rs ∧
      flows (view.interpret sup) (view.interpret sub).flexible = .ok fs ∧ ds = rs ++ fs := by
  unfold demands at h
  simp only [] at h
  generalize view.interpret sup = above at *
  generalize view.interpret sub = below at *
  cases hres : view.residual above.known below.known with
  | error f => rw [hres] at h; cases h
  | ok residual =>
      rw [hres] at h
      simp only [bind, Except.bind, (View.residualWith_ok hres).1] at h
      cases hrec : received above (absorber? above below)
          (View.missingOf above.known below.known) with
      | error f => rw [hrec] at h; cases h
      | ok rs =>
          rw [hrec] at h
          cases hflow : flows above below.flexible with
          | error f => rw [hflow] at h; cases h
          | ok fs => rw [hflow] at h; cases h; exact ⟨rs, fs, rfl, rfl, rfl⟩

/-- The demands of a comparison, all of them. -/
theorem demands_spec {view : View} {sup sub : Ty} {ds : List Demand}
    (h : demands view sup sub = .ok ds) :
    Demanded (view.interpret sup) (view.interpret sub) ds := by
  obtain ⟨rs, fs, hrec, hflow, rfl⟩ := demands_ok h
  obtain ⟨r, hroutes, habs, rfl⟩ := received_spec hrec
  obtain ⟨hflows, hflowsOnly⟩ := flows_spec hflow
  refine ⟨fun hne a ha => ?_, fun t ht => ?_, fun v hv hout => ?_, fun d hd => ?_⟩
  · obtain ⟨e, he, hea⟩ := ErrorSet.contains_iff.1 ha
    obtain ⟨t, ht⟩ := route_of_ne_nil hne e.1
    obtain ⟨atoms, hget, hin⟩ := (hroutes.sent t a).2 ⟨e, he, hea, t, ht, BEq.rfl⟩
    obtain ⟨u, hu, hut⟩ := Table.mem_of_get? hget
    refine ⟨t, route_mem ht, u, _, hut, List.mem_append_left _ (List.mem_map.2 ⟨_, hu, rfl⟩), ?_⟩
    rw [ErrorSet.contains_ofTable]
    exact hin
  · obtain ⟨atoms, hget⟩ := Table.get?_of_contains (habs t ht)
    obtain ⟨u, hu, hut⟩ := Table.mem_of_get? hget
    refine ⟨u, _, hut, List.mem_append_left _ (List.mem_map.2 ⟨_, hu, rfl⟩), ?_⟩
    rw [ht]
    exact hut
  · rcases hflows v hv hout with ⟨hnil, hmem⟩ | ⟨t, ht, hmem⟩
    · exact Or.inl ⟨hnil, List.mem_append_right _ hmem⟩
    · exact Or.inr ⟨t, ht, List.mem_append_right _ hmem⟩
  · rcases List.mem_append.1 hd with hd | hd
    · obtain ⟨e, he, rfl⟩ := List.mem_map.1 hd
      have hget := hroutes.distinct.get?_of_mem he
      have hmem := hroutes.keys e.1 (List.mem_map_of_mem he)
      refine Or.inl ⟨e.1, hmem, e.1, _, BEq.rfl, rfl, fun a ha => ?_, fun hu => ?_⟩
      · rw [ErrorSet.contains_ofTable] at ha
        obtain ⟨d, hd, hda, -⟩ := (hroutes.sent e.1 a).1 ⟨e.2, hget, ha⟩
        have hmiss := ErrorSet.contains_iff.2 ⟨d, hd, hda⟩
        rw [View.contains_missingOf, Bool.and_eq_true] at hmiss
        exact hmiss.1
      · obtain ⟨t, ht, _⟩ := (Option.any_eq_true _ _).1 hu
        exact (absorber?_some ht).1
    · exact Or.inr (hflowsOnly d hd)

theorem constraints_ok {view : View} {sup sub : Ty} {location : Location}
    {made : List Constraint} (h : constraints view sup sub location = .ok made) :
    ∃ ds, demands view sup sub = .ok ds ∧
      made = ds.map fun d => ⟨d, location, reason sup sub⟩ := by
  unfold constraints at h
  cases hds : demands view sup sub with
  | error f => rw [hds] at h; cases h
  | ok ds =>
      rw [hds] at h
      exact ⟨ds, rfl, (Except.ok.inj h).symm⟩

/-! ## What demanded sets have in common -/

section Each

variable {P : Atom → List Ty → Prop}
  (hP : ∀ {a b : Atom} {args : List Ty}, (a == b) = true → P a args → P b args)

include hP

/-- What is true of the missing atoms and their arguments is true of what is routed. -/
theorem routeAll_each {targets : List ErrorVar} :
    ∀ {es : List (Atom × List Ty)} {r r' : Routing}, routeAll targets es r = .ok r' →
      (∀ e ∈ es, P e.1 e.2) → (∀ d ∈ r.entries, ∀ e ∈ d.2.entries, P e.1 e.2) →
      ∀ d ∈ r'.entries, ∀ e ∈ d.2.entries, P e.1 e.2 := by
  intro es
  induction es with
  | nil => intro r r' h _ hr; cases h; exact hr
  | cons e rest ih =>
      intro r r' h hes hr
      obtain ⟨atom, args⟩ := e
      rw [routeAll] at h
      cases ht : route atom targets with
      | error f => rw [ht] at h; cases h
      | ok t =>
          rw [ht] at h
          refine ih h (fun e he => hes e (List.mem_cons_of_mem _ he)) fun d hd e he => ?_
          rcases Table.mem_insert hd with ⟨_, hd⟩ | hd
          · rw [hd] at he
            rcases Table.mem_insert he with ⟨hatom, hargs⟩ | he
            · rw [hargs]; exact hP (BEq.symm hatom) (hes _ List.mem_cons_self)
            · cases hg : r.get? t with
              | none => rw [hg] at he; exact absurd he List.not_mem_nil
              | some old =>
                  rw [hg] at he
                  obtain ⟨k, hk, _⟩ := Table.mem_of_get? hg
                  exact hr _ hk e he
          · exact hr d hd e he

theorem each_missingOf {sup sub : ErrorSet} (h : ∀ e ∈ sub.entries, P e.1 e.2) :
    ∀ e ∈ (View.missingOf sup sub).entries, P e.1 e.2 := fun e he =>
  Table.each_insertAll (P := P) hP (fun _ hx => absurd hx List.not_mem_nil)
    (fun x hx => h x (List.mem_filter.1 hx).1) e (ErrorSet.mem_entries_ofEntries.1 he)

theorem received_each {above : Interpretation} {absorber : Option ErrorVar} {missing : ErrorSet}
    (hmissing : ∀ e ∈ missing.entries, P e.1 e.2) {ds : List Demand}
    (h : received above absorber missing = .ok ds) :
    ∀ v known required, .unionSubset v known required ∈ ds → ∀ e ∈ required.entries, P e.1 e.2 := by
  rw [received_eq] at h
  cases hr : routing above missing with
  | error f => rw [hr] at h; cases h
  | ok r =>
      rw [hr] at h
      cases h
      have hrouted : ∀ d ∈ r.entries, ∀ e ∈ d.2.entries, P e.1 e.2 := by
        unfold routing at hr
        split at hr
        · cases hr; exact fun _ hd => absurd hd List.not_mem_nil
        · exact routeAll_each (P := P) hP hr hmissing fun _ hd => absurd hd List.not_mem_nil
      have hplaced : ∀ d ∈ (withPlace absorber r).entries, ∀ e ∈ d.2.entries, P e.1 e.2 := by
        unfold withPlace
        split
        · intro d hd e he
          rcases Table.mem_insertNew hd with hd | rfl
          · exact hrouted d hd e he
          · exact absurd he List.not_mem_nil
        · exact hrouted
      intro v known required hmem
      obtain ⟨d, hd, he⟩ := List.mem_map.1 hmem
      cases he
      exact fun e he => hplaced d hd e (ErrorSet.mem_entries_ofEntries.1 he)

/-- What is true of the errors that two types are known to have, atom by atom, is
true of the sets in the demands of their comparison. -/
theorem each_of_demands {view : View} {sup sub : Ty} {ds : List Demand}
    (hsup : ∀ e ∈ (view.interpret sup).known.entries, P e.1 e.2)
    (hsub : ∀ e ∈ (view.interpret sub).known.entries, P e.1 e.2)
    (h : demands view sup sub = .ok ds) {c : Constraint} (hc : c.demand ∈ ds) :
    ∀ set ∈ c.errorSets, ∀ e ∈ set.entries, P e.1 e.2 := by
  obtain ⟨d, location, reason⟩ := c
  have hknown : ∀ set ∈ [(view.interpret sup).known], ∀ e ∈ set.entries, P e.1 e.2 := by
    intro set hset
    rw [List.mem_singleton.1 hset]
    exact hsup
  obtain ⟨rs, fs, hrec, hflow, rfl⟩ := demands_ok h
  rcases (demands_spec h).only d hc with
    ⟨t, _, u, required, _, rfl, _, _⟩ | ⟨v, _, _, rfl⟩ | ⟨v, _, t, _, rfl⟩
  · intro set hset
    rcases List.mem_cons.1 hset with rfl | hset
    · exact hsup
    · rw [List.mem_singleton.1 hset]
      rcases List.mem_append.1 hc with hc | hc
      · exact received_each (P := P) hP (each_missingOf (P := P) hP hsub) hrec _ _ _ hc
      · rcases (flows_spec hflow).2 _ hc with ⟨_, _, _, he⟩ | ⟨_, _, _, _, he⟩ <;> cases he
  · exact hknown
  · exact hknown

end Each

end Obligation

end Fallible
