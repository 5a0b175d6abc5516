import Fallible.Grammar
import Fallible.Proofs.Binding
import Fallible.Proofs.Outcome
import Fallible.Proofs.WellFormed

/-!
# What one requirement leaves behind

A comparison in an open session may bind one projection and add constraints.
The binding is one that bindings may grow by, and the constraints are plain. If
the answer is not that it fails, then the values cover once bindings are
followed, and either the errors cover as they are, or what they lack is among
the constraints. That is as much as can be said while nothing is solved, it
stays true while the session goes on, and with a solution of the constraints it
becomes the comparison itself.
-/

namespace Fallible

/-! ## Types that a session is asked about -/

/-- A type as a session may be asked about it: well formed, without arguments of
classifiers, and with known variables only, of which those that stand for values
are not inside arguments. -/
structure Ty.Admissible (known : ErrorVar → Prop) (t : Ty) : Prop where
  wellFormed : Grammar.violation? t = none
  free : t.payloadFree = true
  known : t.Known known
  args : ∀ a ∈ t.arguments, a.projections = []

instance (known : ErrorVar → Prop) [DecidablePred known] (t : Ty) :
    Decidable (t.Admissible known) :=
  decidable_of_iff ((Grammar.violation? t).isNone = true ∧ t.payloadFree = true ∧
      (∀ v ∈ t.mentions, v.flexible = true → known v) ∧ ∀ a ∈ t.arguments, a.projections = [])
    ⟨fun h => ⟨Option.isNone_iff_eq_none.1 h.1, h.2.1, h.2.2.1, h.2.2.2⟩,
      fun h => ⟨Option.isNone_iff_eq_none.2 h.wellFormed, h.free, h.known, h.args⟩⟩

namespace Ty.Admissible

variable {known : ErrorVar → Prop} {t : Ty}

theorem sole (h : t.Admissible known) : t.constituents.countP isValue ≤ 1 :=
  (Grammar.violation?_eq_none_iff.1 h.wellFormed).countP_isValue_le

theorem within (h : t.Admissible known) : t.Within (Known known) := by
  refine ⟨h.free, fun x hx v hv => h.known v ?_⟩
  rcases unknown_cases hx with ⟨name, flexible, rfl⟩ | ⟨w, rfl⟩ | ⟨name, flexible, rfl⟩
  · exact absurd hv List.not_mem_nil
  · obtain rfl := List.mem_singleton.1 hv
    exact mem_mentions_iff.2 (Or.inl hx)
  · exact mem_mentions_iff.2 (Or.inr ⟨name, flexible, hx, List.mem_singleton.1 hv⟩)

/-- The value part of an admissible type may be bound. -/
theorem stem (h : t.Admissible known) (hf : t.failed = false) :
    Bindings.Stem known t.valuePart := by
  rw [valuePart_of_not_failed hf]
  cases hm : t.constituents.find? isValue with
  | none => exact .nothing
  | some m =>
      have hmem := List.mem_of_find?_eq_some hm
      have hvalue := List.find?_some hm
      have hwithin := h.within.constituent stable_known hmem
      show Bindings.Stem known m
      cases m with
      | value => exact .value
      | valueProj name flexible => exact .proj name flexible
      | con c args =>
          refine .con c fun a ha => ⟨(hwithin.arg ha).free, fun x hx => ⟨?_, ?_⟩⟩
          · have hflat : a.projections = [] :=
              h.args a (arguments_of_mem hmem (List.mem_append_left _ ha))
            refine List.eq_nil_iff_forall_not_mem.2 fun name hn => ?_
            have hin := projections_of_mem_unknowns hx hn
            rw [hflat] at hin
            exact absurd hin List.not_mem_nil
          · exact (hwithin.arg ha).unknowns x hx
      | _ => cases hvalue

end Ty.Admissible

/-! ## Constraints that a comparison adds -/

/-- While nothing is solved, the variables that a type is known to raise are
rigid. -/
theorem View.rigid_interpretWith (t : Ty) : (interpretWith .empty t).known.Rigid := by
  intro x hx
  rw [contains_interpretWith, List.any_eq_true] at hx
  obtain ⟨m, _, hm⟩ := hx
  cases m with
  | errorVar y =>
      cases hy : y.flexible with
      | false =>
          rw [Ty.yields, hy, if_neg Bool.false_ne_true] at hm
          rw [← ErrorVar.flexible_congr (v := y) (w := x) hm, hy]
      | true =>
          rw [Ty.yields, hy, if_pos rfl] at hm
          cases hm
  | _ => cases hm

theorem Obligation.clean_of_demands {view : View} (hview : view.solution = .empty)
    {sup sub : Ty} {ds : List Demand} (h : demands view sup sub = .ok ds) {d : Demand}
    (hd : d ∈ ds) (location : Location) (reason : String) :
    (Constraint.mk d location reason).Clean := by
  have hinterpret : ∀ t, view.interpret t = View.interpretWith .empty t := by
    intro t
    rw [← hview]
    rfl
  have hflex : ∀ {t : Ty} {v : ErrorVar}, v ∈ (view.interpret t).flexible →
      v.flexible = true := by
    intro t v hv
    rw [hinterpret] at hv
    exact (View.mem_flexible_interpretWith.1 hv).2.1
  have hrigid : ∀ t, (view.interpret t).known.Rigid := by
    intro t
    rw [hinterpret]
    exact View.rigid_interpretWith t
  -- All three kinds of demand name what the upper type is known to raise.
  have hknown : ∀ set ∈ [(view.interpret sup).known], set.Rigid := by
    intro set hset
    rw [List.mem_singleton.1 hset]
    exact hrigid sup
  rcases (demands_spec h).only d hd with
    ⟨t, ht, u, required, hut, rfl, hatoms, _⟩ | ⟨v, hv, _, rfl⟩ | ⟨v, hv, t, ht, rfl⟩
  · refine ⟨fun w hw => ?_, fun set hset => ?_⟩
    · rw [List.mem_singleton.1 hw, ErrorVar.flexible_congr hut]
      exact hflex ht
    · rcases List.mem_pair.1 hset with rfl | rfl
      · exact hrigid sup
      · exact fun x hx => hrigid sub x (hatoms _ hx)
  · refine ⟨fun w hw => ?_, hknown⟩
    rw [List.mem_singleton.1 hw]
    exact hflex hv
  · refine ⟨fun w hw => ?_, hknown⟩
    rcases List.mem_pair.1 hw with rfl | rfl
    · exact hflex hv
    · exact hflex ht

theorem Obligation.plain_of_demands {view : View} (hview : view.solution = .empty)
    {sup sub : Ty} (hsup : sup.payloadFree = true) (hsub : sub.payloadFree = true)
    {ds : List Demand} (h : demands view sup sub = .ok ds) {d : Demand} (hd : d ∈ ds)
    (location : Location) (reason : String) : (Constraint.mk d location reason).Plain := by
  have hclean := clean_of_demands hview h hd location reason
  have hfree : ∀ {t : Ty}, t.payloadFree = true → (view.interpret t).known.PayloadFree := by
    intro t ht
    unfold View.interpret
    rw [hview]
    exact View.payloadFree_interpretWith Solution.payloadFree_empty ht
  exact ⟨hclean.flexible, each_of_demands (P := fun _ args => args = []) (fun _ h => h) (hfree hsup)
    (hfree hsub) h hd, hclean.rigid⟩

/-! ## Requirements that are met -/

/-- Whether the errors cover, or what they lack is among the constraints. -/
def ErrorsMet (cs : List Constraint) (sup sub : Ty) : Prop :=
  ErrorsCover .empty sup sub ∨
    View.errorVerdict (View.interpretWith .empty sup) (View.interpretWith .empty sub) =
        .pending ∧
      ∃ ds, Obligation.Demanded (View.interpretWith .empty sup)
          (View.interpretWith .empty sub) ds ∧ ∀ d ∈ ds, ∃ c ∈ cs, c.demand = d

/-- Whether a requirement is met as far as an open session can tell. -/
def Met (b : Bindings) (cs : List Constraint) (sup sub : Ty) : Prop :=
  sup.failed = true ∨ sub.failed = true ∨
    ValuesCover b sup.valuePart sub.valuePart ∧ ErrorsMet cs sup sub

section Met

variable {known : ErrorVar → Prop} {b b' : Bindings} {cs cs' : List Constraint} {sup sub : Ty}

/-- What is met stays met. -/
theorem Met.step (hb : b.Grown known) (hsup : sup.Admissible known)
    (hsub : sub.Admissible known) (hstep : b.Step known b') (hcs : ∀ c ∈ cs, c ∈ cs')
    (h : Met b cs sup sub) : Met b' cs' sup sub := by
  refine Ty.failed_or_imp h fun hfsup hfsub ⟨hvalues, herrors⟩ => ⟨?_, herrors.imp_right ?_⟩
  · exact hvalues.step hb hstep (hsup.stem hfsup) (hsub.stem hfsub)
  · rintro ⟨hpend, ds, hds, hin⟩
    refine ⟨hpend, ds, hds, fun d hd => ?_⟩
    obtain ⟨c, hc, hcd⟩ := hin d hd
    exact ⟨c, hcs c hc, hcd⟩

/-- What is met is true under a solution of the constraints. -/
theorem Met.solved {s : Solution} (hsup : sup.Admissible known) (hsub : sub.Admissible known)
    (hknown : ∀ v, known v → s.contains v = true) (hcs : ∀ c ∈ cs, c.demand.HoldsIn s)
    (h : Met b cs sup sub) :
    sup.failed = true ∨ sub.failed = true ∨
      ValuesCover b sup.valuePart sub.valuePart ∧ ErrorsCover s sup sub := by
  refine h.imp_right (Or.imp_right (And.imp_right ?_))
  rintro (herrors | ⟨hpend, ds, hds, hin⟩)
  · exact herrors.solved s
  · refine errorsCover_of_demanded
      (View.payloadFree_interpretWith Solution.payloadFree_empty hsup.free) hds hpend ?_ ?_
    · intro x hx
      obtain ⟨hmem, hflex, _⟩ := View.mem_flexible_interpretWith.1 hx
      have hwithin := hsub.within.constituent Ty.stable_known (List.mem_filter.1 hmem).1
      exact hknown x (hwithin.unknowns _ List.mem_cons_self x List.mem_cons_self hflex)
    · intro d hd
      obtain ⟨c, hc, rfl⟩ := hin d hd
      exact hcs c hc

/-- Whether constraints are those that were there before and plain ones. -/
structure Added (before cs : List Constraint) : Prop where
  kept : ∀ c ∈ before, c ∈ cs
  plain : ∀ c ∈ cs, c ∈ before ∨ c.Plain

theorem Added.refl (cs : List Constraint) : Added cs cs := ⟨fun _ hc => hc, fun _ hc => Or.inl hc⟩

section Engine

variable {location : Location} {r : Except Fault Verdict} {e : Engine}

theorem Engine.compareErrors_grown (hsup : sup.payloadFree = true)
    (hsub : sub.payloadFree = true)
    (h : (Engine.mk .classes .empty (some b) (some cs)).compareErrors sup sub location =
      (r, e)) :
    ∃ cs', e = Engine.mk .classes .empty (some b) (some cs') ∧ Added cs cs' ∧
      ((∃ f, r = .error f) ∨ r = .ok .fails ∨ ErrorsMet cs' sup sub) := by
  unfold Engine.compareErrors at h
  rw [Engine.view_compareErrors _ Solution.payloadFree_empty hsup] at h
  cases hverdict : View.errorVerdict (View.interpretWith .empty sup)
      (View.interpretWith .empty sub) with
  | holds =>
      rw [hverdict] at h
      obtain ⟨rfl, rfl⟩ := Prod.ext_iff.1 h
      exact ⟨cs, rfl, .refl cs, Or.inr (Or.inr (Or.inl hverdict))⟩
  | fails =>
      rw [hverdict] at h
      obtain ⟨rfl, rfl⟩ := Prod.ext_iff.1 h
      exact ⟨cs, rfl, .refl cs, Or.inr (Or.inl rfl)⟩
  | pending =>
      rw [hverdict] at h
      simp only [Option.isSome_some, if_true] at h
      unfold Engine.generate at h
      cases hmade : Obligation.constraints (Engine.mk .classes .empty (some b) (some cs)).view
          sup sub location with
      | error f =>
          rw [hmade] at h
          obtain ⟨rfl, rfl⟩ := Prod.ext_iff.1 h
          exact ⟨cs, rfl, .refl cs, Or.inl ⟨f, rfl⟩⟩
      | ok made =>
          rw [hmade] at h
          obtain ⟨rfl, rfl⟩ := Prod.ext_iff.1 h
          obtain ⟨ds, hds, rfl⟩ := Obligation.constraints_ok hmade
          have hspec := Obligation.demands_spec hds
          refine ⟨_, rfl, ⟨fun _ hc => List.mem_append_left _ hc, fun c hc => ?_⟩,
            Or.inr (Or.inr (Or.inr ⟨hverdict, ds, hspec, ?_⟩))⟩
          · rcases List.mem_append.1 hc with hc | hc
            · exact Or.inl hc
            · obtain ⟨d, hd, rfl⟩ := List.mem_map.1 hc
              exact Or.inr (Obligation.plain_of_demands rfl hsup hsub hds hd _ _)
          · exact fun d hd =>
              ⟨_, List.mem_append_right _ (List.mem_map_of_mem hd), rfl⟩

/-- A comparison adds to what is bound and to the constraints. Unless it fails
or breaks off, it is met afterwards. -/
theorem Engine.check_grown (hb : b.Grown known) (hsup : sup.Admissible known)
    (hsub : sub.Admissible known)
    (h : (Engine.mk .classes .empty (some b) (some cs)).check sup sub location = (r, e)) :
    ∃ b' cs', e = Engine.mk .classes .empty (some b') (some cs') ∧ b.Step known b' ∧
      Added cs cs' ∧ ((∃ f, r = .error f) ∨ r = .ok .fails ∨ Met b' cs' sup sub) := by
  unfold Engine.check at h
  cases hf : sup.failed || sub.failed with
  | true =>
      rw [hf, if_pos rfl] at h
      obtain ⟨rfl, rfl⟩ := Prod.ext_iff.1 h
      refine ⟨b, cs, rfl, Or.inl rfl, .refl cs, Or.inr (Or.inr ?_)⟩
      rcases Bool.or_eq_true _ _ ▸ hf with hf | hf
      · exact Or.inl hf
      · exact Or.inr (Or.inl hf)
  | false =>
      rw [hf, if_neg Bool.false_ne_true] at h
      rw [Bool.or_eq_false_iff] at hf
      cases hv : (Engine.mk .classes .empty (some b) (some cs)).compareValues
          sup.valuePart sub.valuePart with
      | mk answer e₁ =>
          obtain ⟨b', rfl, hstep, hcover⟩ :=
            Engine.compareValues_grown hb (hsup.stem hf.1) (hsub.stem hf.2) hv
          rw [hv] at h
          match answer, hcover with
          | .ok true, hcover =>
              obtain ⟨cs', rfl, hadded, hmet⟩ :=
                Engine.compareErrors_grown hsup.free hsub.free h
              refine ⟨b', cs', rfl, hstep, hadded, hmet.imp_right (Or.imp_right ?_)⟩
              exact fun herrors => Or.inr (Or.inr ⟨hcover rfl, herrors⟩)
          | .ok false, _ =>
              obtain ⟨rfl, rfl⟩ := Prod.ext_iff.1 h
              exact ⟨b', cs, rfl, hstep, .refl cs, Or.inr (Or.inl rfl)⟩
          | .error f, _ =>
              obtain ⟨rfl, rfl⟩ := Prod.ext_iff.1 h
              exact ⟨b', cs, rfl, hstep, .refl cs, Or.inl ⟨f, rfl⟩⟩

end Engine

end Met

end Fallible
