import Fallible.Fixpoint.Validation
import Fallible.Proofs.Obligations
import Fallible.Subtyping.Engine

/-!
# The constraints of a comparison mean the comparison

From the list of what a comparison demands two things follow. A solution that
meets the demands makes the errors included, whatever the routing was. And where
the upper type has but one variable to route to, the demands are no more than
the inclusion itself, so a solution under which the comparison holds meets them.
With several variables that fails, because an atom may have been routed to one
and be found in another; and it fails where an alias covers an atom that is not
listed.
-/

namespace Fallible

/-! ## What a solution has to do -/

/-- Whether a set has everything that is required, except what is known. -/
def ErrorSet.Supplies (set known required : ErrorSet) : Prop :=
  known.universal = true ∨ set.universal = true ∨
    required.universal = false ∧
      ∀ a, required.contains a = true → known.contains a = true ∨ set.contains a = true

/-- Whether a solution meets a demand. -/
def Demand.HoldsIn (s : Solution) : Demand → Prop
  | .subset sub sup known => (s.getD sup).Supplies known (Fixpoint.finalSet s sub)
  | .unionSubset v known required => (s.getD v).Supplies known required
  | .upperBound v bound =>
      (View.plain .classes).covers bound (Fixpoint.finalSet s v) = .ok true
  | .none => True

/-! ## What the demands mean -/

/-- What it takes for a comparison of errors to wait. -/
theorem View.errorVerdict_pending {above below : Interpretation}
    (h : errorVerdict above below = .pending) :
    above.known.universal = false ∧
      (below.known.universal = true →
        above.flexible.any (fun x => x.bound.isUnbounded) = true) ∧
      ((missingOf above.known below.known).isEmpty = false → above.flexible ≠ []) := by
  unfold errorVerdict at h
  split at h
  · cases h
  · next hu =>
      refine ⟨by simpa using hu, ?_⟩
      split at h
      · cases h
      · next hall =>
          refine ⟨fun hb => ?_, fun hm hnil => ?_⟩
          · rw [hb, Bool.true_and, Bool.not_eq_true', Bool.not_eq_false] at hall
            exact hall
          · rw [hm, hnil] at h
            simp at h

theorem Fixpoint.finalSet_of_flexible {s : Solution} {v : ErrorVar} (h : v.flexible = true) :
    finalSet s v = s.getD v := by
  unfold finalSet
  rw [h]
  rfl

/-- What a variable of a type holds, the type holds. -/
theorem View.contains_of_mem_flexible {s : Solution} {t : Ty} {x : ErrorVar}
    (hx : x ∈ (interpretWith .empty t).flexible) :
    (∀ a, (s.getD x).contains a = true → (interpretWith s t).known.contains a = true) ∧
      ((s.getD x).universal = true → (interpretWith s t).known.universal = true) := by
  unfold Solution.getD
  cases hget : s.get? x with
  | none => exact ⟨fun a ha => Bool.noConfusion ha, fun hu => Bool.noConfusion hu⟩
  | some set =>
      refine ⟨fun a ha => ?_, fun hu => ?_⟩
      · rw [contains_interpretWith_solved, Bool.or_eq_true]
        exact Or.inr (List.any_eq_true.2 ⟨x, hx, by rw [hget]; exact ha⟩)
      · rw [universal_interpretWith_solved, Bool.or_eq_true]
        exact Or.inr (List.any_eq_true.2 ⟨x, hx, by rw [hget]; exact hu⟩)

theorem View.contains_solved {s : Solution} {t : Ty} {a : Atom}
    (h : (interpretWith .empty t).known.contains a = true) :
    (interpretWith s t).known.contains a = true := by
  rw [contains_interpretWith_solved, h, Bool.true_or]

section Meaning

variable {s : Solution} {sup sub : Ty} {ds : List Demand}

/-- What is required of a variable of the upper type ends up in the upper type,
unless that holds everything. -/
theorem supplied (hknown : (View.interpretWith .empty sup).known.universal = false)
    (hall : (View.interpretWith s sup).known.universal = false) {t u : ErrorVar}
    {required : ErrorSet} (ht : t ∈ (View.interpretWith .empty sup).flexible)
    (hut : (u == t) = true)
    (hsup : (s.getD u).Supplies (View.interpretWith .empty sup).known required) :
    required.universal = false ∧ ∀ a, required.contains a = true →
      (View.interpretWith s sup).known.contains a = true := by
  rw [s.getD_congr hut] at hsup
  obtain ⟨hatoms, huniv⟩ := View.contains_of_mem_flexible (s := s) ht
  rcases hsup with h | h | ⟨hreq, hsup⟩
  · rw [hknown] at h; cases h
  · rw [huniv h] at hall; cases hall
  · refine ⟨hreq, fun a ha => ?_⟩
    rcases hsup a ha with ha | ha
    · exact View.contains_solved ha
    · exact hatoms a ha

/-- What a variable of the lower type holds is covered by the upper type, unless
that holds everything. -/
theorem flowing_covered (hfree : (View.interpretWith .empty sup).known.PayloadFree)
    (hknown : (View.interpretWith .empty sup).known.universal = false)
    (hall : (View.interpretWith s sup).known.universal = false)
    (hd : Obligation.Demanded (View.interpretWith .empty sup)
      (View.interpretWith .empty sub) ds)
    (hin : ∀ d ∈ ds, d.HoldsIn s) {x : ErrorVar}
    (hx : x ∈ (View.interpretWith .empty sub).flexible) :
    (s.getD x).universal = false ∧ ∀ a, (s.getD x).contains a = true →
      View.leaves (View.interpretWith s sup).known a = false := by
  have hflex := (View.mem_flexible_interpretWith.1 hx).2.1
  cases hc : (View.interpretWith .empty sup).flexible.contains x with
  | true =>
      obtain ⟨y, hy, hxy⟩ := List.contains_iff_exists_mem_beq.1 hc
      obtain ⟨hatoms, huniv⟩ := View.contains_of_mem_flexible (s := s) hy
      rw [s.getD_congr hxy]
      refine ⟨Bool.eq_false_iff.2 fun hu => ?_, fun a ha => ?_⟩
      · rw [huniv hu] at hall; cases hall
      · exact View.leaves_eq_false.2 (Or.inl (hatoms a ha))
  | false =>
      rcases hd.flows x hx hc with ⟨_, hmem⟩ | ⟨t, ht, hmem⟩
      · have hcov := hin _ hmem
        rw [Demand.HoldsIn, Fixpoint.finalSet_of_flexible hflex] at hcov
        rcases (View.coversWith_iff_includes _ hfree _).2.1 hcov with h | ⟨hnot, hatoms⟩
        · rw [hknown] at h; cases h
        · exact ⟨hnot, fun a ha => View.leaves_mono (fun _ => View.contains_solved)
            (hatoms a ha)⟩
      · have hsub := hin _ hmem
        rw [Demand.HoldsIn, Fixpoint.finalSet_of_flexible hflex] at hsub
        obtain ⟨hnot, hatoms⟩ := supplied hknown hall ht BEq.rfl hsub
        exact ⟨hnot, fun a ha => View.leaves_eq_false.2 (Or.inl (hatoms a ha))⟩

/-- A solution that meets the demands of a comparison makes the errors included. -/
theorem errorsCover_of_demanded
    (hfree : (View.interpretWith .empty sup).known.PayloadFree)
    (hd : Obligation.Demanded (View.interpretWith .empty sup)
      (View.interpretWith .empty sub) ds)
    (hpend : View.errorVerdict (View.interpretWith .empty sup)
      (View.interpretWith .empty sub) = .pending)
    (hsolved : ∀ x ∈ (View.interpretWith .empty sub).flexible, s.contains x = true)
    (hin : ∀ d ∈ ds, d.HoldsIn s) : ErrorsCover s sup sub := by
  obtain ⟨hknown, hunbounded, hsomewhere⟩ := View.errorVerdict_pending hpend
  unfold ErrorsCover
  rw [View.errorVerdict_holds_iff]
  cases hall : (View.interpretWith s sup).known.universal with
  | true => exact Or.inl rfl
  | false =>
  refine Or.inr ⟨⟨?_, fun a ha => ?_⟩, fun x hx => ?_⟩
  · rw [View.universal_interpretWith_solved, Bool.or_eq_false_iff]
    refine ⟨Bool.eq_false_iff.2 fun hb => ?_, List.any_eq_false.2 fun x hx => ?_⟩
    · -- `Error` has been required of a variable of the upper type.
      obtain ⟨u, hu⟩ := Obligation.absorber?_of_unbounded hb hknown (hunbounded hb)
      obtain ⟨w, required, hwu, hmem, hreq⟩ := hd.all u hu
      have hsup := hin _ hmem
      rw [Demand.HoldsIn] at hsup
      rw [(supplied hknown hall (Obligation.absorber?_some hu).2 hwu hsup).1] at hreq
      cases hreq
    · have hnot := (flowing_covered hfree hknown hall hd hin hx).1
      unfold Solution.getD at hnot
      cases hget : s.get? x with
      | none => simp
      | some set => rw [hget] at hnot; simpa using hnot
  · rw [View.contains_interpretWith_solved, Bool.or_eq_true] at ha
    rcases ha with ha | ha
    · cases hl : View.leaves (View.interpretWith .empty sup).known a with
      | false => exact View.leaves_mono (fun _ => View.contains_solved) hl
      | true =>
          have hmiss : (View.missingOf (View.interpretWith .empty sup).known
              (View.interpretWith .empty sub).known).contains a = true := by
            rw [View.contains_missingOf, ha, hl]
            rfl
          have hne : (View.missingOf (View.interpretWith .empty sup).known
              (View.interpretWith .empty sub).known).isEmpty = false := by
            refine Bool.eq_false_iff.2 fun he => ?_
            rw [((ErrorSet.isEmpty_iff _).1 he).1 a] at hmiss
            cases hmiss
          obtain ⟨t, ht, u, required, hut, hmem, hreq⟩ :=
            hd.atoms (hsomewhere hne) a hmiss
          have hsup := hin _ hmem
          rw [Demand.HoldsIn] at hsup
          exact View.leaves_eq_false.2 (Or.inl ((supplied hknown hall ht hut hsup).2 a hreq))
    · obtain ⟨x, hx, hset⟩ := List.any_eq_true.1 ha
      refine (flowing_covered hfree hknown hall hd hin hx).2 a ?_
      unfold Solution.getD
      cases hget : s.get? x with
      | none => rw [hget] at hset; cases hset
      | some set => rw [hget] at hset; exact hset
  · obtain ⟨hmem, hflex, hnone⟩ := View.mem_flexible_interpretWith.1 hx
    have hget := hsolved x (View.mem_flexible_interpretWith.2 ⟨hmem, hflex, rfl⟩)
    rw [Solution.contains, Table.get?_eq_none.1 hnone] at hget
    cases hget

/-- If the upper type has no variable but one, all it holds is known or in that
variable's set. -/
theorem held_by_only_variable (hknown : (View.interpretWith .empty sup).known.universal = false)
    (hone : ∀ x ∈ (View.interpretWith .empty sup).flexible,
      ∀ y ∈ (View.interpretWith .empty sup).flexible, (x == y) = true)
    {t u : ErrorVar} (ht : t ∈ (View.interpretWith .empty sup).flexible)
    (hut : (u == t) = true) :
    (∀ a, (View.interpretWith s sup).known.contains a = true →
      (View.interpretWith .empty sup).known.contains a = true ∨
        (s.getD u).contains a = true) ∧
    ((View.interpretWith s sup).known.universal = true → (s.getD u).universal = true) := by
  have hset : ∀ f : ErrorSet → Bool,
      ((View.interpretWith .empty sup).flexible.any fun x => (s.get? x).any f) = true →
      f (s.getD u) = true := by
    intro f hf
    obtain ⟨x, hx, hfx⟩ := List.any_eq_true.1 hf
    rw [s.get?_congr (BEq.trans (hone x hx t ht) (BEq.symm hut))] at hfx
    unfold Solution.getD
    cases hget : s.get? u with
    | none => rw [hget] at hfx; cases hfx
    | some set => rw [hget] at hfx; exact hfx
  refine ⟨fun a ha => ?_, fun hu => ?_⟩
  · rw [View.contains_interpretWith_solved, Bool.or_eq_true] at ha
    exact ha.imp_right (hset fun set => set.contains a)
  · rw [View.universal_interpretWith_solved, hknown, Bool.false_or] at hu
    exact hset (fun set => set.universal) hu

/-- Where there is one variable to route to, and no alias covers an atom that is
not listed, a solution that makes the errors included meets the demands. -/
theorem holdsIn_of_errorsCover
    (hfree : (View.interpretWith .empty sup).known.PayloadFree)
    (hd : Obligation.Demanded (View.interpretWith .empty sup)
      (View.interpretWith .empty sub) ds)
    (hknown : (View.interpretWith .empty sup).known.universal = false)
    (hone : ∀ x ∈ (View.interpretWith .empty sup).flexible,
      ∀ y ∈ (View.interpretWith .empty sup).flexible, (x == y) = true)
    (hlisted : ∀ a, (View.interpretWith s sub).known.contains a = true →
      View.coveredByAlias (View.interpretWith s sup).known a = false)
    (hc : ErrorsCover s sup sub) : ∀ d ∈ ds, d.HoldsIn s := by
  unfold ErrorsCover at hc
  rw [View.errorVerdict_holds_iff] at hc
  have hinside : (View.interpretWith s sup).known.universal = true ∨
      (View.interpretWith s sub).known.universal = false ∧
        ∀ a, (View.interpretWith s sub).known.contains a = true →
          (View.interpretWith s sup).known.contains a = true := by
    refine hc.imp_right fun ⟨⟨hnot, hatoms⟩, _⟩ => ⟨hnot, fun a ha => ?_⟩
    have := View.leaves_eq_false.1 (hatoms a ha)
    rw [hlisted a ha] at this
    exact this.resolve_right Bool.false_ne_true
  have hsupplies : ∀ {t u : ErrorVar} {required : ErrorSet},
      t ∈ (View.interpretWith .empty sup).flexible → (u == t) = true →
      (∀ a, required.contains a = true →
        (View.interpretWith s sub).known.contains a = true) →
      (required.universal = true → (View.interpretWith s sub).known.universal = true) →
      (s.getD u).Supplies (View.interpretWith .empty sup).known required := by
    intro t u required ht hut hatoms huniv
    obtain ⟨hheld, hall⟩ := held_by_only_variable (s := s) hknown hone ht hut
    rcases hinside with hu | ⟨hnot, hinside⟩
    · exact Or.inr (Or.inl (hall hu))
    · refine Or.inr (Or.inr ⟨Bool.eq_false_iff.2 fun hu => ?_, fun a ha => ?_⟩)
      · rw [huniv hu] at hnot; cases hnot
      · exact hheld a (hinside a (hatoms a ha))
  intro d hmem
  rcases hd.only d hmem with ⟨t, ht, u, required, hut, rfl, hatoms, huniv⟩ |
    ⟨v, hv, hnil, rfl⟩ | ⟨v, hv, t, ht, rfl⟩
  · refine hsupplies ht hut (fun a ha => View.contains_solved (hatoms a ha)) fun hu => ?_
    rw [View.universal_interpretWith_solved, huniv hu, Bool.true_or]
  · obtain ⟨hatoms, huniv⟩ := View.contains_of_mem_flexible (s := s) hv
    rw [Demand.HoldsIn,
      Fixpoint.finalSet_of_flexible (View.mem_flexible_interpretWith.1 hv).2.1]
    refine (View.coversWith_iff_includes _ hfree _).2.2 (Or.inr ?_)
    rcases hinside with hu | ⟨hnot, hinside⟩
    · rw [View.universal_interpretWith_solved, hknown, hnil] at hu
      cases hu
    · refine ⟨Bool.eq_false_iff.2 fun hu => ?_, fun a ha => ?_⟩
      · rw [huniv hu] at hnot; cases hnot
      · have hin := hinside a (hatoms a ha)
        rw [View.contains_interpretWith_solved, hnil] at hin
        exact View.leaves_eq_false.2 (Or.inl (by simpa using hin))
  · obtain ⟨hatoms, huniv⟩ := View.contains_of_mem_flexible (s := s) hv
    rw [Demand.HoldsIn,
      Fixpoint.finalSet_of_flexible (View.mem_flexible_interpretWith.1 hv).2.1]
    exact hsupplies ht BEq.rfl hatoms huniv

end Meaning

/-! ## The engine -/

namespace Engine

/-- All that a comparison of errors can answer and leave behind. -/
theorem compareErrors_ok {e e' : Engine} {sup sub : Ty} {location : Location} {r : Verdict}
    (h : e.compareErrors sup sub location = (.ok r, e')) :
    View.compareErrors e.view.holds (e.view.interpret sup) (e.view.interpret sub) = .ok r ∧
      (r ≠ .pending ∧ e' = e ∨
        r = .pending ∧ e.obligations = none ∧ e' = e ∨
        r = .pending ∧ e.obligations.isSome = true ∧
          ∃ made, Obligation.constraints e.view sup sub location = .ok made ∧
            e' = e.oblige made) := by
  unfold compareErrors at h
  cases hc : View.compareErrors e.view.holds (e.view.interpret sup)
      (e.view.interpret sub) with
  | error f => rw [hc] at h; cases h
  | ok verdict =>
      rw [hc] at h
      cases verdict with
      | holds => cases h; exact ⟨rfl, Or.inl ⟨by decide, rfl⟩⟩
      | fails => cases h; exact ⟨rfl, Or.inl ⟨by decide, rfl⟩⟩
      | pending =>
          simp only [] at h
          cases hobl : e.obligations with
          | none =>
              rw [hobl] at h
              cases h
              exact ⟨rfl, Or.inr (Or.inl ⟨rfl, rfl, rfl⟩)⟩
          | some before =>
              rw [hobl] at h
              unfold generate at h
              cases hg : Obligation.constraints e.view sup sub location with
              | error f => rw [hg] at h; cases h
              | ok made =>
                  rw [hg] at h
                  cases h
                  exact ⟨rfl, Or.inr (Or.inr ⟨rfl, rfl, made, rfl, rfl⟩)⟩

/-- All that a comparison can answer: a failed check is passed over, else the
values decide, and then the errors. -/
theorem check_ok {e e' : Engine} {sup sub : Ty} {location : Location} {r : Verdict}
    (h : e.check sup sub location = (.ok r, e')) :
    ((sup.failed || sub.failed) = true ∧ r = .holds ∧ e' = e) ∨
    ((sup.failed || sub.failed) = false ∧
      e.compareValues sup.valuePart sub.valuePart = (.ok false, e') ∧ r = .fails) ∨
    ((sup.failed || sub.failed) = false ∧
      ∃ e₁, e.compareValues sup.valuePart sub.valuePart = (.ok true, e₁) ∧
        e₁.compareErrors sup sub location = (.ok r, e')) := by
  unfold check at h
  cases hf : sup.failed || sub.failed with
  | true => rw [hf] at h; cases h; exact Or.inl ⟨rfl, rfl, rfl⟩
  | false =>
      rw [hf, if_neg Bool.false_ne_true] at h
      cases hv : e.compareValues sup.valuePart sub.valuePart with
      | mk answer e₁ =>
          rw [hv] at h
          cases answer with
          | error f => cases h
          | ok value =>
              cases value with
              | false => cases h; exact Or.inr (Or.inl ⟨rfl, rfl, rfl⟩)
              | true => exact Or.inr (Or.inr ⟨rfl, e₁, rfl, h⟩)

/-- Without arguments the engine's verdict on errors is the plain one. -/
theorem view_compareErrors (e : Engine) (hs : e.solution.PayloadFree) {sup : Ty}
    (hsup : sup.payloadFree = true) (sub : Ty) :
    View.compareErrors e.view.holds (e.view.interpret sup) (e.view.interpret sub) =
      .ok (View.errorVerdict (View.interpretWith e.solution sup)
        (View.interpretWith e.solution sub)) :=
  View.compareErrors_of_payloadFree _ (View.payloadFree_interpretWith hs hsup) _

/-- Without bindings the engine compares values as its view does. -/
theorem compareValues_unbound {e : Engine} (hb : e.bindings = none) (x y : Ty) :
    e.compareValues x y = (e.view.compareValues e.view.holds x y, e) := by
  have hspared : ∀ t : Ty, ∀ name ∈ t.projections, e.view.bindings.contains name = false := by
    intro t name _
    unfold view
    rw [hb]
    rfl
  have hfree : e.isFree = fun _ => false := by
    funext name
    unfold isFree
    rw [hb]
  unfold compareValues View.compareValues
  rw [View.follow_of_spared (hspared x), View.follow_of_spared (hspared y), hfree]
  simp only [Bind.bind, Except.bind]
  cases hs : View.valueStep (fun _ => false) x y with
  | decided answer => rfl
  | constructors c as d bs => rfl
  | bind name t => exact absurd hs (View.valueStep_ne_bind x y name t)

end Engine

/-! ## The main statement -/

section Main

variable {sup sub : Ty} {location : Location} {before : List Constraint}

/-- What a comparison that has to wait has found, and what it leaves behind. -/
theorem Engine.check_pending {e : Engine} (hsup : sup.payloadFree = true)
    (hsub : sub.payloadFree = true)
    (h : (Engine.mk .classes .empty none (some before)).check sup sub location =
      (.ok .pending, e)) :
    (sup.failed || sub.failed) = false ∧
      ValueCovers (Covers .empty .empty) sup.valuePart sub.valuePart ∧
      View.errorVerdict (View.interpretWith .empty sup) (View.interpretWith .empty sub) =
        .pending ∧
      ∃ ds, e.obligations = some (before ++
          ds.map fun d => ⟨d, location, Obligation.reason sup sub⟩) ∧
        Obligation.Demanded (View.interpretWith .empty sup)
          (View.interpretWith .empty sub) ds := by
  have htame : ∀ {t : Ty}, t.payloadFree = true → t.Tame .empty :=
    fun ht => ⟨ht, fun _ _ => rfl⟩
  have hfree := View.payloadFree_interpretWith Solution.payloadFree_empty hsup
  rcases Engine.check_ok h with ⟨_, hr, _⟩ | ⟨_, _, hr⟩ | ⟨hf, e₁, hv, he⟩
  · cases hr
  · cases hr
  · rw [Engine.compareValues_unbound rfl] at hv
    obtain ⟨hval, rfl⟩ := Prod.ext_iff.1 hv
    obtain ⟨hc, hleft⟩ := Engine.compareErrors_ok he
    rw [Engine.view_compareErrors _ Solution.payloadFree_empty hsup] at hc
    refine ⟨hf, ?_, Except.ok.inj hc, ?_⟩
    · exact (View.compareValues_iff rfl _ (htame hsup).valuePart.spared
        (htame hsub).valuePart.spared).1 hval
    · rcases hleft with ⟨hne, _⟩ | ⟨_, hnone, _⟩ | ⟨_, _, made, hmade, rfl⟩
      · exact absurd rfl hne
      · cases hnone
      · obtain ⟨ds, hds, rfl⟩ := Obligation.constraints_ok hmade
        exact ⟨ds, rfl, Obligation.demands_spec hds⟩

/-- Where values cover, the answer under a solution is that on the errors. -/
theorem Engine.check_solved_iff {s : Solution} {obligations : Option (List Constraint)}
    (hs : s.PayloadFree) (hsup : sup.payloadFree = true) (hsub : sub.payloadFree = true)
    (hf : (sup.failed || sub.failed) = false)
    (hv : ValueCovers (Covers .empty .empty) sup.valuePart sub.valuePart) :
    ((Engine.mk .classes s none obligations).check sup sub location).1 = .ok .holds ↔
      ErrorsCover s sup sub := by
  have htame : ∀ {t : Ty}, t.payloadFree = true → t.Tame .empty :=
    fun ht => ⟨ht, fun _ _ => rfl⟩
  have hsolved : ValueCovers (Covers s .empty) sup.valuePart sub.valuePart := by
    refine hv.imp fun c as d bs hc hd x hx y hy => ?_
    have hxt : x.Tame .empty := (hc ▸ (htame hsup).valuePart).arg hx
    have hyt : y.Tame .empty := (hd ▸ (htame hsub).valuePart).arg hy
    exact ⟨Covers.solved hs _ (Nat.lt_succ_self _) hxt hyt,
      Covers.solved hs _ (Nat.lt_succ_self _) hyt hxt⟩
  have hval : (Engine.mk .classes s none obligations).compareValues sup.valuePart
      sub.valuePart = (.ok true, ⟨.classes, s, none, obligations⟩) := by
    have hview := (View.compareValues_iff (v := View.mk .classes s .empty) rfl _
      (htame hsup).valuePart.spared (htame hsub).valuePart.spared).2 hsolved
    rw [Engine.compareValues_unbound rfl]
    exact Prod.ext hview rfl
  have herr := Engine.view_compareErrors ⟨.classes, s, none, obligations⟩ hs hsup sub
  constructor
  · intro h
    rcases Engine.check_ok (Prod.ext h rfl) with ⟨hfail, _⟩ | ⟨_, _, hr⟩ | ⟨_, e₁, hv₁, he⟩
    · rw [hf] at hfail; cases hfail
    · cases hr
    · rw [hval] at hv₁
      cases hv₁
      have hc := (Engine.compareErrors_ok he).1
      rw [herr] at hc
      exact Except.ok.inj hc
  · intro h
    unfold Engine.check
    rw [hf, if_neg Bool.false_ne_true, hval]
    unfold ErrorsCover at h
    rw [show View.errorVerdict (View.interpretWith _ sup) (View.interpretWith _ sub) = .holds
      from h] at herr
    show (Engine.compareErrors _ sup sub location).1 = _
    unfold Engine.compareErrors
    rw [herr]

/-- Atoms that no alias can cover. -/
theorem View.not_coveredByAlias {s : Solution} {known : ErrorSet}
    (hsub : ∀ x, .errorVar x ∈ sub.errorPart → x.flexible = false →
      x.bound.isUnbounded = true)
    (hs : ∀ v set, s.get? v = some set → ∀ x, set.contains (.var x) = true →
      x.bound.isUnbounded = true)
    {a : Atom} (ha : (interpretWith s sub).known.contains a = true) :
    coveredByAlias known a = false := by
  have hvar : ∀ x : ErrorVar, x.bound.isUnbounded = true →
      coveredByAlias known (.var x) = false := by
    intro x hx
    obtain ⟨name, bound, flexible⟩ := x
    cases bound with
    | unbounded => rfl
    | bounded al => cases hx
  rw [contains_interpretWith, List.any_eq_true] at ha
  obtain ⟨m, hm, hy⟩ := ha
  cases m with
  | errorConst c args =>
      rw [← coveredByAlias_congr known hy]
      rfl
  | errorVar x =>
      rw [Ty.yields] at hy
      split at hy
      · obtain ⟨set, hget, hin⟩ := (Option.any_eq_true _ _).1 hy
        cases a with
        | classifier c => rfl
        | var y => exact hvar y (hs x set hget y hin)
      · next hx =>
          rw [← coveredByAlias_congr known hy]
          exact hvar x (hsub x hm (by simpa using hx))
  | _ => cases hy

/-- The constraints that a waiting comparison leaves behind mean the comparison.
A solution that meets them makes it hold. Conversely, if the upper type has at
most one flexible error variable and no variable bounded by an alias is among
the atoms of the lower type or of the solution, a solution under which the
comparison holds meets them. -/
theorem generated_constraints_mean_comparison {e : Engine} (hsup : sup.payloadFree = true)
    (hsub : sub.payloadFree = true)
    (h : (Engine.mk .classes .empty none (some before)).check sup sub location =
      (.ok .pending, e)) :
    ∃ made, e.obligations = some (before ++ made) ∧
      ∀ s : Solution, s.PayloadFree →
        (∀ x, .errorVar x ∈ sub.errorPart → x.flexible = true → s.contains x = true) →
        ∀ obligations : Option (List Constraint),
        ((∀ c ∈ made, c.demand.HoldsIn s) →
          ((Engine.mk .classes s none obligations).check sup sub location).1 =
            .ok .holds) ∧
        ((∀ x y, .errorVar x ∈ sup.errorPart → x.flexible = true →
            .errorVar y ∈ sup.errorPart → y.flexible = true → (x == y) = true) →
          (∀ x, .errorVar x ∈ sub.errorPart → x.flexible = false →
            x.bound.isUnbounded = true) →
          (∀ v set, s.get? v = some set → ∀ x, set.contains (.var x) = true →
            x.bound.isUnbounded = true) →
          ((Engine.mk .classes s none obligations).check sup sub location).1 =
            .ok .holds →
          ∀ c ∈ made, c.demand.HoldsIn s) := by
  have hfree := View.payloadFree_interpretWith Solution.payloadFree_empty hsup
  obtain ⟨hf, hv, hpend, ds, hmade, hd⟩ := Engine.check_pending hsup hsub h
  refine ⟨_, hmade, fun s hs hsolved obligations => ?_⟩
  have hdemands : (∀ c ∈ ds.map fun d => (⟨d, location, Obligation.reason sup sub⟩ :
      Constraint), c.demand.HoldsIn s) ↔ ∀ d ∈ ds, d.HoldsIn s := by
    simp only [List.forall_mem_map]
  rw [hdemands, Engine.check_solved_iff hs hsup hsub hf hv]
  refine ⟨fun hin => ?_, fun hone halias hset hc => ?_⟩
  · refine errorsCover_of_demanded hfree hd hpend (fun x hx => ?_) hin
    obtain ⟨hmem, hflex, _⟩ := View.mem_flexible_interpretWith.1 hx
    exact hsolved x hmem hflex
  · refine holdsIn_of_errorsCover hfree hd (View.errorVerdict_pending hpend).1
      (fun x hx y hy => ?_) (fun a ha => View.not_coveredByAlias halias hset ha) hc
    obtain ⟨hx, hxf, _⟩ := View.mem_flexible_interpretWith.1 hx
    obtain ⟨hy, hyf, _⟩ := View.mem_flexible_interpretWith.1 hy
    exact hone x y hx hxf hy hyf

end Main

/-! A comparison of `T | ?E` with `T | A | ?F`, and a solution that gives both
variables `A`. -/

def waitingSup : Ty := .union [.con (.named "T") [], .errorVar ⟨"E", .unbounded, true⟩]

def waitingSub : Ty :=
  .union [.con (.named "T") [], .errorConst ⟨0, [], "A", [], none⟩ [],
    .errorVar ⟨"F", .unbounded, true⟩]

def waitingSolution : Solution :=
  ⟨⟨[(⟨"E", .unbounded, true⟩, .ofAtoms [.classifier ⟨0, [], "A", [], none⟩]),
    (⟨"F", .unbounded, true⟩, .ofAtoms [.classifier ⟨0, [], "A", [], none⟩])]⟩⟩

theorem generated_constraints_of_waiting :
    ∃ e made, (Engine.mk .classes .empty none (some [])).check waitingSup waitingSub .unknown =
        (.ok .pending, e) ∧
      e.obligations = some made ∧ (∀ c ∈ made, c.demand.HoldsIn waitingSolution) ∧
      ((Engine.mk .classes waitingSolution none none).check waitingSup waitingSub
        .unknown).1 = .ok .holds := by
  have hcheck : (Engine.mk .classes .empty none (some [])).check waitingSup waitingSub
      .unknown = (.ok .pending, ((Engine.mk .classes .empty none (some [])).check waitingSup
        waitingSub .unknown).2) := rfl
  obtain ⟨made, hmade, hmean⟩ :=
    generated_constraints_mean_comparison (by decide) (by decide) hcheck
  have hsup : ∀ x, .errorVar x ∈ waitingSup.errorPart → x = ⟨"E", .unbounded, true⟩ := by
    intro x hx
    change Ty.errorVar x ∈ [.errorVar ⟨"E", .unbounded, true⟩] at hx
    simpa using hx
  have hsub : ∀ x, .errorVar x ∈ waitingSub.errorPart → x = ⟨"F", .unbounded, true⟩ := by
    intro x hx
    change Ty.errorVar x ∈ [.errorConst ⟨0, [], "A", [], none⟩ [],
      .errorVar ⟨"F", .unbounded, true⟩] at hx
    simpa using hx
  obtain ⟨hforward, hback⟩ := hmean waitingSolution
    (Solution.payloadFree_of_values (by decide)) (fun x hx _ => by rw [hsub x hx]; rfl) none
  have hin : ∀ c ∈ made, c.demand.HoldsIn waitingSolution := by
    refine hback (fun x y hx _ hy _ => ?_) (fun x hx _ => ?_) (fun v set hv x hx => ?_) rfl
    · rw [hsup x hx, hsup y hy]
      rfl
    · rw [hsub x hx]
      rfl
    · -- Both sets list a classifier and nothing else.
      obtain ⟨k, hk, _⟩ := Table.mem_of_get? hv
      simp only [waitingSolution, List.mem_cons, Prod.mk.injEq, List.not_mem_nil,
        or_false] at hk
      rcases hk with ⟨_, rfl⟩ | ⟨_, rfl⟩
      · cases hx
      · cases hx
  exact ⟨_, made, rfl, hmade, hin, hforward hin⟩

end Fallible
