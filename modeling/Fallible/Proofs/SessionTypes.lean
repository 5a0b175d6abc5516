import Fallible.Proofs.FailedSolving
import Fallible.Proofs.Finality
import Fallible.Proofs.Misfits

/-!
# The types that a session hands out

A session checks the unions that it makes. Where its host hands in types that are
well-formed at every depth, so are the unions that it builds and the signatures
that it instantiates. What a type resolves to obeys the grammar as well, and a
type whose constituents would break it resolves to a failed type.

But the check is of the constituents of a resolved type, and not of those of its
arguments. A union in an argument can be broken by the sets that are put into it,
and then it is handed out broken. It is not if the solution fits the arguments,
and so not while there is no solution either.
-/

namespace Fallible

/-! ## Bindings -/

/-- Writing out well-formed values keeps types well-formed. -/
theorem Bindings.wellFormed_unfoldWith {image : String → Option (Except Fault Ty)} {t u : Ty}
    (himage : ∀ n u, image n = some (.ok u) → u.ValueOnly ∧ u.WellFormed) (ht : t.WellFormed)
    (h : unfoldWith image t = .ok u) : u.WellFormed := by
  rw [eq_graft_of_unfoldWith h]
  refine (Ty.refits_graft (fun _ => rfl) fun name flexible => ?_).wellFormed ht
  cases flexible with
  | false => exact ⟨Or.inr rfl, Ty.wellFormed_valueProj name false⟩
  | true =>
      rw [leafOf]
      split
      · next u hu => exact himage name u hu
      · exact ⟨Or.inr rfl, Ty.wellFormed_valueProj name true⟩

theorem Bindings.formed_unfoldWith {image : String → Option (Except Fault Ty)} {t u : Ty}
    (himage : ∀ n u, image n = some (.ok u) → u.ValueOnly ∧ u.WellFormed)
    (ht : t.ValueOnly ∧ t.WellFormed) (h : unfoldWith image t = .ok u) :
    u.ValueOnly ∧ u.WellFormed :=
  ⟨valueOnly_unfoldWith (fun n u hu => (himage n u hu).1) ht.1 h,
    wellFormed_unfoldWith himage ht.2 h⟩

theorem Obligation.Arises.wellFormed {sup sub : Ty} {c : Constraint} (h : Arises sup sub c)
    (hsup : sup.WellFormed) (hsub : sub.WellFormed) :
    ∀ set ∈ c.errorSets, ∀ e ∈ set.entries, ∀ x ∈ e.2, x.WellFormed := by
  obtain ⟨view, ds, hview, hds, hc⟩ := h
  have hknown : ∀ {t : Ty}, t.WellFormed →
      ∀ e ∈ (view.interpret t).known.entries, ∀ x ∈ e.2, x.WellFormed := by
    intro t ht e he x hx
    rw [View.interpret, hview] at he
    exact ht.of_mem_arguments (View.mem_arguments_of_known he hx)
  exact each_of_demands (P := fun _ args => ∀ x ∈ args, Ty.WellFormed x) (fun _ h => h)
    (hknown hsup) (hknown hsub) hds hc

/-! ## Signatures -/

/-- The types that a signature is made of. -/
def Signature.types (sig : Signature) : List Ty := sig.returns :: sig.params

namespace Session

/-- Fresh variables are of the kind of the parameters in whose place they are put. -/
theorem freshParams_renamed (params : List TypeParam) : ∀ {s s' : Session}
    {images images' : Table Ty Ty}, (∀ x u, images.get? x = some u → Ty.Renamed x u) →
    s.freshParams params images = (.ok images', s') →
    ∀ x u, images'.get? x = some u → Ty.Renamed x u := by
  have hinsert : ∀ {images : Table Ty Ty} {k image : Ty}, Ty.Renamed k image →
      (∀ x u, images.get? x = some u → Ty.Renamed x u) →
      ∀ x u, (images.insert k image).get? x = some u → Ty.Renamed x u := by
    intro images k image hk himages x u hu
    rw [Table.get?_insert] at hu
    split at hu
    · next hkx =>
        cases hu
        exact hk.congr hkx
    · exact himages x u hu
  induction params with
  | nil =>
      intro s s' images images' himages h
      cases h
      exact himages
  | cons param rest ih =>
      intro s s' images images' himages h
      cases param with
      | type name flexible =>
          rw [freshParams] at h
          split at h
          · cases h
          · refine ih ?_ h
            exact hinsert (.errorVar rfl) (hinsert .valueProj (hinsert .var himages))
      | error v =>
          rw [freshParams] at h
          split at h
          · cases h
          · next fresh s₁ hfresh =>
              refine ih (hinsert (.errorVar ?_) himages) h
              rcases whileOpen_cases s _ with ho | ⟨f, ho⟩
              · cases ho.symm.trans hfresh
                rfl
              · cases ho.symm.trans hfresh

theorem checked_of_wellFormed {s : Session} {location : Location} {t : Ty} (ht : t.WellFormed) :
    s.checked location t = (t, s) := by
  rw [checked, ht t t.mem_subterms_self]

theorem checkedAll_of_wellFormed {s : Session} {location : Location} {ts : List Ty}
    (hts : ∀ t ∈ ts, t.WellFormed) : s.checkedAll location ts = (ts, s) := by
  induction ts with
  | nil => rfl
  | cons t ts ih =>
      rw [checkedAll, checked_of_wellFormed (hts t List.mem_cons_self)]
      dsimp only
      rw [ih fun u hu => hts u (List.mem_cons_of_mem t hu)]

/-- A well-formed signature is instantiated to well-formed types. -/
theorem wellFormed_of_instantiate {s s' : Session} {sig : Signature} {location : Location}
    {params : List Ty} {returns : Ty} (hsig : ∀ t ∈ sig.types, t.WellFormed)
    (h : s.instantiate sig location = (.ok (params, returns), s')) :
    returns.WellFormed ∧ ∀ p ∈ params, p.WellFormed := by
  unfold instantiate at h
  split at h
  · cases h
  · next images s₁ hfresh =>
      have hrefits := Ty.refits_subst
        (freshParams_renamed sig.typeParams (fun x u hu => by cases hu) hfresh)
      have hparams : ∀ p ∈ Ty.substAll images sig.params, p.WellFormed := by
        intro p hp
        rw [Ty.substAll_eq_map] at hp
        obtain ⟨q, hq, rfl⟩ := List.mem_map.1 hp
        exact hrefits.wellFormed (hsig q (List.mem_cons_of_mem _ hq))
      have hreturns := hrefits.wellFormed (hsig sig.returns List.mem_cons_self)
      rw [checkedAll_of_wellFormed hparams] at h
      dsimp only at h
      rw [checked_of_wellFormed hreturns] at h
      cases h
      exact ⟨hreturns, hparams⟩

/-! ## What is handed in -/

/-- The types that an operation hands in. -/
def Op.types : Op → List Ty
  | .require sup sub _ => [sup, sub]
  | .requireExpr sup e => [sup, e.type]
  | .instantiate sig _ => sig.types
  | .call sig args _ => sig.types ++ args.map TypedExpr.type
  | .annotateNode _ t => t.toList
  | .annotateExpr e t => [t.getD e.type]
  | _ => []

/-- The types that an action hands in. -/
def Action.types : Action → List Ty
  | .op o => o.types
  | _ => []

theorem annotated_mem_types {op : Op} {node : String} {t : Ty} {location : Location}
    (h : op.annotation? = some (node, t, location)) : t ∈ op.types := by
  cases op with
  | annotateNode n u =>
      cases u with
      | none => cases h
      | some u => cases h; exact List.mem_cons_self
  | annotateExpr e u => cases h; exact List.mem_cons_self
  | _ => cases h

theorem wellFormed_argRequests (pairs : List (Ty × TypedExpr)) : ∀ {s : Session},
    (∀ p ∈ pairs, p.1.WellFormed ∧ p.2.type.WellFormed) →
    ∀ r ∈ s.argRequests pairs, r.sup.WellFormed ∧ r.sub.WellFormed := by
  induction pairs with
  | nil => exact fun _ r hr => absurd hr List.not_mem_nil
  | cons pair rest ih =>
      intro s hpairs r hr
      obtain ⟨param, arg⟩ := pair
      have hhead := hpairs _ List.mem_cons_self
      rw [argRequests] at hr
      split at hr
      · rw [List.mem_singleton.1 hr]
        exact hhead
      · rcases List.mem_cons.1 hr with rfl | hr
        · exact hhead
        · exact ih (fun p hp => hpairs p (List.mem_cons_of_mem _ hp)) r hr

/-- Requirements are about well-formed types if such types are handed in. -/
theorem wellFormed_requests {s : Session} {op : Op} (hop : ∀ t ∈ op.types, t.WellFormed) :
    ∀ r ∈ s.requests op, r.sup.WellFormed ∧ r.sub.WellFormed := by
  cases op with
  | require sup sub location =>
      intro r hr
      rw [List.mem_singleton.1 hr]
      exact ⟨hop sup (by simp [Op.types]), hop sub (by simp [Op.types])⟩
  | requireExpr sup e =>
      intro r hr
      rw [List.mem_singleton.1 hr]
      exact ⟨hop sup (by simp [Op.types]), hop e.type (by simp [Op.types])⟩
  | call sig args location =>
      intro r hr
      rw [requests] at hr
      split at hr
      · cases hr
      · split at hr
        · cases hr
        · next params returns s₁ hinst =>
            have hparams := (wellFormed_of_instantiate
              (fun t ht => hop t (List.mem_append_left _ ht)) hinst).2
            refine wellFormed_argRequests _ (fun p hp => ?_) r hr
            have hzip := List.of_mem_zip hp
            exact ⟨hparams _ hzip.1, hop _ (List.mem_append_right _ (List.mem_map_of_mem hzip.2))⟩
  | _ => exact fun r hr => absurd hr List.not_mem_nil

/-! ## Sessions -/

/-- What is true of every session to which well-formed types are handed in. -/
structure Formed (s : Session) : Prop where
  issued : ∀ v ∈ s.issued, v.flexible = true
  bound : ∀ n t, s.bindings.table.get? n = some t → t.ValueOnly ∧ t.WellFormed
  clean : ∀ c ∈ s.constraints, c.Clean
  args : ∀ c ∈ s.constraints, ∀ set ∈ c.errorSets, ∀ e ∈ set.entries, ∀ x ∈ e.2, x.WellFormed
  solution : ∀ solution, s.solution = some solution → solution.WellFormed

namespace Formed

variable {s s' : Session}

theorem new (options : Options) (registry : Registry) : (Session.new options registry).Formed where
  issued _ hv := absurd hv List.not_mem_nil
  bound _ _ h := by cases h
  clean _ hc := absurd hc List.not_mem_nil
  args _ hc := absurd hc List.not_mem_nil
  solution _ h := by cases h

theorem quiet (hs : s.Formed) (h : Quiet s s') : s'.Formed where
  issued v hv := (h.issued v hv).elim (hs.issued v) id
  bound := by rw [h.bindings]; exact hs.bound
  clean := by rw [h.constraints]; exact hs.clean
  args := by rw [h.constraints]; exact hs.args
  solution := by rw [h.solution]; exact hs.solution

theorem require (hs : s.Formed) {sup sub : Ty} (hsup : sup.WellFormed) (hsub : sub.WellFormed)
    {location : Location} {answer : Except Fault Verdict}
    (h : s.require sup sub location = (answer, s')) : s'.Formed := by
  obtain ⟨b, cs, ds, ps, hr, hleaves, hmade⟩ := s.require_leaves sup sub location
  rw [h] at hr
  change s' = _ at hr
  rw [hr]
  refine ⟨hs.issued, ?_, fun c hc => ?_, fun c hc => ?_, hs.solution⟩
  · exact hleaves.keeps Bindings.formed_unfoldWith hs.bound
      (fun hf => ⟨Ty.valueOnly_valuePart hf, hsup.valuePart⟩)
      fun hf => ⟨Ty.valueOnly_valuePart hf, hsub.valuePart⟩
  · rcases hmade c hc with hc | hc
    · exact hs.clean c hc
    · exact hc.clean
  · rcases hmade c hc with hc | hc
    · exact hs.args c hc
    · exact hc.wellFormed hsup hsub

theorem perform (hs : s.Formed) {op : Op} (hop : ∀ t ∈ op.types, t.WellFormed) :
    (s.perform op).Formed := by
  have hkeeps : Keeps (fun r => r.sup.WellFormed ∧ r.sub.WellFormed) fun s _ => Formed s :=
    ⟨fun hs h => hs.quiet h, fun hs hr h => hs.require hr.1 hr.2 h⟩
  exact @Keeps.perform _ _ hkeeps s [] hs op (wellFormed_requests hop)

theorem close (hs : s.Formed) {outcome : Fixpoint.Outcome} (ho : s.outcome = .ok outcome) :
    (s.close outcome).Formed := by
  obtain ⟨policy, hsolve⟩ := solveBy_of_outcome ho
  unfold Session.close
  cases hv : outcome.violation with
  | some d =>
      refine ⟨hs.issued, hs.bound, hs.clean, hs.args, fun solution h => ?_⟩
      cases h
      exact Solution.wellFormed_empty
  | none =>
      have hsuccess : outcome.success = true := by rw [Fixpoint.Outcome.success, hv]; rfl
      refine ⟨hs.issued, hs.bound, hs.clean, hs.args, fun solution h => ?_⟩
      cases h
      exact (Fixpoint.wellFormed_of_solveBy hs.clean hs.args hsolve hsuccess).extend hs.issued

theorem act (hs : s.Formed) {a : Action} (ha : ∀ t ∈ a.types, t.WellFormed) :
    (s.act a).Formed := by
  cases a with
  | op op => exact hs.perform ha
  | solve =>
      show s.solve.2.Formed
      by_cases hopen : s.status = .active
      · rcases solve_cases hopen with ⟨f, _, hf⟩ | ⟨outcome, ho, ds, hreports⟩
        · rw [hf]
          exact hs
        · have hclose := hs.close ho
          rw [hreports]
          exact ⟨hclose.issued, hclose.bound, hclose.clean, hclose.args, hclose.solution⟩
      · rw [solve, whileOpen_of_not_active hopen]
        exact hs
  | cancel =>
      show s.cancel.2.Formed
      unfold Session.cancel
      split
      · exact hs
      · exact ⟨hs.issued, fun _ _ h => (by cases h), fun _ h => absurd h List.not_mem_nil,
          fun _ h => absurd h List.not_mem_nil, hs.solution⟩
  | resolve t => exact hs

end Formed

/-! ## What is handed out -/

/-- Whether the solution of a session, if it has one, fits the arguments of a type with
its bindings written out. -/
def Fits (s : Session) (t : Ty) : Prop :=
  ∀ solution w, s.solution = some solution → s.bindings.apply t.canonical = .ok w →
    ∀ a ∈ w.canonical.arguments, solution.Fits a

/-- Whether nothing in a type has failed, once its bindings are written out. -/
def Intact (s : Session) (t : Ty) : Prop :=
  ∀ w, s.bindings.apply t.canonical = .ok w → .erroneous ∉ w.canonical.subterms

/-- What a type resolves to obeys the grammar. -/
theorem resolve_cases {s : Session} {t u : Ty} (h : s.resolve t = .ok u) :
    u = .erroneous ∨ Grammar.violation? u = none ∧
      ∃ w, s.bindings.apply t.canonical = .ok w ∧ u = s.concluded w := by
  cases hw : s.bindings.apply t.canonical with
  | error f =>
      unfold resolve resolution at h
      rw [hw] at h
      cases h
  | ok w =>
      rw [resolve_of_written hw, Except.ok.injEq] at h
      split at h
      · exact Or.inl h.symm
      · split at h
        · exact Or.inl h.symm
        · next hvalid =>
            rw [← h]
            exact Or.inr ⟨by simpa using hvalid, w, rfl, rfl⟩

theorem violation?_resolve {s : Session} {t u : Ty} (h : s.resolve t = .ok u) :
    Grammar.violation? u = none := by
  rcases resolve_cases h with rfl | h
  · rfl
  · exact h.1

section Resolve

variable {s : Session} (hs : s.Formed) {t : Ty} (ht : t.WellFormed)

include hs ht

theorem Formed.wellFormed_apply {w : Ty} (hw : s.bindings.apply t.canonical = .ok w) :
    w.WellFormed :=
  Bindings.wellFormed_unfoldWith
    (Bindings.imageWithin_keeps Bindings.formed_unfoldWith hs.bound _) ht.canonical hw

theorem Formed.wellFormed_resolve (hfits : s.Fits t) {u : Ty} (h : s.resolve t = .ok u) :
    u.WellFormed := by
  rcases resolve_cases h with rfl | ⟨hvalid, w, hw, rfl⟩
  · exact Ty.wellFormed_erroneous
  · have hwritten := hs.wellFormed_apply ht hw
    unfold concluded at hvalid ⊢
    split at hvalid
    · exact hwritten.canonical
    · next solution hsolution =>
        refine Ty.wellFormed_iff.2 ⟨Grammar.violation?_eq_none_iff.1 hvalid, ?_⟩
        exact (hs.solution solution hsolution).wellFormedWithin_settled hwritten.within
          (hfits solution w hsolution hw)

omit ht in
theorem Formed.fits_of_resolve {u : Ty} (h : s.resolve t = .ok u) (hu : u ≠ .erroneous)
    (hintact : s.Intact t) (hwell : u.WellFormed) : s.Fits t := by
  intro solution w hsolution hw
  rcases resolve_cases h with rfl | ⟨-, w', hw', rfl⟩
  · exact absurd rfl hu
  · cases hw'.symm.trans hw
    rw [concluded, hsolution] at hwell
    exact (hs.solution solution hsolution).fits_of_settled (hintact w hw) hwell.within

end Resolve

/-- Whether all types that are attached to nodes are well-formed. -/
def Annotated (s : Session) : Prop :=
  ∀ node t location, s.annotations.get? node = some (t, location) → t.WellFormed

theorem Annotated.act {s : Session} (hs : s.Annotated) {a : Action}
    (ha : ∀ t ∈ a.types, t.WellFormed) : (s.act a).Annotated := by
  have hframe : ∀ {s s' : Session}, s.Annotated → s'.frame = s.frame → s'.Annotated := by
    intro s s' hs h
    have hannotations : s'.annotations = s.annotations := congrArg Frame.annotations h
    rw [Annotated, hannotations]
    exact hs
  cases a with
  | op op =>
      have hperform := s.frame_perform op
      split at hperform
      · exact hframe hs hperform
      · next node t location hannotation =>
          refine hframe (fun n u l hget => ?_) hperform
          change (s.annotations.insert node (t, location)).get? n = _ at hget
          rw [Table.get?_insert] at hget
          split at hget
          · cases hget
            exact ha t (annotated_mem_types hannotation)
          · exact hs n u l hget
  | solve =>
      show s.solve.2.Annotated
      by_cases hopen : s.status = .active
      · rcases solve_cases hopen with ⟨f, _, hf⟩ | ⟨outcome, _, hreports⟩
        · rw [hf]
          exact hs
        · refine hframe ?_ hreports.frame
          unfold close
          split <;> exact hs
      · rw [solve, whileOpen_of_not_active hopen]
        exact hs
  | cancel =>
      show s.cancel.2.Annotated
      unfold Session.cancel
      split
      · exact hs
      · exact fun _ _ _ h => by cases h
  | resolve t => exact hs

/-- A reported type is what the type attached to its node resolves to. -/
theorem annotated_of_reported {s s' : Session} (hs : s.annotations.Distinct)
    {report : SessionReport} (h : s.solve = (.ok report, s')) {node : String} {u : Ty}
    (hu : report.types.get? node = some u) :
    ∃ t location, s.annotations.get? node = some (t, location) ∧ s'.resolve t = .ok u := by
  obtain ⟨hin, hout⟩ := solve_types hs h node
  cases hnode : s.annotations.get? node with
  | none =>
      rw [hout (Table.get?_eq_none.1 hnode)] at hu
      cases hu
  | some attached =>
      obtain ⟨u', hu', hget⟩ := hin attached.1 attached.2 hnode
      cases hget.symm.trans hu
      exact ⟨attached.1, attached.2, rfl, hu'⟩

theorem wellFormed_union {s : Session} {members : List Ty} {location : Location}
    (h : ∀ m ∈ members, m.WellFormed) : (s.union members location).1.WellFormed := by
  unfold union
  split
  · exact Ty.wellFormed_erroneous
  · next hcheck => exact (Ty.wellFormed_unionOf h hcheck).canonical

/-- If the types that are handed in are well-formed, so are the unions that a session
builds and the signatures that it instantiates. What a type resolves to, for its host
or for a report, obeys the grammar at its top, and at every depth if the solution fits
its arguments; and only then, if nothing has failed. -/
theorem handed_out_types_obey_grammar (options : Options) (registry : Registry)
    (actions : List Action) {s : Session}
    (hs : (Session.new options registry).actAll actions = s)
    (hgiven : ∀ a ∈ actions, ∀ t ∈ a.types, t.WellFormed) :
    (∀ members location, (∀ m ∈ members, m.WellFormed) →
      (s.union members location).1.WellFormed) ∧
    (∀ sig location params returns s', (∀ t ∈ sig.types, t.WellFormed) →
      s.instantiate sig location = (.ok (params, returns), s') →
      returns.WellFormed ∧ ∀ p ∈ params, p.WellFormed) ∧
    (∀ t u, s.resolve t = .ok u → Grammar.violation? u = none ∧ (t.WellFormed →
      (s.Fits t → u.WellFormed) ∧
      (u ≠ .erroneous → s.Intact t → u.WellFormed → s.Fits t))) ∧
    ∀ report s', s.solve = (.ok report, s') → ∀ node u, report.types.get? node = some u →
      ∃ t location, s.annotations.get? node = some (t, location) ∧ t.WellFormed ∧
        s'.resolve t = .ok u ∧ Grammar.violation? u = none ∧ (s'.Fits t → u.WellFormed) := by
  have hformed : s.Formed :=
    hs ▸ actAll_keeps (fun a ha h => h.act (hgiven a ha)) (Formed.new options registry)
  have hannotated : s.Annotated :=
    hs ▸ actAll_keeps (fun a ha h => h.act (hgiven a ha)) fun _ _ _ h => by cases h
  have horderly : s.Orderly := hs ▸ Orderly.actAll options registry actions
  refine ⟨fun members location => wellFormed_union, fun sig location params returns s' =>
    wellFormed_of_instantiate, fun t u h => ⟨violation?_resolve h, fun ht =>
      ⟨fun hfits => hformed.wellFormed_resolve ht hfits h, hformed.fits_of_resolve h⟩⟩, ?_⟩
  intro report s' hsolve node u hu
  obtain ⟨t, location, hnode, hresolve⟩ := annotated_of_reported horderly.annotations hsolve hu
  have ht := hannotated node t location hnode
  have hsolved : s'.Formed := by
    have hact := hformed.act (a := .solve) fun _ h => absurd h List.not_mem_nil
    change s.solve.2.Formed at hact
    rwa [hsolve] at hact
  exact ⟨t, location, hnode, ht, hresolve, violation?_resolve hresolve, fun hfits =>
    hsolved.wellFormed_resolve ht hfits hresolve⟩

/-! A variable comes to hold a classifier with one argument. Two lists hold the
variable beside the same classifier, one with the same argument and one with another. -/

def parcel : Classifier := ⟨0, [], "A", [.covariant], some 0⟩

def parcelOf (name : String) : Ty := .errorConst parcel [.con (.named name) []]

def slip : ErrorVar := ⟨"E$0", .unbounded, true⟩

def bundle (name : String) : Ty :=
  .con (.named "list") [.union [parcelOf name, .errorVar slip]]

def deliveryActions : List Action :=
  [.op (.freshErrorVar "E" .unbounded),
    .op (.require (.errorVar slip) (parcelOf "int") .unknown),
    .op (.annotateNode "same" (some (bundle "int"))),
    .op (.annotateNode "other" (some (bundle "str")))]

def delivery : Session := (Session.new .default (.holding 0 [parcel])).actAll deliveryActions

theorem delivery_fits : delivery.solve.2.Fits (bundle "int") := by
  intro solution w hsolution hw a ha
  cases hsolution
  cases hw
  change a ∈ [.union [parcelOf "int", .errorVar slip], .con (.named "int") []] at ha
  rcases List.mem_cons.1 ha with rfl | ha
  · have hvar : ∀ v, Ty.errorVar v ∈ [parcelOf "int", .errorVar slip] → v = slip := by
      intro v hv
      simpa [parcelOf] using hv
    constructor
    · intro v set hv hget _ x y hx
      obtain rfl := hvar v hv
      cases hget
      cases hx
    · intro v set hv hget _ c args d args' hc he _
      obtain rfl := hvar v hv
      cases hget
      cases List.mem_singleton.1 he
      have hconst : Ty.errorConst c args = parcelOf "int" := by
        rcases List.mem_cons.1 hc with hc | hc
        · exact hc
        · cases List.mem_singleton.1 hc
      rw [hconst]
      rfl
  · obtain rfl := List.mem_singleton.1 ha
    exact ⟨fun v _ hv => (by cases List.mem_singleton.1 hv),
      fun v _ hv => (by cases List.mem_singleton.1 hv)⟩

def deliverySignature : Signature :=
  ⟨"send", [.type "T" false], [.con (.named "list") [.union [.var "T" false, parcelOf "int"]]],
    .union [.var "T" false, parcelOf "int"]⟩

theorem handed_out_types_obey_grammar_delivery :
    (∀ a ∈ deliveryActions, ∀ t ∈ a.types, t.WellFormed) ∧
    (delivery.union [bundle "int", parcelOf "int"] .unknown).1.WellFormed ∧
    (∃ params returns s', delivery.instantiate deliverySignature .unknown =
        (.ok (params, returns), s') ∧ returns.WellFormed ∧ ∀ p ∈ params, p.WellFormed) ∧
    (∃ report s' u, delivery.solve = (.ok report, s') ∧ report.types.get? "same" = some u ∧
      u = .con (.named "list") [parcelOf "int"] ∧ s'.Fits (bundle "int") ∧ u.WellFormed) ∧
    ¬ delivery.solve.2.Fits (bundle "str") := by
  have hgiven : ∀ a ∈ deliveryActions, ∀ t ∈ a.types, t.WellFormed := by decide
  obtain ⟨hunion, hinst, -, hreport⟩ :=
    handed_out_types_obey_grammar (s := delivery) _ _ deliveryActions rfl hgiven
  obtain ⟨t, location, ht, -, -, -, hwell⟩ := hreport _ _ rfl "same" _ rfl
  cases ht
  obtain ⟨-, -, hresolve, -⟩ := handed_out_types_obey_grammar (s := delivery.solve.2) _ _
    (deliveryActions ++ [.solve]) rfl (by decide)
  have hbroken : ¬ (Ty.con (.named "list")
      [.union [parcelOf "str", parcelOf "int"]]).WellFormed := by decide
  exact ⟨hgiven, hunion _ _ (by decide),
    ⟨_, _, _, rfl, hinst deliverySignature .unknown _ _ _ (by decide) rfl⟩,
    ⟨_, _, _, rfl, rfl, rfl, delivery_fits, hwell delivery_fits⟩,
    fun hfits => hbroken (((hresolve (bundle "str") _ rfl).2 (by decide)).1 hfits)⟩

/-- A list of which the host named one classifier and the solution put in the other is
handed out with both. -/
theorem broken_union_in_argument :
    (∀ a ∈ deliveryActions, ∀ t ∈ a.types, t.WellFormed) ∧
    ∃ report s' u, delivery.solve = (.ok report, s') ∧ report.success = true ∧
      report.types.get? "other" = some u ∧ s'.resolve (bundle "str") = .ok u ∧
      u = .con (.named "list") [.union [parcelOf "str", parcelOf "int"]] ∧ ¬ u.WellFormed :=
  ⟨by decide, _, _, _, rfl, rfl, rfl, rfl, rfl, by decide⟩

end Session

end Fallible
