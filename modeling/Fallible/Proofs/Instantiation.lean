import Fallible.Proofs.FreshNames
import Fallible.Proofs.GraftedForms
import Fallible.Proofs.SessionTypes

/-!
# Instantiated signatures

A call works on a copy of the signature that has fresh variables in the place of its
type parameters. What is flexible in the copy was handed out for this call and for no
other, and putting the parameters back gives the types of the signature, up to the way
in which they are written.

No parameter is left in the copy, with one exception. Unions are opened up after
parameters are replaced, and only then is a type variable split into its projections. An
error parameter that is the error projection of a type variable is therefore not found,
and stays, unless the variable is a parameter too. Going back has no such exception,
since a variable that was handed out is replaced together with its projections.
-/

namespace Fallible

namespace Ty

/-! ## Maps that rebuild types -/

section Rebuilds

variable {F G : Ty → Ty}

/-- A map that rebuilds types around leaves that stay does no more than open unions up. -/
theorem Rebuilds.respell_eq (hF : Rebuilds F)
    (hleaf : ∀ x : Ty, x.isLeaf = true → x.Closed → (F x == x) = true) {t : Ty} (ht : t.Closed) :
    (F t).respell .bare = t.reopened.respell .bare := by
  have hargs : ∀ args : List Ty, (∀ a ∈ args, (F a).respell .bare = a.reopened.respell .bare) →
      (args.map F).map (respell .bare) = (args.map reopened).map (respell .bare) := by
    intro args h
    rw [List.map_map, List.map_map]
    exact List.map_congr_left h
  induction t with
  | union ms ih =>
      have hms : ∀ m ∈ ms, (F m).constituents.map (respell .bare) =
          m.reopened.constituents.map (respell .bare) := by
        intro m hm
        rw [← constituents_respell, ← constituents_respell, ih m hm (Closed.member ht hm)]
      rw [hF.union, reopened_union, unionOf, respell, respell, respellAll_eq_map,
        respellAll_eq_map, constituentsAll_eq_flatMap, constituentsAll_eq_flatMap,
        List.flatMap_map, List.flatMap_map, List.map_flatMap, List.map_flatMap]
      exact congrArg Ty.union (List.flatMap_congr hms)
  | con c args ih =>
      rw [hF.con, reopened_con, respell, respell, respellAll_eq_map, respellAll_eq_map,
        hargs args fun a ha => ih a ha (Closed.member ht ha)]
  | errorConst c args ih =>
      rw [hF.errorConst, reopened_errorConst, respell, respell, respellAll_eq_map,
        respellAll_eq_map, hargs args fun a ha => ih a ha (Closed.member ht ha)]
  | _ => exact beq_iff_respell.1 (hleaf _ rfl ht)

theorem Rebuilds.canonical_beq (hF : Rebuilds F)
    (hleaf : ∀ x : Ty, x.isLeaf = true → x.Closed → (F x == x) = true) {t : Ty} (ht : t.Closed) :
    ((F t).canonical == t.canonical) = true := by
  rw [beq_iff_respell, ← canonical_respell, hF.respell_eq hleaf ht, canonical_respell,
    canonical_reopened]

/-- What holds of the unknowns of all that takes the place of leaves holds of those of
the whole. -/
theorem Rebuilds.unknowns (hF : Rebuilds F) {Q R : Ty → Prop} (hR : Stable R)
    (hleaf : ∀ x : Ty, x.isLeaf = true → (∀ y ∈ x.unknowns, Q y) → ∀ y ∈ (F x).unknowns, R y)
    {t : Ty} (ht : ∀ y ∈ t.unknowns, Q y) : ∀ y ∈ (F t).unknowns, R y := by
  have hmember : ∀ {ms : List Ty}, (∀ y ∈ unknownsAll ms, Q y) → ∀ m ∈ ms, ∀ y ∈ m.unknowns, Q y :=
    fun h m hm y hy => h y (mem_unknownsAll.2 ⟨m, hm, hy⟩)
  induction t with
  | union ms ih =>
      intro y hy
      rw [hF.union] at hy
      obtain ⟨c, hc, hy⟩ := mem_unknownsAll.1 hy
      rw [constituentsAll_eq_flatMap, List.flatMap_map] at hc
      obtain ⟨m, hm, hc⟩ := List.mem_flatMap.1 hc
      exact hR.constituents (ih m hm (hmember ht m hm)) c hc y hy
  | con c args ih | errorConst c args ih =>
      intro y hy
      first | rw [hF.con] at hy | rw [hF.errorConst] at hy
      obtain ⟨m, hm, hy⟩ := mem_unknownsAll.1 hy
      obtain ⟨a, ha, rfl⟩ := List.mem_map.1 hm
      exact ih a ha (hmember ht a ha) y hy
  | _ => exact hleaf _ rfl ht

theorem exists_constituent_of_mentions {t : Ty} {v : ErrorVar} (hv : v ∈ t.mentions) :
    ∃ m ∈ t.constituents, v ∈ m.mentions :=
  exists_constituent (P := fun t => v ∈ t.mentions) List.not_mem_nil List.not_mem_nil
    (fun _ _ h => Or.inr h) (fun _ h => mem_mentionsAll.1 h) hv

/-- The error variables of what takes the place of an unknown are those of the whole. -/
theorem Rebuilds.mentions (hF : Rebuilds F) {t x : Ty} (hx : x ∈ t.unknowns) {v : ErrorVar}
    (hv : v ∈ (F x).mentions) : v ∈ (F t).mentions := by
  induction t with
  | union ms ih =>
      obtain ⟨m, hm, hx⟩ := mem_unknownsAll.1 hx
      obtain ⟨c, hc, hv⟩ := exists_constituent_of_mentions (ih m hm hx)
      rw [hF.union, unionOf, constituentsAll_eq_flatMap, List.flatMap_map]
      exact mem_mentionsAll.2 ⟨c, List.mem_flatMap.2 ⟨m, hm, hc⟩, hv⟩
  | con c args ih | errorConst c args ih =>
      obtain ⟨a, ha, hx⟩ := mem_unknownsAll.1 hx
      first | rw [hF.con] | rw [hF.errorConst]
      exact mem_mentionsAll.2 ⟨F a, List.mem_map_of_mem ha, ih a ha hx⟩
  | valueProj | errorVar | var => rw [← List.mem_singleton.1 hx]; exact hv
  | _ => exact absurd hx List.not_mem_nil

/-- A map that treats a type as it treats its constituents. -/
def Splits (F : Ty → Ty) : Prop :=
  ∀ t : Ty, (F t).constituents = t.constituents.flatMap fun c => (F c).constituents

/-- It is enough to look at the leaves that have two constituents or none. -/
theorem Rebuilds.splits (hF : Rebuilds F)
    (hconst : ∀ x : Ty, x.isLeaf = true → x.unknowns = [] → F x = x)
    (hvar : ∀ name flexible, (F (.var name flexible)).constituents =
      (F (.valueProj name flexible)).constituents ++
        (F (.errorVar (.ofTyVar name flexible))).constituents) : Splits F := by
  intro t
  induction t with
  | union ms ih =>
      rw [hF.union, constituents_unionOf, constituents, constituentsAll_eq_flatMap,
        constituentsAll_eq_flatMap, List.flatMap_map, List.flatMap_assoc]
      exact List.flatMap_congr ih
  | any => simp [constituents, hconst .any rfl rfl, hconst .value rfl rfl, hconst .error rfl rfl]
  | nothing => rw [hconst .nothing rfl rfl]; rfl
  | var name flexible => rw [hvar]; simp [constituents]
  | _ => simp [constituents]

theorem Rebuilds.comp (hG : Rebuilds G) (hsplits : Splits G) (hF : Rebuilds F) :
    Rebuilds fun t => G (F t) where
  union ms := by
    rw [hF.union, unionOf, hG.union, unionOf, unionOf, constituentsAll_eq_flatMap,
      constituentsAll_eq_flatMap, constituentsAll_eq_flatMap, List.flatMap_map, List.flatMap_map,
      List.flatMap_map, List.flatMap_assoc]
    exact congrArg Ty.union (List.flatMap_congr fun m _ => (hsplits (F m)).symm)
  con c args := by rw [hF.con, hG.con, List.map_map]; rfl
  errorConst c args := by rw [hF.errorConst, hG.errorConst, List.map_map]; rfl

end Rebuilds

section Subst

variable {images : Table Ty Ty} {x u : Ty}

theorem subst_of_some (h : images.get? x = some u) : x.subst images = u := by
  rw [subst.eq_def, h]

theorem subst_of_none (hleaf : x.isLeaf = true) (h : images.get? x = none) :
    x.subst images = x := by
  rw [subst.eq_def, h]
  cases x <;> first | rfl | cases hleaf

end Subst

/-! ## Variables -/

/-- The variables in a type at any depth, the projections of a type variable among
them. -/
def variablesOf (t : Ty) : List Ty := t.unknowns.flatMap fun x => x :: x.constituents

theorem unknowns_of_unknown {t x : Ty} (hx : x ∈ t.unknowns) : x.unknowns = [x] := by
  rcases unknown_cases hx with ⟨name, flexible, rfl⟩ | ⟨v, rfl⟩ | ⟨name, flexible, rfl⟩ <;> rfl

theorem mem_variablesOf_iff {t x : Ty} :
    x ∈ t.variablesOf ↔ ∃ z ∈ t.unknowns, x ∈ z.variablesOf := by
  have hself : ∀ z ∈ t.unknowns, z.variablesOf = z :: z.constituents := by
    intro z hz
    rw [variablesOf, unknowns_of_unknown hz, List.flatMap_singleton]
  rw [variablesOf, List.mem_flatMap]
  exact exists_congr fun z => and_congr_right fun hz => by rw [hself z hz]

theorem mem_variablesOf_of_mentions {t : Ty} {v : ErrorVar} (hv : v ∈ t.mentions) :
    .errorVar v ∈ t.variablesOf := by
  rcases mem_mentions_iff.1 hv with hx | ⟨name, flexible, hx, rfl⟩
  · exact List.mem_flatMap.2 ⟨_, hx, List.mem_cons_self⟩
  · exact List.mem_flatMap.2 ⟨_, hx, by simp [constituents]⟩

theorem isFlexible_congr {x y : Ty} (h : (x == y) = true) : x.isFlexible = y.isFlexible := by
  rw [beq_iff] at h
  cases x with
  | errorVar v =>
      cases y with
      | errorVar w =>
          have hflexible := congrArg ErrorVar.flexible (Ty.errorVar.inj h)
          exact hflexible
      | _ => cases h
  | _ => cases y <;> first | rfl | (cases h <;> rfl)

theorem isLeaf_congr {x y : Ty} (h : (x == y) = true) : x.isLeaf = y.isLeaf := by
  rw [beq_iff] at h
  cases x <;> cases y <;> first | rfl | cases h

theorem Stable.variablesOf {R : Ty → Prop} (hR : Stable R) {t : Ty} (ht : ∀ x ∈ t.unknowns, R x) :
    ∀ x ∈ t.variablesOf, R x := by
  intro x hx
  obtain ⟨y, hy, hx⟩ := List.mem_flatMap.1 hx
  have hy' := ht y hy
  rcases List.mem_cons.1 hx with rfl | hx
  · exact hy'
  · rcases unknown_cases hy with ⟨name, flexible, rfl⟩ | ⟨v, rfl⟩ | ⟨name, flexible, rfl⟩
    · obtain rfl := List.mem_singleton.1 hx; exact hy'
    · obtain rfl := List.mem_singleton.1 hx; exact hy'
    · rcases List.mem_pair.1 hx with rfl | rfl
      · exact (hR name flexible hy').1
      · exact (hR name flexible hy').2

end Ty

namespace TypeParam

variable {n : Nat} {ps : List TypeParam}

/-- A type variable and its projections are told from those of another one. -/
theorem eq_of_shared {a b : String} {f g : Bool} {x y : Ty} (hx : x ∈ (type a f).unknowns)
    (hy : y ∈ (type b g).unknowns) (hxy : (x == y) = true) : a = b ∧ f = g := by
  rw [Ty.beq_iff] at hxy
  simp only [unknowns, List.mem_cons, List.not_mem_nil, or_false] at hx hy
  rcases hx with rfl | rfl | rfl <;> rcases hy with rfl | rfl | rfl <;>
    simp_all [Ty.bare, ErrorVar.bare, ErrorVar.ofTyVar]

/-- What is handed out for a type parameter is handed out with its projections, and
no error variable that is handed out is such a projection. -/
theorem renewal_of_split {k u y : Ty} {name : String} {flexible : Bool}
    (he : (k, u) ∈ renewals n ps) (hy : y ∈ (type name flexible).unknowns)
    (huy : (u == y) = true) :
    ∃ base rigid, ∀ d ∈ (type base rigid).unknowns.zip (type name flexible).unknowns,
      d ∈ renewals n ps := by
  obtain ⟨p, -, m, -, -, he, hall⟩ := renewals_cases he
  have hu := (List.of_mem_zip he).2
  cases p with
  | type base rigid =>
      obtain ⟨rfl, rfl⟩ := eq_of_shared hu hy huy
      exact ⟨base, rigid, hall⟩
  | error v =>
      obtain rfl := List.mem_singleton.1 hu
      rw [Ty.beq_iff] at huy
      simp only [unknowns, List.mem_cons, List.not_mem_nil, or_false] at hy
      rcases hy with rfl | rfl | rfl
      · cases huy
      · cases huy
      · have hname := congrArg ErrorVar.name (Ty.errorVar.inj huy)
        exact absurd hname (issuedName_ne_projection _ _ _)

end TypeParam

namespace Signature

/-! ## Putting the parameters back -/

variable {sig : Signature} {n : Nat} {t x u k : Ty}

/-- What undoes an instantiation: each parameter in the place of what was handed out
for it. -/
def originals (sig : Signature) (n : Nat) : Table Ty Ty :=
  .ofList ((TypeParam.renewals n sig.typeParams).map Prod.swap)

theorem get?_originals_of_mem (h : (k, u) ∈ TypeParam.renewals n sig.typeParams) :
    (sig.originals n).get? u = some k := by
  have hdistinct :
      (Table.mk ((TypeParam.renewals n sig.typeParams).map Prod.swap)).Distinct := by
    rw [Table.Distinct, Table.keys, List.map_map, List.pairwise_map]
    exact TypeParam.pairwise_renewals sig.typeParams n
  rw [originals, Table.ofList_of_distinct hdistinct]
  exact hdistinct.get?_of_mem (e := (u, k)) (List.mem_map.2 ⟨(k, u), h, rfl⟩)

theorem mem_of_get?_originals (h : (sig.originals n).get? x = some k) :
    ∃ u, (k, u) ∈ TypeParam.renewals n sig.typeParams ∧ (u == x) = true := by
  obtain ⟨u, hu, hux⟩ := Table.mem_of_get?_ofList h
  obtain ⟨e, he, heq⟩ := List.mem_map.1 hu
  obtain rfl : e = (k, u) := by rw [← Prod.swap_swap e, heq]; rfl
  exact ⟨u, he, hux⟩

theorem isFlexible_of_get?_originals (h : (sig.originals n).get? x = some k) :
    x.isFlexible = true := by
  obtain ⟨u, hu, hux⟩ := mem_of_get?_originals h
  obtain ⟨p, -, m, -, -, he, -⟩ := TypeParam.renewals_cases hu
  rw [← Ty.isFlexible_congr hux]
  exact (TypeParam.numbered_of_renewed (List.of_mem_zip he).2).isFlexible

theorem get?_originals_eq_none (h : x.isFlexible = false) : (sig.originals n).get? x = none := by
  refine Option.eq_none_iff_forall_ne_some.2 fun k hk => ?_
  rw [isFlexible_of_get?_originals hk] at h
  cases h

theorem rebuilds_originals (sig : Signature) (n : Nat) :
    Ty.Rebuilds (Ty.subst (sig.originals n)) := by
  refine Ty.rebuilds_subst fun x k hk => ?_
  have hx := isFlexible_of_get?_originals hk
  cases x <;> first | rfl | cases hx

theorem splits_originals (sig : Signature) (n : Nat) : Ty.Splits (Ty.subst (sig.originals n)) := by
  refine (rebuilds_originals sig n).splits (fun x hleaf hx => ?_) fun name flexible => ?_
  · refine Ty.subst_of_none hleaf (get?_originals_eq_none ?_)
    cases x <;> first | rfl | cases hx
  · by_cases hsome : ∃ y ∈ (TypeParam.type name flexible).unknowns, ∃ k,
        (sig.originals n).get? y = some k
    · obtain ⟨y, hy, k, hk⟩ := hsome
      obtain ⟨u, hu, huy⟩ := mem_of_get?_originals hk
      obtain ⟨base, rigid, hall⟩ := TypeParam.renewal_of_split hu hy huy
      have hget : ∀ {k u : Ty}, (k, u) ∈ (TypeParam.type base rigid).unknowns.zip
          (TypeParam.type name flexible).unknowns → u.subst (sig.originals n) = k :=
        fun h => Ty.subst_of_some (get?_originals_of_mem (hall _ h))
      rw [hget (k := .var base rigid) (by simp [TypeParam.unknowns]),
        hget (k := .valueProj base rigid) (by simp [TypeParam.unknowns]),
        hget (k := .errorVar (.ofTyVar base rigid)) (by simp [TypeParam.unknowns])]
      rfl
    · have hget : ∀ y ∈ (TypeParam.type name flexible).unknowns,
          y.isLeaf = true → y.subst (sig.originals n) = y := fun y hy hleaf =>
        Ty.subst_of_none hleaf
          (Option.eq_none_iff_forall_ne_some.2 fun k hk => hsome ⟨y, hy, k, hk⟩)
      rw [hget (.var name flexible) (by simp [TypeParam.unknowns]) rfl,
        hget (.valueProj name flexible) (by simp [TypeParam.unknowns]) rfl,
        hget (.errorVar (.ofTyVar name flexible)) (by simp [TypeParam.unknowns]) rfl]
      rfl

theorem mem_of_get?_images (h : (sig.images n).get? x = some u) :
    ∃ k, (k, u) ∈ TypeParam.renewals n sig.typeParams ∧ (k == x) = true :=
  Table.mem_of_get?_ofList h

theorem rebuilds_images (sig : Signature) (n : Nat) : Ty.Rebuilds (Ty.subst (sig.images n)) := by
  refine Ty.rebuilds_subst fun x u hu => ?_
  obtain ⟨k, hk, hkx⟩ := mem_of_get?_images hu
  obtain ⟨p, -, m, -, -, he, -⟩ := TypeParam.renewals_cases hk
  have hmem := (List.of_mem_zip he).1
  rw [← Ty.isLeaf_congr hkx]
  cases p <;> simp only [TypeParam.unknowns, List.mem_cons, List.not_mem_nil, or_false] at hmem
  · rcases hmem with rfl | rfl | rfl <;> rfl
  · rw [hmem]; rfl

/-- Putting the parameters back gives the type of the signature. -/
theorem canonical_restored (ht : t.Closed) :
    (((t.subst (sig.images n)).subst (sig.originals n)).canonical == t.canonical) = true := by
  refine Ty.Rebuilds.canonical_beq
    ((rebuilds_originals sig n).comp (splits_originals sig n) (rebuilds_images sig n))
    (fun x hleaf hx => ?_) ht
  cases hget : (sig.images n).get? x with
  | some u =>
      obtain ⟨k, hk, hkx⟩ := mem_of_get?_images hget
      rw [Ty.subst_of_some hget, Ty.subst_of_some (get?_originals_of_mem hk)]
      exact hkx
  | none =>
      have hrigid : x.isFlexible = false := by
        cases x with
        | valueProj | var | errorVar => exact hx _ List.mem_cons_self
        | _ => rfl
      rw [Ty.subst_of_none hleaf hget, Ty.subst_of_none hleaf (get?_originals_eq_none hrigid)]
      exact BEq.rfl

/-! ## What is left of the parameters -/

theorem beq_eq_false_of_get?_images (h : (sig.images n).get? x = none) {p : TypeParam}
    (hp : p ∈ sig.typeParams) {y : Ty} (hy : y ∈ p.unknowns) : (x == y) = false := by
  obtain ⟨u, hu⟩ := TypeParam.exists_renewal (n := n) hp hy
  rw [Table.get?_eq_none, images, Table.contains_ofList, List.any_eq_false] at h
  rw [Bool.eq_false_iff]
  exact fun hxy => h (y, u) hu (BEq.symm hxy)

/-- A type variable that is no parameter is not replaced. -/
theorem get?_images_var {name : String} {flexible : Bool}
    (hparam : .type name flexible ∉ sig.typeParams) :
    (sig.images n).get? (.var name flexible) = none := by
  refine Option.eq_none_iff_forall_ne_some.2 fun u hu => ?_
  obtain ⟨k, hk, hkx⟩ := mem_of_get?_images hu
  obtain ⟨p, hp, m, -, -, he, -⟩ := TypeParam.renewals_cases hk
  have hmem := (List.of_mem_zip he).1
  cases p with
  | type base rigid =>
      obtain ⟨rfl, rfl⟩ := TypeParam.eq_of_shared hmem (y := .var name flexible)
        List.mem_cons_self hkx
      exact hparam hp
  | error v =>
      obtain rfl := List.mem_singleton.1 hmem
      rw [Ty.beq_iff] at hkx
      cases hkx

/-- Whether no variable in the type is one of a parameter. -/
def Free (sig : Signature) (t : Ty) : Prop :=
  ∀ x ∈ t.variablesOf, ∀ p ∈ sig.typeParams, ∀ y ∈ p.unknowns, (x == y) = false

/-- Whether no type variable in the type, unless it is a parameter itself, has an error
parameter as its error projection. -/
def Separate (sig : Signature) (t : Ty) : Prop :=
  ∀ name flexible, .var name flexible ∈ t.unknowns → .type name flexible ∉ sig.typeParams →
    ∀ v, .error v ∈ sig.typeParams → (v == .ofTyVar name flexible) = false

/-- Variables that were handed out are no parameters. -/
theorem free_of_numbered {m : Nat}
    (hrigid : ∀ p ∈ sig.typeParams, ∀ y ∈ p.unknowns, y.isFlexible = false) (hu : u.Numbered m) :
    sig.Free u := by
  have hall : ∀ z ∈ u.unknowns, z.Numbered m := by
    intro z hz
    rw [hu.unknowns_eq] at hz
    rw [List.mem_singleton.1 hz]
    exact hu
  intro c hc p hp y hy
  rw [Bool.eq_false_iff]
  intro hcy
  have hflexible := ((Ty.Numbered.stable m).variablesOf hall c hc).isFlexible
  rw [Ty.isFlexible_congr hcy, hrigid p hp y hy] at hflexible
  cases hflexible

/-- Variables that stay are no parameters, if their projections are none. -/
theorem free_of_get?_images (hget : (sig.images n).get? x = none) (hleaf : x.isLeaf = true)
    (hx : sig.Separate x) : sig.Free x := by
  have hne : ∀ p ∈ sig.typeParams, ∀ y ∈ p.unknowns, (x == y) = false :=
    fun _ hp _ hy => beq_eq_false_of_get?_images hget hp hy
  intro c hc p hp y hy
  cases x with
  | union | con | errorConst => cases hleaf
  | valueProj | errorVar =>
      obtain rfl : c = _ := by simpa [Ty.variablesOf, Ty.unknowns, Ty.constituents] using hc
      exact hne p hp y hy
  | var name flexible =>
      have hparam : .type name flexible ∉ sig.typeParams := by
        intro h
        have hvar := hne _ h (.var name flexible) List.mem_cons_self
        rw [BEq.rfl] at hvar
        cases hvar
      have hmem : c ∈ (TypeParam.type name flexible).unknowns := by
        simpa [Ty.variablesOf, Ty.unknowns, Ty.constituents, TypeParam.unknowns] using hc
      rw [Bool.eq_false_iff]
      intro hcy
      cases p with
      | type base rigid =>
          obtain ⟨rfl, rfl⟩ := TypeParam.eq_of_shared hmem hy hcy
          exact hparam hp
      | error v =>
          obtain rfl := List.mem_singleton.1 hy
          have hsep := hx name flexible List.mem_cons_self hparam v hp
          rw [Ty.beq_iff] at hcy
          simp only [TypeParam.unknowns, List.mem_cons, List.not_mem_nil, or_false] at hmem
          rcases hmem with rfl | rfl | rfl
          · cases hcy
          · cases hcy
          · rw [ErrorVar.beq_iff_bare.2 (Ty.errorVar.inj hcy).symm] at hsep
            cases hsep
  | _ => exact absurd hc List.not_mem_nil

theorem free_subst_of_isLeaf
    (hrigid : ∀ p ∈ sig.typeParams, ∀ y ∈ p.unknowns, y.isFlexible = false)
    (hleaf : x.isLeaf = true) (hx : sig.Separate x) : sig.Free (x.subst (sig.images n)) := by
  cases hget : (sig.images n).get? x with
  | some u =>
      obtain ⟨k, hk, -⟩ := mem_of_get?_images hget
      obtain ⟨p, -, m, -, -, he, -⟩ := TypeParam.renewals_cases hk
      rw [Ty.subst_of_some hget]
      exact free_of_numbered hrigid (TypeParam.numbered_of_renewed (List.of_mem_zip he).2)
  | none =>
      rw [Ty.subst_of_none hleaf hget]
      exact free_of_get?_images hget hleaf hx

theorem stable_free (sig : Signature) : Ty.Stable sig.Free := by
  intro name flexible h
  constructor
  all_goals
    intro x hx
    refine h x ?_
    simp only [Ty.variablesOf, Ty.unknowns, Ty.constituents, List.flatMap_cons, List.flatMap_nil,
      List.mem_cons, List.append_nil, List.not_mem_nil, or_false, or_self] at hx ⊢
    simp only [hx, true_or, or_true]

/-- Exactly the types with a variable whose error projection is an error parameter keep
that parameter. -/
theorem free_subst_iff
    (hrigid : ∀ p ∈ sig.typeParams, ∀ y ∈ p.unknowns, y.isFlexible = false) :
    sig.Free (t.subst (sig.images n)) ↔ sig.Separate t := by
  constructor
  · intro hfree name flexible hx hparam v hv
    have hmention : .ofTyVar name flexible ∈ (t.subst (sig.images n)).mentions := by
      refine (rebuilds_images sig n).mentions hx ?_
      rw [Ty.subst_of_none rfl (get?_images_var hparam)]
      exact List.mem_singleton.2 rfl
    have hne := hfree _ (Ty.mem_variablesOf_of_mentions hmention) _ hv _ List.mem_cons_self
    rw [BEq.comm]
    exact hne
  · intro hsep c hc
    obtain ⟨z, hz, hc⟩ := Ty.mem_variablesOf_iff.1 hc
    refine (rebuilds_images sig n).unknowns (Q := sig.Separate) (stable_free sig)
      (fun x hleaf hx y hy => ?_) (fun y hy name flexible hvar => ?_) z hz c hc
    · have hxsep : sig.Separate x := fun name flexible hvar =>
        hx _ hvar name flexible List.mem_cons_self
      exact fun d hd => free_subst_of_isLeaf hrigid hleaf hxsep d
        (Ty.mem_variablesOf_iff.2 ⟨y, hy, hd⟩)
    · rw [Ty.unknowns_of_unknown hy] at hvar
      obtain rfl := List.mem_singleton.1 hvar
      exact hsep name flexible hy

/-! ## What is flexible in an instantiated type -/

/-- A type variable is handed out together with its projections. -/
theorem stable_renewed (sig : Signature) (n : Nat) : Ty.Stable fun z => z.isFlexible = true →
    ∃ q ∈ TypeParam.renewedFrom n sig.typeParams, z ∈ q.unknowns := by
  intro name flexible h
  have hq : flexible = true → .type name flexible ∈ TypeParam.renewedFrom n sig.typeParams := by
    intro hf
    obtain ⟨q, hq, hmem⟩ := h hf
    cases q with
    | type base rigid =>
        obtain ⟨rfl, rfl⟩ : name = base ∧ flexible = rigid := by
          simpa [TypeParam.unknowns] using hmem
        exact hq
    | error v => cases List.mem_singleton.1 hmem
  exact ⟨fun hf => ⟨_, hq hf, by simp [TypeParam.unknowns]⟩,
    fun hf => ⟨_, hq hf, by simp [TypeParam.unknowns]⟩⟩

/-- What is flexible in an instantiated type was handed out for it. -/
theorem renewed_of_isFlexible (ht : t.Closed) (hx : x ∈ (t.subst (sig.images n)).variablesOf)
    (hflexible : x.isFlexible = true) :
    ∃ q ∈ TypeParam.renewedFrom n sig.typeParams, x ∈ q.unknowns := by
  have hstable := stable_renewed sig n
  refine hstable.variablesOf ((rebuilds_images sig n).unknowns hstable
    (fun y hleaf hy z hz hf => ?_) ht) x hx hflexible
  cases hget : (sig.images n).get? y with
  | some u =>
      obtain ⟨k, hk, -⟩ := mem_of_get?_images hget
      obtain ⟨p, -, m, -, hq, he, -⟩ := TypeParam.renewals_cases hk
      have hu := (List.of_mem_zip he).2
      rw [Ty.subst_of_some hget, (TypeParam.numbered_of_renewed hu).unknowns_eq] at hz
      exact ⟨_, hq, List.mem_singleton.1 hz ▸ hu⟩
  | none =>
      rw [Ty.subst_of_none hleaf hget] at hz
      rw [hy z hz] at hf
      cases hf

theorem variablesOf_handedOut (hx : x ∈ (sig.handedOut n t).variablesOf) :
    x ∈ (t.subst (sig.images n)).variablesOf := by
  rcases handedOut_cases sig n t with ⟨cause, -, hcopy⟩ | hcopy
  · rw [hcopy] at hx
    exact absurd hx List.not_mem_nil
  · rw [hcopy] at hx
    exact hx

theorem numbered_of_isFlexible (ht : t.Closed) (hx : x ∈ (sig.handedOut n t).variablesOf)
    (hflexible : x.isFlexible = true) :
    ∃ m, n ≤ m ∧ m < n + sig.typeParams.length ∧ x.Numbered m := by
  obtain ⟨q, hq, hmem⟩ := renewed_of_isFlexible ht (variablesOf_handedOut hx) hflexible
  exact TypeParam.numbered_of_mem_renewedFrom hq hmem

/-- Two instantiations share nothing flexible, if the numbers of the later one begin
where those of the earlier one end. -/
theorem disjoint_handedOut {sig' : Signature} {n' : Nat} {t' x' : Ty}
    (hn : n + sig.typeParams.length ≤ n') (ht : t.Closed) (ht' : t'.Closed)
    (hx : x ∈ (sig.handedOut n t).variablesOf) (hflexible : x.isFlexible = true)
    (hx' : x' ∈ (sig'.handedOut n' t').variablesOf) : (x == x') = false := by
  rw [Bool.eq_false_iff]
  intro hsame
  have hflexible' := (Ty.isFlexible_congr hsame).symm.trans hflexible
  obtain ⟨m, -, hlt, hm⟩ := numbered_of_isFlexible ht hx hflexible
  obtain ⟨m', hle, -, hm'⟩ := numbered_of_isFlexible ht' hx' hflexible'
  have heq := hm.eq_of_beq hm' hsame
  omega

end Signature

namespace Session

/-- Instantiating a signature gives fresh copies of its types. Whatever is flexible in
them was handed out by the call, and nothing of it comes back in a later instantiation
of any signature. A copy that was not reported is, with the parameters put back, the
type of the signature; and no parameter is left in it, exactly if no error parameter is
the projection of a type variable there that is no parameter. -/
theorem instantiation_hygienic {s : Session} (hopen : s.status = .active) {sig : Signature}
    (hrigid : ∀ p ∈ sig.typeParams, ∀ y ∈ p.unknowns, y.isFlexible = false)
    (hclosed : ∀ t ∈ sig.types, t.Closed) (location : Location) :
    ∃ params returns s', s.instantiate sig location = (.ok (params, returns), s') ∧
      Reports (s.issueAll ((TypeParam.renewedFrom s.counter sig.typeParams).map
        TypeParam.errorVar)) s' ∧
      (∀ u ∈ returns :: params, ∀ x ∈ u.variablesOf, x.isFlexible = true →
        ∃ q ∈ TypeParam.renewedFrom s.counter sig.typeParams, x ∈ q.unknowns) ∧
      List.Forall₂ (fun t u =>
        (∃ cause, Grammar.violation? (t.subst (sig.images s.counter)) = some cause ∧
          u = .erroneous ∧ ⟨location, cause⟩ ∈ s'.diagnostics) ∨
        ((u.subst (sig.originals s.counter)).canonical == t.canonical) = true ∧
          (sig.Free u ↔ sig.Separate t)) sig.types (returns :: params) ∧
      ∀ acts sig' location' params' returns' s'', (∀ t ∈ sig'.types, t.Closed) →
        (s'.actAll acts).instantiate sig' location' = (.ok (params', returns'), s'') →
        ∀ u ∈ returns :: params, ∀ u' ∈ returns' :: params', ∀ x ∈ u.variablesOf,
          x.isFlexible = true → ∀ x' ∈ u'.variablesOf, (x == x') = false := by
  have htypes : ∀ (sig : Signature) (n : Nat),
      sig.handedOut n sig.returns :: sig.params.map (sig.handedOut n) =
        sig.types.map (sig.handedOut n) := fun _ _ => rfl
  refine ⟨_, _, _, instantiate_eq (fun _ => hopen) location, ⟨_, rfl⟩, ?_, ?_, ?_⟩
  · rw [htypes]
    intro u hu x hx hflexible
    obtain ⟨t, ht, rfl⟩ := List.mem_map.1 hu
    exact Signature.renewed_of_isFlexible (hclosed t ht) (Signature.variablesOf_handedOut hx)
      hflexible
  · rw [htypes, List.forall₂_map_right_iff, List.forall₂_same]
    intro t ht
    rcases sig.handedOut_cases s.counter t with ⟨cause, hv, hcopy⟩ | hcopy
    · have hcause := Signature.mem_violations ht hv
      exact Or.inl ⟨cause, hv, hcopy, List.mem_append_right _ (List.mem_map.2 ⟨cause, hcause, rfl⟩)⟩
    · rw [hcopy]
      exact Or.inr ⟨Signature.canonical_restored (hclosed t ht), Signature.free_subst_iff hrigid⟩
  · intro acts sig' location' params' returns' s'' hclosed' hlater u hu u' hu' x hx hflexible x' hx'
    have hcopies := (instantiate_eq (active_of_instantiate hlater) location').symm.trans hlater
    obtain ⟨⟨rfl, rfl⟩, -⟩ : (_ ∧ _) ∧ _ := by
      simpa only [Prod.mk.injEq, Except.ok.injEq] using hcopies
    rw [htypes] at hu hu'
    obtain ⟨t, ht, rfl⟩ := List.mem_map.1 hu
    obtain ⟨t', ht', rfl⟩ := List.mem_map.1 hu'
    have hcount := counter_instantiate_of_active hopen sig location
    rw [instantiate_eq (fun _ => hopen)] at hcount
    exact Signature.disjoint_handedOut (hcount.symm.le.trans (counter_actAll _ acts))
      (hclosed t ht) (hclosed' t' ht') hx hflexible hx'

/-! The error parameter of one signature is the error projection of its type parameter;
that of the other is the error projection of a type variable that is none. -/

def relaySignature : Signature :=
  ⟨"relay", [.type "T" false, .error (.ofTyVar "T" false)],
    [.union [.var "T" false], .errorVar (.ofTyVar "T" false)],
    .con (.named "list") [.union [.valueProj "T" false, .errorVar (.ofTyVar "T" false)]]⟩

def spillSignature : Signature :=
  ⟨"spill", [.error (.ofTyVar "U" false)], [.union [.var "U" false]],
    .union [.valueProj "U" false, .errorVar (.ofTyVar "U" false)]⟩

theorem instantiation_hygienic_relay :
    (new .default (.new 0)).status = .active ∧
    (∀ p ∈ relaySignature.typeParams, ∀ y ∈ p.unknowns, y.isFlexible = false) ∧
    (∀ t ∈ relaySignature.types, t.Closed) ∧
    ∃ params returns s',
      (new .default (.new 0)).instantiate relaySignature .unknown = (.ok (params, returns), s') ∧
      List.Forall₂ (fun t u => relaySignature.Free u ∧
          ((u.subst (relaySignature.originals 0)).canonical == t.canonical) = true)
        relaySignature.types (returns :: params) := by
  have hrigid : ∀ p ∈ relaySignature.typeParams, ∀ y ∈ p.unknowns, y.isFlexible = false := by
    decide
  have hclosed : ∀ t ∈ relaySignature.types, t.Closed := by decide
  have hproper : ∀ t ∈ relaySignature.types,
      Grammar.violation? (t.subst (relaySignature.images 0)) = none := by decide +kernel
  have hseparate : ∀ t ∈ relaySignature.types, relaySignature.Separate t := by
    intro t ht name flexible hvar hparam
    have hT : .var name flexible ∈ Ty.unknownsAll relaySignature.types :=
      Ty.mem_unknownsAll.2 ⟨t, ht, hvar⟩
    obtain ⟨rfl, rfl⟩ : name = "T" ∧ flexible = false := by
      simpa [relaySignature, Signature.types, Ty.unknownsAll, Ty.unknowns] using hT
    exact absurd List.mem_cons_self hparam
  obtain ⟨params, returns, s', hinst, -, -, hcopies, -⟩ :=
    instantiation_hygienic (s := new .default (.new 0)) rfl hrigid hclosed .unknown
  refine ⟨rfl, hrigid, hclosed, params, returns, s', hinst, ?_⟩
  refine ((List.forall₂_and_left _ _).2 ⟨fun t ht => And.intro (hproper t ht) (hseparate t ht),
    hcopies⟩).imp fun t u h => ?_
  obtain ⟨⟨hnone, hsep⟩, ⟨cause, hv, -⟩ | ⟨hback, hfree⟩⟩ := h
  · cases hnone.symm.trans hv
  · exact ⟨hfree.2 hsep, hback⟩

/-- A parameter stays if it is the projection of a type variable that is split only
after parameters are replaced; where the variable was split before, it goes. -/
theorem not_instantiation_hygienic_spill :
    (∀ p ∈ spillSignature.typeParams, ∀ y ∈ p.unknowns, y.isFlexible = false) ∧
    (∀ t ∈ spillSignature.types, t.Closed) ∧
    ((new .default (.new 0)).instantiate spillSignature .unknown).1 =
      .ok ([.union [.valueProj "U" false, .errorVar (.ofTyVar "U" false)]],
        .union [.valueProj "U" false, .errorVar ⟨"U|_e$0", .unbounded, true⟩]) ∧
    ¬ spillSignature.Free (.union [.valueProj "U" false, .errorVar (.ofTyVar "U" false)]) := by
  refine ⟨by decide, by decide, rfl, fun h => ?_⟩
  have hself := h (.errorVar (.ofTyVar "U" false)) (by simp [Ty.variablesOf, Ty.unknowns,
    Ty.unknownsAll]) _ List.mem_cons_self _ List.mem_cons_self
  rw [BEq.rfl] at hself
  cases hself

end Session

end Fallible
