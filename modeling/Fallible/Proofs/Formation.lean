import Fallible.Proofs.Kinds
import Fallible.Proofs.Stability
import Mathlib.Data.List.Flatten

/-!
# Types that are well-formed at every depth

A type is well-formed if its constituents obey the grammar and so do those of
every argument in it, however deep. Normalising keeps that, and so do two kinds
of rewriting: writing out bindings, and putting fresh variables in the place of
type parameters. Both rebuild a type around what they put in the place of its
leaves, and what takes the place of a leaf is of the same kind, or is nothing.
-/

namespace Fallible

namespace Ty

open Grammar (Proper kind)

/-! ## Arguments -/

/-- Whether the arguments in a type, at any depth, obey the grammar. -/
def WellFormedWithin (t : Ty) : Prop := ∀ a ∈ t.arguments, Proper a.constituents

theorem proper_of_mem_union {m : Ty} {ms : List Ty} (h : Proper (Ty.union ms).constituents)
    (hm : m ∈ ms) : Proper m.constituents := by
  refine h.of_kinds (List.Sublist.map _ ?_)
  rw [constituents, constituentsAll_eq_flatMap]
  exact List.sublist_flatten_of_mem (List.mem_map_of_mem hm)

theorem wellFormed_iff {t : Ty} :
    t.WellFormed ↔ Proper t.constituents ∧ t.WellFormedWithin := by
  constructor
  · intro h
    exact ⟨Grammar.violation?_eq_none_iff.1 (h t t.mem_subterms_self), fun a ha =>
      Grammar.violation?_eq_none_iff.1 (h a (mem_subterms_of_arguments ha))⟩
  · rintro ⟨htop, hargs⟩ u hu
    refine Grammar.violation?_eq_none_iff.2 ?_
    induction t with
    | union ms ih =>
        rcases List.mem_cons.1 hu with rfl | hu
        · exact htop
        · obtain ⟨m, hm, hu⟩ := mem_subtermsAll.1 hu
          exact ih m hm (proper_of_mem_union htop hm)
            (fun a ha => hargs a (mem_argumentsAll.2 ⟨m, hm, ha⟩)) hu
    | con c args ih | errorConst c args ih =>
        rcases List.mem_cons.1 hu with rfl | hu
        · exact htop
        · obtain ⟨m, hm, hu⟩ := mem_subtermsAll.1 hu
          have hm' : ∀ {a : Ty}, a ∈ m.arguments → a ∈ args ++ argumentsAll args :=
            fun ha => List.mem_append_right _ (mem_argumentsAll.2 ⟨m, hm, ha⟩)
          exact ih m hm (hargs m (List.mem_append_left _ hm)) (fun a ha => hargs a (hm' ha)) hu
    | _ =>
        obtain rfl := List.mem_singleton.1 hu
        exact htop

namespace WellFormed

variable {t : Ty}

theorem top (h : t.WellFormed) : Proper t.constituents := (wellFormed_iff.1 h).1

theorem within (h : t.WellFormed) : t.WellFormedWithin := (wellFormed_iff.1 h).2

theorem of_mem_arguments (h : t.WellFormed) {a : Ty} (ha : a ∈ t.arguments) : a.WellFormed :=
  wellFormed_iff.2 ⟨h.within a ha, fun b hb => h.within b (arguments_trans ha hb)⟩

theorem of_mem_constituents (h : t.WellFormed) {m : Ty} (hm : m ∈ t.constituents) :
    m.WellFormed := by
  refine wellFormed_iff.2 ⟨?_, fun a ha => h.within a (arguments_of_mem hm ha)⟩
  rw [constituents_of_mem hm]
  exact .singleton m

theorem valuePart (h : t.WellFormed) : t.valuePart.WellFormed := by
  rcases t.valuePart_mem with hv | hv
  · rw [hv]
    decide
  · exact h.of_mem_constituents hv

end WellFormed

/-! ## Normalising -/

theorem mem_arguments_ofListed {ms : List Ty} {a : Ty} (h : a ∈ (ofListed ms).arguments) :
    ∃ m ∈ ms, a ∈ m.arguments := by
  unfold ofListed at h
  split at h
  · exact absurd h List.not_mem_nil
  · exact ⟨_, List.mem_cons_self, h⟩
  · exact mem_argumentsAll.1 h

theorem mem_arguments_canonical {t a : Ty} (h : a ∈ t.canonical.arguments) :
    ∃ x ∈ t.arguments, a = x.canonical := by
  induction t with
  | union ms ih =>
      rcases canonical_union_cases ms with hc | ⟨listed, hc, hfrom⟩
      · rw [hc] at h
        exact absurd h List.not_mem_nil
      · rw [hc] at h
        obtain ⟨m, hm, ha⟩ := mem_arguments_ofListed h
        obtain ⟨y, hy, hm⟩ := hfrom m hm
        obtain ⟨x, hx, rfl⟩ := ih y hy (arguments_of_mem hm ha)
        exact ⟨x, mem_argumentsAll.2 ⟨y, hy, hx⟩, rfl⟩
  | con c args ih | errorConst c args ih =>
      rw [canonical, canonicalAll_eq_map, arguments, List.mem_append, mem_argumentsAll] at h
      rcases h with h | ⟨m, hm, h⟩
      · obtain ⟨x, hx, rfl⟩ := List.mem_map.1 h
        exact ⟨x, List.mem_append_left _ hx, rfl⟩
      · obtain ⟨y, hy, rfl⟩ := List.mem_map.1 hm
        obtain ⟨x, hx, rfl⟩ := ih y hy h
        exact ⟨x, List.mem_append_right _ (mem_argumentsAll.2 ⟨y, hy, hx⟩), rfl⟩
  | _ => exact absurd h List.not_mem_nil

theorem WellFormedWithin.canonical {t : Ty} (h : t.WellFormedWithin) :
    t.canonical.WellFormedWithin := by
  intro a ha
  obtain ⟨x, hx, rfl⟩ := mem_arguments_canonical ha
  exact (h x hx).canonical

theorem WellFormed.canonical {t : Ty} (h : t.WellFormed) : t.canonical.WellFormed :=
  wellFormed_iff.2 ⟨h.top.canonical, h.within.canonical⟩

/-- A union of well-formed members is well-formed if the members obey the grammar. -/
theorem wellFormed_unionOf {ms : List Ty} (hms : ∀ m ∈ ms, m.WellFormed)
    (h : Grammar.check ms = none) : (unionOf ms).WellFormed := by
  refine wellFormed_iff.2 ⟨?_, fun a ha => ?_⟩
  · rw [constituents_unionOf]
    exact Grammar.check_eq_none_iff.1 h
  · obtain ⟨m, hm, ha⟩ := mem_arguments_unionOf ha
    exact (hms m hm).within a ha

/-! ## Rebuilding -/

/-- Whether a type has no parts. -/
def isLeaf : Ty → Bool
  | .union _ | .con .. | .errorConst .. => false
  | _ => true

theorem arguments_of_isLeaf {x : Ty} (h : x.isLeaf = true) : x.arguments = [] := by
  cases x <;> first | rfl | cases h

theorem within_of_isLeaf {x : Ty} (h : x.isLeaf = true) : x.WellFormedWithin := by
  intro a ha
  rw [arguments_of_isLeaf h] at ha
  cases ha

/-- A map that rebuilds types around what it puts in the place of leaves. -/
structure Rebuilds (F : Ty → Ty) : Prop where
  union : ∀ ms, F (.union ms) = unionOf (ms.map F)
  con : ∀ c args, F (.con c args) = .con c (args.map F)
  errorConst : ∀ c args, F (.errorConst c args) = .errorConst c (args.map F)

section Rebuilds

variable {F : Ty → Ty} (hF : Rebuilds F)

include hF

theorem Rebuilds.mem_arguments {t a : Ty} (h : a ∈ (F t).arguments) :
    (∃ x ∈ t.arguments, a = F x) ∨ ∃ x, x.isLeaf = true ∧ a ∈ (F x).arguments := by
  induction t with
  | union ms ih =>
      rw [hF.union] at h
      obtain ⟨m, hm, ha⟩ := mem_arguments_unionOf h
      obtain ⟨y, hy, rfl⟩ := List.mem_map.1 hm
      refine (ih y hy ha).imp_left ?_
      rintro ⟨x, hx, rfl⟩
      exact ⟨x, mem_argumentsAll.2 ⟨y, hy, hx⟩, rfl⟩
  | con c args ih | errorConst c args ih =>
      first | rw [hF.con] at h | rw [hF.errorConst] at h
      rw [arguments, List.mem_append, mem_argumentsAll] at h
      rcases h with h | ⟨m, hm, h⟩
      · obtain ⟨x, hx, rfl⟩ := List.mem_map.1 h
        exact Or.inl ⟨x, List.mem_append_left _ hx, rfl⟩
      · obtain ⟨y, hy, rfl⟩ := List.mem_map.1 hm
        refine (ih y hy h).imp_left ?_
        rintro ⟨x, hx, rfl⟩
        exact ⟨x, List.mem_append_right _ (mem_argumentsAll.2 ⟨y, hy, hx⟩), rfl⟩
  | _ => exact Or.inr ⟨_, rfl, h⟩

/-- What takes the place of a leaf is of its kind, or is nothing. -/
theorem Rebuilds.kinds (hleaf : ∀ x, x.isLeaf = true →
      ((F x).constituents.map kind).Sublist (x.constituents.map kind)) (t : Ty) :
    ((F t).constituents.map kind).Sublist (t.constituents.map kind) := by
  induction t with
  | union ms ih =>
      rw [hF.union, constituents_unionOf, constituents, constituentsAll_eq_flatMap,
        constituentsAll_eq_flatMap, List.flatMap_map, List.map_flatMap, List.map_flatMap]
      exact List.Sublist.flatMap_right ms ih
  | con c args => rw [hF.con]; exact List.Sublist.refl _
  | errorConst c args => rw [hF.errorConst]; exact List.Sublist.refl _
  | _ => exact hleaf _ rfl

end Rebuilds

/-- A map that rebuilds types and keeps the kinds of their leaves. -/
structure Refits (F : Ty → Ty) : Prop extends Rebuilds F where
  kinds : ∀ x, x.isLeaf = true → ((F x).constituents.map kind).Sublist (x.constituents.map kind)
  within : ∀ x, x.isLeaf = true → (F x).WellFormedWithin

section Refits

variable {F : Ty → Ty} (hF : Refits F) {t : Ty}

include hF

theorem Refits.proper (h : Proper t.constituents) : Proper (F t).constituents :=
  h.of_kinds (hF.toRebuilds.kinds hF.kinds t)

theorem Refits.wellFormedWithin (h : t.WellFormedWithin) : (F t).WellFormedWithin := by
  intro a ha
  rcases hF.mem_arguments ha with ⟨x, hx, rfl⟩ | ⟨x, hx, ha⟩
  · exact hF.proper (h x hx)
  · exact hF.within x hx a ha

theorem Refits.wellFormed (h : t.WellFormed) : (F t).WellFormed :=
  wellFormed_iff.2 ⟨hF.proper h.top, hF.wellFormedWithin h.within⟩

end Refits

/-! ## Substitutions -/

theorem rebuilds_graft (h : Ty → Ty) : Rebuilds (graft h) where
  union ms := by rw [graft, graftAll_eq_map]
  con c args := by rw [graft, graftAll_eq_map]
  errorConst c args := by rw [graft, graftAll_eq_map]

/-- Putting values in the place of projections refits a type. -/
theorem refits_graft {h : Ty → Ty} (hvar : ∀ v, h (.errorVar v) = .errorVar v)
    (hproj : ∀ name flexible, (h (.valueProj name flexible)).ValueOnly ∧
      (h (.valueProj name flexible)).WellFormed) : Refits (graft h) where
  toRebuilds := rebuilds_graft h
  kinds x hx := by
    cases x with
    | union | con | errorConst => cases hx
    | valueProj name flexible =>
        rcases (hproj name flexible).1 with hnone | hvalue
        · rw [graft, hnone]
          exact List.nil_sublist _
        · rw [graft, constituents_of_isValue hvalue, List.map_singleton,
            Grammar.kind_eq_value_iff.2 hvalue]
          exact List.Sublist.refl _
    | errorVar v => rw [graft, hvar]
    | _ => exact List.Sublist.refl _
  within x hx := by
    cases x with
    | union | con | errorConst => cases hx
    | valueProj name flexible => exact (hproj name flexible).2.within
    | errorVar v => rw [graft, hvar]; exact within_of_isLeaf rfl
    | _ => exact within_of_isLeaf rfl

theorem wellFormed_valueProj (name : String) (flexible : Bool) :
    (Ty.valueProj name flexible).WellFormed :=
  wellFormed_iff.2 ⟨.singleton _, within_of_isLeaf rfl⟩

theorem wellFormed_erroneous : Ty.erroneous.WellFormed := by decide

/-- Whether a variable stands for another one of its kind. -/
inductive Renamed : Ty → Ty → Prop where
  | var {m n : String} {f g : Bool} : Renamed (.var m f) (.var n g)
  | valueProj {m n : String} {f g : Bool} : Renamed (.valueProj m f) (.valueProj n g)
  | errorVar {v w : ErrorVar} (h : v.bound.bare = w.bound.bare) :
      Renamed (.errorVar v) (.errorVar w)

theorem Renamed.congr {x y u : Ty} (hxy : (x == y) = true) (h : Renamed x u) : Renamed y u := by
  rw [beq_iff] at hxy
  cases h with
  | var => cases y <;> cases hxy; exact .var
  | valueProj => cases y <;> cases hxy; exact .valueProj
  | errorVar hb =>
      cases y with
      | errorVar y =>
          have hbound := congrArg ErrorVar.bound (Ty.errorVar.inj hxy)
          exact .errorVar (hbound.symm.trans hb)
      | _ => cases hxy

theorem Renamed.kinds {x u : Ty} (h : Renamed x u) :
    u.constituents.map kind = x.constituents.map kind := by
  cases h with
  | var | valueProj => rfl
  | errorVar hb => exact congrArg (fun b => [Grammar.Kind.ranging b]) hb.symm

theorem Renamed.isLeaf {x u : Ty} (h : Renamed x u) : x.isLeaf = true ∧ u.isLeaf = true := by
  cases h <;> exact ⟨rfl, rfl⟩

theorem rebuilds_subst {images : Table Ty Ty}
    (hkeys : ∀ x u, images.get? x = some u → x.isLeaf = true) : Rebuilds (subst images) := by
  have hnone : ∀ x : Ty, x.isLeaf = false → images.get? x = none := by
    intro x hx
    refine Option.eq_none_iff_forall_ne_some.2 fun u hu => ?_
    rw [hkeys x u hu] at hx
    cases hx
  constructor
  · intro ms
    rw [subst, hnone _ rfl, substAll_eq_map]
  · intro c args
    rw [subst, hnone _ rfl, substAll_eq_map]
  · intro c args
    rw [subst, hnone _ rfl, substAll_eq_map]

/-- Renaming variables refits a type. -/
theorem refits_subst {images : Table Ty Ty}
    (h : ∀ x u, images.get? x = some u → Renamed x u) : Refits (subst images) := by
  have hleaf : ∀ x : Ty, x.isLeaf = true →
      x.subst images = x ∨ Renamed x (x.subst images) := by
    intro x hx
    cases hg : images.get? x with
    | some u =>
        rw [subst.eq_def, hg]
        exact Or.inr (h x u hg)
    | none =>
        rw [subst.eq_def, hg]
        cases x <;> first | exact Or.inl rfl | cases hx
  refine ⟨rebuilds_subst fun x u hu => (h x u hu).isLeaf.1, fun x hx => ?_, fun x hx => ?_⟩
  · rcases hleaf x hx with heq | hr
    · rw [heq]
    · rw [hr.kinds]
  · rcases hleaf x hx with heq | hr
    · rw [heq]
      exact within_of_isLeaf hx
    · exact within_of_isLeaf hr.isLeaf.2

end Ty

end Fallible
