import Fallible.Proofs.Canonical

/-!
# Putting types in the place of unknowns

Writing out bindings, applying a solution and dropping what is left over are
three substitutions of one shape: each walks a type, puts something in the place
of its projections and error variables, and opens unions up again on the way
back. `Ty.graft` is that walk, with the replacement as its argument.

A replacement is harmless if it leaves rigid unknowns alone, puts a value or
`Nothing` where a projection was, and errors where an error variable was. Then
the constituents of the new type are those of the old one, each replaced, and
the walk is a rereading as soon as error variables read the same before and
after. There is one proviso. If a projection is dropped, another value of the
same union would take its place; so there must be no other.
-/

namespace Fallible

namespace Ty

mutual

/-- The type with its projections and error variables replaced. -/
def graft (h : Ty → Ty) : Ty → Ty
  | .valueProj name flexible => h (.valueProj name flexible)
  | .errorVar v => h (.errorVar v)
  | .union ms => unionOf (graftAll h ms)
  | .con c args => .con c (graftAll h args)
  | .errorConst c args => .errorConst c (graftAll h args)
  | t => t

def graftAll (h : Ty → Ty) : List Ty → List Ty
  | [] => []
  | t :: ts => graft h t :: graftAll h ts

end

theorem graftAll_eq_map (h : Ty → Ty) (ts : List Ty) : graftAll h ts = ts.map (graft h) := by
  induction ts with
  | nil => rfl
  | cons t ts ih => rw [graftAll, ih, List.map_cons]

/-- A replacement that keeps values values and errors errors. -/
structure Harmless (h : Ty → Ty) : Prop where
  rigidProj : ∀ name, h (.valueProj name false) = .valueProj name false
  rigidVar : ∀ v, v.flexible = false → h (.errorVar v) = .errorVar v
  value : ∀ name, h (.valueProj name true) = .nothing ∨ (h (.valueProj name true)).isValue = true
  error : ∀ v, ∀ m ∈ (h (.errorVar v)).constituents, m.isError = true

mutual

/-- The members of a union that is opened up as far as its members are unions. -/
def members : Ty → List Ty
  | .union ms => membersAll ms
  | t => [t]

def membersAll : List Ty → List Ty
  | [] => []
  | m :: ms => members m ++ membersAll ms

end

theorem membersAll_eq_flatMap (ms : List Ty) : membersAll ms = ms.flatMap members := by
  induction ms with
  | nil => rfl
  | cons m ms ih => rw [membersAll, ih, List.flatMap_cons]

theorem not_union_of_mem_members {m t : Ty} (h : m ∈ t.members) (ms : List Ty) :
    m ≠ .union ms := by
  induction t with
  | union ts ih =>
      rw [members, membersAll_eq_flatMap] at h
      obtain ⟨x, hx, h⟩ := List.mem_flatMap.1 h
      exact ih x hx h
  | _ => rw [List.mem_singleton.1 h]; exact Ty.noConfusion

theorem constituents_eq_members (t : Ty) : t.constituents = t.members.flatMap constituents := by
  induction t with
  | union ms ih =>
      rw [constituents, constituentsAll_eq_flatMap, members, membersAll_eq_flatMap,
        List.flatMap_assoc]
      exact List.flatMap_congr ih
  | _ => simp [members]

/-- Members are replaced one by one. -/
theorem constituents_graft_members (h : Ty → Ty) (t : Ty) :
    (t.graft h).constituents = t.members.flatMap fun m => (m.graft h).constituents := by
  induction t with
  | union ms ih =>
      rw [graft, constituents_unionOf, graftAll_eq_map, constituentsAll_eq_flatMap,
        List.flatMap_map, members, membersAll_eq_flatMap, List.flatMap_assoc]
      exact List.flatMap_congr ih
  | _ => simp [members]

/-- Whether no flexible type variable stands unsplit in the type. -/
def Split (t : Ty) : Prop := ∀ name, .var name true ∉ t.unknowns

theorem Split.mem_projections_iff {t : Ty} (ht : t.Split) {n : String} :
    n ∈ t.projections ↔ .valueProj n true ∈ t.unknowns :=
  Ty.mem_projections_iff.trans (or_iff_left (ht n))

/-- Normalising splits all type variables. -/
theorem split_canonical (t : Ty) : t.canonical.Split := by
  have hR : Stable fun _ => True := fun _ _ _ => ⟨trivial, trivial⟩
  intro name hv
  exact (hR.canonical (fun _ _ => trivial) _ hv).2 name true rfl

/-- Whether a replacement leaves alone what stands unsplit in the type. -/
def Spared (h : Ty → Ty) (t : Ty) : Prop :=
  ∀ name, .var name true ∈ t.unknowns → h (.valueProj name true) = .valueProj name true ∧
    h (.errorVar (.ofTyVar name true)) = .errorVar (.ofTyVar name true)

theorem Split.spared {t : Ty} (ht : t.Split) (h : Ty → Ty) : t.Spared h :=
  fun name hv => absurd hv (ht name)

section Constituents

variable {h : Ty → Ty}

theorem Spared.var (hh : Harmless h) {name : String} {flexible : Bool}
    (ht : (Ty.var name flexible).Spared h) :
    h (.valueProj name flexible) = .valueProj name flexible ∧
      h (.errorVar (.ofTyVar name flexible)) = .errorVar (.ofTyVar name flexible) := by
  cases flexible with
  | true => exact ht name List.mem_cons_self
  | false => exact ⟨hh.rigidProj name, hh.rigidVar (.ofTyVar name false) rfl⟩

/-- The constituents are replaced one by one. -/
theorem constituents_graft (hh : Harmless h) {t : Ty} (ht : t.Spared h) :
    (t.graft h).constituents = t.constituents.flatMap fun m => (m.graft h).constituents := by
  induction t with
  | union ms ih =>
      have hms : ∀ m ∈ ms, (m.graft h).constituents =
          m.constituents.flatMap fun x => (x.graft h).constituents :=
        fun m hm => ih m hm fun name hv => ht name (mem_unknownsAll.2 ⟨m, hm, hv⟩)
      rw [graft, constituents_unionOf, graftAll_eq_map, constituentsAll_eq_flatMap,
        List.flatMap_map, constituents, constituentsAll_eq_flatMap, List.flatMap_assoc]
      exact List.flatMap_congr hms
  | var name flexible =>
      simp only [graft, constituents, List.flatMap_cons, List.flatMap_nil, List.append_nil,
        (ht.var hh).1, (ht.var hh).2, List.singleton_append]
  | _ => simp [graft, constituents]

/-- Constituents are values, errors, or marks of a failed check. -/
theorem member_cases {m t : Ty} (hm : m ∈ t.constituents) :
    m.isValue = true ∨ m.isError = true ∨ m = .erroneous := by
  induction t with
  | union ms ih =>
      obtain ⟨x, hx, hm⟩ := mem_constituents_union.1 hm
      exact ih x hx hm
  | nothing => exact absurd hm List.not_mem_nil
  | any | var =>
      simp only [constituents, List.mem_cons, List.not_mem_nil, or_false] at hm
      rcases hm with rfl | rfl
      · exact Or.inl rfl
      · exact Or.inr (Or.inl rfl)
  | value | con | valueProj => obtain rfl := List.mem_singleton.1 hm; exact Or.inl rfl
  | error | errorConst | errorVar =>
      obtain rfl := List.mem_singleton.1 hm
      exact Or.inr (Or.inl rfl)
  | erroneous => exact Or.inr (Or.inr (List.mem_singleton.1 hm))

theorem constituents_canonical_of_mem {t m : Ty} (hm : m ∈ t.constituents) :
    m.canonical.constituents = [m.canonical] := by
  cases m with
  | union ms => rcases member_cases hm with hc | hc | hc <;> cases hc
  | any | nothing | var => rcases member_cases hm with hc | hc | hc <;> cases hc
  | _ => rfl

theorem graft_value (hh : Harmless h) {m : Ty} (hm : m.isValue = true) :
    ((∃ name, m = .valueProj name true) ∧ m.graft h = .nothing) ∨
      (m.graft h).isValue = true := by
  cases m with
  | valueProj name flexible =>
      cases flexible with
      | true => exact (hh.value name).imp (fun he => ⟨⟨name, rfl⟩, he⟩) fun hv => hv
      | false =>
          rw [graft, hh.rigidProj]
          exact Or.inr rfl
  | value | con => exact Or.inr rfl
  | _ => cases hm

theorem graft_error (hh : Harmless h) {m : Ty} (hm : m.isError = true) :
    ∀ x ∈ (m.graft h).constituents, x.isError = true := by
  cases m with
  | errorVar v => exact hh.error v
  | error | errorConst => intro x hx; obtain rfl := List.mem_singleton.1 hx; rfl
  | _ => cases hm

theorem constituents_of_isValue {m : Ty} (hm : m.isValue = true) : m.constituents = [m] := by
  cases m <;> first | rfl | cases hm

theorem not_isValue_of_isError {m : Ty} (hm : m.isError = true) : m.isValue = false := by
  cases m <;> first | rfl | cases hm

theorem not_isErroneous_of_isError {m : Ty} (hm : m.isError = true) :
    m.isErroneous = false := by
  cases m <;> first | rfl | cases hm

theorem not_isErroneous_of_isValue {m : Ty} (hm : m.isValue = true) :
    m.isErroneous = false := by
  cases m <;> first | rfl | cases hm

/-- What replacing does to a projection, as seen from its constituents. -/
theorem graft_projection (hh : Harmless h) (name : String) (flexible : Bool) :
    ((Ty.valueProj name flexible).graft h).constituents = [] ∨
      ∃ m, ((Ty.valueProj name flexible).graft h).constituents = [m] ∧ m.isValue = true := by
  rcases graft_value hh (m := .valueProj name flexible) rfl with ⟨_, hnone⟩ | hv
  · exact Or.inl (by rw [hnone]; rfl)
  · exact Or.inr ⟨_, constituents_of_isValue hv, hv⟩

theorem failed_graft (hh : Harmless h) (t : Ty) : (t.graft h).failed = t.failed := by
  rw [failed_eq, failed_eq, constituents_graft_members, constituents_eq_members,
    List.any_flatMap, List.any_flatMap]
  refine any_congr_mem fun m hm => ?_
  cases m with
  | union ms => exact absurd rfl (not_union_of_mem_members hm ms)
  | valueProj name flexible =>
      rcases graft_projection hh name flexible with hnone | ⟨x, hx, hv⟩
      · rw [hnone]; rfl
      · rw [hx, List.any_cons, not_isErroneous_of_isValue hv]; rfl
  | errorVar v =>
      rw [show (Ty.errorVar v).constituents.any isErroneous = false from rfl, List.any_eq_false]
      intro x hx
      rw [not_isErroneous_of_isError (hh.error v x hx)]
      exact Bool.false_ne_true
  | _ => rfl

theorem find?_graft_member (hh : Harmless h) {m t : Ty} (hm : m ∈ t.constituents)
    (hv : m.isValue = false) : (m.graft h).constituents.find? isValue = none := by
  rw [List.find?_eq_none]
  intro x hx
  rcases member_cases hm with hv' | he | rfl
  · rw [hv] at hv'; cases hv'
  · rw [not_isValue_of_isError (graft_error hh he x hx)]
    exact Bool.false_ne_true
  · obtain rfl := List.mem_singleton.1 hx
    exact Bool.false_ne_true

/-- The value part is replaced with the rest, unless it is dropped and another
value stands behind it. -/
theorem valuePart_graft (hh : Harmless h) {t : Ty} (ht : t.Split) (hf : t.failed = false)
    (hone : t.constituents.countP isValue ≤ 1 ∨
      ∀ name ∈ t.projections, h (.valueProj name true) ≠ .nothing) :
    (t.graft h).valuePart = t.valuePart.graft h := by
  rw [valuePart_of_not_failed ((failed_graft hh t).trans hf), valuePart_of_not_failed hf,
    constituents_graft hh (ht.spared h), List.find?_flatMap]
  cases hfind : t.constituents.find? isValue with
  | none =>
      rw [List.findSome?_eq_none_iff.2]
      · rfl
      · intro m hm
        exact find?_graft_member hh hm (Bool.eq_false_iff.2 (List.find?_eq_none.1 hfind m hm))
  | some x =>
      obtain ⟨hx, before, after, happ, hbefore⟩ := List.find?_eq_some_iff_append.1 hfind
      have hquiet : ∀ m ∈ t.constituents, m.isValue = false →
          (m.graft h).constituents.find? isValue = none :=
        fun m hm hv => find?_graft_member hh hm hv
      rw [happ] at hquiet ⊢
      rw [List.findSome?_append, List.findSome?_eq_none_iff.2, Option.none_or,
        List.findSome?_cons]
      · rcases graft_value hh hx with ⟨⟨name, rfl⟩, hnone⟩ | hv
        · -- The projection is dropped, and there is no other value.
          rw [hnone]
          have hafter : ∀ m ∈ after, m.isValue = false := by
            rcases hone with hone | hone
            · rw [happ, List.countP_append, List.countP_cons_of_pos hx] at hone
              have hzero : after.countP isValue = 0 := by omega
              intro m hm
              exact Bool.eq_false_iff.2 (List.countP_eq_zero.1 hzero m hm)
            · have hmem : name ∈ t.projections :=
                projections_of_mem_constituents (m := .valueProj name true)
                  (by rw [happ]; simp) (by simp [projections])
              exact absurd hnone (hone name hmem)
          rw [List.findSome?_eq_none_iff.2 fun m hm => hquiet m
            (List.mem_append_right _ (List.mem_cons_of_mem _ hm)) (hafter m hm)]
          exact hnone.symm
        · rw [constituents_of_isValue hv, List.find?_cons, hv]
          rfl
      · intro m hm
        exact hquiet m (List.mem_append_left _ hm) (by simpa using hbefore m hm)

theorem countP_graft (hh : Harmless h) (t : Ty) :
    (t.graft h).constituents.countP isValue ≤ t.constituents.countP isValue := by
  rw [constituents_graft_members, constituents_eq_members, List.countP_flatMap,
    List.countP_flatMap]
  refine List.sum_le_sum fun m hm => ?_
  show (m.graft h).constituents.countP isValue ≤ m.constituents.countP isValue
  cases m with
  | union ms => exact absurd rfl (not_union_of_mem_members hm ms)
  | valueProj name flexible =>
      rcases graft_projection hh name flexible with hnone | ⟨x, hx, hv⟩
      · rw [hnone]; exact Nat.zero_le _
      · rw [hx, List.countP_cons_of_pos hv]; exact Nat.le_refl _
  | errorVar v =>
      rw [List.countP_eq_zero.2 fun x hx => ?_]
      · exact Nat.zero_le _
      · rw [not_isValue_of_isError (hh.error v x hx)]
        exact Bool.false_ne_true
  | _ => exact Nat.le_refl _

/-! ## Errors -/

theorem errors_of_none (s s' : Solution) {t u : Ty} (ht : t.errorPart = [])
    (hu : u.errorPart = []) : SameErrors (View.interpretWith s t) (View.interpretWith s' u) := by
  unfold View.interpretWith
  rw [ht, hu]
  exact .refl _

theorem errorPart_of_isValue {m : Ty} (hm : m.isValue = true) : m.errorPart = [] := by
  cases m <;> first | rfl | cases hm

/-- The errors read the same if error variables do. -/
theorem errors_graft (hh : Harmless h) {s s' : Solution} {t : Ty} (ht : t.Split)
    (hvar : ∀ v, .errorVar v ∈ t.constituents →
      SameErrors (View.interpretWith s (.errorVar v)) (View.interpretWith s' (h (.errorVar v)))) :
    SameErrors (View.interpretWith s t) (View.interpretWith s' (t.graft h)) := by
  have hopen : t.constituents = (Ty.union t.constituents).constituents :=
    (constituentsAll_of_listed fun _ hm => constituents_of_mem hm).symm
  have hgraft : (t.graft h).constituents =
      (Ty.union (t.constituents.map (graft h))).constituents := by
    rw [constituents_graft hh (ht.spared h), constituents, constituentsAll_eq_flatMap, List.flatMap_map]
  have hmember : ∀ m ∈ t.constituents,
      SameErrors (View.interpretWith s m) (View.interpretWith s' (m.graft h)) := by
    intro m hm
    rcases member_cases hm with hv | he | rfl
    · refine errors_of_none s s' (errorPart_of_isValue hv) ?_
      rcases graft_value hh hv with ⟨_, hnone⟩ | hv
      · rw [hnone]; rfl
      · exact errorPart_of_isValue hv
    · cases m with
      | errorVar v => exact hvar v hm
      | error => exact .refl _
      | errorConst c args =>
          have hsolution : SameErrors (View.interpretWith s (.errorConst c (graftAll h args)))
              (View.interpretWith s' (.errorConst c (graftAll h args))) :=
            ⟨rfl, fun _ _ => rfl, fun _ _ => rfl⟩
          exact (errors_errorConst s c args (graftAll h args)).trans hsolution
      | _ => cases he
    · exact .refl _
  rw [View.interpretWith_of_constituents s hopen, View.interpretWith_of_constituents s' hgraft]
  refine .union (fun m hm => ⟨m.graft h, List.mem_map_of_mem hm, hmember m hm⟩) fun m hm => ?_
  obtain ⟨x, hx, rfl⟩ := List.mem_map.1 hm
  exact ⟨x, hx, hmember x hx⟩

end Constituents

/-! ## What else is kept -/

theorem payloadFree_graft {h : Ty → Ty} {t : Ty} (ht : t.payloadFree = true)
    (hh : ∀ x ∈ t.unknowns, (x.graft h).payloadFree = true) :
    (t.graft h).payloadFree = true := by
  induction t with
  | union ms ih =>
      rw [graft, graftAll_eq_map]
      refine payloadFree_constituentsAll fun m hm => ?_
      obtain ⟨x, hx, rfl⟩ := List.mem_map.1 hm
      exact ih x hx (payloadFreeAll_iff.1 ht x hx)
        fun y hy => hh y (mem_unknownsAll.2 ⟨x, hx, hy⟩)
  | con c args ih =>
      rw [graft, graftAll_eq_map]
      refine payloadFreeAll_iff.2 fun m hm => ?_
      obtain ⟨x, hx, rfl⟩ := List.mem_map.1 hm
      exact ih x hx (payloadFreeAll_iff.1 ht x hx)
        fun y hy => hh y (mem_unknownsAll.2 ⟨x, hx, hy⟩)
  | errorConst c args =>
      obtain rfl : args = [] := List.isEmpty_iff.1 ht
      rfl
  | valueProj | errorVar => exact hh _ List.mem_cons_self
  | _ => rfl

theorem Stable.graft {R : Ty → Prop} (hR : Stable R) {h : Ty → Ty} {t : Ty}
    (hh : ∀ y ∈ t.unknowns, ∀ x ∈ (y.graft h).unknowns, R x) :
    ∀ x ∈ (t.graft h).unknowns, R x := by
  induction t with
  | union ms ih =>
      have hms : ∀ m ∈ ms, ∀ x ∈ (m.graft h).unknowns, R x :=
        fun m hm => ih m hm fun y hy => hh y (mem_unknownsAll.2 ⟨m, hm, hy⟩)
      intro x hx
      rw [Ty.graft, unionOf, unknowns, graftAll_eq_map, constituentsAll_eq_flatMap,
        List.flatMap_map] at hx
      obtain ⟨m, hm, hx⟩ := mem_unknownsAll.1 hx
      obtain ⟨y, hy, hm⟩ := List.mem_flatMap.1 hm
      exact hR.constituents (hms y hy) m hm x hx
  | con c args ih | errorConst c args ih =>
      intro x hx
      rw [Ty.graft, unknowns, graftAll_eq_map] at hx
      obtain ⟨m, hm, hx⟩ := mem_unknownsAll.1 hx
      obtain ⟨y, hy, rfl⟩ := List.mem_map.1 hm
      exact ih y hy (fun z hz => hh z (mem_unknownsAll.2 ⟨y, hy, hz⟩)) x hx
  | valueProj | errorVar | var => exact hh _ List.mem_cons_self
  | _ => exact fun x hx => absurd hx List.not_mem_nil

/-- The projections of a rebuilt type are those of what takes the place of its
unknowns. -/
theorem mem_projections_graft {h : Ty → Ty} {t : Ty} {n : String} :
    n ∈ (t.graft h).projections ↔ ∃ x ∈ t.unknowns, n ∈ (x.graft h).projections := by
  have hall : ∀ ms : List Ty, (∀ m ∈ ms, n ∈ (m.graft h).projections ↔
      ∃ x ∈ m.unknowns, n ∈ (x.graft h).projections) →
      ((∃ m ∈ ms.map (graft h), n ∈ m.projections) ↔
        ∃ x ∈ unknownsAll ms, n ∈ (x.graft h).projections) := by
    intro ms ih
    constructor
    · rintro ⟨u, hu, hn⟩
      obtain ⟨m, hm, rfl⟩ := List.mem_map.1 hu
      obtain ⟨x, hx, hn⟩ := (ih m hm).1 hn
      exact ⟨x, mem_unknownsAll.2 ⟨m, hm, hx⟩, hn⟩
    · rintro ⟨x, hx, hn⟩
      obtain ⟨m, hm, hx⟩ := mem_unknownsAll.1 hx
      exact ⟨_, List.mem_map_of_mem hm, (ih m hm).2 ⟨x, hx, hn⟩⟩
  induction t with
  | union ms ih =>
      rw [graft, graftAll_eq_map, mem_projections_unionOf]
      exact hall ms ih
  | con c ms ih | errorConst c ms ih =>
      rw [graft, graftAll_eq_map, projections, mem_projectionsAll]
      exact hall ms ih
  | valueProj | errorVar | var => simp [unknowns]
  | _ => simp [graft, projections, unknowns]

/-- A replacement matters only at the unknowns of a type. -/
theorem graft_congr {h h' : Ty → Ty} {t : Ty}
    (hh : ∀ x ∈ t.unknowns, x.graft h = x.graft h') : t.graft h = t.graft h' := by
  induction t with
  | union ms ih | con c ms ih | errorConst c ms ih =>
      rw [graft, graft, graftAll_eq_map, graftAll_eq_map, List.map_congr_left]
      exact fun m hm => ih m hm fun x hx => hh x (mem_unknownsAll.2 ⟨m, hm, hx⟩)
  | valueProj | errorVar => exact hh _ List.mem_cons_self
  | _ => rfl

/-- Whether classifiers have no arguments and the unknowns are of some kind. -/
structure Within (R : Ty → Prop) (t : Ty) : Prop where
  free : t.payloadFree = true
  unknowns : ∀ x ∈ t.unknowns, R x

namespace Within

variable {R : Ty → Prop} {t : Ty}

theorem constituent (hR : Stable R) (ht : t.Within R) {m : Ty} (hm : m ∈ t.constituents) :
    m.Within R :=
  ⟨payloadFree_of_mem_constituents ht.free hm, hR.constituents ht.unknowns m hm⟩

theorem valuePart (hR : Stable R) (ht : t.Within R) : t.valuePart.Within R := by
  rcases valuePart_mem (t := t) with hv | hv
  · rw [hv]; exact ⟨rfl, fun _ hx => absurd hx List.not_mem_nil⟩
  · exact ht.constituent hR hv

theorem arg {c : Con} {args : List Ty} (ht : (Ty.con c args).Within R) {a : Ty}
    (ha : a ∈ args) : a.Within R :=
  ⟨payloadFreeAll_iff.1 ht.free a ha, fun x hx => ht.unknowns x (mem_unknownsAll.2 ⟨a, ha, hx⟩)⟩

theorem canonical (hR : Stable R) (ht : t.Within R) : t.canonical.Within R :=
  ⟨payloadFree_canonical ht.free, fun x hx => (hR.canonical ht.unknowns x hx).1⟩

theorem of_unknown {x : Ty} (hx : (∃ name flexible, x = .valueProj name flexible) ∨
    (∃ v, x = .errorVar v) ∨ ∃ name flexible, x = .var name flexible) (h : R x) :
    x.Within R := by
  rcases hx with ⟨name, flexible, rfl⟩ | ⟨v, rfl⟩ | ⟨name, flexible, rfl⟩ <;>
    exact ⟨rfl, fun y hy => List.mem_singleton.1 hy ▸ h⟩

theorem graft (hR : Stable R) {R' : Ty → Prop} (ht : t.Within R') {h : Ty → Ty}
    (hproj : ∀ name flexible, .valueProj name flexible ∈ t.unknowns →
      (h (.valueProj name flexible)).Within R)
    (hvar : ∀ v, .errorVar v ∈ t.unknowns → (h (.errorVar v)).Within R)
    (hunsplit : ∀ name flexible, .var name flexible ∈ t.unknowns → R (.var name flexible)) :
    (t.graft h).Within R := by
  have hh : ∀ x ∈ t.unknowns, (x.graft h).Within R := by
    intro x hx
    rcases unknown_cases hx with ⟨name, flexible, rfl⟩ | ⟨v, rfl⟩ | ⟨name, flexible, rfl⟩
    · exact hproj name flexible hx
    · exact hvar v hx
    · exact of_unknown (Or.inr (Or.inr ⟨name, flexible, rfl⟩)) (hunsplit name flexible hx)
  exact ⟨payloadFree_graft ht.free fun x hx => (hh x hx).free,
    hR.graft fun y hy => (hh y hy).unknowns⟩

end Within

/-! ## The substitutions of a session -/

/-- Applying a table of error variables is a graft. -/
theorem subst_eq_graft {images : Table Ty Ty}
    (hkeys : ∀ t, images.contains t = true → ∃ v, t = .errorVar v) (t : Ty) :
    t.subst images = t.graft fun x => (images.get? x).getD x := by
  have hnone : ∀ x : Ty, (∀ v, x ≠ .errorVar v) → images.get? x = none := by
    intro x hx
    refine Table.get?_eq_none.2 (Bool.eq_false_iff.2 fun hc => ?_)
    obtain ⟨v, hv⟩ := hkeys x hc
    exact hx v hv
  induction t with
  | union ms ih =>
      rw [subst, hnone _ fun v he => Ty.noConfusion he, graft, substAll_eq_map, graftAll_eq_map,
        List.map_congr_left ih]
  | con c args ih | errorConst c args ih =>
      rw [subst, hnone _ fun v he => Ty.noConfusion he, graft, substAll_eq_map, graftAll_eq_map,
        List.map_congr_left ih]
  | errorVar v =>
      rw [subst.eq_def, graft]
      cases images.get? (.errorVar v) <;> rfl
  | valueProj name flexible =>
      rw [subst.eq_def, graft, hnone _ fun v he => Ty.noConfusion he]
      rfl
  | _ =>
      rw [subst.eq_def, graft.eq_def, hnone _ fun v he => Ty.noConfusion he]

/-- What is put in the place of a projection that was never bound. -/
def grounding : Ty → Ty
  | .valueProj name flexible => if flexible then .nothing else .valueProj name flexible
  | t => t

theorem ground_eq_graft (t : Ty) : t.ground = t.graft grounding := by
  induction t with
  | union ms ih | con c ms ih | errorConst c ms ih =>
      rw [ground, graft, groundAll_eq_map, graftAll_eq_map, List.map_congr_left ih]
  | _ => rfl

theorem harmless_grounding : Harmless grounding where
  rigidProj _ := rfl
  rigidVar _ _ := rfl
  value _ := Or.inl rfl
  error v m hm := by obtain rfl := List.mem_singleton.1 hm; rfl

end Ty

/-- Replacing unknowns is a rereading, if error variables read the same before
and after and no value takes the place of another. -/
theorem rereads_graft {Q Q' : Ty → Prop} {s s' : Solution} {h : Ty → Ty} (hh : Ty.Harmless h)
    (hsplit : ∀ {t}, Q t → t.Split)
    (hone : ∀ {t}, Q t → t.constituents.countP Ty.isValue ≤ 1 ∨ t.projections = [])
    (hvar : ∀ {t}, Q t → ∀ v, .errorVar v ∈ t.constituents →
      SameErrors (View.interpretWith s (.errorVar v)) (View.interpretWith s' (h (.errorVar v))))
    (hgood : ∀ {t}, Q t → Q' (t.graft h)) : Rereads Q Q' s s' (Ty.graft h) where
  good := hgood
  failed _ := Ty.failed_graft hh _
  value ht hf := Ty.valuePart_graft hh (hsplit ht) hf <| (hone ht).imp_right fun hflat name hn =>
    absurd (hflat ▸ hn) List.not_mem_nil
  errors ht _ := Ty.errors_graft hh (hsplit ht) (hvar ht)
  con c args := by rw [Ty.graft, Ty.graftAll_eq_map]
  fixed ht := by
    rcases ht with rfl | rfl | rfl | ⟨name, rfl⟩
    · rfl
    · rfl
    · rfl
    · exact hh.rigidProj name

end Fallible
