import Fallible.Proofs.Grafting
import Fallible.Proofs.NormalForm

/-!
# Replacing before and after normalising

A type may be normalised before its projections are replaced or not: normalised
afterwards, it is the same. Normalising opens unions up, drops what is repeated
and lists the rest by key. A value that takes the place of a projection has the
key of a projection, so members of one key stay in order, and members that are
the same are replaced by the same.

This is not so of error variables, whose place in a listing is not that of the
errors that replace them. Nor is it so of type variables that stand unsplit:
their projections are replaced only once normalising has split them.
-/

namespace Fallible

/-! ## First occurrences -/

section Distinct

variable {α β : Type} [BEq α] [BEq β]

theorem map_distinct {f : α → β} (hf : ∀ x y, (f x == f y) = (x == y)) (xs : List α) :
    (distinct xs).map f = distinct (xs.map f) := by
  induction xs with
  | nil => rfl
  | cons x xs ih =>
      rw [distinct, List.map_cons, List.map_cons, distinct, ← ih, List.filter_map]
      congr 3
      funext y
      rw [Function.comp_apply, hf]

omit [BEq α] [BEq β] in
theorem flatMap_filter_of_nil {p : β → Bool} {f : β → List α} {l : List β}
    (h : ∀ x, p x = false → f x = []) : (l.filter p).flatMap f = l.flatMap f := by
  induction l with
  | nil => rfl
  | cons x l ih =>
      rw [List.filter_cons, List.flatMap_cons]
      cases hx : p x with
      | true => rw [if_pos rfl, List.flatMap_cons, ih]
      | false => rw [if_neg Bool.false_ne_true, h x hx, List.nil_append, ih]

omit [BEq α] [BEq β] in
theorem filter_flatMap_of_forall {p : α → Bool} {q : β → Bool} {f : β → List α} {l : List β}
    (h : ∀ m ∈ l, ∀ x ∈ f m, p x = q m) : (l.flatMap f).filter p = (l.filter q).flatMap f := by
  induction l with
  | nil => rfl
  | cons m l ih =>
      have hm := h m List.mem_cons_self
      rw [List.flatMap_cons, List.filter_append, List.filter_cons,
        ih fun x hx => h x (List.mem_cons_of_mem m hx)]
      cases hq : q m with
      | true =>
          rw [if_pos rfl, List.flatMap_cons, List.filter_eq_self.2 fun x hx => (hm x hx).trans hq]
      | false =>
          rw [if_neg Bool.false_ne_true, List.filter_eq_nil_iff.2 fun x hx => ?_, List.nil_append]
          rw [hm x hx, hq]
          exact Bool.false_ne_true

/-- What is repeated may be dropped before its parts are listed. -/
theorem distinct_flatMap_distinct [EquivBEq α] {f : β → List α}
    (hf : ∀ x y, (x == y) = true → ∀ b ∈ f y, ((f x).any fun a => a == b) = true)
    (l : List β) : distinct ((distinct l).flatMap f) = distinct (l.flatMap f) := by
  induction l with
  | nil => rfl
  | cons x l ih =>
      have hcongr : ∀ a b, (a == b) = true →
          (!(f x).any fun z => z == a) = !(f x).any fun z => z == b := by
        intro a b hab
        refine congrArg not (any_congr_mem fun z _ => ?_)
        rw [Bool.eq_iff_iff]
        exact ⟨fun h => BEq.trans h hab, fun h => BEq.trans h (BEq.symm hab)⟩
      rw [distinct, List.flatMap_cons, List.flatMap_cons, distinct_append, distinct_append, ← ih,
        filter_distinct hcongr, filter_distinct hcongr, List.filter_flatMap, List.filter_flatMap]
      -- The parts of what repeats `x` are among those of `x`.
      rw [flatMap_filter_of_nil fun y hy => List.filter_eq_nil_iff.2 fun b hb => ?_]
      rw [Bool.not_eq_false'] at hy
      simp only [hf x y hy b hb, Bool.not_true, Bool.false_eq_true, not_false_eq_true]

end Distinct

namespace Ty

/-! ## Ways to spell classifiers -/

section Respell

variable (f : Spelling)

theorem memberKey_respell (t : Ty) : memberKey (t.respell f) = memberKey t := by
  cases t with
  | errorConst c args => rw [respell, memberKey, memberKey, f.id_of]
  | _ => rfl

theorem beq_respell (x y : Ty) : (x.respell f == y.respell f) = (x == y) := by
  rw [Bool.eq_iff_iff, beq_iff_respell, beq_iff_respell, respell_bare_respell,
    respell_bare_respell]

theorem respell_ofListed (ms : List Ty) :
    (ofListed ms).respell f = ofListed (ms.map (respell f)) := by
  cases ms with
  | nil => rfl
  | cons m ms =>
      cases ms with
      | nil => rfl
      | cons n ms =>
          show Ty.union (respellAll f (m :: n :: ms)) = _
          rw [respellAll_eq_map]
          rfl

theorem respell_ofConstituents (ms : List Ty) :
    (ofConstituents ms).respell f = ofConstituents (ms.map (respell f)) := by
  have hany : (ms.map (respell f)).any isErroneous = ms.any isErroneous := by
    rw [List.any_map]
    exact any_congr_mem fun m _ => isErroneous_respell f m
  rw [ofConstituents, ofConstituents, hany]
  split
  · rfl
  · have hkey : ∀ x y : Ty, (memberKey (x.respell f)).le (memberKey (y.respell f)) =
        (memberKey x).le (memberKey y) := fun x y => by rw [memberKey_respell, memberKey_respell]
    rw [respell_ofListed, map_sortOn hkey, map_distinct (beq_respell f)]

/-- The canonical form does not depend on how classifiers are spelled. -/
theorem canonical_respell (t : Ty) : (t.respell f).canonical = t.canonical.respell f := by
  induction t with
  | union ms ih =>
      rw [respell, canonical, canonical, respell_ofConstituents, ← flat, ← flat, flat_eq, flat_eq,
        respellAll_eq_map, List.flatMap_map, List.map_flatMap]
      refine congrArg ofConstituents (List.flatMap_congr fun m hm => ?_)
      rw [ih m hm, constituents_respell]
  | con c args ih | errorConst c args ih =>
      simp only [respell, canonical, canonicalAll_eq_map, respellAll_eq_map, List.map_map]
      congr 1
      exact List.map_congr_left ih
  | _ => rfl

end Respell

section Graft

variable {h : Ty → Ty} (hh : Harmless h) (hvar : ∀ v, h (.errorVar v) = .errorVar v)

include hvar in
theorem respell_graft (f : Spelling) (t : Ty) :
    ((t.respell f).graft h).respell f = (t.graft h).respell f := by
  induction t with
  | union ms ih =>
      simp only [respell, graft, unionOf, graftAll_eq_map, respellAll_eq_map,
        constituentsAll_eq_flatMap, List.flatMap_map, List.map_flatMap]
      congr 1
      refine List.flatMap_congr fun m hm => ?_
      rw [← constituents_respell, ← constituents_respell, ih m hm]
  | con c args ih =>
      simp only [respell, graft, graftAll_eq_map, respellAll_eq_map, List.map_map]
      congr 1
      exact List.map_congr_left ih
  | errorConst c args ih =>
      simp only [respell, graft, graftAll_eq_map, respellAll_eq_map, List.map_map, f.of_of]
      congr 1
      exact List.map_congr_left ih
  | errorVar v => rw [respell, graft, graft, hvar, hvar, respell, respell, ErrorVar.bare_bare]
  | _ => rfl

/-! ## What takes the place of a constituent -/

/-- The constituents that take the place of one, normalised. -/
def put (h : Ty → Ty) (m : Ty) : List Ty := (m.graft h).constituents.map canonical

include hvar in
/-- The same is put in the place of the same. -/
theorem put_of_beq {x y : Ty} (hxy : (x == y) = true) :
    ∀ b ∈ put h y, ((put h x).any fun a => a == b) = true := by
  have hput : ∀ t, (put h t).map (respell .bare) =
      (((t.respell .bare).graft h).respell .bare).constituents.map canonical := by
    intro t
    rw [respell_graft hvar, constituents_respell, put, List.map_map, List.map_map]
    exact List.map_congr_left fun m _ => (canonical_respell .bare m).symm
  intro b hb
  have hmem := List.mem_map_of_mem (f := respell .bare) hb
  rw [hput y, ← beq_iff_respell.1 hxy, ← hput x] at hmem
  obtain ⟨a, ha, hab⟩ := List.mem_map.1 hmem
  exact List.any_eq_true.2 ⟨a, ha, beq_iff_respell.2 hab⟩

theorem memberKey_canonical_of_isValue {m : Ty} (hm : m.isValue = true) :
    memberKey m.canonical = memberKey m := by
  cases m <;> first | rfl | cases hm

include hh hvar in
/-- What takes the place of a constituent is listed in its place. -/
theorem memberKey_put {t m x : Ty} (hm : m ∈ t.constituents) (hx : x ∈ put h m) :
    memberKey x = memberKey m := by
  obtain ⟨y, hy, rfl⟩ := List.mem_map.1 hx
  cases m with
  | valueProj name flexible =>
      rcases graft_value hh (m := .valueProj name flexible) rfl with ⟨_, hnone⟩ | hv
      · rw [hnone] at hy
        cases hy
      · rw [constituents_of_isValue hv] at hy
        obtain rfl := List.mem_singleton.1 hy
        rw [memberKey_canonical_of_isValue hv]
        cases hg : (Ty.valueProj name flexible).graft h <;> rw [hg] at hv <;>
          first | rfl | cases hv
  | errorVar v =>
      rw [graft, hvar] at hy
      obtain rfl := List.mem_singleton.1 hy
      rfl
  | union ms => rcases member_cases hm with hc | hc | hc <;> cases hc
  | any | nothing | var => rcases member_cases hm with hc | hc | hc <;> cases hc
  | _ =>
      obtain rfl := List.mem_singleton.1 hy
      rfl

/-! ## Replacing in a canonical form -/

theorem ofListed_ne_any {ms : List Ty} (hms : ∀ m ∈ ms, m.constituents = [m]) :
    ofListed ms ≠ .any := by
  intro hany
  unfold ofListed at hany
  split at hany
  · cases hany
  · next m =>
      have hm := hms m List.mem_cons_self
      rw [hany] at hm
      cases hm
  · cases hany

theorem Spared.member {ms : List Ty} (hs : ∀ name, .var name true ∈ unknownsAll ms →
    h (.valueProj name true) = .valueProj name true ∧
      h (.errorVar (.ofTyVar name true)) = .errorVar (.ofTyVar name true)) {m : Ty}
    (hm : m ∈ ms) : m.Spared h :=
  fun name hx => hs name (mem_unknownsAll.2 ⟨m, hm, hx⟩)

include hh in
theorem graft_ne_any {t : Ty} (ht : t ≠ .any) : t.graft h ≠ .any := by
  intro hany
  cases t with
  | valueProj name flexible =>
      rcases graft_value hh (m := .valueProj name flexible) rfl with ⟨_, hnone⟩ | hv
      · rw [hany] at hnone
        cases hnone
      · rw [hany] at hv
        cases hv
  | errorVar v =>
      have hvalue : Ty.value ∈ (h (.errorVar v)).constituents := by
        rw [show h (.errorVar v) = .any from hany]
        exact List.mem_cons_self
      cases hh.error v .value hvalue
  | any => exact ht rfl
  | _ => cases hany

include hh in
theorem canonical_graft_eq {t : Ty} (ht : t ≠ .any) (hs : t.Spared h) :
    (t.graft h).canonical = ofConstituents (t.constituents.flatMap (put h)) := by
  rw [canonical_eq_ofConstituents (graft_ne_any hh ht), constituents_graft hh hs,
    List.map_flatMap]
  rfl

include hh hvar in
/-- Members may be listed before they are replaced. -/
theorem ofConstituents_put {ms : List Ty} (hopen : ∀ m ∈ ms, m.constituents = [m]) :
    ofConstituents ((sortOn memberKey (distinct ms)).flatMap (put h)) =
      ofConstituents (ms.flatMap (put h)) := by
  have hkey : ∀ k, ∀ m ∈ ms, ∀ x ∈ put h m,
      decide (memberKey x = k) = decide (memberKey m = k) := by
    intro k m hm x hx
    rw [memberKey_put hh hvar (by rw [hopen m hm]; exact List.mem_cons_self) hx]
  refine ofConstituents_congr fun k => ?_
  -- Within one key the order is that of writing, and only repetitions are gone.
  rw [filter_flatMap_of_forall fun m hm => hkey k m (mem_of_listed hm),
    filter_flatMap_of_forall (hkey k), filter_sortOn, filter_key_distinct,
    distinct_flatMap_distinct fun _ _ => put_of_beq hvar]

include hh hvar in
/-- A union is replaced in its canonical form as it stands, if its constituents are. -/
theorem canonical_graft_union {ms : List Ty} (hs : (Ty.union ms).Spared h)
    (hms : ∀ m ∈ (Ty.union ms).constituents, put h m.canonical = put h m) :
    ((Ty.union ms).canonical.graft h).canonical = ((Ty.union ms).graft h).canonical := by
  cases hf : (Ty.union ms).failed with
  | true => rw [canonical_of_failed hf, canonical_of_failed ((failed_graft hh _).trans hf)]; rfl
  | false =>
      have hopen : ∀ m ∈ (Ty.union ms).constituents.map canonical, m.constituents = [m] := by
        intro m hm
        obtain ⟨x, hx, rfl⟩ := List.mem_map.1 hm
        exact constituents_canonical_of_mem hx
      have hlisted : ∀ m ∈ sortOn memberKey (distinct ((Ty.union ms).constituents.map canonical)),
          m.constituents = [m] := fun m hm => hopen m (mem_of_listed hm)
      have hcanon : (Ty.union ms).canonical =
          ofListed (sortOn memberKey (distinct ((Ty.union ms).constituents.map canonical))) := by
        rw [canonical_union, ofConstituents, any_erroneous_map_canonical, hf,
          if_neg Bool.false_ne_true]
      have hwritten : (Ty.union ms).constituents.flatMap (put h) =
          ((Ty.union ms).constituents.map canonical).flatMap (put h) := by
        rw [List.flatMap_map]
        exact List.flatMap_congr fun m hm => (hms m hm).symm
      have hany : (Ty.union ms).canonical ≠ .any := by
        rw [hcanon]
        exact ofListed_ne_any hlisted
      rw [canonical_graft_eq hh hany ((split_canonical _).spared h),
        canonical_graft_eq hh (fun h => Ty.noConfusion h) hs, hwritten, hcanon,
        constituents_ofListed hlisted]
      exact ofConstituents_put hh hvar hopen

include hh hvar in
/-- Projections may be replaced in the canonical form or in the type as it stands. -/
theorem canonical_graft {t : Ty} (hs : t.Spared h) :
    (t.canonical.graft h).canonical = (t.graft h).canonical := by
  suffices hboth : (t.canonical.graft h).canonical = (t.graft h).canonical ∧
      ∀ m ∈ t.constituents, put h m.canonical = put h m from hboth.1
  induction t with
  | union ms ih =>
      have hms : ∀ m ∈ (Ty.union ms).constituents, put h m.canonical = put h m := by
        intro m hm
        obtain ⟨x, hx, hm⟩ := mem_constituents_union.1 hm
        exact (ih x hx (Spared.member hs hx)).2 m hm
      exact ⟨canonical_graft_union hh hvar hs hms, hms⟩
  | con c args ih | errorConst c args ih =>
      have hargs : ((args.map canonical).map (graft h)).map canonical =
          (args.map (graft h)).map canonical := by
        rw [List.map_map, List.map_map, List.map_map]
        exact List.map_congr_left fun a ha => (ih a ha (Spared.member hs ha)).1
      simp only [constituents, List.mem_singleton, forall_eq, put, canonical, graft,
        canonicalAll_eq_map, graftAll_eq_map, List.map_cons, List.map_nil, hargs, and_self]
  | var name flexible =>
      have hself : (Ty.var name flexible).canonical.graft h = (Ty.var name flexible).canonical := by
        rw [canonical, graft, graftAll, graftAll, graftAll, graft, graft, (hs.var hh).1,
          (hs.var hh).2]
        rfl
      refine ⟨by rw [hself, canonical_canonical]; rfl, fun m hm => ?_⟩
      simp only [constituents, List.mem_cons, List.not_mem_nil, or_false] at hm
      rcases hm with rfl | rfl <;> rfl
  | any =>
      refine ⟨rfl, fun m hm => ?_⟩
      simp only [constituents, List.mem_cons, List.not_mem_nil, or_false] at hm
      rcases hm with rfl | rfl <;> rfl
  | nothing => exact ⟨rfl, fun m hm => absurd hm List.not_mem_nil⟩
  | _ => exact ⟨rfl, fun m hm => by rw [List.mem_singleton.1 hm]; rfl⟩

end Graft

end Ty

end Fallible
