import Fallible.Proofs.Requirement
import Fallible.Session.Conclusion

/-!
# What a type resolves to

Resolving a type in a solved session takes seven steps: it is normalised, its
bindings are written out, it is normalised, its variables are replaced by their
sets, it is normalised, what was never bound goes away, and it is normalised
once more. Each step is a rereading, and so the whole is one. What a value came
down to while the session was open is rendered by what it resolves to, in one of
three ways: a constructor has its arguments resolved, an unbound projection is
`Nothing`, and all else stays.

A comparison that holds of two types while bindings are followed and variables
are read off a solution therefore holds of what the two resolve to, where there
is nothing left to follow or to read off.
-/

namespace Fallible

namespace Solution

/-! ## Putting in a solution -/

theorem beq_errorVar (v w : ErrorVar) : (Ty.errorVar v == Ty.errorVar w) = (v == w) := by
  rw [Bool.eq_iff_iff, Ty.beq_iff, ErrorVar.beq_iff_bare, Ty.bare, Ty.bare, Ty.errorVar.injEq]

theorem get?_images {s : Solution} (hd : s.sets.Distinct) (v : ErrorVar) :
    s.images.get? (.errorVar v) = (s.get? v).map image := by
  have hkeys : (Table.mk (s.sets.entries.map fun e =>
      (Ty.errorVar e.1, image e.2))).Distinct := by
    unfold Table.Distinct Table.keys
    rw [List.map_map, List.pairwise_map]
    unfold Table.Distinct Table.keys at hd
    rw [List.pairwise_map] at hd
    refine hd.imp fun hne => ?_
    rw [Function.comp_apply, Function.comp_apply, beq_errorVar]
    exact hne
  rw [images, Table.ofList_of_distinct hkeys]
  show Table.find _ _ = (Table.find v s.sets.entries).map image
  induction s.sets.entries with
  | nil => rfl
  | cons e rest ih =>
      rw [List.map_cons, Table.find, Table.find, beq_errorVar, ih]
      split <;> rfl

theorem key_images {s : Solution} {t : Ty} (h : s.images.contains t = true) :
    ∃ v, t = .errorVar v := by
  rw [images, Table.contains_ofList, List.any_map, List.any_eq_true] at h
  obtain ⟨e, _, he⟩ := h
  rw [Function.comp_apply, Ty.beq_iff] at he
  cases t with
  | errorVar v => exact ⟨v, rfl⟩
  | _ => cases he

/-- What a solution puts in the place of an unknown. -/
def leaf (s : Solution) (x : Ty) : Ty := (s.images.get? x).getD x

theorem subst_images (s : Solution) (t : Ty) : t.subst s.images = t.graft s.leaf :=
  Ty.subst_eq_graft (fun _ h => key_images h) t

theorem apply_eq (s : Solution) (t : Ty) : s.apply t = (t.canonical.graft s.leaf).canonical := by
  rw [apply, subst_images]

section Leaf

variable {s : Solution}

theorem leaf_valueProj (name : String) (flexible : Bool) :
    s.leaf (.valueProj name flexible) = .valueProj name flexible := by
  have hnone : s.images.get? (.valueProj name flexible) = none := by
    refine Table.get?_eq_none.2 (Bool.eq_false_iff.2 fun hc => ?_)
    obtain ⟨v, hv⟩ := key_images hc
    cases hv
  rw [leaf, hnone]
  rfl

variable (hs : s.Clean) (hd : s.sets.Distinct)

include hd in
theorem leaf_solved {v : ErrorVar} {set : ErrorSet} (h : s.get? v = some set) :
    s.leaf (.errorVar v) = image set := by
  rw [leaf, get?_images hd, h]
  rfl

include hd in
theorem leaf_waiting {v : ErrorVar} (h : s.get? v = none) :
    s.leaf (.errorVar v) = .errorVar v := by
  rw [leaf, get?_images hd, h]
  rfl

include hs hd in
theorem leaf_rigid {v : ErrorVar} (hv : v.flexible = false) :
    s.leaf (.errorVar v) = .errorVar v := by
  refine leaf_waiting hd (Table.get?_eq_none.2 (Bool.eq_false_iff.2 fun hc => ?_))
  rw [hs.keys v hc] at hv
  cases hv

theorem constituents_toMember (a : Atom) (args : List Ty) :
    (a.toMember args).constituents = [a.toMember args] := by
  cases a <;> rfl

theorem isError_toMember (a : Atom) (args : List Ty) : (a.toMember args).isError = true := by
  cases a <;> rfl

/-- The image of a set that is not universal lists its atoms. -/
theorem constituents_image {set : ErrorSet} (h : set.universal = false) :
    (image set).constituents = set.entries.map fun e => e.1.toMember e.2 := by
  rw [image, h, if_neg Bool.false_ne_true, Ty.constituents, ErrorSet.members, h,
    if_neg Bool.false_ne_true, List.append_nil]
  refine Ty.constituentsAll_of_listed fun m hm => ?_
  obtain ⟨e, _, rfl⟩ := List.mem_map.1 hm
  exact constituents_toMember e.1 e.2

theorem isError_image {set : ErrorSet} : ∀ m ∈ (image set).constituents, m.isError = true := by
  intro m hm
  cases hu : set.universal with
  | true =>
      rw [image, hu, if_pos rfl] at hm
      obtain rfl := List.mem_singleton.1 hm
      rfl
  | false =>
      rw [constituents_image hu] at hm
      obtain ⟨e, _, rfl⟩ := List.mem_map.1 hm
      exact isError_toMember e.1 e.2

include hs hd in
theorem harmless_leaf : Ty.Harmless s.leaf where
  rigidProj name := leaf_valueProj name false
  rigidVar v hv := leaf_rigid hs hd hv
  value name := by rw [leaf_valueProj]; exact Or.inr rfl
  error v := by
    cases hv : s.get? v with
    | some set => rw [leaf_solved hd hv]; exact isError_image
    | none =>
        rw [leaf, get?_images hd, hv]
        intro m hm
        obtain rfl := List.mem_singleton.1 hm
        rfl

/-- A set without flexible variables reads the same as its image does when
nothing is solved. -/
theorem errors_image {v : ErrorVar} {set : ErrorSet} (hv : v.flexible = true)
    (hget : s.get? v = some set) (hrigid : set.Rigid) :
    SameErrors (View.interpretWith s (.errorVar v)) (View.interpretWith .empty (image set)) := by
  have hvar : (Ty.errorVar v).errorPart = [.errorVar v] := rfl
  have huniv : (View.interpretWith s (.errorVar v)).known.universal = set.universal := by
    rw [View.universal_interpretWith, hvar]
    simp [Ty.yieldsAll, hv, hget]
  cases hu : set.universal with
  | true =>
      refine ⟨?_, fun hno => ?_, fun hno => ?_⟩
      · rw [huniv, hu, image, hu, if_pos rfl]
        rfl
      · rw [huniv, hu] at hno; cases hno
      · rw [huniv, hu] at hno; cases hno
  | false =>
      have hpart : (image set).errorPart = set.entries.map fun e => e.1.toMember e.2 := by
        rw [Ty.errorPart, constituents_image hu]
        refine List.filter_eq_self.2 fun m hm => ?_
        obtain ⟨e, _, rfl⟩ := List.mem_map.1 hm
        exact isError_toMember e.1 e.2
      -- Atoms of the set are there as they are, since its variables are rigid.
      have hatom : ∀ e ∈ set.entries, ∀ a, (e.1.toMember e.2).yields .empty a = (e.1 == a) ∧
          (e.1.toMember e.2).yieldsAll .empty = false ∧
          (e.1.toMember e.2).waiting? .empty = none := by
        rintro ⟨atom, args⟩ he a
        cases atom with
        | classifier c => exact ⟨rfl, rfl, rfl⟩
        | var w =>
            have hw : w.flexible = false := hrigid w (ErrorSet.contains_of_mem he)
            simp [Atom.toMember, Ty.yields, Ty.yieldsAll, Ty.waiting?, hw]
      refine ⟨?_, fun _ a => ?_, fun _ x => ?_⟩
      · rw [huniv, hu, View.universal_interpretWith, hpart, List.any_map]
        exact (List.any_eq_false.2 fun e he => by
          rw [Function.comp_apply, (hatom e he (.var v)).2.1]; exact Bool.false_ne_true).symm
      · rw [View.contains_interpretWith, View.contains_interpretWith, hpart, hvar, List.any_map,
          Function.comp_def, any_congr_mem fun e he => (hatom e he a).1,
          ← ErrorSet.contains_eq_any]
        simp [Ty.yields, hv, hget]
      · have hnone : (View.interpretWith .empty (image set)).flexible = [] := by
          rw [View.flexible_interpretWith, hpart, List.filterMap_map]
          exact List.filterMap_eq_nil_iff.2 fun e he => (hatom e he (.var v)).2.2
        rw [hnone, View.flexible_interpretWith, hvar]
        simp [Ty.waiting?, hv, hget]

theorem errors_rigid (s s' : Solution) {v : ErrorVar} (hv : v.flexible = false) :
    SameErrors (View.interpretWith s (.errorVar v)) (View.interpretWith s' (.errorVar v)) := by
  have hvar : (Ty.errorVar v).errorPart = [.errorVar v] := rfl
  refine ⟨?_, fun _ a => ?_, fun _ x => ?_⟩
  · rw [View.universal_interpretWith, View.universal_interpretWith, hvar]
    simp [Ty.yieldsAll, hv]
  · rw [View.contains_interpretWith, View.contains_interpretWith, hvar]
    simp [Ty.yields, hv]
  · rw [View.flexible_interpretWith, View.flexible_interpretWith, hvar]
    simp [Ty.waiting?, hv]

include hs hd in
theorem errors_leaf {v : ErrorVar} (hv : v.flexible = true → s.contains v = true) :
    SameErrors (View.interpretWith s (.errorVar v))
      (View.interpretWith .empty (s.leaf (.errorVar v))) := by
  cases hflex : v.flexible with
  | false =>
      rw [leaf_rigid hs hd hflex]
      exact errors_rigid s .empty hflex
  | true =>
      obtain ⟨set, hset⟩ := Table.get?_of_contains (hv hflex)
      rw [leaf_solved hd hset]
      exact errors_image hflex hset (hs.rigid v set hset)

end Leaf

end Solution

/-! ## Types on the way to their resolution -/

namespace Ty

/-- An unknown whose error variable is a known one, and which is no flexible type
variable left to split. -/
def Accounted (known : ErrorVar → Prop) (x : Ty) : Prop :=
  (∀ name, x ≠ .var name true) ∧ x.Known known

/-- A type as it is between two steps: its variables are split, and if it has
projections it has no more than one value. -/
def Ready (known : ErrorVar → Prop) (t : Ty) : Prop :=
  t.Within (Unbindable known) ∨
    t.Within (Accounted known) ∧ t.constituents.countP isValue ≤ 1

variable {known : ErrorVar → Prop}

theorem stable_accounted : Stable (Accounted known) := by
  intro name flexible ⟨hsplit, hknown⟩
  have hboth := stable_known name flexible hknown
  exact ⟨⟨fun _ h => Ty.noConfusion h, hboth.1⟩, fun _ h => Ty.noConfusion h, hboth.2⟩

theorem Unbindable.accounted {x : Ty} (h : x.Unbindable known) : x.Accounted known := by
  refine ⟨fun name hx => ?_, h.2⟩
  have hproj := h.1
  rw [hx] at hproj
  cases hproj

theorem Within.imp {R R' : Ty → Prop} {t : Ty} (h : t.Within R) (himp : ∀ {x}, R x → R' x) :
    t.Within R' :=
  ⟨h.free, fun x hx => himp (h.unknowns x hx)⟩

namespace Ready

variable {t : Ty}

theorem within (h : t.Ready known) : t.Within (Accounted known) := by
  rcases h with h | h
  · exact h.imp Unbindable.accounted
  · exact h.1

theorem split (h : t.Ready known) : t.Split :=
  fun name hv => (h.within.unknowns _ hv).1 name rfl

theorem sole (h : t.Ready known) :
    t.constituents.countP isValue ≤ 1 ∨ t.projections = [] := by
  rcases h with h | h
  · exact Or.inr h.flat
  · exact Or.inl h.2

theorem mentioned (h : t.Ready known) {v : ErrorVar} (hv : .errorVar v ∈ t.constituents)
    (hflex : v.flexible = true) : known v :=
  ((h.within.constituent stable_accounted hv).unknowns _ List.mem_cons_self).2 v
    List.mem_cons_self hflex

theorem canonical (h : t.Ready known) : t.canonical.Ready known := by
  rcases h with h | h
  · exact Or.inl (h.canonical (stable_unbindable known))
  · exact Or.inr ⟨h.1.canonical stable_accounted, Nat.le_trans (countP_canonical t) h.2⟩

/-- Types stay ready if projections are replaced by what may stand for a value,
and error variables by what may stand in an argument. -/
theorem graft (ht : t.Ready known) {h : Ty → Ty} (hh : Harmless h)
    (hproj : ∀ name, (h (.valueProj name true)).Within (Accounted known))
    (hvar : ∀ v, (v.flexible = true → known v) →
      (h (.errorVar v)).Within (Unbindable known)) : (t.graft h).Ready known := by
  have hrigid : ∀ name, (h (.valueProj name false)).Within (Unbindable known) := by
    intro name
    rw [hh.rigidProj name]
    exact .of_unknown (Or.inl ⟨name, false, rfl⟩) ⟨rfl, fun _ hv => absurd hv List.not_mem_nil⟩
  have hmention : ∀ {v}, Ty.Known known (.errorVar v) → v.flexible = true → known v :=
    fun hv => hv _ List.mem_cons_self
  rcases ht with ht | ⟨ht, hone⟩
  · refine Or.inl (ht.graft (stable_unbindable known) ?_ ?_ ?_)
    · intro name flexible hx
      cases flexible with
      | false => exact hrigid name
      | true => cases (ht.unknowns _ hx).1
    · exact fun v hx => hvar v (hmention (ht.unknowns _ hx).2)
    · exact fun _ _ hx => ht.unknowns _ hx
  · refine Or.inr ⟨ht.graft stable_accounted ?_ ?_ ?_, Nat.le_trans (countP_graft hh _) hone⟩
    · intro name flexible hx
      cases flexible with
      | false => exact (hrigid name).imp Unbindable.accounted
      | true => exact hproj name
    · exact fun v hx => (hvar v (hmention (ht.unknowns _ hx).2)).imp Unbindable.accounted
    · exact fun _ _ hx => ht.unknowns _ hx

/-- Replacing unknowns in types that are ready is a rereading. -/
theorem rereads {s s' : Solution} {h : Ty → Ty} (hh : Harmless h)
    (hproj : ∀ name, (h (.valueProj name true)).Within (Accounted known))
    (hvar : ∀ v, (v.flexible = true → known v) →
      (h (.errorVar v)).Within (Unbindable known) ∧
        SameErrors (View.interpretWith s (.errorVar v))
          (View.interpretWith s' (h (.errorVar v)))) :
    Rereads (Ready known) (Ready known) s s' (Ty.graft h) :=
  rereads_graft hh split sole (fun ht v hv => (hvar v (ht.mentioned hv)).2)
    fun ht => ht.graft hh hproj fun v hv => (hvar v hv).1

end Ready

end Ty

/-! ## The steps of a resolution -/

section Steps

variable {known : ErrorVar → Prop} {b : Bindings} {s : Solution}

theorem Ty.within_errorVar {v : ErrorVar} (hv : v.flexible = true → known v) :
    (Ty.errorVar v).Within (Ty.Unbindable known) := by
  refine .of_unknown (Or.inr (Or.inl ⟨v, rfl⟩)) ⟨rfl, fun w hw hflex => ?_⟩
  rw [List.mem_singleton.1 hw] at hflex ⊢
  exact hv hflex

theorem Ty.within_rigid {v : ErrorVar} (hv : v.flexible = false) :
    (Ty.errorVar v).Within (Ty.Unbindable known) :=
  Ty.within_errorVar fun hflex => by rw [hv] at hflex; cases hflex

/-- The image of a set that needs no solving may stand in an argument. -/
theorem Solution.within_image {set : ErrorSet} (hfree : set.PayloadFree)
    (hrigid : set.Rigid) : (image set).Within (Ty.Unbindable known) := by
  cases hu : set.universal with
  | true =>
      rw [image, hu, if_pos rfl]
      exact ⟨rfl, fun _ hx => absurd hx List.not_mem_nil⟩
  | false =>
      have hmember : ∀ m ∈ set.members, m.Within (Ty.Unbindable known) := by
        intro m hm
        rw [ErrorSet.members, hu, if_neg Bool.false_ne_true, List.append_nil] at hm
        obtain ⟨⟨atom, args⟩, he, rfl⟩ := List.mem_map.1 hm
        cases atom with
        | classifier c =>
            obtain rfl : args = [] := hfree _ he
            exact ⟨rfl, fun _ hx => absurd hx List.not_mem_nil⟩
        | var w => exact Ty.within_rigid (hrigid w (ErrorSet.contains_of_mem he))
      rw [image, hu, if_neg Bool.false_ne_true]
      refine ⟨Ty.payloadFreeAll_iff.2 fun m hm => (hmember m hm).free, fun x hx => ?_⟩
      obtain ⟨m, hm, hx⟩ := Ty.mem_unknownsAll.1 hx
      exact (hmember m hm).unknowns x hx

theorem Bindings.Stem.isValue {x : Ty} (h : Bindings.Stem known x) :
    x = .nothing ∨ x.isValue = true := by
  cases h with
  | nothing => exact Or.inl rfl
  | _ => exact Or.inr rfl

theorem Bindings.Stem.within {x : Ty} (h : Bindings.Stem known x) :
    x.Within (Ty.Accounted known) := by
  cases h with
  | value | nothing => exact ⟨rfl, fun _ hx => absurd hx List.not_mem_nil⟩
  | proj name flexible =>
      exact .of_unknown (Or.inl ⟨name, flexible, rfl⟩)
        ⟨fun _ he => Ty.noConfusion he, fun _ hv => absurd hv List.not_mem_nil⟩
  | con c hargs =>
      refine ⟨Ty.payloadFreeAll_iff.2 fun a ha => (hargs a ha).free, fun x hx => ?_⟩
      obtain ⟨a, ha, hx⟩ := Ty.mem_unknownsAll.1 hx
      exact ((hargs a ha).unknowns x hx).accounted

/-- Writing bindings out is a rereading. -/
theorem Bindings.Grown.rereads_written (hb : b.Grown known) :
    Rereads (Ty.Ready known) (Ty.Ready known) s s b.written := by
  have hleaf : ∀ name, Bindings.Stem known
      (leafOf (b.imageWithin b.table.size) (.valueProj name true)) :=
    fun name => (hb.followed (.proj name true)).stem
  refine Ty.Ready.rereads ⟨fun _ => rfl, fun _ _ => rfl, fun name => (hleaf name).isValue, ?_⟩
    (fun name => (hleaf name).within) fun v hv => ⟨Ty.within_errorVar hv, .refl _⟩
  intro v m hm
  obtain rfl := List.mem_singleton.1 hm
  rfl

/-- Putting a solution in is a rereading after which nothing is to be solved. -/
theorem Solution.Ground.rereads_leaf (hs : s.Ground) (hd : s.sets.Distinct)
    (hknown : ∀ v, known v → s.contains v = true) :
    Rereads (Ty.Ready known) (Ty.Ready known) s .empty (Ty.graft s.leaf) := by
  refine Ty.Ready.rereads (harmless_leaf hs.clean hd) (fun name => ?_) fun v hv => ⟨?_, ?_⟩
  · rw [leaf_valueProj]
    exact (Bindings.Stem.proj name true).within
  · cases hflex : v.flexible with
    | false =>
        rw [leaf_rigid hs.clean hd hflex]
        exact Ty.within_rigid hflex
    | true =>
        obtain ⟨set, hset⟩ := Table.get?_of_contains (hknown v (hv hflex))
        rw [leaf_solved hd hset]
        exact within_image (hs.free v set hset) (hs.rigid v set hset)
  · exact errors_leaf hs.clean hd fun hflex => hknown v (hv hflex)

/-- Dropping what was never bound is a rereading. -/
theorem rereads_grounding (known : ErrorVar → Prop) (s : Solution) :
    Rereads (Ty.Ready known) (Ty.Ready known) s s (Ty.graft Ty.grounding) :=
  Ty.Ready.rereads Ty.harmless_grounding (fun _ => Bindings.Stem.nothing.within)
    fun _ hv => ⟨Ty.within_errorVar hv, .refl _⟩

/-- A type with its variables solved, and without what was never bound. -/
def Solution.settled (s : Solution) (t : Ty) : Ty := (s.apply t).ground.canonical

theorem Solution.Ground.rereads_settled (hs : s.Ground) (hd : s.sets.Distinct)
    (hknown : ∀ v, known v → s.contains v = true) :
    Rereads (Ty.Ready known) (Ty.Ready known) s .empty s.settled := by
  have hcanon : ∀ s, Rereads (Ty.Ready known) (Ty.Ready known) s s Ty.canonical :=
    fun s => rereads_canonical s Ty.Ready.canonical
  have hall := ((((hcanon s).comp (hs.rereads_leaf hd hknown)).comp (hcanon .empty)).comp
    (rereads_grounding known .empty)).comp (hcanon .empty)
  have heq : s.settled = fun t =>
      (((t.canonical.graft s.leaf).canonical).graft Ty.grounding).canonical := by
    funext t
    rw [settled, apply_eq, Ty.ground_eq_graft]
  rw [heq]
  exact hall

end Steps

theorem Ty.Admissible.canonical {known : ErrorVar → Prop} {t : Ty} (h : t.Admissible known) :
    t.canonical.Ready known := by
  refine Or.inr ⟨⟨Ty.payloadFree_canonical h.free, fun x hx => ?_⟩,
    Nat.le_trans (Ty.countP_canonical t) h.sole⟩
  obtain ⟨hx, hvar⟩ := Ty.stable_known.canonical h.within.unknowns x hx
  exact ⟨fun name => hvar name true, hx⟩

/-! ## Comparisons of what types resolve to -/

/-- What a type resolves to, before it is checked against the grammar. -/
def resolved (b : Bindings) (s : Solution) (t : Ty) : Ty := s.settled (b.written t.canonical)

section Resolved

variable {known : ErrorVar → Prop} {b : Bindings} {s : Solution} (hb : b.Grown known)
  (hs : s.Ground) (hd : s.sets.Distinct) (hknown : ∀ v, known v → s.contains v = true)

include hb hs hd hknown

/-- Resolving is a rereading, from wherever normalising leads to. -/
theorem rereads_resolved {Q : Ty → Prop} (hQ : ∀ {t : Ty}, Q t → t.canonical.Ready known) :
    Rereads Q (Ty.Ready known) s .empty (resolved b s) :=
  ((rereads_canonical s hQ).comp hb.rereads_written).comp (hs.rereads_settled hd hknown)

omit hb in
/-- What is left of a stem once it is settled. -/
theorem renders_settled {x : Ty} (hx : Bindings.Stem known x) :
    Ty.Renders s.settled x (s.settled x) := by
  have hall := hs.rereads_settled hd hknown
  cases hx with
  | value => rw [hall.fixed (Or.inl rfl)]; exact .fixed (Or.inl rfl)
  | nothing => rw [hall.fixed (Or.inr (Or.inl rfl))]; exact .fixed (Or.inr (Or.inl rfl))
  | con c hargs => rw [hall.con]; exact .con c _
  | proj name flexible =>
      cases flexible with
      | false =>
          have hfixed : (Ty.valueProj name false).Fixed := Or.inr (Or.inr (Or.inr ⟨name, rfl⟩))
          rw [hall.fixed hfixed]
          exact .fixed hfixed
      | true =>
          have hnothing : s.settled (.valueProj name true) = .nothing := by
            rw [Solution.settled, Solution.apply_eq]
            show (s.leaf (.valueProj name true)).canonical.ground.canonical = .nothing
            rw [Solution.leaf_valueProj]
            rfl
          rw [hnothing]
          exact .unbound name

/-- What a value came down to is rendered by what it resolves to. -/
theorem renders_resolved {x : Ty} (hx : Bindings.Stem known x) :
    ∃ g, Rereads (Ty.Within (Ty.Unbindable known)) (Ty.Tame .empty) s .empty g ∧
      Ty.Renders g (b.followed x) (resolved b s x) := by
  have htame : ∀ {t : Ty}, t.Ready known → t.Tame .empty :=
    fun ht => ⟨ht.within.free, fun _ _ => rfl⟩
  have hsettled : Rereads (Ty.Within (Ty.Unbindable known)) (Ty.Tame .empty) s .empty
      s.settled :=
    ((Rereads.id Or.inl).comp (hs.rereads_settled hd hknown)).comp (.id htame)
  have hresolved : Rereads (Ty.Within (Ty.Unbindable known)) (Ty.Tame .empty) s .empty
      (resolved b s) :=
    (rereads_resolved hb hs hd hknown fun ht => Ty.Ready.canonical (Or.inl ht)).comp (.id htame)
  cases hx with
  | proj name flexible =>
      refine ⟨s.settled, hsettled, ?_⟩
      exact renders_settled hs hd hknown (hb.followed (.proj name flexible)).stem
  | value => exact ⟨_, hresolved, by rw [hresolved.fixed (Or.inl rfl)]; exact .fixed (Or.inl rfl)⟩
  | nothing =>
      refine ⟨_, hresolved, ?_⟩
      rw [hresolved.fixed (Or.inr (Or.inl rfl))]
      exact .fixed (Or.inr (Or.inl rfl))
  | con c hargs => exact ⟨_, hresolved, by rw [hresolved.con]; exact .con c _⟩

omit hb hd hknown in
/-- Arguments were compared while nothing was solved. The comparison holds under
the solution too, and so after any rereading that puts it in. -/
theorem covers_args {x y : Ty} {g g' : Ty → Ty}
    (hg : Rereads (Ty.Within (Ty.Unbindable known)) (Ty.Tame .empty) s .empty g)
    (hg' : Rereads (Ty.Within (Ty.Unbindable known)) (Ty.Tame .empty) s .empty g')
    (hx : x.Within (Ty.Unbindable known)) (hy : y.Within (Ty.Unbindable known))
    (h : Covers .empty b x y) : Covers .empty .empty (g x) (g' y) :=
  Covers.reread_args hs.free Solution.payloadFree_empty hg hg' hx hy
    (Covers.solved hs.free _ (Nat.lt_succ_self _) (hx.tame b) (hy.tame b) h)

/-- A comparison that holds under bindings and a solution holds of what the two
types resolve to. -/
theorem covers_resolved {sup sub : Ty} (hsup : sup.Admissible known)
    (hsub : sub.Admissible known)
    (h : sup.failed = true ∨ sub.failed = true ∨
      ValuesCover b sup.valuePart sub.valuePart ∧ ErrorsCover s sup sub) :
    Covers .empty .empty (resolved b s sup) (resolved b s sub) := by
  have hall : Rereads (Ty.Admissible known) (Ty.Ready known) s .empty (resolved b s) :=
    rereads_resolved hb hs hd hknown Ty.Admissible.canonical
  have htame : ∀ {t : Ty}, t.Admissible known → (resolved b s t).Tame .empty :=
    fun ht => ⟨(hall.good ht).within.free, fun _ _ => rfl⟩
  rw [covers_iff Solution.payloadFree_empty (htame hsup) (htame hsub), hall.failed hsup,
    hall.failed hsub]
  refine Ty.failed_or_imp h fun hfsup hfsub ⟨hvalues, herrors⟩ => ?_
  refine ⟨?_, herrors.of_same (hall.errors hsup hfsup) (hall.errors hsub hfsub)⟩
  rw [hall.value hsup hfsup, hall.value hsub hfsub]
  obtain ⟨g, hg, hrg⟩ := renders_resolved hb hs hd hknown (hsup.stem hfsup)
  obtain ⟨g', hg', hrg'⟩ := renders_resolved hb hs hd hknown (hsub.stem hfsub)
  refine hvalues.renders hrg hrg' fun c as d bs hc hd x hx y hy => ?_
  have hxa := (hc ▸ (hb.followed (hsup.stem hfsup)).stem).args x hx
  have hya := (hd ▸ (hb.followed (hsub.stem hfsub)).stem).args y hy
  exact ⟨covers_args hs hg hg' hxa hya, covers_args hs hg' hg hya hxa,
    Covers.of_beq Solution.payloadFree_empty (hxa.tame b) (hya.tame b)⟩

end Resolved

end Fallible
