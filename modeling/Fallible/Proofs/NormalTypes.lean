import Fallible.Proofs.Grafting
import Fallible.Proofs.NormalForm

/-!
# Normal types

What canonical forms look like can be said without normalising. A union is normal
if it has at least two members, each a single value or a single error that is
normal itself, if they are in the order of listings, and if no two are equal. A
constructor or a classifier is normal if its arguments are. Of the rest, only a
type variable that has not been split is not normal.

Normalising yields normal types and leaves normal types alone. So the normal types
are exactly the canonical forms, and normalising twice is normalising once.
-/

namespace Fallible.Ty

/-- Whether a type is as it stands in the order and the shape of canonical forms. -/
inductive Normal : Ty → Prop
  | any : Normal .any
  | value : Normal .value
  | error : Normal .error
  | nothing : Normal .nothing
  | erroneous : Normal .erroneous
  | valueProj (name : String) (flexible : Bool) : Normal (.valueProj name flexible)
  | errorVar (v : ErrorVar) : Normal (.errorVar v)
  | con (c : Con) (args : List Ty) (h : ∀ a ∈ args, Normal a) : Normal (.con c args)
  | errorConst (c : Classifier) (args : List Ty) (h : ∀ a ∈ args, Normal a) :
      Normal (.errorConst c args)
  | union (ms : List Ty) (two : 2 ≤ ms.length)
      (single : ∀ m ∈ ms, m.isValue = true ∨ m.isError = true) (members : ∀ m ∈ ms, Normal m)
      (sorted : ms.Pairwise fun a b => (memberKey a).le (memberKey b) = true)
      (different : ms.Pairwise fun a b => (a == b) = false) : Normal (.union ms)

/-- A single value or error opens up no further. -/
theorem constituents_of_single {m : Ty} (h : m.isValue = true ∨ m.isError = true) :
    m.constituents = [m] := by
  cases m <;> first | rfl | simp [isValue, isError] at h

theorem ofListed_of_two_le {ms : List Ty} (h : 2 ≤ ms.length) : ofListed ms = .union ms := by
  cases ms with
  | nil => cases h
  | cons m rest =>
      cases rest with
      | nil => simp at h
      | cons n rest => rfl

/-! ## Normalising yields normal types -/

/-- A type that did not fail lists the canonical forms of its constituents. -/
theorem constituents_canonical_of_sound {t : Ty} (h : t.failed = false) :
    t.canonical.constituents = sortOn memberKey (distinct (t.constituents.map canonical)) := by
  by_cases hany : t = .any
  · subst hany
    rfl
  · rw [canonical_eq_ofConstituents hany, ofConstituents, any_erroneous_map_canonical, h,
      if_neg Bool.false_ne_true]
    refine constituents_ofListed fun m hm => ?_
    obtain ⟨x, hx, rfl⟩ := List.mem_map.1 (mem_of_listed hm)
    exact constituents_canonical_of_mem hx

theorem Normal.constituents {t : Ty} (h : t.Normal) : ∀ m ∈ t.constituents, m.Normal := by
  intro m hm
  have hself : t.constituents = [t] → m.Normal := by
    intro ht
    rw [ht, List.mem_singleton] at hm
    exact hm ▸ h
  cases h with
  | any =>
      simp only [Ty.constituents, List.mem_cons, List.not_mem_nil, or_false] at hm
      rcases hm with rfl | rfl
      · exact .value
      · exact .error
  | nothing => exact absurd hm List.not_mem_nil
  | union ms two single members sorted different =>
      rw [Ty.constituents,
        constituentsAll_of_listed fun x hx => constituents_of_single (single x hx)] at hm
      exact members m hm
  | _ => exact hself rfl

theorem normal_ofListed {ms : List Ty} (single : ∀ m ∈ ms, m.isValue = true ∨ m.isError = true)
    (members : ∀ m ∈ ms, m.Normal)
    (sorted : ms.Pairwise fun a b => (memberKey a).le (memberKey b) = true)
    (different : ms.Pairwise fun a b => (a == b) = false) : (ofListed ms).Normal := by
  cases ms with
  | nil => exact .nothing
  | cons m rest =>
      cases rest with
      | nil => exact members m List.mem_cons_self
      | cons n rest =>
          refine .union _ ?_ single members sorted different
          rw [List.length_cons, List.length_cons]
          omega

theorem normal_canonical (t : Ty) : t.canonical.Normal := by
  have hargs : ∀ {args : List Ty}, (∀ a ∈ args, a.canonical.Normal) →
      ∀ a ∈ canonicalAll args, a.Normal := by
    intro args h a ha
    rw [canonicalAll_eq_map] at ha
    obtain ⟨x, hx, rfl⟩ := List.mem_map.1 ha
    exact h x hx
  induction t with
  | union ms ih =>
      cases hf : (flat ms).any isErroneous with
      | true => rw [canonical_union_of_failed hf]; exact .erroneous
      | false =>
          -- What is listed are constituents of canonical members, and none of them failed.
          have hfrom : ∀ m ∈ sortOn memberKey (distinct (flat ms)),
              ∃ x ∈ ms, m ∈ x.canonical.constituents := by
            intro m hm
            have hflat := mem_of_listed hm
            rw [flat_eq] at hflat
            exact List.mem_flatMap.1 hflat
          have hdifferent := constituents_canonical_pairwise (.union ms)
          rw [constituents_canonical_union hf] at hdifferent
          rw [canonical_union_of_sound hf]
          refine normal_ofListed (fun m hm => ?_) (fun m hm => ?_) (sortOn_pairwise _ _) hdifferent
          · obtain ⟨x, -, hmx⟩ := hfrom m hm
            rcases member_cases hmx with hv | he | rfl
            · exact Or.inl hv
            · exact Or.inr he
            · exact absurd rfl (List.any_eq_false.1 hf _ (mem_of_listed hm))
          · obtain ⟨x, hx, hmx⟩ := hfrom m hm
            exact (ih x hx).constituents m hmx
  | con c args ih => exact .con c _ (hargs ih)
  | errorConst c args ih => exact .errorConst c _ (hargs ih)
  | var name flexible =>
      refine .union _ (Nat.le_refl 2) (fun m hm => ?_) (fun m hm => ?_) ?_ ?_
      · simp only [List.mem_cons, List.not_mem_nil, or_false] at hm
        rcases hm with rfl | rfl
        · exact Or.inl rfl
        · exact Or.inr rfl
      · simp only [List.mem_cons, List.not_mem_nil, or_false] at hm
        rcases hm with rfl | rfl
        · exact .valueProj name flexible
        · exact .errorVar _
      · exact List.pairwise_pair.2 rfl
      · exact List.pairwise_pair.2 rfl
  | any => exact .any
  | value => exact .value
  | error => exact .error
  | nothing => exact .nothing
  | erroneous => exact .erroneous
  | valueProj name flexible => exact .valueProj name flexible
  | errorVar v => exact .errorVar v

/-! ## Normalising leaves normal types alone -/

theorem Normal.canonical_eq {t : Ty} (h : t.Normal) : t.canonical = t := by
  have hargs : ∀ {args : List Ty}, (∀ a ∈ args, a.canonical = a) → canonicalAll args = args := by
    intro args h
    rw [canonicalAll_eq_map, List.map_congr_left h, List.map_id']
  induction h with
  | con c args _ ih => rw [canonical, hargs ih]
  | errorConst c args _ ih => rw [canonical, hargs ih]
  | union ms two single members sorted different ih =>
      have hsound : ms.any isErroneous = false :=
        List.any_eq_false.2 fun m hm => Bool.eq_false_iff.1
          ((single m hm).elim not_isErroneous_of_isValue not_isErroneous_of_isError)
      rw [← ofListed_of_two_le two]
      exact canonical_ofListed (fun m hm => constituents_of_single (single m hm)) ih hsound
        sorted different
  | _ => rfl

/-- Every canonical form is normal, normalising leaves exactly the normal types as
they are, and a type is a canonical form exactly if it is normal. So normalising
twice is normalising once. -/
theorem canonical_forms_are_normal_types (t : Ty) :
    t.canonical.Normal ∧ (t.canonical = t ↔ t.Normal) ∧
      ((∃ u : Ty, u.canonical = t) ↔ t.Normal) ∧ t.canonical.canonical = t.canonical := by
  refine ⟨t.normal_canonical, ⟨fun h => h ▸ t.normal_canonical, Normal.canonical_eq⟩, ?_,
    t.normal_canonical.canonical_eq⟩
  constructor
  · rintro ⟨u, rfl⟩
    exact u.normal_canonical
  · exact fun h => ⟨t, h.canonical_eq⟩

end Fallible.Ty
