import Fallible.Grammar
import Fallible.Proofs.Grafting
import Fallible.Proofs.NormalForm
import Fallible.Proofs.Verdicts
import Mathlib.Data.List.Pairwise

/-!
# Normalising keeps verdicts

A type and its canonical form have the same value part and the same set of
errors. What may differ is which arguments a classifier has. A union that names
a classifier twice keeps the record named first and the arguments named last,
while its canonical form keeps whichever of the two is listed first. So the one
condition is that no union names a classifier twice, at any depth. Then every
classifier has one list of arguments, the canonical form has that list with
each argument normalised, and normalising is a faithful step.

Nothing is asked of the types beyond that. They may break the grammar in other
ways, hold flexible variables, and hold marks of failed checks.
-/

namespace Fallible

namespace Ty

/-! ## Types that name classifiers once -/

/-- Whether the constituents of a type are of different classifiers. -/
def Unrepeated (t : Ty) : Prop :=
  (Grammar.constants t.constituents).Pairwise fun c d => c.id ≠ d.id

instance (t : Ty) : Decidable t.Unrepeated :=
  inferInstanceAs (Decidable (List.Pairwise _ _))

/-- Whether no union in the type, at any depth, names a classifier twice. -/
def NamesOnce (t : Ty) : Prop := ∀ u ∈ t.subterms, u.Unrepeated

instance (t : Ty) : Decidable t.NamesOnce :=
  inferInstanceAs (Decidable (∀ u ∈ t.subterms, u.Unrepeated))

/-- Whether two types are not constants of one classifier. -/
def Differ (x y : Ty) : Prop :=
  ∀ c as, x = .errorConst c as → ∀ d bs, y = .errorConst d bs → c.id ≠ d.id

theorem constants_pairwise_iff {flat : List Ty} :
    (Grammar.constants flat).Pairwise (fun c d => c.id ≠ d.id) ↔ flat.Pairwise Differ := by
  rw [Grammar.constants, List.pairwise_filterMap]
  refine iff_of_eq (congrArg (List.Pairwise · _) ?_)
  funext x y
  refine propext ⟨fun h c as hx d bs hy => ?_, fun h c hc d hd => ?_⟩
  · exact h c (by rw [hx]) d (by rw [hy])
  · cases x with
    | errorConst c' as =>
        cases y with
        | errorConst d' bs => cases hc; cases hd; exact h _ _ rfl _ _ rfl
        | _ => cases hd
    | _ => cases hc

theorem unrepeated_iff {t : Ty} : t.Unrepeated ↔ t.constituents.Pairwise Differ :=
  constants_pairwise_iff

theorem Unrepeated.eq {t : Ty} (h : t.Unrepeated) {c d : Classifier} {as bs : List Ty}
    (hc : .errorConst c as ∈ t.constituents) (hd : .errorConst d bs ∈ t.constituents)
    (hid : c.id = d.id) : Ty.errorConst c as = .errorConst d bs := by
  have : Std.Symm Differ := ⟨fun x y hxy d bs hd c as hc he => hxy c as hc d bs hd he.symm⟩
  by_contra hne
  exact (unrepeated_iff.1 h).forall hc hd hne c as rfl d bs rfl hid

theorem unrepeated_of_single {t m : Ty} (h : t.constituents = [m]) : t.Unrepeated := by
  rw [unrepeated_iff, h]
  exact List.pairwise_singleton _ _

theorem namesOnce_of_single {t m : Ty} (h : t.subterms = [t]) (hm : t.constituents = [m]) :
    t.NamesOnce := by
  intro u hu
  rw [h] at hu
  obtain rfl := List.mem_singleton.1 hu
  exact unrepeated_of_single hm

namespace NamesOnce

variable {t : Ty}

theorem top (h : t.NamesOnce) : t.Unrepeated := h t t.mem_subterms_self

theorem of_mem_subterms (h : t.NamesOnce) {u : Ty} (hu : u ∈ t.subterms) : u.NamesOnce :=
  fun x hx => h x (subterms_trans hx hu)

theorem of_mem_constituents (h : t.NamesOnce) {m : Ty} (hm : m ∈ t.constituents) :
    m.NamesOnce := by
  rcases mem_subterms_of_mem_constituents hm with hs | rfl | rfl | ⟨_, _, rfl⟩ | ⟨_, rfl⟩
  · exact h.of_mem_subterms hs
  all_goals exact namesOnce_of_single rfl rfl

end NamesOnce

/-- Names stand once in a type if they do at its top and in its parts. -/
theorem namesOnce_iff {t : Ty} {ms : List Ty} (h : t.subterms = t :: subtermsAll ms) :
    t.NamesOnce ↔ t.Unrepeated ∧ ∀ m ∈ ms, m.NamesOnce := by
  simp only [NamesOnce, h, List.mem_cons, forall_eq_or_imp, mem_subtermsAll, forall_exists_index,
    and_imp]
  exact and_congr_right fun _ => ⟨fun H m hm u hu => H u m hm hu, fun H u m hm hu => H m hm u hu⟩

theorem namesOnce_of_constituents {t : Ty} (h : t.Unrepeated)
    (hparts : ∀ m ∈ t.constituents, m.NamesOnce) : t.NamesOnce := by
  induction t with
  | union ms ih =>
      refine (namesOnce_iff rfl).2 ⟨h, fun m hm => ih m hm ?_ fun x hx => ?_⟩
      · rw [unrepeated_iff, constituents, constituentsAll_eq_flatMap, List.pairwise_flatMap] at h
        exact unrepeated_iff.2 (h.1 m hm)
      · exact hparts x (mem_constituents_union.2 ⟨m, hm, hx⟩)
  | any | nothing | var =>
      intro u hu
      obtain rfl := List.mem_singleton.1 hu
      exact h
  | _ => exact hparts _ List.mem_cons_self

/-! ## Canonical forms name classifiers once -/

theorem errorConst_of_canonical {t x : Ty} (hx : x ∈ t.constituents) {c : Classifier}
    {ys : List Ty} (h : x.canonical = .errorConst c ys) :
    ∃ xs, x = .errorConst c xs ∧ ys = xs.map canonical := by
  cases x with
  | errorConst d xs =>
      rw [canonical, canonicalAll_eq_map] at h
      cases h
      exact ⟨xs, rfl, rfl⟩
  | union ms => rcases member_cases hx with hm | hm | hm <;> cases hm
  | _ => cases h

/-- The constants of a canonical form are those of the type, normalised. -/
theorem mem_constants_canonical {t : Ty} {c : Classifier} {ys : List Ty}
    (h : .errorConst c ys ∈ t.canonical.constituents) :
    ∃ xs, .errorConst c xs ∈ t.constituents ∧ ys = xs.map canonical := by
  obtain ⟨x, hx, hc⟩ := mem_canonical h
  obtain ⟨xs, rfl, hys⟩ := errorConst_of_canonical hx hc.symm
  exact ⟨xs, hx, hys⟩

/-- The error variables of a canonical form are those of the type. -/
theorem errorVar_mem_of_canonical {t : Ty} {v : ErrorVar}
    (h : .errorVar v ∈ t.canonical.constituents) : .errorVar v ∈ t.constituents := by
  obtain ⟨x, hx, hxv⟩ := mem_canonical h
  cases x with
  | errorVar w => cases hxv; exact hx
  | union ms => rcases member_cases hx with hm | hm | hm <;> cases hm
  | _ => cases hxv

theorem Unrepeated.canonical {t : Ty} (h : t.Unrepeated) : t.canonical.Unrepeated := by
  rw [unrepeated_iff]
  refine t.constituents_canonical_pairwise.imp_of_mem fun {x y} hx hy hne => ?_
  rintro c as rfl d bs rfl hid
  obtain ⟨xs, hxs, rfl⟩ := mem_constants_canonical hx
  obtain ⟨ys, hys, rfl⟩ := mem_constants_canonical hy
  cases h.eq hxs hys hid
  rw [BEq.rfl] at hne
  cases hne

/-- Where classifiers are named once, no constant is lost. -/
theorem Unrepeated.errorConst_mem_canonical {t : Ty} (h : t.Unrepeated) (hf : t.failed = false)
    {c : Classifier} {xs : List Ty} (hc : .errorConst c xs ∈ t.constituents) :
    .errorConst c (xs.map Ty.canonical) ∈ t.canonical.constituents := by
  obtain ⟨m, hm, hmc⟩ := exists_mem_canonical hf hc
  rw [Ty.canonical, canonicalAll_eq_map, beq_iff, bare] at hmc
  cases m with
  | errorConst d ys =>
      -- What is listed for this classifier comes from the one constant that names it.
      rw [bare, errorConst.injEq] at hmc
      obtain ⟨zs, hzs, rfl⟩ := mem_constants_canonical hm
      cases h.eq hc hzs (congrArg Classifier.id hmc.1).symm
      exact hm
  | _ => cases hmc

theorem mem_subterms_ofListed {ms : List Ty} {u : Ty} (h : u ∈ (ofListed ms).subterms) :
    u = ofListed ms ∨ ∃ m ∈ ms, u ∈ m.subterms := by
  unfold ofListed at h ⊢
  split at h
  · exact Or.inl (List.mem_singleton.1 h)
  · exact Or.inr ⟨_, List.mem_cons_self, h⟩
  · rw [subterms, List.mem_cons] at h
    exact h.imp_right mem_subtermsAll.1

theorem NamesOnce.canonical {t : Ty} (h : t.NamesOnce) : t.canonical.NamesOnce := by
  induction t with
  | union ms ih =>
      rcases canonical_union_cases ms with hc | ⟨listed, hc, hfrom⟩
      · rw [hc]
        exact namesOnce_of_single rfl rfl
      · intro u hu
        rw [hc] at hu
        rcases mem_subterms_ofListed hu with rfl | ⟨m, hm, hu⟩
        · rw [← hc]
          exact h.top.canonical
        · obtain ⟨x, hx, hm⟩ := hfrom m hm
          exact (ih x hx (((namesOnce_iff rfl).1 h).2 x hx)).of_mem_constituents hm u hu
  | con c args ih | errorConst c args ih =>
      rw [Ty.canonical, canonicalAll_eq_map]
      refine (namesOnce_iff rfl).2 ⟨unrepeated_of_single rfl, fun m hm => ?_⟩
      obtain ⟨a, ha, rfl⟩ := List.mem_map.1 hm
      exact ih a ha (((namesOnce_iff rfl).1 h).2 a ha)
  | var name flexible =>
      refine (namesOnce_iff rfl).2 ⟨List.Pairwise.nil, fun m hm => ?_⟩
      simp only [List.mem_cons, List.not_mem_nil, or_false] at hm
      rcases hm with rfl | rfl <;> exact namesOnce_of_single rfl rfl
  | _ => exact h

end Ty

/-! ## Arguments in canonical forms -/

/-- A type that names classifiers once knows each with the arguments written. -/
theorem Ty.Unrepeated.mem_known {t : Ty} (h : t.Unrepeated) {c : Classifier} {args : List Ty} :
    (.classifier c, args) ∈ (View.interpretWith .empty t).known.entries ↔
      .errorConst c args ∈ t.constituents := by
  have hto : ∀ {d : Classifier} {args : List Ty},
      (.classifier d, args) ∈ (View.interpretWith .empty t).known.entries →
      .errorConst d args ∈ t.constituents := by
    intro d args hd
    rcases View.stemsFrom_interpretWith _ hd with ⟨x, hx⟩ | ⟨e, as, e', he, hid, hmem, hmem'⟩
    · cases hx
    · cases he
      have hmem := (List.mem_filter.1 hmem).1
      have hmem' := (List.mem_filter.1 hmem').1
      cases h.eq hmem hmem' hid
      exact hmem
  refine ⟨hto, fun hc => ?_⟩
  have hin : (View.interpretWith .empty t).known.contains (.classifier c) = true := by
    rw [View.contains_interpretWith, List.any_eq_true]
    exact ⟨_, List.mem_filter.2 ⟨hc, rfl⟩, BEq.rfl⟩
  obtain ⟨⟨a, args'⟩, he, hea⟩ := ErrorSet.contains_iff.1 hin
  cases a with
  | var x => cases hea
  | classifier d =>
      cases h.eq hc (hto he) (Classifier.beq_iff.1 hea).symm
      exact he

theorem View.known_args {t : Ty} {a : Atom} {args : List Ty}
    (h : (a, args) ∈ (interpretWith .empty t).known.entries) (hargs : args ≠ []) :
    ∃ c, a = .classifier c := by
  rcases stemsFrom_interpretWith _ h with ⟨x, hx⟩ | ⟨c, _, _, hc, _⟩
  · cases hx; exact absurd rfl hargs
  · exact ⟨c, hc⟩

theorem carried_canonical {t : Ty} (h : t.Unrepeated) (hf : t.failed = false) :
    Carried Ty.canonical (View.interpretWith .empty t).known
      (View.interpretWith .empty t.canonical).known where
  kept a xs ha hxs := by
    obtain ⟨c, rfl⟩ := View.known_args ha hxs
    rw [h.mem_known] at ha
    rw [h.canonical.mem_known]
    exact h.errorConst_mem_canonical hf ha
  made a ys ha hys := by
    obtain ⟨c, rfl⟩ := View.known_args ha hys
    rw [h.canonical.mem_known] at ha
    obtain ⟨xs, hxs, rfl⟩ := Ty.mem_constants_canonical ha
    exact ⟨xs, h.mem_known.2 hxs, rfl⟩

/-- Normalising is a faithful step on types that name classifiers once. -/
theorem faithful_canonical :
    Faithful Ty.NamesOnce (View.plain .classes) (View.plain .classes) Ty.canonical where
  failed _ := Ty.failed_canonical _
  value _ hf := Ty.valuePart_canonical hf
  con c args := by rw [Ty.canonical, Ty.canonicalAll_eq_map]
  other t ht := by
    rcases t.valuePart_cases with h | ⟨c, args, h⟩ | ⟨name, h⟩
    · rcases h with h | h | h | ⟨name, h⟩ <;> rw [h] <;> rfl
    · exact absurd h (ht c args)
    · rw [h]; rfl
  errors _ hf := Ty.errors_canonical .empty hf
  carried ht hf := carried_canonical ht.top hf
  arg ht hc a ha := ((Ty.namesOnce_iff rfl).1 (ht.of_mem_subterms (Ty.con_mem_subterms hc))).2 a ha
  payload := by
    intro t a args ht ha x hx
    obtain ⟨c, rfl⟩ := View.known_args ha (List.ne_nil_of_mem hx)
    exact ((Ty.namesOnce_iff rfl).1 (ht.of_mem_constituents (ht.top.mem_known.1 ha))).2 x hx

/-! ## The main statement -/

section Main

variable {a b : Ty}

theorem isSubtype_canonical (ha : a.NamesOnce) (hb : b.NamesOnce) :
    isSubtype .classes a.canonical b.canonical = isSubtype .classes a b := by
  have hv := View.shallow_plain .classes
  rw [isSubtype, isSubtype, faithful_canonical.compareWith_eq hv hv rfl rfl ha hb]

theorem isSubtype_canonical_left (ha : a.NamesOnce) (hb : b.NamesOnce) :
    isSubtype .classes a.canonical b = isSubtype .classes a b := by
  rw [← isSubtype_canonical ha.canonical hb, Ty.canonical_canonical, isSubtype_canonical ha hb]

theorem isSubtype_canonical_right (ha : a.NamesOnce) (hb : b.NamesOnce) :
    isSubtype .classes a b.canonical = isSubtype .classes a b := by
  rw [← isSubtype_canonical ha hb.canonical, Ty.canonical_canonical, isSubtype_canonical ha hb]

/-- Types with one canonical form cover each other. -/
theorem isSubtype_of_canonical_eq (ha : a.NamesOnce) (hb : b.NamesOnce)
    (h : a.canonical = b.canonical) : isSubtype .classes a b = true := by
  rw [← isSubtype_canonical ha hb, h]
  exact isSubtype_of_beq BEq.rfl

/-- Two types that name classifiers once get the verdict of their canonical forms,
and each covers its own canonical form and is covered by it. -/
theorem check_canonical_eq (ha : a.NamesOnce) (hb : b.NamesOnce) (location : Location) :
    (∃ verdict, ((Engine.plain .classes).check a b location).1 = .ok verdict ∧
      ((Engine.plain .classes).check a.canonical b.canonical location).1 = .ok verdict) ∧
    isSubtype .classes a a.canonical = true ∧ isSubtype .classes a.canonical a = true := by
  have hv := View.shallow_plain .classes
  refine ⟨?_, isSubtype_of_canonical_eq ha ha.canonical a.canonical_canonical.symm,
    isSubtype_of_canonical_eq ha.canonical ha a.canonical_canonical⟩
  rw [Engine.check_unbound rfl rfl, Engine.check_unbound rfl rfl]
  obtain ⟨verdict, hverdict⟩ := View.compareWith_holds_answers hv a b
  exact ⟨verdict, hverdict, faithful_canonical.compareWith_eq hv hv rfl rfl ha hb ▸ hverdict⟩

end Main

/-- A union out of order, around an argument that is a union of one class. -/
def outOfOrder (c : HostClass) : Ty :=
  .union [.errorVar ⟨"E", .unbounded, true⟩,
    .errorConst (loneRecord "A" .covariant) [.union [.nothing, .con (.host c) []]],
    .con (.host .str) []]

theorem check_outOfOrder_canonical :
    (outOfOrder .int == (outOfOrder .int).canonical) = false ∧
      (∃ verdict,
        ((Engine.plain .classes).check (outOfOrder .int) (outOfOrder .bool) .unknown).1 =
          .ok verdict ∧
        ((Engine.plain .classes).check (outOfOrder .int).canonical (outOfOrder .bool).canonical
          .unknown).1 = .ok verdict) ∧
      isSubtype .classes (outOfOrder .int) (outOfOrder .int).canonical = true ∧
      isSubtype .classes (outOfOrder .int).canonical (outOfOrder .int) = true :=
  ⟨by decide, check_canonical_eq (by decide) (by decide) .unknown⟩

end Fallible
