import Fallible.Proofs.Adequacy
import Fallible.Proofs.Binding
import Fallible.Proofs.Finality

/-!
# Types that can stand for each other

Two types are interchangeable if in every comparison, on either side, the one can
stand for the other. Stated like this it is an equivalence, whatever comparisons
are, so what is found of two steps holds of both together.

A comparison looks at a type through the value it comes down to and through its
errors. So types are interchangeable if their values are, and if their errors
differ in their arguments only and those are interchangeable in turn. That is the
main statement here, `interchangeable_of_parts`. It is about comparisons while
projections are bound, and asks only that writing out ends.
-/

namespace Fallible

/-- Whether one type can stand for the other in all that `R` says. -/
def Interchangeable (R : Ty → Ty → Prop) (x y : Ty) : Prop :=
  ∀ z, (R x z ↔ R y z) ∧ (R z x ↔ R z y)

namespace Interchangeable

variable {R : Ty → Ty → Prop} {x y z : Ty}

theorem refl (x : Ty) : Interchangeable R x x := fun _ => ⟨Iff.rfl, Iff.rfl⟩

theorem symm (h : Interchangeable R x y) : Interchangeable R y x :=
  fun z => ⟨(h z).1.symm, (h z).2.symm⟩

theorem trans (h : Interchangeable R x y) (k : Interchangeable R y z) : Interchangeable R x z :=
  fun w => ⟨(h w).1.trans (k w).1, (h w).2.trans (k w).2⟩

/-- Interchangeable types are related like interchangeable types. -/
theorem iff {x' y' : Ty} (hx : Interchangeable R x x') (hy : Interchangeable R y y') :
    R x y ↔ R x' y' :=
  (hx y).1.trans (hy x').2

end Interchangeable

/-! ## Errors with interchangeable arguments -/

section Errors

variable {R : Ty → Ty → Prop} {g g' : Ty → Ty}

theorem argCovers_iff_of_interchangeable {v : Variance} {x x' y y' : Ty}
    (hx : Interchangeable R x x') (hy : Interchangeable R y y') :
    ArgCovers R v x y ↔ ArgCovers R v x' y' := by
  cases v with
  | covariant => exact hx.iff hy
  | contravariant => exact hy.iff hx
  | invariant => exact and_congr (hx.iff hy) (hy.iff hx)

theorem argsCover_iff_of_interchangeable (hbeq : ∀ x y : Ty, (x == y) = true → R x y) {a : Atom}
    {xs ys : List Ty} (hxs : ∀ x ∈ xs, Interchangeable R x (g x))
    (hys : ∀ y ∈ ys, Interchangeable R y (g' y)) :
    ArgsCover R a xs ys ↔ ArgsCover R a (xs.map g) (ys.map g') := by
  rw [argsCover_iff hbeq, argsCover_iff hbeq, List.map_eq_nil_iff, List.map_eq_nil_iff]
  refine or_congr_right (or_congr_right ?_)
  simp only [ArgsMatch, List.length_map, List.getElem?_map, Option.map_eq_some_iff]
  refine and_congr_right fun _ => ⟨?_, fun h i x y hx hy => ?_⟩
  · rintro h i _ _ ⟨x, hx, rfl⟩ ⟨y, hy, rfl⟩
    exact (argCovers_iff_of_interchangeable (hxs x (List.mem_of_getElem? hx))
      (hys y (List.mem_of_getElem? hy))).1 (h i x y hx hy)
  · exact (argCovers_iff_of_interchangeable (hxs x (List.mem_of_getElem? hx))
      (hys y (List.mem_of_getElem? hy))).2 (h i _ _ ⟨x, hx, rfl⟩ ⟨y, hy, rfl⟩)

/-- Errors that are covered stay covered when more arguments are. -/
theorem ErrorsHold.mono {R' : Ty → Ty → Prop} {i j : Interpretation} (h : ErrorsHold R i j)
    (himp : ∀ x y, R x y → R' x y) : ErrorsHold R' i j := by
  refine h.imp_right fun ⟨huniv, hentries, hflow⟩ => ⟨huniv, fun e he => ?_, hflow⟩
  have hcovered := hentries e he
  unfold EntryCovered at hcovered ⊢
  split
  · next args hget =>
      rw [hget] at hcovered
      exact hcovered.imp fun x _ y _ => ⟨himp x y, himp y x⟩
  · next hget => rw [hget] at hcovered; exact hcovered

/-- Whether two interpretations are the same but for their arguments, which are
rewritten. -/
structure Interpretation.Rewritten (g : Ty → Ty) (i i' : Interpretation) : Prop where
  universal : i'.known.universal = i.known.universal
  flexible : i'.flexible = i.flexible
  entries : i'.known.entries = i.known.entries.map fun e => (e.1, e.2.map g)

namespace Interpretation.Rewritten

variable {i i' j j' : Interpretation}

theorem refl (i : Interpretation) : Rewritten (fun x => x) i i :=
  ⟨rfl, rfl, by simp⟩

theorem get? (h : Rewritten g i i') (hi : i.known.Distinct) (hi' : i'.known.Distinct)
    (a : Atom) : i'.known.get? a = (i.known.get? a).map (List.map g) := by
  rw [hi.get?_eq, hi'.get?_eq, ← Table.get?_mapValues, h.entries]
  rfl

theorem contains (h : Rewritten g i i') (hi : i.known.Distinct) (hi' : i'.known.Distinct)
    (a : Atom) : i'.known.contains a = i.known.contains a := by
  rw [← ErrorSet.isSome_get?, ← ErrorSet.isSome_get?, h.get? hi hi', Option.isSome_map]

/-- Whether arguments are interchangeable with what they are rewritten to. -/
def Interchanges (R : Ty → Ty → Prop) (g : Ty → Ty) (i : Interpretation) : Prop :=
  ∀ e ∈ i.known.entries, ∀ x ∈ e.2, Interchangeable R x (g x)

theorem interchanges_refl (i : Interpretation) : Interchanges R (fun x => x) i :=
  fun _ _ x _ => .refl x

/-- Errors cover each other as before once arguments are rewritten. -/
theorem errorsHold_iff (hbeq : ∀ x y : Ty, (x == y) = true → R x y) (h : Rewritten g i i')
    (k : Rewritten g' j j') (hi : i.known.Distinct) (hi' : i'.known.Distinct)
    (hg : Interchanges R g i) (hg' : Interchanges R g' j) :
    ErrorsHold R i j ↔ ErrorsHold R i' j' := by
  have hentry : ∀ e ∈ j.known.entries,
      (EntryCovered R i.known e ↔ EntryCovered R i'.known (e.1, e.2.map g')) := by
    intro e he
    unfold EntryCovered
    rw [h.get? hi hi']
    cases hget : i.known.get? e.1 with
    | none =>
        have hcontains := h.contains hi hi'
        simp only [Option.map_none]
        exact ⟨View.coveredByAlias_mono fun a ha => (hcontains a).trans ha,
          View.coveredByAlias_mono fun a ha => (hcontains a).symm.trans ha⟩
    | some args =>
        obtain ⟨b, hb, _⟩ := hi.mem_of_get? hget
        exact argsCover_iff_of_interchangeable hbeq (hg _ hb) (hg' e he)
  unfold ErrorsHold
  rw [h.universal, h.flexible, k.universal, k.flexible, k.entries]
  refine or_congr_right (and_congr_right fun _ => and_congr_left fun _ => ?_)
  simp only [List.forall_mem_map]
  exact forall₂_congr hentry

end Interpretation.Rewritten

end Errors

/-! ## Types that are values -/

namespace Ty

/-- Whether the type is a single value, or none. -/
def ValueOnly (t : Ty) : Prop := t = .nothing ∨ t.isValue = true

theorem ValueOnly.constituents {t : Ty} (h : t.ValueOnly) :
    t.constituents = [] ∨ t.constituents = [t] ∧ t.isValue = true :=
  h.imp (fun h => by rw [h]; rfl) fun h => ⟨constituents_of_isValue h, h⟩

theorem ValueOnly.failed {t : Ty} (h : t.ValueOnly) : t.failed = false := by
  rw [failed_eq]
  rcases h.constituents with hc | ⟨hc, hv⟩
  · rw [hc]; rfl
  · rw [hc, List.any_cons, not_isErroneous_of_isValue hv]; rfl

theorem ValueOnly.valuePart {t : Ty} (h : t.ValueOnly) : t.valuePart = t := by
  rcases h with rfl | hv
  · rfl
  · rw [valuePart_of_not_failed (ValueOnly.failed (Or.inr hv)), constituents_of_isValue hv,
      List.find?_cons, hv]
    rfl

theorem ValueOnly.errorPart {t : Ty} (h : t.ValueOnly) : t.errorPart = [] := by
  rcases h with rfl | hv
  · rfl
  · exact errorPart_of_isValue hv

theorem ValueOnly.interpretWith {t : Ty} (h : t.ValueOnly) (s : Solution) :
    View.interpretWith s t = View.interpretWith s .nothing := by
  unfold View.interpretWith
  rw [h.errorPart]
  rfl

theorem valueOnly_valuePart {t : Ty} (hf : t.failed = false) : t.valuePart.ValueOnly := by
  rw [valuePart_of_not_failed hf]
  cases hv : t.constituents.find? isValue with
  | none => exact Or.inl rfl
  | some m => exact Or.inr (List.find?_some hv)

end Ty

namespace Bindings

/-- Whether projections are bound to values only. -/
def ValuesOnly (b : Bindings) : Prop := ∀ n t, b.table.get? n = some t → t.ValueOnly

variable {b : Bindings}

theorem followed_of_beq {x y : Ty} (h : (x == y) = true) :
    (b.followed x == b.followed y) = true := by
  by_cases hy : ∃ name flexible, y = .valueProj name flexible
  · obtain ⟨name, flexible, rfl⟩ := hy
    rw [Ty.eq_of_beq_valueProj h]
    exact BEq.rfl
  · have hx : ¬ ∃ name flexible, x = .valueProj name flexible := by
      rintro ⟨name, flexible, rfl⟩
      exact hy ⟨name, flexible, Ty.eq_of_beq_valueProj (BEq.symm h)⟩
    have hself : ∀ {z : Ty}, (¬ ∃ name flexible, z = .valueProj name flexible) →
        b.followed z = z := by
      intro z hz
      cases z with
      | valueProj name flexible => exact absurd ⟨name, flexible, rfl⟩ hz
      | _ => rfl
    rw [hself hx, hself hy]
    exact h

theorem valueOnly_written (hb : b.Acyclic) (hv : b.ValuesOnly) (n : String) :
    (b.written (.valueProj n true)).ValueOnly := by
  refine hb.induct (P := fun n => (b.written (.valueProj n true)).ValueOnly) ?_ n
  intro n ih
  cases hn : b.contains n with
  | false => rw [written_free hn]; exact Or.inr rfl
  | true =>
      obtain ⟨t, ht⟩ := Table.get?_of_contains hn
      rw [hb.written_bound ht]
      rcases hv n t ht with rfl | hvalue
      · exact Or.inl rfl
      · cases t with
        | value | con => exact Or.inr rfl
        | valueProj m flexible =>
            cases flexible with
            | true => exact ih m ⟨_, ht, List.mem_cons_self⟩
            | false => exact Or.inr rfl
        | _ => cases hvalue

theorem valueOnly_followed (hb : b.Acyclic) (hv : b.ValuesOnly) {x : Ty} (hx : x.ValueOnly) :
    (b.followed x).ValueOnly := by
  cases x with
  | valueProj n flexible =>
      cases flexible with
      | true => exact valueOnly_written hb hv n
      | false => exact hx
  | _ => exact hx

/-- Writing out is harmless and leaves error variables alone. -/
theorem harmless_written (hb : b.Acyclic) (hv : b.ValuesOnly) :
    Ty.Harmless (leafOf (b.imageWithin b.table.size)) where
  rigidProj _ := rfl
  rigidVar _ _ := rfl
  value name := valueOnly_written hb hv name
  error v m hm := by obtain rfl := List.mem_singleton.1 hm; rfl

end Bindings

/-! ## Comparisons while projections are bound -/

section Covers

variable {s : Solution} {b : Bindings}

/-- What it means that a type covers another while projections are bound. -/
theorem covers_bound_iff (hb : b.Acyclic) {sup sub : Ty} :
    Covers s b sup sub ↔
      sup.failed = true ∨ sub.failed = true ∨
        ValueCovers (Covers s b) (b.followed sup.valuePart) (b.followed sub.valuePart) ∧
          ErrorsHold (Covers s b) (View.interpretWith s sup) (View.interpretWith s sub) := by
  have hfollow : ∀ t, (View.mk .classes s b).follow t = .ok (b.followed t) :=
    Bindings.Acyclic.follow hb
  show (View.mk .classes s b).holds sup sub = .ok true ↔ _
  rw [View.holds_true_iff, View.compareWith_holds_iff,
    View.compareValues_iff_of_follow rfl _ (hfollow _) (hfollow _)]
  rfl

theorem covers_of_beq (hb : b.Acyclic) {x y : Ty} (h : (x == y) = true) : Covers s b x y :=
  (covers_bound_iff hb).2 (Or.inr (Or.inr ⟨.same (Bindings.followed_of_beq (Ty.valuePart_of_beq h)),
    View.errorsHold_of_beq s _ h⟩))

theorem covers_values_iff (hb : b.Acyclic) {x y : Ty} (hx : x.ValueOnly) (hy : y.ValueOnly) :
    Covers s b x y ↔ ValueCovers (Covers s b) (b.followed x) (b.followed y) := by
  have hnone : ErrorsHold (Covers s b) (View.interpretWith s .nothing)
      (View.interpretWith s .nothing) := View.errorsHold_of_beq s _ BEq.rfl
  rw [covers_bound_iff hb, hx.failed, hy.failed, hx.valuePart, hy.valuePart, hx.interpretWith,
    hy.interpretWith]
  simp [hnone]

/-- Two values are interchangeable if they come down to values that cover the same
and are covered by the same. -/
theorem interchangeable_of_values (hb : b.Acyclic) {x y : Ty} (hx : x.ValueOnly)
    (hy : y.ValueOnly)
    (h : ∀ z, (ValueCovers (Covers s b) (b.followed x) z ↔
        ValueCovers (Covers s b) (b.followed y) z) ∧
      (ValueCovers (Covers s b) z (b.followed x) ↔
        ValueCovers (Covers s b) z (b.followed y))) :
    Interchangeable (Covers s b) x y := by
  intro z
  simp only [covers_bound_iff hb, hx.failed, hy.failed, hx.valuePart, hy.valuePart,
    hx.interpretWith, hy.interpretWith, h, and_self]

/-- Types are interchangeable if their values are and their errors are but for
arguments that are interchangeable. -/
theorem interchangeable_of_parts (hb : b.Acyclic) {g : Ty → Ty} {x y : Ty}
    (hfx : x.failed = false) (hfy : y.failed = false)
    (hvalue : Interchangeable (Covers s b) x.valuePart y.valuePart)
    (hi : Interpretation.Rewritten g (View.interpretWith s x) (View.interpretWith s y))
    (hg : Interpretation.Rewritten.Interchanges (Covers s b) g (View.interpretWith s x)) :
    Interchangeable (Covers s b) x y := by
  intro z
  rw [covers_bound_iff hb, covers_bound_iff hb, covers_bound_iff hb, covers_bound_iff hb, hfx, hfy]
  cases hfz : z.failed with
  | true => simp
  | false =>
      have hvx := Ty.valueOnly_valuePart hfx
      have hvy := Ty.valueOnly_valuePart hfy
      have hvz := Ty.valueOnly_valuePart hfz
      have hbeq : ∀ x y : Ty, (x == y) = true → Covers s b x y := fun _ _ => covers_of_beq hb
      have hz := Interpretation.Rewritten.refl (View.interpretWith s z)
      have hgz := Interpretation.Rewritten.interchanges_refl (R := Covers s b)
        (View.interpretWith s z)
      have hd := View.distinct_interpretWith s
      rw [← covers_values_iff hb hvx hvz, ← covers_values_iff hb hvy hvz,
        ← covers_values_iff hb hvz hvx, ← covers_values_iff hb hvz hvy, (hvalue _).1, (hvalue _).2,
        hi.errorsHold_iff hbeq hz (hd x) (hd y) hg hgz,
        hz.errorsHold_iff hbeq hi (hd z) (hd z) hgz hg]
      exact ⟨Iff.rfl, Iff.rfl⟩

theorem interchangeable_con (hb : b.Acyclic) {g : Ty → Ty} (c : Con) {args : List Ty}
    (hg : ∀ a ∈ args, Interchangeable (Covers s b) a (g a)) :
    Interchangeable (Covers s b) (.con c args) (.con c (args.map g)) := by
  have hbeq : ∀ x y : Ty, (x == y) = true → Covers s b x y := fun _ _ => covers_of_beq hb
  have hleft : ∀ {as : List Ty} {z : Ty},
      (z = .erroneous ∨ z = .nothing ∨ (∃ d bs, z = .con d bs) → False) →
        ¬ ValueCovers (Covers s b) (.con c as) z := by
    intro as z hz h
    rcases h.of_con_left hbeq with h | h | ⟨bs, h, _⟩ | ⟨d, h, _⟩
    · exact hz (Or.inl h)
    · exact hz (Or.inr (Or.inl h))
    · exact hz (Or.inr (Or.inr ⟨c, bs, h⟩))
    · exact hz (Or.inr (Or.inr ⟨d, [], h⟩))
  have hright : ∀ {as : List Ty} {z : Ty},
      (z = .erroneous ∨ z = .value ∨ (∃ d bs, z = .con d bs) → False) →
        ¬ ValueCovers (Covers s b) z (.con c as) := by
    intro as z hz h
    rcases h.of_con_right hbeq with h | h | ⟨bs, h, _⟩ | ⟨d, h, _⟩
    · exact hz (Or.inl h)
    · exact hz (Or.inr (Or.inl h))
    · exact hz (Or.inr (Or.inr ⟨c, bs, h⟩))
    · exact hz (Or.inr (Or.inr ⟨d, [], h⟩))
  refine interchangeable_of_values hb (Or.inr rfl) (Or.inr rfl) fun z => ?_
  show (ValueCovers _ (.con c args) z ↔ ValueCovers _ (.con c (args.map g)) z) ∧
    (ValueCovers _ z (.con c args) ↔ ValueCovers _ z (.con c (args.map g)))
  cases z with
  | con d bs =>
      simp only [valueCovers_con_iff hbeq, List.map_eq_nil_iff, List.length_map,
        List.zip_map_left, List.zip_map_right, List.forall_mem_map, Prod.map]
      constructor
      · refine or_congr_left (and_congr_right fun _ => and_congr_right fun _ => ?_)
        refine forall₂_congr fun e he => ?_
        have hinter := hg e.1 (List.of_mem_zip he).1
        exact and_congr (hinter.iff (.refl _)) ((Interchangeable.refl _).iff hinter)
      · refine or_congr_left (and_congr_right fun _ => and_congr_right fun _ => ?_)
        refine forall₂_congr fun e he => ?_
        have hinter := hg e.2 (List.of_mem_zip he).2
        exact and_congr ((Interchangeable.refl _).iff hinter) (hinter.iff (.refl _))
  | erroneous => exact ⟨iff_of_true .failedSub .failedSub, iff_of_true .failedSup .failedSup⟩
  | nothing => exact ⟨iff_of_true .nothing .nothing, iff_of_false (hright nofun) (hright nofun)⟩
  | value => exact ⟨iff_of_false (hleft nofun) (hleft nofun), iff_of_true .value .value⟩
  | _ =>
      exact ⟨iff_of_false (hleft nofun) (hleft nofun), iff_of_false (hright nofun) (hright nofun)⟩

end Covers

end Fallible
