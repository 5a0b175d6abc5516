import Fallible.Proofs.Covering
import Fallible.Proofs.Spelling

/-!
# Rewriting types without changing how they compare

Resolving a type rewrites it several times: it is normalised, bound projections
are written out, solved sets are put in, and what is left over is dropped. None
of these steps commutes with the others on the nose. What they share is that
each keeps the three things a comparison looks at: whether the type failed, its
value part, and its errors. The value part is rewritten by the step itself, and
below a constructor the step works on each argument.

Such a step is called a rereading, from a solution under which the old type is
read to one under which the new type is. Rereadings compose, and two types that
cover each other still do so after being reread, each in its own way.
-/

namespace Fallible

/-! ## Errors that read the same -/

/-- Whether two readings of errors differ in nothing that a comparison notices.
Once a set is universal, the atoms in it do not matter. -/
structure SameErrors (I J : Interpretation) : Prop where
  universal : I.known.universal = J.known.universal
  atoms : I.known.universal = false → ∀ a, I.known.contains a = J.known.contains a
  waiting : I.known.universal = false → ∀ x, I.flexible.contains x = J.flexible.contains x

namespace SameErrors

theorem refl (I : Interpretation) : SameErrors I I := ⟨rfl, fun _ _ => rfl, fun _ _ => rfl⟩

theorem symm {I J : Interpretation} (h : SameErrors I J) : SameErrors J I :=
  ⟨h.universal.symm, fun hu a => (h.atoms (h.universal ▸ hu) a).symm,
    fun hu x => (h.waiting (h.universal ▸ hu) x).symm⟩

theorem trans {I J K : Interpretation} (h : SameErrors I J) (k : SameErrors J K) :
    SameErrors I K :=
  ⟨h.universal.trans k.universal,
    fun hu a => (h.atoms hu a).trans (k.atoms (h.universal ▸ hu) a),
    fun hu x => (h.waiting hu x).trans (k.waiting (h.universal ▸ hu) x)⟩

end SameErrors

namespace View

/-- The errors of a type depend on its constituents alone. -/
theorem interpretWith_of_constituents (s : Solution) {t u : Ty}
    (h : t.constituents = u.constituents) : interpretWith s t = interpretWith s u := by
  unfold interpretWith Ty.errorPart
  rw [h]

section Union

variable (s : Solution) (ms : List Ty)

theorem errorPart_union : (Ty.union ms).errorPart = ms.flatMap Ty.errorPart := by
  unfold Ty.errorPart
  rw [Ty.constituents, Ty.constituentsAll_eq_flatMap, List.filter_flatMap]

theorem universal_union : (interpretWith s (.union ms)).known.universal =
    ms.any fun m => (interpretWith s m).known.universal := by
  simp only [universal_interpretWith, errorPart_union, List.any_flatMap]

theorem contains_union (a : Atom) : (interpretWith s (.union ms)).known.contains a =
    ms.any fun m => (interpretWith s m).known.contains a := by
  simp only [contains_interpretWith, errorPart_union, List.any_flatMap]

theorem flexible_union (x : ErrorVar) : (interpretWith s (.union ms)).flexible.contains x =
    ms.any fun m => (interpretWith s m).flexible.contains x := by
  simp only [flexible_interpretWith, errorPart_union, List.filterMap_flatMap,
    List.contains_eq_any_beq, List.any_flatMap]

end Union

end View

/-- Unions read the same when each member of either reads the same as some
member of the other. -/
theorem SameErrors.union {s s' : Solution} {ms ms' : List Ty}
    (h : ∀ m ∈ ms, ∃ m' ∈ ms',
      SameErrors (View.interpretWith s m) (View.interpretWith s' m'))
    (h' : ∀ m' ∈ ms', ∃ m ∈ ms,
      SameErrors (View.interpretWith s m) (View.interpretWith s' m')) :
    SameErrors (View.interpretWith s (.union ms)) (View.interpretWith s' (.union ms')) := by
  -- A test that related members answer alike finds a member on both sides or on neither.
  have hany : ∀ f f' : Ty → Bool,
      (∀ m ∈ ms, ∀ m' ∈ ms',
        SameErrors (View.interpretWith s m) (View.interpretWith s' m') → f m = f' m') →
      ms.any f = ms'.any f' := by
    intro f f' hf
    rw [Bool.eq_iff_iff, List.any_eq_true, List.any_eq_true]
    constructor
    · rintro ⟨m, hm, hfm⟩
      obtain ⟨m', hm', hs⟩ := h m hm
      exact ⟨m', hm', hf m hm m' hm' hs ▸ hfm⟩
    · rintro ⟨m', hm', hfm⟩
      obtain ⟨m, hm, hs⟩ := h' m' hm'
      exact ⟨m, hm, (hf m hm m' hm' hs).symm ▸ hfm⟩
  have hquiet : (View.interpretWith s (.union ms)).known.universal = false →
      ∀ m ∈ ms, (View.interpretWith s m).known.universal = false := by
    intro hu m hm
    rw [View.universal_union] at hu
    exact Bool.eq_false_iff.2 fun hmu =>
      Bool.false_ne_true (hu.symm.trans (List.any_eq_true.2 ⟨m, hm, hmu⟩))
  refine ⟨?_, fun hu a => ?_, fun hu x => ?_⟩
  · rw [View.universal_union, View.universal_union]
    exact hany _ _ fun m _ m' _ hs => hs.universal
  · rw [View.contains_union, View.contains_union]
    exact hany _ _ fun m hm m' _ hs => hs.atoms (hquiet hu m hm) a
  · rw [View.flexible_union, View.flexible_union]
    exact hany _ _ fun m hm m' _ hs => hs.waiting (hquiet hu m hm) x

/-- Whether errors are covered can be told from any reading of them. -/
theorem ErrorsCover.of_same {s s' : Solution} {sup sub sup' sub' : Ty}
    (h : ErrorsCover s sup sub)
    (hsup : SameErrors (View.interpretWith s sup) (View.interpretWith s' sup'))
    (hsub : SameErrors (View.interpretWith s sub) (View.interpretWith s' sub')) :
    ErrorsCover s' sup' sub' := by
  unfold ErrorsCover at h ⊢
  rw [View.errorVerdict_holds_iff] at h ⊢
  rw [← hsup.universal, ← hsub.universal]
  by_cases hall : (View.interpretWith s sup).known.universal = true
  · exact Or.inl hall
  · obtain ⟨⟨hnot, hatoms⟩, hflow⟩ := h.resolve_left hall
    rw [Bool.not_eq_true] at hall
    refine Or.inr ⟨⟨hnot, fun a ha => ?_⟩, fun x hx => ?_⟩
    · rw [← hsub.atoms hnot] at ha
      exact View.leaves_mono (fun b hb => hsup.atoms hall b ▸ hb) (hatoms a ha)
    · have hx' : (View.interpretWith s sub).flexible.contains x = true := by
        rw [hsub.waiting hnot]
        exact List.contains_iff_exists_mem_beq.2 ⟨x, hx, BEq.rfl⟩
      obtain ⟨y, hy, hxy⟩ := List.contains_iff_exists_mem_beq.1 hx'
      obtain ⟨z, hz, hyz⟩ := List.contains_iff_exists_mem_beq.1 (hflow y hy)
      rw [← hsup.waiting hall]
      exact List.contains_iff_exists_mem_beq.2 ⟨z, hz, BEq.trans hxy hyz⟩

theorem ErrorsCover.refl (s : Solution) (t : Ty) : ErrorsCover s t t := by
  unfold ErrorsCover
  rw [View.errorVerdict_holds_iff]
  by_cases hall : (View.interpretWith s t).known.universal = true
  · exact Or.inl hall
  · refine Or.inr ⟨⟨Bool.not_eq_true _ ▸ hall, fun a ha => ?_⟩, fun x hx => ?_⟩
    · exact View.leaves_eq_false.2 (Or.inl ha)
    · exact List.contains_iff_exists_mem_beq.2 ⟨x, hx, BEq.rfl⟩

/-! ## Spelling

Types that are the same up to the spelling of classifiers read the same, so
each covers the other. -/

namespace Ty

theorem isValue_bare (t : Ty) : t.bare.isValue = t.isValue := by
  rw [bare_eq_respell, isValue_respell]

theorem valuePart_bare (t : Ty) : t.bare.valuePart = t.valuePart.bare := by
  rw [bare_eq_respell, valuePart_respell, ← bare_eq_respell]

end Ty

/-- A type reads the same whatever its classifiers are spelled like. -/
theorem SameErrors.bare (s : Solution) (t : Ty) :
    SameErrors (View.interpretWith s t) (View.interpretWith s t.bare) := by
  rw [t.bare_eq_respell]
  refine ⟨(View.universal_respell .bare s t).symm, fun _ a => ?_,
    fun _ x => (View.flexible_respell .bare s t x).symm⟩
  rw [Bool.eq_iff_iff, ErrorSet.contains_iff, ErrorSet.contains_iff]
  constructor
  · rintro ⟨e, he, hea⟩
    obtain ⟨e', he', hr⟩ := (View.sameEntries_interpretWith .bare s t).1 he
    exact ⟨e', he', BEq.trans (Atom.beq_of_respell (congrArg Prod.fst hr)) hea⟩
  · rintro ⟨e, he, hea⟩
    obtain ⟨e', he', hr⟩ := (View.sameEntries_interpretWith .bare s t).2 he
    exact ⟨e', he', BEq.trans (Atom.beq_of_respell (congrArg Prod.fst hr)) hea⟩

/-- Types that differ in spelling only cover each other. -/
theorem Covers.of_beq {s : Solution} {b : Bindings} (hs : s.PayloadFree) {x y : Ty}
    (hx : x.Tame b) (hy : y.Tame b) (h : (x == y) = true) :
    Covers s b x y ∧ Covers s b y x := by
  have hbare : x.bare = y.bare := Ty.beq_iff.1 h
  have hvalue : (x.valuePart == y.valuePart) = true := by
    rw [Ty.beq_iff, ← Ty.valuePart_bare, hbare, Ty.valuePart_bare]
  have herrors : SameErrors (View.interpretWith s x) (View.interpretWith s y) := by
    have hxy := SameErrors.bare s x
    rw [hbare] at hxy
    exact hxy.trans (SameErrors.bare s y).symm
  rw [covers_iff hs hx hy, covers_iff hs hy hx]
  constructor
  · exact Or.inr (Or.inr ⟨.same hvalue, (ErrorsCover.refl s x).of_same (.refl _) herrors⟩)
  · exact Or.inr (Or.inr
      ⟨.same (BEq.symm hvalue), (ErrorsCover.refl s x).of_same herrors (.refl _)⟩)

/-! ## Rereading -/

/-- What a step leaves alone wherever it stands. -/
def Ty.Fixed (t : Ty) : Prop :=
  t = .value ∨ t = .nothing ∨ t = .erroneous ∨ ∃ name, t = .valueProj name false

/-- A step that keeps what a comparison looks at, on the types of `Q`. -/
structure Rereads (Q Q' : Ty → Prop) (s s' : Solution) (g : Ty → Ty) : Prop where
  good : ∀ {t}, Q t → Q' (g t)
  failed : ∀ {t}, Q t → (g t).failed = t.failed
  value : ∀ {t}, Q t → t.failed = false → (g t).valuePart = g t.valuePart
  errors : ∀ {t}, Q t → t.failed = false →
    SameErrors (View.interpretWith s t) (View.interpretWith s' (g t))
  con : ∀ c args, g (.con c args) = .con c (args.map g)
  fixed : ∀ {t : Ty}, t.Fixed → g t = t

namespace Rereads

variable {Q Q' Q'' : Ty → Prop} {s s' s'' : Solution} {g g' : Ty → Ty}

theorem comp (h : Rereads Q Q' s s' g) (h' : Rereads Q' Q'' s' s'' g') :
    Rereads Q Q'' s s'' (fun t => g' (g t)) where
  good ht := h'.good (h.good ht)
  failed ht := (h'.failed (h.good ht)).trans (h.failed ht)
  value ht hf := by
    rw [h'.value (h.good ht) ((h.failed ht).trans hf), h.value ht hf]
  errors ht hf := (h.errors ht hf).trans (h'.errors (h.good ht) ((h.failed ht).trans hf))
  con c args := by
    show g' (g (.con c args)) = _
    rw [h.con, h'.con, List.map_map]
    rfl
  fixed ht := by
    show g' (g _) = _
    rw [h.fixed ht, h'.fixed ht]

theorem id (h : ∀ {t}, Q t → Q' t) : Rereads Q Q' s s (fun t => t) where
  good ht := h ht
  failed _ := rfl
  value _ _ := rfl
  errors _ _ := .refl _
  con c args := by rw [List.map_id']
  fixed _ := rfl

end Rereads

/-! ## Values -/

/-- What becomes of a value when it is reread. At the top of a type, a
projection that was never bound is dropped. -/
inductive Ty.Renders (g : Ty → Ty) : Ty → Ty → Prop
  | con (c : Con) (args : List Ty) : Renders g (.con c args) (.con c (args.map g))
  | fixed {x : Ty} : x.Fixed → Renders g x x
  | unbound (name : String) : Renders g (.valueProj name true) .nothing

theorem Ty.beq_con {c d : Con} {as bs : List Ty} (h : (Ty.con c as == Ty.con d bs) = true) :
    c = d ∧ as.length = bs.length ∧ ∀ e ∈ as.zip bs, (e.1 == e.2) = true := by
  rw [Ty.beq_iff, Ty.bare, Ty.bare, Ty.con.injEq, Ty.bareAll_eq_map, Ty.bareAll_eq_map] at h
  obtain ⟨hc, hargs⟩ := h
  have hlen : as.length = bs.length := by
    simpa only [List.length_map] using congrArg List.length hargs
  refine ⟨hc, hlen, fun e he => ?_⟩
  obtain ⟨i, hi, rfl⟩ := List.mem_iff_getElem.1 he
  rw [List.length_zip] at hi
  rw [List.getElem_zip, Ty.beq_iff]
  have hget : (as.map Ty.bare)[i]? = (bs.map Ty.bare)[i]? := by rw [hargs]
  simpa [List.getElem?_map, show i < as.length by omega, show i < bs.length by omega]
    using hget

/-- Values that cover each other do so once they are reread, if that is so of
the arguments of constructors. -/
theorem ValueCovers.renders {R R' : Ty → Ty → Prop} {g g' : Ty → Ty} {x y x' y' : Ty}
    (h : ValueCovers R x y) (hx : Ty.Renders g x x') (hy : Ty.Renders g' y y')
    (hargs : ∀ c as d bs, x = .con c as → y = .con d bs → ∀ a ∈ as, ∀ b ∈ bs,
      (R a b → R' (g a) (g' b)) ∧ (R b a → R' (g' b) (g a)) ∧
        ((a == b) = true → R a b ∧ R b a)) : ValueCovers R' x' y' := by
  -- Constructors whose arguments are related pairwise, before and after.
  have hcon : ∀ {c : Con} {as bs : List Ty}, x = .con c as → y = .con c bs →
      as.length = bs.length → (∀ e ∈ as.zip bs, R e.1 e.2 ∧ R e.2 e.1) →
      ValueCovers R' (.con c (as.map g)) (.con c (bs.map g')) := by
    intro c as bs hxc hyc hlen hall
    refine .con (by rw [List.length_map, List.length_map, hlen]) fun e he => ?_
    rw [List.zip_map, List.mem_map] at he
    obtain ⟨p, hp, rfl⟩ := he
    obtain ⟨ha, hb⟩ := List.of_mem_zip hp
    obtain ⟨h₁, h₂, _⟩ := hargs c as c bs hxc hyc p.1 ha p.2 hb
    exact ⟨h₁ (hall p hp).1, h₂ (hall p hp).2⟩
  cases hy with
  | unbound name => exact .nothing
  | con d bs =>
      cases h with
      | same he =>
          cases hx with
          | con c as =>
              obtain ⟨rfl, hlen, hall⟩ := Ty.beq_con he
              refine hcon rfl rfl hlen fun e hmem => ?_
              obtain ⟨ha, hb⟩ := List.of_mem_zip hmem
              exact (hargs c as c bs rfl rfl e.1 ha e.2 hb).2.2 (hall e hmem)
          | fixed hf => rcases hf with rfl | rfl | rfl | ⟨name, rfl⟩ <;> cases he
          | unbound name => cases he
      | failedSup => cases hx; exact .failedSup
      | value => cases hx; exact .value
      | con hlen hall =>
          cases hx with
          | con => exact hcon rfl rfl hlen hall
          | fixed hf => rcases hf with hf | hf | hf | ⟨name, hf⟩ <;> cases hf
      | subclass habove =>
          cases hx with
          | con => exact .subclass habove
          | fixed hf => rcases hf with hf | hf | hf | ⟨name, hf⟩ <;> cases hf
  | fixed hfy =>
      cases h with
      | same he =>
          cases hx with
          | con c as => rcases hfy with rfl | rfl | rfl | ⟨name, rfl⟩ <;> cases he
          | fixed hf => exact .same he
          | unbound name =>
              rcases hfy with rfl | rfl | rfl | ⟨other, rfl⟩
              · cases he
              · cases he
              · cases he
              · simp [Ty.beq_iff, Ty.bare] at he
      | failedSup => cases hx; exact .failedSup
      | failedSub => exact .failedSub
      | nothing => exact .nothing
      | value => cases hx; exact .value
      | con hlen hall => rcases hfy with hf | hf | hf | ⟨name, hf⟩ <;> cases hf
      | subclass habove => rcases hfy with hf | hf | hf | ⟨name, hf⟩ <;> cases hf

theorem Ty.valuePart_cases (t : Ty) : t.valuePart.Fixed ∨
    (∃ c args, t.valuePart = .con c args) ∨ ∃ name, t.valuePart = .valueProj name true := by
  unfold valuePart
  cases hf : t.constituents.find? fun m => m.isValue || m.isErroneous with
  | none => exact Or.inl (Or.inr (Or.inl rfl))
  | some m =>
      have hm := List.find?_some hf
      show m.Fixed ∨ (∃ c args, m = .con c args) ∨ ∃ name, m = .valueProj name true
      cases m with
      | value => exact Or.inl (Or.inl rfl)
      | erroneous => exact Or.inl (Or.inr (Or.inr (Or.inl rfl)))
      | con c args => exact Or.inr (Or.inl ⟨c, args, rfl⟩)
      | valueProj name flexible =>
          cases flexible with
          | false => exact Or.inl (Or.inr (Or.inr (Or.inr ⟨name, rfl⟩)))
          | true => exact Or.inr (Or.inr ⟨name, rfl⟩)
      | _ => simp [isValue, isErroneous] at hm

theorem Rereads.renders {Q Q' : Ty → Prop} {s s' : Solution} {g : Ty → Ty}
    (hg : Rereads Q Q' s s' g) {t : Ty} (ht : t.projections = []) :
    Ty.Renders g t.valuePart (g t.valuePart) := by
  rcases t.valuePart_cases with h | ⟨c, args, h⟩ | ⟨name, h⟩
  · rw [hg.fixed h]; exact .fixed h
  · rw [h, hg.con]; exact .con c args
  · have hmem : name ∈ t.projections := Ty.projections_valuePart (by rw [h]; simp [Ty.projections])
    rw [ht] at hmem
    exact absurd hmem List.not_mem_nil

/-! ## Comparisons survive rereading -/

section Survives

variable {Q : Ty → Prop} {s s' : Solution} {b b' : Bindings}

/-- Types without projections that cover each other do so after each has been
reread in its own way. -/
theorem Covers.reread (hs : s.PayloadFree) (hs' : s'.PayloadFree)
    (htame : ∀ {t}, Q t → t.Tame b) (hflat : ∀ {t}, Q t → t.projections = [])
    (harg : ∀ {t c args}, Q t → t.valuePart = .con c args → ∀ a ∈ args, Q a) :
    ∀ (n : Nat) {g g' : Ty → Ty}, Rereads Q (Ty.Tame b') s s' g →
      Rereads Q (Ty.Tame b') s s' g' → ∀ {x y : Ty}, x.size + y.size < n → Q x → Q y →
      Covers s b x y → Covers s' b' (g x) (g' y) := by
  intro n
  induction n with
  | zero => intro g g' _ _ x y hn; omega
  | succ n ih =>
      intro g g' hg hg' x y hn hx hy h
      rw [covers_iff hs (htame hx) (htame hy)] at h
      rw [covers_iff hs' (hg.good hx) (hg'.good hy), hg.failed hx, hg'.failed hy]
      refine Ty.failed_or_imp h fun hfx hfy ⟨hvalue, herrors⟩ => ?_
      refine ⟨?_, herrors.of_same (hg.errors hx hfx) (hg'.errors hy hfy)⟩
      rw [hg.value hx hfx, hg'.value hy hfy]
      refine hvalue.renders (hg.renders (hflat hx)) (hg'.renders (hflat hy)) ?_
      intro c as d bs hc hd a ha a' ha'
      have h₁ := View.size_arg_lt hc ha
      have h₂ := View.size_arg_lt hd ha'
      have hqa := harg hx hc a ha
      have hqa' := harg hy hd a' ha'
      exact ⟨ih hg hg' (by omega) hqa hqa', ih hg' hg (by omega) hqa' hqa,
        Covers.of_beq hs (htame hqa) (htame hqa')⟩

end Survives

end Fallible
