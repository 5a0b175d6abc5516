import Fallible.Proofs.Interchange
import Fallible.Proofs.NormalForm
import Fallible.Proofs.WellFormed

/-!
# Later bindings keep what holds

While projections are bound, one type has several spellings: as it was written,
with some bindings written out, or with all of them. Comparisons meet all three,
because what is bound was written out with the bindings there were at the time.
It makes no difference. A type is interchangeable with itself written out, and
also with itself as it was written out before other projections were bound; and
so what held then holds now.

Unions with two values are left out. If the first of them is written out to
`Nothing` the second takes its place. The grammar refuses such unions.
-/

namespace Fallible

/-! ## Rewriting a type -/

namespace Ty

/-- Whether no union in the type, at any depth, has two values. -/
def OneValued (t : Ty) : Prop := ∀ u ∈ t.subterms, u.constituents.countP isValue ≤ 1

instance (t : Ty) : Decidable t.OneValued :=
  inferInstanceAs (Decidable (∀ u ∈ t.subterms, u.constituents.countP isValue ≤ 1))

/-- The grammar allows a union one value. -/
theorem oneValued_of_wellFormed {t : Ty}
    (h : ∀ u ∈ t.subterms, Grammar.violation? u = none) : t.OneValued :=
  fun u hu => (Grammar.violation?_eq_none_iff.1 (h u hu)).countP_isValue_le

theorem mem_subterms_of_arguments {t a : Ty} (h : a ∈ t.arguments) : a ∈ t.subterms := by
  induction t with
  | con c args ih | errorConst c args ih =>
      rw [arguments, List.mem_append, mem_argumentsAll] at h
      refine List.mem_cons_of_mem _ ?_
      rcases h with h | ⟨m, hm, h⟩
      · exact arg_mem_subterms h
      · exact mem_subtermsAll.2 ⟨m, hm, ih m hm h⟩
  | union ms ih =>
      obtain ⟨m, hm, h⟩ := mem_argumentsAll.1 h
      exact List.mem_cons_of_mem _ (mem_subtermsAll.2 ⟨m, hm, ih m hm h⟩)
  | _ => exact absurd h List.not_mem_nil

theorem OneValued.subterm {t u : Ty} (h : t.OneValued) (hu : u ∈ t.subterms) : u.OneValued :=
  fun x hx => h x (subterms_trans hx hu)

theorem OneValued.of_mem_constituents {t m : Ty} (h : t.OneValued) (hm : m ∈ t.constituents) :
    m.OneValued := by
  rcases mem_subterms_of_mem_constituents hm with hm | rfl | rfl | ⟨_, _, rfl⟩ | ⟨_, rfl⟩
  · exact h.subterm hm
  all_goals exact fun u hu => by rw [List.mem_singleton.1 hu]; simp [constituents, isValue]

theorem OneValued.valuePart {t : Ty} (h : t.OneValued) : t.valuePart.OneValued := by
  rcases t.valuePart_mem with hv | hv
  · rw [hv]
    exact fun u hu => by rw [List.mem_singleton.1 hu]; exact Nat.zero_le _
  · exact h.of_mem_constituents hv

theorem unknowns_of_mem_members {t m x : Ty} (hm : m ∈ t.members) (hx : x ∈ m.unknowns) :
    x ∈ t.unknowns := by
  induction t with
  | union ms ih =>
      rw [members, membersAll_eq_flatMap] at hm
      obtain ⟨y, hy, hm⟩ := List.mem_flatMap.1 hm
      exact mem_unknownsAll.2 ⟨y, hy, ih y hy hm⟩
  | _ => rwa [← List.mem_singleton.1 hm]

section Graft

variable {h : Ty → Ty} (hh : Harmless h) (hvar : ∀ v, h (.errorVar v) = .errorVar v)

include hh hvar

/-- Errors are rewritten one by one. -/
theorem errorPart_graft (t : Ty) : (t.graft h).errorPart = t.errorPart.map (graft h) := by
  unfold errorPart
  rw [constituents_graft_members, constituents_eq_members, List.filter_flatMap,
    List.filter_flatMap, List.map_flatMap]
  refine List.flatMap_congr fun m hm => ?_
  cases m with
  | union ms => exact absurd rfl (not_union_of_mem_members hm ms)
  | valueProj name flexible =>
      rcases graft_projection hh name flexible with hnone | ⟨x, hx, hv⟩
      · rw [hnone]; rfl
      · rw [hx, List.filter_cons_of_neg]
        · rfl
        · intro he
          rw [not_isValue_of_isError he] at hv
          cases hv
  | errorVar v =>
      show (h (.errorVar v)).constituents.filter isError = [h (.errorVar v)]
      rw [hvar]
      rfl
  | var name flexible =>
      show [Ty.errorVar (.ofTyVar name flexible)] = [h (.errorVar (.ofTyVar name flexible))]
      rw [hvar]
  | _ => rfl

omit hvar in
/-- A value in a member that is rewritten stood there before, or is the member
rewritten. -/
theorem value_of_graft {m w : Ty} (hm : ∀ ms, m ≠ .union ms) (hw : w ∈ (m.graft h).constituents)
    (hv : w.isValue = true) : w ∈ m.constituents ∨ m.isValue = true ∧ m.graft h = w := by
  cases m with
  | union ms => exact absurd rfl (hm ms)
  | valueProj name flexible =>
      refine Or.inr ⟨rfl, ?_⟩
      rcases graft_value hh (m := .valueProj name flexible) rfl with ⟨_, hnone⟩ | hv
      · rw [hnone] at hw; exact absurd hw List.not_mem_nil
      · rw [constituents_of_isValue hv] at hw
        exact (List.mem_singleton.1 hw).symm
  | errorVar v =>
      rw [not_isValue_of_isError (hh.error v w hw)] at hv
      cases hv
  | con c args => exact Or.inr ⟨rfl, (List.mem_singleton.1 hw).symm⟩
  | errorConst c args => rw [List.mem_singleton.1 hw] at hv; cases hv
  | _ => exact Or.inl hw

omit hh hvar in
/-- A value in a member is the member, or is left alone. -/
theorem value_cases {m v : Ty} (hm : ∀ ms, m ≠ .union ms) (hv : v ∈ m.constituents)
    (hvalue : v.isValue = true) : m = v ∨ v ∈ (m.graft h).constituents := by
  cases m with
  | union ms => exact absurd rfl (hm ms)
  | nothing => exact absurd hv List.not_mem_nil
  | any | var => exact Or.inr hv
  | errorVar x => rw [List.mem_singleton.1 hv] at hvalue; cases hvalue
  | _ => exact Or.inl (List.mem_singleton.1 hv).symm

omit hvar in
/-- The value of a type with one value is rewritten with the rest, unless it is the
projection of a type variable that has not been split. -/
theorem valuePart_graft_cases {t : Ty} (hf : t.failed = false)
    (hone : t.constituents.countP isValue ≤ 1) :
    (t.graft h).valuePart = t.valuePart ∨
      t.valuePart ∈ t.members ∧ (t.graft h).valuePart = t.valuePart.graft h := by
  rw [valuePart_of_not_failed hf, valuePart_of_not_failed ((failed_graft hh t).trans hf)]
  have hmembers : ∀ {x : Ty}, x ∈ (t.graft h).constituents ↔
      ∃ m ∈ t.members, x ∈ (m.graft h).constituents := by
    intro x
    rw [constituents_graft_members, List.mem_flatMap]
  -- The type has one value, and every other would have to be the same.
  have hsole : ∀ {x : Ty}, x ∈ t.constituents → x.isValue = true →
      t.constituents.find? isValue = some x := by
    intro x hx hv
    rw [← List.head?_filter]
    rw [List.countP_eq_length_filter] at hone
    have hmem := List.mem_filter.2 ⟨hx, hv⟩
    match hl : t.constituents.filter isValue, hmem, hone with
    | [y], hmem, _ => rw [List.mem_singleton.1 hmem]; rfl
  cases hnew : (t.graft h).constituents.find? isValue with
  | some w =>
      obtain ⟨m, hm, hw⟩ := hmembers.1 (List.mem_of_find?_eq_some hnew)
      have hv := List.find?_some hnew
      rcases value_of_graft hh (not_union_of_mem_members hm) hw hv with hold | ⟨hmv, rfl⟩
      · have hwt : w ∈ t.constituents := by
          rw [constituents_eq_members]
          exact List.mem_flatMap.2 ⟨m, hm, hold⟩
        exact Or.inl (by rw [hsole hwt hv])
      · have hmt : m ∈ t.constituents := by
          rw [constituents_eq_members]
          exact List.mem_flatMap.2 ⟨m, hm, by rw [constituents_of_isValue hmv]; simp⟩
        rw [hsole hmt hmv]
        exact Or.inr ⟨hm, rfl⟩
  | none =>
      cases hold : t.constituents.find? isValue with
      | none => exact Or.inl rfl
      | some v =>
          have hv := List.find?_some hold
          have hvt := List.mem_of_find?_eq_some hold
          rw [constituents_eq_members] at hvt
          obtain ⟨m, hm, hvm⟩ := List.mem_flatMap.1 hvt
          have hgone : v ∉ (m.graft h).constituents := fun hin =>
            List.find?_eq_none.1 hnew v (hmembers.2 ⟨m, hm, hin⟩) hv
          rcases value_cases (not_union_of_mem_members hm) hvm hv with rfl | hin
          · refine Or.inr ⟨hm, ?_⟩
            rcases graft_value hh hv with ⟨_, hnone⟩ | hv'
            · exact hnone.symm
            · have hin : m.graft h ∈ (t.graft h).constituents :=
                hmembers.2 ⟨m, hm, by rw [constituents_of_isValue hv']; simp⟩
              exact absurd hv' (List.find?_eq_none.1 hnew _ hin)
          · exact absurd hin hgone

/-- Rewriting a type gives no union a second value. -/
theorem OneValued.graft {t : Ty} (ht : t.OneValued)
    (hproj : ∀ name, .valueProj name true ∈ t.unknowns → (h (.valueProj name true)).OneValued) :
    (t.graft h).OneValued := by
  have harg : ∀ {u : Ty} {ms : List Ty}, u ∈ subtermsAll (ms.map (Ty.graft h)) →
      (∀ m ∈ ms, (m.graft h).OneValued) → u.constituents.countP isValue ≤ 1 := by
    intro u ms hu hms
    obtain ⟨m, hm, hu⟩ := mem_subtermsAll.1 hu
    obtain ⟨x, hx, rfl⟩ := List.mem_map.1 hm
    exact hms x hx u hu
  induction t with
  | con c args ih | errorConst c args ih =>
      intro u hu
      rw [Ty.graft, graftAll_eq_map, subterms, List.mem_cons] at hu
      rcases hu with rfl | hu
      · exact List.countP_le_length
      · refine harg hu fun a ha => ih a ha ?_ fun name hn =>
          hproj name (mem_unknownsAll.2 ⟨a, ha, hn⟩)
        exact ht.subterm (List.mem_cons_of_mem _ (arg_mem_subterms ha))
  | union ms ih =>
      have hms : ∀ m ∈ ms, (m.graft h).OneValued := fun m hm =>
        ih m hm (ht.subterm (List.mem_cons_of_mem _ (arg_mem_subterms hm))) fun name hn =>
          hproj name (mem_unknownsAll.2 ⟨m, hm, hn⟩)
      intro u hu
      have htop := (countP_graft hh (.union ms)).trans (ht _ (mem_subterms_self _))
      rw [Ty.graft, graftAll_eq_map] at hu htop
      rw [unionOf, subterms, List.mem_cons] at hu
      rcases hu with rfl | hu
      · exact htop
      · obtain ⟨m, hm, hu⟩ := mem_subtermsAll.1 hu
        rw [constituentsAll_eq_flatMap] at hm
        obtain ⟨x, hx, hm⟩ := List.mem_flatMap.1 hm
        obtain ⟨y, hy, rfl⟩ := List.mem_map.1 hx
        exact (hms y hy).of_mem_constituents hm u hu
  | valueProj name flexible =>
      cases flexible with
      | true => exact hproj name List.mem_cons_self
      | false => rw [Ty.graft, hh.rigidProj]; exact ht
  | errorVar v => rw [Ty.graft, hvar]; exact ht
  | _ => exact ht

end Graft

end Ty

/-- The errors of a type are rewritten as its constituents are. -/
theorem View.rewritten_interpretWith {g : Ty → Ty} {t u : Ty}
    (hu : u.errorPart = t.errorPart.map g)
    (hconst : ∀ c args, g (.errorConst c args) = .errorConst c (args.map g))
    (hvar : ∀ x, g (.errorVar x) = .errorVar x) (herror : g .error = .error) :
    Interpretation.Rewritten g (interpretWith .empty t) (interpretWith .empty u) := by
  have hadd : ∀ {m : Ty} (r : Reading), m ∈ t.errorPart →
      Reading.add .empty ⟨r.known.mapValues (List.map g), r.universal, r.flexible⟩ (g m) =
        ⟨(r.add .empty m).known.mapValues (List.map g), (r.add .empty m).universal,
          (r.add .empty m).flexible⟩ := by
    intro m r hm
    have herr := (List.mem_filter.1 hm).2
    cases m with
    | errorConst c args => rw [hconst, Reading.add, Reading.add, Table.mapValues_insert]
    | errorVar x =>
        rw [hvar]
        cases hx : x.flexible with
        | false => rw [add_rigid hx, add_rigid hx, Table.mapValues_insert]; rfl
        | true => rw [add_waiting hx rfl, add_waiting hx rfl]
    | error => rw [herror]; rfl
    | _ => cases herr
  have hfold : ∀ (ms : List Ty) (r : Reading), (∀ m ∈ ms, m ∈ t.errorPart) →
      (ms.map g).foldl (Reading.add .empty)
          ⟨r.known.mapValues (List.map g), r.universal, r.flexible⟩ =
        ⟨(ms.foldl (Reading.add .empty) r).known.mapValues (List.map g),
          (ms.foldl (Reading.add .empty) r).universal,
          (ms.foldl (Reading.add .empty) r).flexible⟩ := by
    intro ms
    induction ms with
    | nil => exact fun _ _ => rfl
    | cons m ms ih =>
        intro r hms
        rw [List.map_cons, List.foldl_cons, List.foldl_cons, hadd r (hms m List.mem_cons_self)]
        exact ih _ fun x hx => hms x (List.mem_cons_of_mem _ hx)
  have hread := hfold t.errorPart ⟨.empty, false, []⟩ fun _ hm => hm
  rw [← hu] at hread
  have hstart : u.errorPart.foldl (Reading.add .empty) ⟨.empty, false, []⟩ = _ := hread
  refine ⟨?_, ?_, ?_⟩
  · show (u.errorPart.foldl (Reading.add .empty) _).universal = _
    rw [hstart]
    rfl
  · show (u.errorPart.foldl (Reading.add .empty) _).flexible = _
    rw [hstart]
    rfl
  · show sortOn _ (u.errorPart.foldl (Reading.add .empty) _).known.entries = _
    rw [hstart]
    exact (map_sortOn (fun _ _ => rfl) _).symm

/-! ## Writing out is interchangeable -/

section WrittenOut

variable {b : Bindings}

/-- Rewriting a type gives an interchangeable one, if that is so of its
projections. -/
theorem interchangeable_graft (hb : b.Acyclic) {h : Ty → Ty} (hh : Ty.Harmless h)
    (hvar : ∀ v, h (.errorVar v) = .errorVar v) :
    ∀ (n : Nat) {t : Ty}, t.size ≤ n → t.OneValued →
      (∀ name, .valueProj name true ∈ t.unknowns →
        Interchangeable (Covers .empty b) (.valueProj name true) (h (.valueProj name true))) →
      Interchangeable (Covers .empty b) t (t.graft h) := by
  intro n
  induction n with
  | zero => intro t hn; have := t.one_le_size; omega
  | succ n ih =>
      intro t hn hone hproj
      have hargs : ∀ a ∈ t.arguments,
          Interchangeable (Covers .empty b) a (a.graft h) := by
        intro a ha
        have hlt := Ty.size_lt_of_mem_arguments ha
        exact ih (by omega) (hone.subterm (Ty.mem_subterms_of_arguments ha))
          fun name hx => hproj name (Ty.unknowns_of_arguments ha hx)
      cases hf : t.failed with
      | true =>
          have hf' := (Ty.failed_graft hh t).trans hf
          intro z
          simp only [covers_bound_iff hb, hf, hf', true_or, or_true, and_self]
      | false =>
          refine interchangeable_of_parts hb hf ((Ty.failed_graft hh t).trans hf) ?_
            (View.rewritten_interpretWith (Ty.errorPart_graft hh hvar t) ?_ hvar rfl) ?_
          · rcases Ty.valuePart_graft_cases hh hf (hone t t.mem_subterms_self) with
              heq | ⟨hmem, heq⟩
            · rw [heq]; exact .refl _
            · rw [heq]
              rcases Ty.valueOnly_valuePart hf with hnone | hvalue
              · rw [hnone]; exact .refl _
              · cases hv : t.valuePart with
                | value => exact .refl _
                | con c args =>
                    rw [Ty.graft, Ty.graftAll_eq_map]
                    exact interchangeable_con hb c fun a ha =>
                      hargs a (Ty.mem_arguments_of_valuePart hv ha)
                | valueProj name flexible =>
                    rw [hv] at hmem
                    cases flexible with
                    | false => rw [Ty.graft, hh.rigidProj]; exact .refl _
                    | true => exact hproj name (Ty.unknowns_of_mem_members hmem List.mem_cons_self)
                | _ => rw [hv] at hvalue; cases hvalue
          · intro c args
            rw [Ty.graft, Ty.graftAll_eq_map]
          · exact fun e he x hx => hargs x (View.mem_arguments_of_known he hx)

variable {b' : Bindings}

/-- A projection is interchangeable with what it is written out to. -/
theorem interchangeable_followed (hb : b.Acyclic) (hv : b.ValuesOnly) (n : String) :
    Interchangeable (Covers .empty b) (.valueProj n true) (b.written (.valueProj n true)) := by
  refine interchangeable_of_values hb (Or.inr rfl) (Bindings.valueOnly_written hb hv n) fun z => ?_
  have hsame : b.followed (b.written (.valueProj n true)) = b.followed (.valueProj n true) :=
    hb.followed_followed (.valueProj n true)
  rw [hsame]
  exact ⟨Iff.rfl, Iff.rfl⟩

/-- Whether the types that projections are bound to have one value each, at any
depth. -/
def Bindings.OneValued (b : Bindings) : Prop := ∀ n t, b.table.get? n = some t → t.OneValued

/-- A type is interchangeable with itself written out. -/
theorem interchangeable_written (hb : b.Acyclic) (hv : b.ValuesOnly) {t : Ty}
    (ht : t.OneValued) : Interchangeable (Covers .empty b) t (b.written t) :=
  interchangeable_graft hb (Bindings.harmless_written hb hv) (fun _ => rfl) t.size
    (Nat.le_refl _) ht fun name _ => interchangeable_followed hb hv name

/-- A projection is interchangeable with what it is bound to. -/
theorem interchangeable_bound (hb : b.Acyclic) (hv : b.ValuesOnly) (hone : b.OneValued)
    {n : String} {t : Ty} (h : b.table.get? n = some t) :
    Interchangeable (Covers .empty b) (.valueProj n true) t := by
  have hproj := interchangeable_followed hb hv n
  rw [hb.written_bound h] at hproj
  exact hproj.trans (interchangeable_written hb hv (hone n t h)).symm

/-- A projection is interchangeable with what it was written out to before other
projections were bound. -/
theorem interchangeable_earlier (hb' : b'.Acyclic) (hv' : b'.ValuesOnly) (hone' : b'.OneValued)
    (hext : b.Extends b') (n : String) :
    Interchangeable (Covers .empty b') (.valueProj n true) (b.written (.valueProj n true)) := by
  have hb := hb'.of_extends hext
  have hv : b.ValuesOnly := fun m t ht => hv' m t (hext m t ht)
  refine hb.induct (P := fun n => Interchangeable (Covers .empty b') (.valueProj n true)
    (b.written (.valueProj n true))) (fun n ih => ?_) n
  cases hn : b.contains n with
  | false => rw [Bindings.written_free hn]; exact .refl _
  | true =>
      obtain ⟨t, ht⟩ := Table.get?_of_contains hn
      rw [hb.written_bound ht]
      have hbound := interchangeable_bound hb' hv' hone' (hext n t ht)
      have hearlier : Interchangeable (Covers .empty b') t (b.written t) :=
        interchangeable_graft hb' (Bindings.harmless_written hb hv) (fun _ => rfl) t.size
          (Nat.le_refl _) (hone' n t (hext n t ht)) fun m hm => ih m ⟨t, ht, hm⟩
      exact hbound.trans hearlier

theorem interchangeable_followed_earlier (hb' : b'.Acyclic) (hv' : b'.ValuesOnly)
    (hone' : b'.OneValued) (hext : b.Extends b') (x : Ty) :
    Interchangeable (Covers .empty b') x (b.followed x) := by
  cases x with
  | valueProj n flexible =>
      cases flexible with
      | true => exact interchangeable_earlier hb' hv' hone' hext n
      | false => exact .refl _
  | _ => exact .refl _

/-! ## Later bindings keep what holds -/

/-- What holds while some projections are bound holds once more of them are. -/
theorem covers_of_extends (hb' : b'.Acyclic) (hv' : b'.ValuesOnly) (hone' : b'.OneValued)
    (hext : b.Extends b') : ∀ (n : Nat) {x y : Ty},
      (View.mk .classes .empty b).holdsWithin n x y = .ok true → Covers .empty b' x y := by
  have hb := hb'.of_extends hext
  have hv : b.ValuesOnly := fun m t ht => hv' m t (hext m t ht)
  intro n
  induction n with
  | zero => intro x y h; cases h
  | succ n ih =>
      intro x y h
      have hfollow : ∀ t, (View.mk .classes .empty b).follow t = .ok (b.followed t) :=
        Bindings.Acyclic.follow hb
      rw [View.holdsWithin_succ, View.compareWith_holds_iff,
        View.compareValues_iff_of_follow rfl _ (hfollow _) (hfollow _)] at h
      rw [covers_bound_iff hb']
      refine Ty.failed_or_imp h fun hfx hfy ⟨hvalue, herrors⟩ => ⟨?_, ?_⟩
      · have hx := Ty.valueOnly_valuePart hfx
        have hy := Ty.valueOnly_valuePart hfy
        rw [← covers_values_iff hb' hx hy,
          (interchangeable_followed_earlier hb' hv' hone' hext x.valuePart).iff
            (interchangeable_followed_earlier hb' hv' hone' hext y.valuePart)]
        have hF := Bindings.valueOnly_followed hb hv hx
        have hG := Bindings.valueOnly_followed hb hv hy
        generalize b.followed x.valuePart = above at hvalue hF ⊢
        generalize b.followed y.valuePart = below at hvalue hG ⊢
        cases hvalue with
        | same he => exact covers_of_beq hb' he
        | failedSup => exact (covers_bound_iff hb').2 (Or.inl rfl)
        | failedSub => exact (covers_bound_iff hb').2 (Or.inr (Or.inl rfl))
        | nothing => exact (covers_values_iff hb' hF hG).2 .nothing
        | value => exact (covers_values_iff hb' hF hG).2 .value
        | con hlen hargs =>
            exact (covers_values_iff hb' hF hG).2
              (.con hlen fun e he => ⟨ih (hargs e he).1, ih (hargs e he).2⟩)
        | subclass habove => exact (covers_values_iff hb' hF hG).2 (.subclass habove)
      · exact herrors.mono fun _ _ => ih

end WrittenOut

end Fallible
