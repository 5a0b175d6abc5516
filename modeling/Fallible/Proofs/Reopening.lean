import Fallible.Proofs.Normalising
import Fallible.Proofs.Unfolding

/-!
# Opening unions up

Writing a type out opens its unions up, at every depth, whether or not there is
anything to replace. The type is then written differently, but the difference is
none: constituents stay where they are, the canonical form is the same, and the
type as it was and as it is written now cover each other in every view.

The last is proved without going through canonical forms. A view may hold
bindings and solved sets, and a comparison in it may be cut off at some depth;
on two ways of writing one type it goes no deeper than the type is. The type may
not hold flexible variables, so what the view knows of them does not matter.
-/

namespace Fallible

namespace Ty

/-! ## Types without flexible variables -/

/-- Whether the type is a variable that is to be solved for or bound. -/
def isFlexible : Ty → Bool
  | .valueProj _ flexible | .var _ flexible => flexible
  | .errorVar v => v.flexible
  | _ => false

/-- Whether the type has no flexible variable, at any depth. -/
def Closed (t : Ty) : Prop := ∀ x ∈ t.unknowns, x.isFlexible = false

instance (t : Ty) : Decidable t.Closed :=
  inferInstanceAs (Decidable (∀ x ∈ t.unknowns, x.isFlexible = false))

theorem stable_closed : Stable fun x => x.isFlexible = false := fun _ _ h => ⟨h, h⟩

namespace Closed

variable {t : Ty}

theorem member {ms : List Ty} (h : ∀ x ∈ unknownsAll ms, x.isFlexible = false) {m : Ty}
    (hm : m ∈ ms) : m.Closed :=
  fun x hx => h x (mem_unknownsAll.2 ⟨m, hm, hx⟩)

theorem constituent (h : t.Closed) {m : Ty} (hm : m ∈ t.constituents) : m.Closed :=
  stable_closed.constituents h m hm

theorem canonical (h : t.Closed) : t.canonical.Closed :=
  fun x hx => (stable_closed.canonical h x hx).1

theorem of_constituents (h : ∀ m ∈ t.constituents, m.Closed) : t.Closed := by
  induction t with
  | union ms ih =>
      intro x hx
      obtain ⟨m, hm, hx⟩ := mem_unknownsAll.1 hx
      exact ih m hm (fun y hy => h y (mem_constituents_union.2 ⟨m, hm, hy⟩)) x hx
  | any | nothing => exact fun _ hx => absurd hx List.not_mem_nil
  | var name flexible =>
      intro x hx
      obtain rfl := List.mem_singleton.1 hx
      exact h (.valueProj name flexible) List.mem_cons_self (.valueProj name flexible)
        List.mem_cons_self
  | _ => exact h _ List.mem_cons_self

theorem valuePart (h : t.Closed) : t.valuePart.Closed := by
  rcases t.valuePart_mem with hv | hv
  · rw [hv]
    exact fun _ hx => absurd hx List.not_mem_nil
  · exact h.constituent hv

theorem flat (h : t.Closed) : t.projections = [] := by
  refine List.eq_nil_iff_forall_not_mem.2 fun name hn => ?_
  rcases mem_projections_iff.1 hn with hx | hx
  all_goals cases h _ hx

theorem rigid (h : t.Closed) {v : ErrorVar} (hv : .errorVar v ∈ t.constituents) :
    v.flexible = false :=
  h.constituent hv _ List.mem_cons_self

theorem flexible_interpretWith (h : t.Closed) (s : Solution) :
    (View.interpretWith s t).flexible = [] := by
  refine List.eq_nil_iff_forall_not_mem.2 fun x hx => ?_
  obtain ⟨hmem, hflex, -⟩ := View.mem_flexible_interpretWith.1 hx
  rw [h.rigid (List.mem_filter.1 hmem).1] at hflex
  cases hflex

/-- A solution has nothing to add to a type without flexible variables. -/
theorem interpretWith_eq (h : t.Closed) (s : Solution) :
    View.interpretWith s t = View.interpretWith .empty t := by
  have hadd : ∀ m ∈ t.errorPart, ∀ r : View.Reading, r.add s m = r.add .empty m := by
    intro m hm r
    cases m with
    | errorVar x =>
        have hx := h.rigid (List.mem_filter.1 hm).1
        rw [View.add_rigid hx, View.add_rigid hx]
    | _ => rfl
  have hfold : ∀ (ms : List Ty) (r : View.Reading), (∀ m ∈ ms, m ∈ t.errorPart) →
      ms.foldl (View.Reading.add s) r = ms.foldl (View.Reading.add .empty) r := by
    intro ms
    induction ms with
    | nil => exact fun _ _ => rfl
    | cons m ms ih =>
        intro r hms
        rw [List.foldl_cons, List.foldl_cons, hadd m (hms m (by simp)),
          ih _ fun x hx => hms x (by simp [hx])]
  rw [View.interpretWith, View.interpretWith, hfold _ _ fun _ hm => hm]

theorem universal_iff (h : t.Closed) : (View.interpretWith .empty t).known.universal = true ↔
    .error ∈ t.constituents := by
  rw [View.universal_interpretWith, List.any_eq_true]
  constructor
  · rintro ⟨m, hm, hall⟩
    cases m with
    | error => exact (List.mem_filter.1 hm).1
    | errorVar x => rw [yieldsAll, h.rigid (List.mem_filter.1 hm).1] at hall; cases hall
    | _ => cases hall
  · exact fun hm => ⟨_, List.mem_filter.2 ⟨hm, rfl⟩, rfl⟩

theorem contains_var_iff (h : t.Closed) {v : ErrorVar} :
    (View.interpretWith .empty t).known.contains (.var v) = true ↔
      ∃ w, .errorVar w ∈ t.constituents ∧ (w == v) = true := by
  rw [View.contains_interpretWith, List.any_eq_true]
  constructor
  · rintro ⟨m, hm, hyield⟩
    cases m with
    | errorVar w =>
        have hw := (List.mem_filter.1 hm).1
        rw [yields, h.rigid hw, if_neg Bool.false_ne_true] at hyield
        exact ⟨w, hw, hyield⟩
    | _ => cases hyield
  · rintro ⟨w, hw, hwv⟩
    refine ⟨_, List.mem_filter.2 ⟨hw, rfl⟩, ?_⟩
    rw [yields, h.rigid hw, if_neg Bool.false_ne_true]
    exact hwv

end Closed

end Ty

/-- Where nothing is to be solved, errors are covered if the constituents are, one
by one. -/
theorem errorsHold_of_constituents {R : Ty → Ty → Prop} {x y : Ty} (hx : x.Closed) (hy : y.Closed)
    (hxn : x.Unrepeated) (hyn : y.Unrepeated)
    (herror : .error ∈ y.constituents → .error ∈ x.constituents)
    (hconst : .error ∉ x.constituents → ∀ c ys, .errorConst c ys ∈ y.constituents →
      ∃ xs, .errorConst c xs ∈ x.constituents ∧ ArgsCover R (.classifier c) xs ys)
    (hvar : .error ∉ x.constituents → ∀ v, .errorVar v ∈ y.constituents →
      (∃ w, .errorVar w ∈ x.constituents ∧ (w == v) = true) ∨
        View.coveredByAlias .empty (.var v) = true) (s : Solution) :
    ErrorsHold R (View.interpretWith s x) (View.interpretWith s y) := by
  rw [hx.interpretWith_eq, hy.interpretWith_eq]
  by_cases hu : .error ∈ x.constituents
  · exact Or.inl (hx.universal_iff.2 hu)
  refine Or.inr ⟨?_, fun e he => ?_, fun v hv => ?_⟩
  · exact Bool.eq_false_iff.2 fun h => hu (herror (hy.universal_iff.1 h))
  · rcases View.stemsFrom_interpretWith e he with ⟨v, rfl⟩ | ⟨c, -, -, hc, -, -, -⟩
    · obtain ⟨w, hw, hwv⟩ := hy.contains_var_iff.1 (ErrorSet.contains_of_mem he)
      rw [EntryCovered]
      cases hget : (View.interpretWith .empty x).known.get? (.var v) with
      | some args => exact Or.inr (Or.inl rfl)
      | none =>
          rcases hvar hu w hw with ⟨w', hmem, hww⟩ | hcov
          · have hin := hx.contains_var_iff.2 ⟨w', hmem, BEq.trans hww hwv⟩
            rw [← ErrorSet.isSome_get?, hget] at hin
            cases hin
          · refine View.coveredByAlias_mono (s := .empty) (fun _ h => Bool.noConfusion h) ?_
            rw [← View.coveredByAlias_congr _ (a := .var w) hwv]
            exact hcov
    · obtain ⟨a, ys⟩ := e
      obtain rfl : a = .classifier c := hc
      obtain ⟨xs, hxs, hcov⟩ := hconst hu c ys (hyn.mem_known.1 he)
      have hget := (View.distinct_interpretWith .empty x).get?_of_mem (hxn.mem_known.2 hxs)
      rw [EntryCovered, hget]
      exact hcov
  · rw [hy.flexible_interpretWith] at hv
    cases hv

namespace Ty

/-! ## The type as it is written now -/

theorem reopened_con (c : Con) (args : List Ty) :
    (Ty.con c args).reopened = .con c (args.map reopened) := by
  rw [reopened, graft, graftAll_eq_map]
  rfl

theorem reopened_errorConst (c : Classifier) (args : List Ty) :
    (Ty.errorConst c args).reopened = .errorConst c (args.map reopened) := by
  rw [reopened, graft, graftAll_eq_map]
  rfl

theorem reopened_union (ms : List Ty) :
    (Ty.union ms).reopened = .union (constituentsAll (ms.map reopened)) := by
  rw [reopened, graft, graftAll_eq_map]
  rfl

theorem constituents_reopened (t : Ty) : t.reopened.constituents = t.constituents.map reopened := by
  induction t with
  | union ms ih =>
      rw [reopened, graft, constituents_unionOf, graftAll_eq_map, constituentsAll_eq_flatMap,
        List.flatMap_map, constituents, constituentsAll_eq_flatMap, List.map_flatMap]
      exact List.flatMap_congr ih
  | _ => rfl

/-- Opening unions up does not change the canonical form. -/
theorem canonical_reopened (t : Ty) : t.reopened.canonical = t.canonical := by
  -- The canonical form of a union is read off its constituents, which are not its members.
  suffices h : t.reopened.canonical = t.canonical ∧
      ∀ m ∈ t.constituents, m.reopened.canonical = m.canonical from h.1
  induction t with
  | union ms ih =>
      have hms : ∀ m ∈ (Ty.union ms).constituents, m.reopened.canonical = m.canonical := by
        intro m hm
        obtain ⟨x, hx, hm⟩ := mem_constituents_union.1 hm
        exact (ih x hx).2 m hm
      refine ⟨?_, hms⟩
      have hunion : (Ty.union ms).reopened.canonical =
          ofConstituents ((Ty.union ms).reopened.constituents.map canonical) := canonical_union _
      rw [hunion, canonical_union ms, constituents_reopened, List.map_map]
      exact congrArg ofConstituents (List.map_congr_left hms)
  | con c args ih | errorConst c args ih =>
      have hargs : (args.map reopened).map canonical = args.map canonical := by
        rw [List.map_map]
        exact List.map_congr_left fun a ha => (ih a ha).1
      simp only [constituents, List.mem_singleton, forall_eq, reopened_con, reopened_errorConst,
        canonical, canonicalAll_eq_map, hargs, and_self]
  | any | var =>
      refine ⟨rfl, fun m hm => ?_⟩
      simp only [constituents, List.mem_cons, List.not_mem_nil, or_false] at hm
      rcases hm with rfl | rfl <;> rfl
  | nothing => exact ⟨rfl, fun m hm => absurd hm List.not_mem_nil⟩
  | _ => exact ⟨rfl, fun m hm => by rw [List.mem_singleton.1 hm]; rfl⟩

theorem errorConst_of_reopened {x : Ty} {c : Classifier} {args : List Ty}
    (h : x.reopened = .errorConst c args) :
    ∃ xs, x = .errorConst c xs ∧ args = xs.map reopened := by
  cases x with
  | errorConst d xs =>
      rw [reopened_errorConst] at h
      cases h
      exact ⟨xs, rfl, rfl⟩
  | _ => cases h

theorem Unrepeated.reopened {t : Ty} (h : t.Unrepeated) : t.reopened.Unrepeated := by
  rw [unrepeated_iff, constituents_reopened, List.pairwise_map]
  refine (unrepeated_iff.1 h).imp fun {x y} hxy c as hx d bs hy => ?_
  obtain ⟨xs, rfl, -⟩ := errorConst_of_reopened hx
  obtain ⟨ys, rfl, -⟩ := errorConst_of_reopened hy
  exact hxy c xs rfl d ys rfl

theorem Closed.reopened {t : Ty} (h : t.Closed) : t.reopened.Closed := by
  refine stable_closed.graft fun y hy x hx => ?_
  rcases unknown_cases hy with ⟨name, flexible, rfl⟩ | ⟨v, rfl⟩ | ⟨name, flexible, rfl⟩
  all_goals
    obtain rfl := List.mem_singleton.1 hx
    exact h _ hy

/-- A replacement that spares rigid variables only opens unions up. -/
theorem graft_of_closed {h : Ty → Ty} {x : Ty} (hx : x.Closed)
    (hproj : ∀ n, h (.valueProj n false) = .valueProj n false)
    (hvar : ∀ v : ErrorVar, v.flexible = false → h (.errorVar v) = .errorVar v) :
    x.graft h = x.reopened := by
  refine graft_congr fun y hy => ?_
  have hflex := hx y hy
  rcases unknown_cases hy with ⟨n, flexible, rfl⟩ | ⟨v, rfl⟩ | ⟨n, flexible, rfl⟩
  · obtain rfl : flexible = false := hflex
    exact hproj n
  · exact hvar v hflex
  · rfl

theorem canonical_ground {x : Ty} (hx : x.Closed) : x.ground.canonical = x.canonical := by
  rw [ground_eq_graft, graft_of_closed hx (fun _ => rfl) (fun _ _ => rfl), canonical_reopened]

theorem isValue_reopened (m : Ty) : m.reopened.isValue = m.isValue := by
  cases m <;> rfl

theorem isErroneous_reopened (m : Ty) : m.reopened.isErroneous = m.isErroneous := by
  cases m <;> rfl

theorem valuePart_reopened (t : Ty) : t.reopened.valuePart = t.valuePart.reopened := by
  rw [valuePart, valuePart, constituents_reopened, List.find?_map]
  have hsame : ((fun m : Ty => m.isValue || m.isErroneous) ∘ reopened) =
      fun m => m.isValue || m.isErroneous := by
    funext m
    rw [Function.comp_apply, isValue_reopened, isErroneous_reopened]
  rw [hsame]
  cases t.constituents.find? fun m => m.isValue || m.isErroneous <;> rfl

theorem mem_reopened_of_error {t : Ty} : .error ∈ t.reopened.constituents ↔
    .error ∈ t.constituents := by
  rw [constituents_reopened, List.mem_map]
  refine ⟨fun ⟨m, hm, h⟩ => ?_, fun h => ⟨_, h, rfl⟩⟩
  cases m <;> first | exact hm | cases h

theorem mem_reopened_of_errorVar {t : Ty} {v : ErrorVar} :
    .errorVar v ∈ t.reopened.constituents ↔ .errorVar v ∈ t.constituents := by
  rw [constituents_reopened, List.mem_map]
  refine ⟨fun ⟨m, hm, h⟩ => ?_, fun h => ⟨_, h, rfl⟩⟩
  cases m <;> first | cases h; exact hm | cases h

end Ty

/-! ## The two cover each other -/

section Cover

variable {R : Ty → Ty → Prop}

/-- Whether every one of some types covers the way it is written now, and is
covered by it. -/
def Alike (R : Ty → Ty → Prop) (args : List Ty) : Prop :=
  ∀ a ∈ args, R a.reopened a ∧ R a a.reopened

section Smaller

variable {t : Ty} (hc : t.Closed) (hn : t.NamesOnce)
  (h : ∀ a : Ty, a.size < t.size → a.Closed → a.NamesOnce → R a.reopened a ∧ R a a.reopened)

include hc hn h

theorem Alike.of_valuePart {c : Con} {args : List Ty} (hv : t.valuePart = .con c args) :
    Alike R args := by
  have hle := t.size_valuePart_le
  have hcon := hc.valuePart
  rw [hv] at hle hcon
  intro a ha
  refine h a ((Ty.size_le_sizeAll ha).trans_lt hle) (.member hcon ha) ?_
  exact ((Ty.namesOnce_iff rfl).1 (hn.of_mem_subterms (Ty.con_mem_subterms hv))).2 a ha

theorem Alike.of_errorConst {c : Classifier} {args : List Ty}
    (hm : .errorConst c args ∈ t.constituents) : Alike R args := by
  intro a ha
  have hle := Ty.size_le_of_mem_constituents t hm
  refine h a ((Ty.size_le_sizeAll ha).trans_lt hle) (.member (hc.constituent hm) ha) ?_
  exact ((Ty.namesOnce_iff rfl).1 (hn.of_mem_constituents hm)).2 a ha

end Smaller

theorem Alike.argsCover {args : List Ty} (h : Alike R args) (atom : Atom) :
    ArgsCover R atom (args.map Ty.reopened) args ∧
      ArgsCover R atom args (args.map Ty.reopened) := by
  have hmatch : ∀ (i : Nat) (x y : Ty), (args.map Ty.reopened)[i]? = some x → args[i]? = some y →
      R x y ∧ R y x := by
    intro i x y hx hy
    rw [List.getElem?_map, hy] at hx
    cases hx
    exact h y (List.mem_of_getElem? hy)
  refine ⟨Or.inr (Or.inr (Or.inr ⟨List.length_map .., fun i x y hx hy => ?_⟩)),
    Or.inr (Or.inr (Or.inr ⟨(List.length_map ..).symm, fun i x y hx hy => ?_⟩))⟩
  · exact .of_both (hmatch i x y hx hy).1 (hmatch i x y hx hy).2
  · exact .of_both (hmatch i y x hy hx).2 (hmatch i y x hy hx).1

theorem Alike.valueCovers {t : Ty}
    (h : ∀ c args, t.valuePart = .con c args → Alike R args) :
    ValueCovers R t.valuePart.reopened t.valuePart ∧
      ValueCovers R t.valuePart t.valuePart.reopened := by
  have hsame : t.valuePart.reopened = t.valuePart →
      ValueCovers R t.valuePart.reopened t.valuePart ∧
        ValueCovers R t.valuePart t.valuePart.reopened := by
    intro heq
    rw [heq]
    exact ⟨.same BEq.rfl, .same BEq.rfl⟩
  rcases t.valuePart_cases with hfixed | ⟨c, args, hc⟩ | ⟨name, hname⟩
  · rcases hfixed with hv | hv | hv | ⟨name, hv⟩ <;> exact hsame (by rw [hv]; rfl)
  · have hargs := h c args hc
    rw [hc, Ty.reopened_con]
    refine ⟨.con (List.length_map ..) fun e he => ?_,
      .con (List.length_map ..).symm fun e he => ?_⟩
    · rw [← List.map_id args, List.map_map, List.zip_map'] at he
      obtain ⟨a, ha, rfl⟩ := List.mem_map.1 he
      exact hargs a ha
    · rw [← List.map_id args, List.map_map, List.zip_map'] at he
      obtain ⟨a, ha, rfl⟩ := List.mem_map.1 he
      exact (hargs a ha).symm
  · exact hsame (by rw [hname]; rfl)

theorem Alike.errorsHold {t : Ty} (hc : t.Closed) (hn : t.Unrepeated)
    (h : ∀ c args, .errorConst c args ∈ t.constituents → Alike R args) (s : Solution) :
    ErrorsHold R (View.interpretWith s t.reopened) (View.interpretWith s t) ∧
      ErrorsHold R (View.interpretWith s t) (View.interpretWith s t.reopened) := by
  constructor
  · refine errorsHold_of_constituents hc.reopened hc hn.reopened hn Ty.mem_reopened_of_error.2
      (fun _ c args hmem => ?_)
      (fun _ v hv => Or.inl ⟨v, Ty.mem_reopened_of_errorVar.2 hv, BEq.rfl⟩) s
    refine ⟨args.map Ty.reopened, ?_, ((h c args hmem).argsCover _).1⟩
    rw [Ty.constituents_reopened]
    exact List.mem_map.2 ⟨_, hmem, Ty.reopened_errorConst c args⟩
  · refine errorsHold_of_constituents hc hc.reopened hn hn.reopened Ty.mem_reopened_of_error.1
      (fun _ c args hmem => ?_)
      (fun _ v hv => Or.inl ⟨v, Ty.mem_reopened_of_errorVar.1 hv, BEq.rfl⟩) s
    rw [Ty.constituents_reopened] at hmem
    obtain ⟨m, hm, hmc⟩ := List.mem_map.1 hmem
    obtain ⟨xs, rfl, rfl⟩ := Ty.errorConst_of_reopened hmc
    exact ⟨xs, hm, ((h c xs hm).argsCover _).2⟩

end Cover

theorem View.holdsWithin_succ_of_closed {v : View} (ho : v.order = .classes) {n : Nat} {x y : Ty}
    (hx : x.Closed) (hy : y.Closed)
    (h : ValueCovers (fun a b => v.holdsWithin n a b = .ok true) x.valuePart y.valuePart ∧
      ErrorsHold (fun a b => v.holdsWithin n a b = .ok true) (v.interpret x) (v.interpret y)) :
    v.holdsWithin (n + 1) x y = .ok true := by
  have hspared : ∀ {t : Ty}, t.Closed → ∀ name ∈ t.projections,
      v.bindings.contains name = false := by
    intro t ht name hn
    rw [ht.flat] at hn
    cases hn
  rw [holdsWithin_succ, compareWith_holds_iff,
    compareValues_iff ho _ (hspared hx.valuePart) (hspared hy.valuePart)]
  exact Or.inr (Or.inr h)

/-- A type and the type as it is written now cover each other in every view, at
every depth that the type fits in. -/
theorem View.holdsWithin_reopened {v : View} (ho : v.order = .classes) (n : Nat) :
    ∀ t : Ty, t.size ≤ n → t.Closed → t.NamesOnce →
      v.holdsWithin n t.reopened t = .ok true ∧ v.holdsWithin n t t.reopened = .ok true := by
  induction n with
  | zero =>
      intro t hsize
      have := t.one_le_size
      omega
  | succ n ih =>
      intro t hsize hclosed hnames
      have hsmaller : ∀ a : Ty, a.size < t.size → a.Closed → a.NamesOnce →
          v.holdsWithin n a.reopened a = .ok true ∧ v.holdsWithin n a a.reopened = .ok true :=
        fun a ha => ih a (by omega)
      obtain ⟨hto, hfro⟩ := Alike.valueCovers (R := fun a b => v.holdsWithin n a b = .ok true)
        fun c args => Alike.of_valuePart hclosed hnames hsmaller
      obtain ⟨hto', hfro'⟩ := Alike.errorsHold (R := fun a b => v.holdsWithin n a b = .ok true)
        hclosed hnames.top (fun c args => Alike.of_errorConst hclosed hnames hsmaller) v.solution
      rw [← t.valuePart_reopened] at hto hfro
      exact ⟨holdsWithin_succ_of_closed ho hclosed.reopened hclosed ⟨hto, hto'⟩,
        holdsWithin_succ_of_closed ho hclosed hclosed.reopened ⟨hfro, hfro'⟩⟩

end Fallible
