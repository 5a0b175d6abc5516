import Fallible.Proofs.Kinds
import Fallible.Proofs.NormalTypes
import Mathlib.Data.List.Perm.Basic

/-!
# How far the order of writing shows

The members of a union are listed by a key, so it should not matter in which order
they were written. The key of an error variable is its name alone, but variables
that differ in their bound or in being flexible are different variables, and a
union may hold two of one name if their bounds are disjoint. Listing keeps members
of one key in the order in which they were written. So the order shows through
variables that share a name, and through nothing else: in a union that obeys the
grammar, members that are no variables and have one key clash, so there is only one.

Main statement: two orders of the members of such a union have one canonical form
exactly if the variables of each name come in one order. They do if no two share a
name.
-/

namespace Fallible

/-! ## Listings -/

section Listing

variable {α : Type} {key : α → SortKey}

/-- A listing is decided by the elements of each key, in the order of writing. -/
theorem sortOn_eq_iff {xs ys : List α} : sortOn key xs = sortOn key ys ↔
    ∀ k, xs.filter (fun x => decide (key x = k)) = ys.filter fun x => decide (key x = k) := by
  refine ⟨fun h k => ?_, sortOn_congr⟩
  rw [← filter_sortOn, h, filter_sortOn]

/-- Elements that are all the same can be written in one order only. -/
theorem eq_of_perm_of_forall_eq {xs ys : List α} (hperm : xs.Perm ys)
    (h : ∀ x ∈ xs, ∀ y ∈ xs, x = y) : xs = ys := by
  cases xs with
  | nil => exact hperm.nil_eq
  | cons x rest =>
      have hall : ∀ y ∈ x :: rest, y = x := fun y hy => h y hy x List.mem_cons_self
      rw [List.eq_replicate_of_mem hall] at hperm ⊢
      exact (List.perm_replicate.1 hperm.symm).symm

theorem eq_of_map_eq {β : Type} {f : α → β} {xs ys : List α}
    (hinj : ∀ x ∈ xs, ∀ y ∈ ys, f x = f y → x = y) (h : xs.map f = ys.map f) : xs = ys := by
  induction xs generalizing ys with
  | nil => exact (List.map_eq_nil_iff.1 h.symm).symm
  | cons x xs ih =>
      cases ys with
      | nil => cases h
      | cons y ys =>
          obtain ⟨hxy, hrest⟩ := List.cons.inj h
          rw [hinj x List.mem_cons_self y List.mem_cons_self hxy,
            ih (fun a ha b hb => hinj a (List.mem_cons_of_mem x ha) b (List.mem_cons_of_mem y hb))
              hrest]

theorem distinct_map {β : Type} [BEq α] [BEq β] {f : α → β} (hf : ∀ x y, (f x == f y) = (x == y))
    (xs : List α) : distinct (xs.map f) = (distinct xs).map f := by
  induction xs with
  | nil => rfl
  | cons x xs ih =>
      rw [List.map_cons, distinct, ih, List.filter_map, distinct, List.map_cons]
      congr 3
      funext y
      rw [Function.comp_apply, hf]

theorem beq_list_iff {β : Type} [BEq α] {f : α → β} (hf : ∀ x y, (x == y) = true ↔ f x = f y)
    {xs ys : List α} : (xs == ys) = true ↔ xs.map f = ys.map f := by
  induction xs generalizing ys with
  | nil => cases ys <;> simp
  | cons x xs ih => cases ys <;> simp [ih, hf]

end Listing

/-- The error variables of one name, each at its first mention. -/
def namesakes (name : String) (vs : List ErrorVar) : List ErrorVar :=
  distinct (vs.filter fun v => v.name == name)

/-- Variables that are told apart by their names can be written in any order. -/
theorem namesakes_eq_of_perm {vs ws : List ErrorVar} (hperm : vs.Perm ws)
    (honce : ∀ v ∈ vs, ∀ w ∈ vs, v.name = w.name → v = w) (name : String) :
    namesakes name vs = namesakes name ws := by
  refine congrArg distinct (eq_of_perm_of_forall_eq (hperm.filter _) fun v hv w hw => ?_)
  obtain ⟨hv, hvn⟩ := List.mem_filter.1 hv
  obtain ⟨hw, hwn⟩ := List.mem_filter.1 hw
  exact honce v hv w hw ((beq_iff_eq.1 hvn).trans (beq_iff_eq.1 hwn).symm)

/-! ## Unions -/

/-- A universe without classifiers is known from its bare form. -/
theorem Universe.eq_of_bare_eq {x y : Universe} (h : x.bare = y.bare)
    (hempty : x.overlaps y = false) : x = y := by
  have hnone : ∀ c, x.contains c = false := by
    intro c
    refine Bool.eq_false_iff.2 fun hc => Bool.eq_false_iff.1 hempty (overlaps_iff.2 ⟨c, hc, ?_⟩)
    rw [← contains_bare y, ← h, contains_bare, hc]
  cases x with
  | unbounded => exact absurd (hnone ⟨0, [], "", [], none⟩) (by simp [contains])
  | bounded a =>
      cases y with
      | unbounded => cases h
      | bounded b =>
          obtain ⟨name, members, increasing⟩ := a
          obtain ⟨name', members', increasing'⟩ := b
          simp only [bare, Alias.bare, bounded.injEq, Alias.mk.injEq] at h
          obtain ⟨rfl, hmembers⟩ := h
          have hnil : members = [] := by
            refine List.eq_nil_iff_forall_not_mem.2 fun c hc => ?_
            have hin : List.contains members c = true :=
              List.contains_iff_exists_mem_beq.2 ⟨c, hc, BEq.rfl⟩
            exact Bool.eq_false_iff.1 (hnone c) hin
          subst hnil
          obtain rfl := List.map_eq_nil_iff.1 hmembers.symm
          rfl

namespace Ty

open Grammar (Proper kind)

/-- The error variable that a type is, if it is one. -/
def errorVar? : Ty → Option ErrorVar
  | .errorVar v => some v
  | _ => none

/-- The error variables among the constituents of a list of members. -/
def writtenVars (ms : List Ty) : List ErrorVar := (constituentsAll ms).filterMap errorVar?

theorem constituentsAll_perm {ms ms' : List Ty} (h : ms.Perm ms') :
    (constituentsAll ms).Perm (constituentsAll ms') := by
  rw [constituentsAll_eq_flatMap, constituentsAll_eq_flatMap]
  exact h.flatMap_right _

theorem canonical_cases {t x : Ty} (hx : x ∈ t.constituents) :
    x.canonical.isValue = true ∨ x.canonical.isError = true ∨ x.canonical = .erroneous := by
  refine member_cases (t := x.canonical) ?_
  rw [constituents_canonical_of_mem hx]
  exact List.mem_singleton_self _

theorem errorVar?_canonical {t x : Ty} (hx : x ∈ t.constituents) :
    errorVar? x.canonical = errorVar? x := by
  cases x with
  | union ms => rcases member_cases hx with h | h | h <;> cases h
  | _ => rfl

/-- The members that are listed by the name of a variable are the variables of that name. -/
theorem filter_key_errorVar (name : String) (xs : List Ty) :
    xs.filter (fun m => decide (memberKey m = ⟨2, 0, name⟩)) =
      ((xs.filterMap errorVar?).filter fun v => v.name == name).map .errorVar := by
  induction xs with
  | nil => rfl
  | cons x xs ih =>
      cases x with
      | errorVar v =>
          rw [List.filter_cons, ih]
          by_cases hv : v.name = name <;> simp [errorVar?, memberKey, hv]
      | _ => rw [List.filter_cons_of_neg (by simp [memberKey]), ih]; rfl

/-- Constituents listed at one place clash, unless they are variables. -/
theorem clashes_of_memberKey {x y : Ty} (hx : x.isValue = true ∨ x.isError = true)
    (hy : y.isValue = true ∨ y.isError = true) (hkey : memberKey x = memberKey y)
    (hvar : ∀ name, memberKey x ≠ ⟨2, 0, name⟩) : (kind x).clashes (kind y) = true := by
  cases x <;> cases y <;>
    simp_all [isValue, isError, memberKey, kind, Grammar.Kind.clashes, Universe.overlaps]

/-- Constituents that are equal up to spelling are one, or they clash. -/
theorem eq_or_clashes_of_beq {x y : Ty}
    (hx : x.isValue = true ∨ x.isError = true ∨ x = .erroneous) (h : (x == y) = true) :
    x = y ∨ (kind x).clashes (kind y) = true := by
  rw [beq_iff] at h
  cases x with
  | erroneous => cases y <;> first | exact Or.inl rfl | simp [bare] at h
  | value | con | valueProj | error => cases y <;> first | exact Or.inr rfl | simp [bare] at h
  | errorConst c args =>
      cases y <;> simp only [bare, reduceCtorEq, errorConst.injEq] at h
      have hid : c.bare.id = _ := congrArg Classifier.id h.1
      exact Or.inr (beq_iff_eq.2 hid)
  | errorVar v =>
      cases y <;> simp only [bare, reduceCtorEq, errorVar.injEq] at h
      next w =>
        obtain ⟨name, bound, flexible⟩ := v
        obtain ⟨name', bound', flexible'⟩ := w
        simp only [ErrorVar.bare, ErrorVar.mk.injEq] at h
        obtain ⟨rfl, hbound, rfl⟩ := h
        cases hover : bound.overlaps bound' with
        | true => exact Or.inr ((Universe.overlaps_bare _ _).trans hover)
        | false => exact Or.inl (by rw [Universe.eq_of_bare_eq hbound hover])
  | _ => simp [isValue, isError] at hx

section Union

variable {ms ms' : List Ty}

theorem failed_perm (hperm : ms.Perm ms') : (Ty.union ms').failed = (Ty.union ms).failed := by
  rw [failed_eq, failed_eq]
  exact (constituentsAll_perm hperm).symm.any_eq

/-- What is listed is decided by the members of each key, in the order of writing. -/
theorem constituents_canonical_eq_iff (h : (Ty.union ms).failed = false)
    (h' : (Ty.union ms').failed = false) :
    (Ty.union ms).canonical.constituents = (Ty.union ms').canonical.constituents ↔
      ∀ k, distinct (((constituentsAll ms).map canonical).filter fun m =>
          decide (memberKey m = k)) =
        distinct (((constituentsAll ms').map canonical).filter fun m =>
          decide (memberKey m = k)) := by
  rw [constituents_canonical_of_sound h, constituents_canonical_of_sound h', constituents,
    constituents, sortOn_eq_iff]
  simp only [filter_key_distinct]

theorem canonical_eq_iff_constituents (h : (Ty.union ms).failed = false)
    (h' : (Ty.union ms').failed = false) :
    (Ty.union ms).canonical = (Ty.union ms').canonical ↔
      (Ty.union ms).canonical.constituents = (Ty.union ms').canonical.constituents := by
  refine ⟨congrArg constituents, fun hlisted => ?_⟩
  rw [canonical_union, canonical_union]
  exact ofConstituents_congr ((constituents_canonical_eq_iff h h').1 hlisted)

theorem distinct_filter_errorVar (ms : List Ty) (name : String) :
    distinct (((constituentsAll ms).map canonical).filter fun m =>
      decide (memberKey m = ⟨2, 0, name⟩)) = (namesakes name (writtenVars ms)).map .errorVar := by
  have hvars : ((constituentsAll ms).map canonical).filterMap errorVar? = writtenVars ms := by
    rw [writtenVars, List.filterMap_map]
    exact List.filterMap_congr fun x hx => errorVar?_canonical (t := .union ms) hx
  rw [filter_key_errorVar, hvars, namesakes]
  exact distinct_map (f := Ty.errorVar) (fun _ _ => rfl) _

/-- In a union that obeys the grammar, nothing but variables can be written in two orders. -/
theorem filter_key_eq_of_perm (hproper : Proper (constituentsAll ms)) (hperm : ms.Perm ms')
    (h : (Ty.union ms).failed = false) {k : SortKey} (hk : ∀ name, k ≠ ⟨2, 0, name⟩) :
    ((constituentsAll ms).map canonical).filter (fun m => decide (memberKey m = k)) =
      ((constituentsAll ms').map canonical).filter fun m => decide (memberKey m = k) := by
  have hsingle : ∀ x ∈ constituentsAll ms,
      x.canonical.isValue = true ∨ x.canonical.isError = true := by
    intro x hx
    rcases canonical_cases (t := .union ms) hx with hv | he | herr
    · exact Or.inl hv
    · exact Or.inr he
    · have hno := (any_erroneous_map_canonical (.union ms)).trans h
      refine absurd ?_ (List.any_eq_false.1 hno _ (List.mem_map_of_mem hx))
      rw [herr]
      rfl
  refine eq_of_perm_of_forall_eq (((constituentsAll_perm hperm).map canonical).filter _) ?_
  intro x hx y hy
  obtain ⟨hx, hxk⟩ := List.mem_filter.1 hx
  obtain ⟨hy, hyk⟩ := List.mem_filter.1 hy
  obtain ⟨a, ha, rfl⟩ := List.mem_map.1 hx
  obtain ⟨b, hb, rfl⟩ := List.mem_map.1 hy
  have hxk := of_decide_eq_true hxk
  have hclash := clashes_of_memberKey (hsingle a ha) (hsingle b hb)
    (hxk.trans (of_decide_eq_true hyk).symm) (hxk ▸ hk)
  rw [Grammar.kind_canonical (t := .union ms) ha,
    Grammar.kind_canonical (t := .union ms) hb] at hclash
  rw [hproper.eq_of_clashes ha hb hclash]

theorem canonical_eq_iff_namesakes (hproper : Proper (constituentsAll ms)) (hperm : ms.Perm ms')
    (h : (Ty.union ms).failed = false) :
    (Ty.union ms).canonical = (Ty.union ms').canonical ↔
      ∀ name, namesakes name (writtenVars ms) = namesakes name (writtenVars ms') := by
  have hinj : Function.Injective (List.map Ty.errorVar) :=
    List.map_injective_iff.2 fun v w hvw => Ty.errorVar.inj hvw
  have h' := (failed_perm hperm).trans h
  rw [canonical_eq_iff_constituents h h', constituents_canonical_eq_iff h h']
  constructor
  · intro hkeys name
    have hname := hkeys ⟨2, 0, name⟩
    rw [distinct_filter_errorVar, distinct_filter_errorVar] at hname
    exact hinj hname
  · intro hnames k
    by_cases hk : ∃ name, k = ⟨2, 0, name⟩
    · obtain ⟨name, rfl⟩ := hk
      rw [distinct_filter_errorVar, distinct_filter_errorVar, hnames]
    · rw [filter_key_eq_of_perm hproper hperm h fun name hname => hk ⟨name, hname⟩]

/-- Two orders of a union that obeys the grammar do not differ in spelling alone. -/
theorem canonical_eq_of_beq (hproper : Proper (constituentsAll ms)) (hperm : ms.Perm ms')
    (h : (Ty.union ms).failed = false)
    (hbeq : ((Ty.union ms).canonical == (Ty.union ms').canonical) = true) :
    (Ty.union ms).canonical = (Ty.union ms').canonical := by
  -- Each listing is the canonical form of a constituent that is written in both orders.
  have hfrom : ∀ x ∈ (Ty.union ms).canonical.constituents,
      ∃ a ∈ constituentsAll ms, x = a.canonical := fun x hx => mem_canonical hx
  have hfrom' : ∀ x ∈ (Ty.union ms').canonical.constituents,
      ∃ a ∈ constituentsAll ms, x = a.canonical := by
    intro x hx
    obtain ⟨a, ha, hxa⟩ := mem_canonical hx
    exact ⟨a, (constituentsAll_perm hperm).mem_iff.2 ha, hxa⟩
  refine (canonical_eq_iff_constituents h ((failed_perm hperm).trans h)).2
    (eq_of_map_eq (f := respell .bare) (fun x hx y hy hxy => ?_) ?_)
  · obtain ⟨a, ha, rfl⟩ := hfrom x hx
    obtain ⟨b, hb, rfl⟩ := hfrom' y hy
    rcases eq_or_clashes_of_beq (canonical_cases (t := .union ms) ha)
      (beq_iff_respell.2 hxy) with heq | hclash
    · exact heq
    · rw [Grammar.kind_canonical (t := .union ms) ha,
        Grammar.kind_canonical (t := .union ms) hb] at hclash
      rw [hproper.eq_of_clashes ha hb hclash]
  · rw [← constituents_respell, ← constituents_respell, beq_iff_respell.1 hbeq]

/-- Two orders of a list of members that obeys the grammar have one canonical form, up
to spelling or exactly, if and only if a constituent failed or the variables of each
name are first mentioned in one order. So they do if no two variables share a name. -/
theorem canonical_shows_order_of_namesakes (hcheck : Grammar.check ms = none)
    (hperm : ms.Perm ms') :
    (((Ty.union ms).canonical == (Ty.union ms').canonical) = true ↔
      (Ty.union ms).canonical = (Ty.union ms').canonical) ∧
    ((Ty.union ms).canonical = (Ty.union ms').canonical ↔
      .erroneous ∈ constituentsAll ms ∨
        ∀ name, namesakes name (writtenVars ms) = namesakes name (writtenVars ms')) ∧
    ((∀ v ∈ writtenVars ms, ∀ w ∈ writtenVars ms, v.name = w.name → v = w) →
      (Ty.union ms).canonical = (Ty.union ms').canonical) := by
  have hproper := Grammar.check_eq_none_iff.1 hcheck
  have hmem : (Ty.union ms).failed = true ↔ .erroneous ∈ constituentsAll ms := failed_iff
  cases h : (Ty.union ms).failed with
  | true =>
      have heq : (Ty.union ms).canonical = (Ty.union ms').canonical := by
        rw [canonical_of_failed h, canonical_of_failed ((failed_perm hperm).trans h)]
      exact ⟨iff_of_true (by rw [heq]; exact BEq.rfl) heq, iff_of_true heq (Or.inl (hmem.1 h)),
        fun _ => heq⟩
  | false =>
      have hsound : .erroneous ∉ constituentsAll ms := fun herr =>
        Bool.false_ne_true (h.symm.trans (hmem.2 herr))
      have hnames := canonical_eq_iff_namesakes hproper hperm h
      refine ⟨⟨canonical_eq_of_beq hproper hperm h, fun heq => by rw [heq]; exact BEq.rfl⟩, ?_, ?_⟩
      · rw [hnames, or_iff_right hsound]
      · exact fun honce => hnames.2
          (namesakes_eq_of_perm ((constituentsAll_perm hperm).filterMap _) honce)

end Union

end Ty

/-- A variable that ranges over one classifier. -/
def rangingOver (name : String) (id : Int) (flexible : Bool) : ErrorVar :=
  ⟨name, .bounded (.of "Only" [⟨id, [], "A", [], some 0⟩]), flexible⟩

/-- A value, a classifier and two variables of one name. -/
def aroundNamesakes : List Ty :=
  [.con (.named "Int") [], .errorVar (rangingOver "E" 0 false),
    .errorConst ⟨2, [], "B", [], some 0⟩ [], .errorVar (rangingOver "E" 1 true)]

/-- Everything but the two variables may change places. -/
theorem canonical_of_aroundNamesakes :
    Grammar.check aroundNamesakes = none ∧
      aroundNamesakes.Perm (aroundNamesakes.drop 1 ++ aroundNamesakes.take 1) ∧
      (Ty.union aroundNamesakes).canonical =
        (Ty.union (aroundNamesakes.drop 1 ++ aroundNamesakes.take 1)).canonical := by
  have hperm : aroundNamesakes.Perm (aroundNamesakes.drop 1 ++ aroundNamesakes.take 1) :=
    (List.perm_append_comm : (aroundNamesakes.take 1 ++ aroundNamesakes.drop 1).Perm _)
  exact ⟨rfl, hperm,
    (Ty.canonical_shows_order_of_namesakes rfl hperm).2.1.2 (Or.inr fun _ => rfl)⟩

/-- The two variables may not. -/
theorem canonical_depends_on_order :
    ¬ ∀ ms ms' : List Ty, Grammar.check ms = none → ms.Perm ms' →
      ((Ty.union ms).canonical == (Ty.union ms').canonical) = true := by
  intro h
  have hbeq := h [.errorVar (rangingOver "E" 0 false), .errorVar (rangingOver "E" 1 true)]
    [.errorVar (rangingOver "E" 1 true), .errorVar (rangingOver "E" 0 false)] rfl (.swap ..)
  exact absurd hbeq (by decide)

end Fallible
