import Fallible.Proofs.Normalising
import Fallible.Proofs.WellFormed

/-!
# What the grammar sees

The grammar asks three things of a constituent: whether it is a value, which
classifier it names, and which classifiers it may hold without naming them. That
is its kind. A list of constituents obeys the grammar if no kind clashes with a
later one and no value comes late, so the grammar cannot tell apart two lists of
the same kinds, and a list that obeys it still does when constituents are left
out.

Normalising sorts constituents and drops repeated ones. So for a canonical form
to obey the grammar, it is enough that constituents clash only if they are
normalised to the same.
-/

namespace Fallible

/-! ## Universes -/

namespace Universe

/-- Two universes overlap if a classifier belongs to both. -/
theorem overlaps_iff {x y : Universe} :
    x.overlaps y = true ↔ ∃ c, x.contains c = true ∧ y.contains c = true := by
  have hsome : ∀ a : Alias, (!a.members.isEmpty) = true ↔ ∃ c, a.contains c = true := by
    intro a
    rw [Bool.not_eq_true', List.isEmpty_eq_false_iff_exists_mem]
    constructor
    · rintro ⟨c, hc⟩
      exact ⟨c, List.contains_iff_exists_mem_beq.2 ⟨c, hc, BEq.rfl⟩⟩
    · rintro ⟨c, hc⟩
      obtain ⟨d, hd, -⟩ := List.contains_iff_exists_mem_beq.1 hc
      exact ⟨d, hd⟩
  cases x with
  | unbounded =>
      cases y with
      | unbounded => exact iff_of_true rfl ⟨⟨0, [], "", [], none⟩, rfl, rfl⟩
      | bounded b => exact (hsome b).trans (by simp [contains])
  | bounded a =>
      cases y with
      | unbounded => exact (hsome a).trans (by simp [contains])
      | bounded b =>
          show a.members.any b.contains = true ↔ ∃ c, a.contains c = true ∧ b.contains c = true
          rw [List.any_eq_true]
          constructor
          · rintro ⟨c, hc, hcb⟩
            exact ⟨c, List.contains_iff_exists_mem_beq.2 ⟨c, hc, BEq.rfl⟩, hcb⟩
          · rintro ⟨c, hca, hcb⟩
            obtain ⟨d, hd, hcd⟩ := List.contains_iff_exists_mem_beq.1 hca
            refine ⟨d, hd, ?_⟩
            obtain ⟨e, he, hce⟩ := List.contains_iff_exists_mem_beq.1 hcb
            exact List.contains_iff_exists_mem_beq.2 ⟨e, he, BEq.trans (BEq.symm hcd) hce⟩

theorem overlaps_comm (x y : Universe) : x.overlaps y = y.overlaps x := by
  rw [Bool.eq_iff_iff, overlaps_iff, overlaps_iff]
  exact exists_congr fun c => and_comm

theorem overlaps_bare (x y : Universe) : x.bare.overlaps y.bare = x.overlaps y := by
  rw [Bool.eq_iff_iff, overlaps_iff, overlaps_iff, contains_bare, contains_bare]

end Universe

namespace Grammar

/-! ## Kinds -/

/-- What the grammar sees of a constituent. -/
inductive Kind where
  | value
  | named (id : Int)
  | ranging (bound : Universe)
  | other

/-- The kind of a constituent. -/
def kind : Ty → Kind
  | .value | .con .. | .valueProj .. => .value
  | .errorConst c _ => .named c.id
  | .errorVar v => .ranging v.bound.bare
  | .error => .ranging .unbounded
  | _ => .other

namespace Kind

/-- Whether no union may hold both. -/
def clashes : Kind → Kind → Bool
  | .value, .value => true
  | .named i, .named j => i == j
  | .ranging x, .ranging y => x.overlaps y
  | _, _ => false

theorem clashes_comm (k l : Kind) : k.clashes l = l.clashes k := by
  cases k <;> cases l <;> first | rfl | skip
  · exact BEq.comm
  · exact Universe.overlaps_comm _ _

/-- Whether the second may stand behind the first. -/
def Beside (k l : Kind) : Prop := l ≠ .value ∧ k.clashes l = false

end Kind

theorem kind_eq_value_iff {m : Ty} : kind m = .value ↔ m.isValue = true := by
  cases m <;> simp [kind, Ty.isValue]

theorem clashes_iff {x y : Ty} : (kind x).clashes (kind y) = true ↔
    (x.isValue = true ∧ y.isValue = true) ∨ ¬ Ty.Differ x y ∨
      (isOpen x = true ∧ isOpen y = true ∧ overlap x y = true) := by
  have hover : ∀ v : ErrorVar, v.bound.bare.overlaps .unbounded = v.bound.overlaps .unbounded :=
    fun v => v.bound.overlaps_bare .unbounded
  have hover' : ∀ v : ErrorVar, Universe.overlaps .unbounded v.bound.bare =
      Universe.overlaps .unbounded v.bound := fun v => Universe.overlaps_bare .unbounded v.bound
  cases x <;> cases y <;>
    simp [kind, Kind.clashes, Ty.isValue, Ty.Differ, isOpen, overlap, universeOf,
      Universe.overlaps_bare, hover, hover']

/-- The grammar sees kinds only. -/
theorem proper_iff {flat : List Ty} : Proper flat ↔ (flat.map kind).Pairwise Kind.Beside := by
  have hvalues : (∀ m ∈ flat.tail, m.isValue = false) ↔
      flat.Pairwise fun _ y => y.isValue = false := by
    cases flat with
    | nil => simp
    | cons x rest =>
        rw [List.tail_cons, List.pairwise_cons]
        exact ⟨fun h => ⟨h, List.pairwise_of_forall_mem_list fun _ _ y hy => h y hy⟩, And.left⟩
  have hbeside : ∀ x y : Ty, Kind.Beside (kind x) (kind y) ↔ y.isValue = false ∧
      Ty.Differ x y ∧ (isOpen x = true → isOpen y = true → overlap x y = false) := by
    intro x y
    rw [Kind.Beside, Ne, kind_eq_value_iff, Bool.not_eq_true]
    refine and_congr_right fun hy => ?_
    rw [← Bool.not_eq_true, clashes_iff]
    simp only [hy, Bool.false_eq_true, and_false, false_or, not_or, not_not, not_and,
      Bool.not_eq_true]
  rw [List.pairwise_map, List.Pairwise.iff hbeside, List.pairwise_and_iff, List.pairwise_and_iff]
  exact ⟨fun h => ⟨hvalues.1 h.values, Ty.constants_pairwise_iff.1 h.constants,
      List.pairwise_filter.1 h.disjoint⟩,
    fun h => ⟨hvalues.2 h.1, Ty.constants_pairwise_iff.2 h.2.1, List.pairwise_filter.2 h.2.2⟩⟩

theorem Proper.of_kinds {flat flat' : List Ty} (h : Proper flat)
    (hkinds : (flat'.map kind).Sublist (flat.map kind)) : Proper flat' :=
  proper_iff.2 ((proper_iff.1 h).sublist hkinds)

/-- Constituents that obey the grammar clash only with themselves. -/
theorem Proper.eq_of_clashes {flat : List Ty} (h : Proper flat) {x y : Ty} (hx : x ∈ flat)
    (hy : y ∈ flat) (hclash : (kind x).clashes (kind y) = true) : x = y := by
  have : Std.Symm fun x y : Ty => (kind x).clashes (kind y) = false :=
    ⟨fun x y h => by rw [Kind.clashes_comm, h]⟩
  have hpair : flat.Pairwise fun x y => (kind x).clashes (kind y) = false :=
    (List.pairwise_map.1 (proper_iff.1 h)).imp And.right
  by_contra hne
  rw [hpair.forall hx hy hne] at hclash
  cases hclash

theorem Proper.eq_of_overlap {flat : List Ty} (h : Proper flat) {x y : Ty} (hx : x ∈ flat)
    (hy : y ∈ flat) (hxo : isOpen x = true) (hyo : isOpen y = true)
    (hover : overlap x y = true) : x = y :=
  h.eq_of_clashes hx hy (clashes_iff.2 (Or.inr (Or.inr ⟨hxo, hyo, hover⟩)))

/-! ## Canonical forms -/

theorem sorted_canonical (t : Ty) : t.canonical.constituents.Pairwise fun a b =>
    (Ty.memberKey a).le (Ty.memberKey b) = true := by
  cases t with
  | union ms =>
      cases hf : (Ty.flat ms).any Ty.isErroneous with
      | true => rw [Ty.canonical_union_of_failed hf]; exact List.pairwise_singleton _ _
      | false => rw [Ty.constituents_canonical_union hf]; exact sortOn_pairwise _ _
  | any | var => exact List.pairwise_pair.2 rfl
  | nothing => exact .nil
  | _ => exact List.pairwise_singleton _ _

theorem not_isError_of_le {m x : Ty} (hm : m.isValue = true)
    (hle : (Ty.memberKey x).le (Ty.memberKey m) = true) : x.isError = false := by
  rw [SortKey.le_iff] at hle
  cases m <;> cases hm <;> cases x <;> simp_all [Ty.memberKey, Ty.isError]

theorem kind_canonical {t x : Ty} (hx : x ∈ t.constituents) : kind x.canonical = kind x := by
  cases x with
  | union ms => rcases Ty.member_cases hx with h | h | h <;> cases h
  | any | var => rcases Ty.member_cases hx with h | h | h <;> cases h
  | _ => rfl

theorem isValue_canonical {t x : Ty} (hx : x ∈ t.constituents) :
    x.canonical.isValue = x.isValue := by
  rw [Bool.eq_iff_iff, ← kind_eq_value_iff, ← kind_eq_value_iff, kind_canonical hx]

/-- Whether constituents clash only if they come to the same in some way. -/
def Coherent (f : Ty → Ty) (flat : List Ty) : Prop :=
  ∀ x ∈ flat, ∀ y ∈ flat, (kind x).clashes (kind y) = true → (f x == f y) = true

theorem Proper.coherent {flat : List Ty} (h : Proper flat) (f : Ty → Ty) : Coherent f flat := by
  intro x hx y hy hclash
  rw [h.eq_of_clashes hx hy hclash]
  exact BEq.rfl

/-- A canonical form obeys the grammar if constituents clash only if they are
normalised to the same. -/
theorem Coherent.canonical {t : Ty} (h : Coherent Ty.canonical t.constituents) :
    Proper t.canonical.constituents := by
  cases hf : t.failed with
  | true => rw [Ty.canonical_of_failed hf]; exact .singleton _
  | false =>
      rw [proper_iff, List.pairwise_map]
      refine (t.constituents_canonical_pairwise.and (sorted_canonical t)).imp_of_mem
        fun {x y} hx hy hxy => ?_
      obtain ⟨hne, hle⟩ := hxy
      have hclash : (kind x).clashes (kind y) = false := by
        refine Bool.eq_false_iff.2 fun hclash => ?_
        obtain ⟨xt, hxt, rfl⟩ := Ty.mem_canonical hx
        obtain ⟨yt, hyt, rfl⟩ := Ty.mem_canonical hy
        rw [kind_canonical hxt, kind_canonical hyt] at hclash
        rw [h xt hxt yt hyt hclash] at hne
        cases hne
      refine ⟨fun hyv => ?_, hclash⟩
      -- What stands before a value is a value, and the two would clash.
      have hxv : x.isValue = true := by
        rcases Ty.member_cases hx with hv | he | rfl
        · exact hv
        · rw [not_isError_of_le (kind_eq_value_iff.1 hyv) hle] at he
          cases he
        · rw [Ty.failed_eq, ← Ty.any_erroneous_canonical] at hf
          exact absurd rfl (List.any_eq_false.1 hf _ hx)
      rw [kind_eq_value_iff.2 hxv, hyv] at hclash
      cases hclash

/-- The canonical form of a type that obeys the grammar obeys it. -/
theorem Proper.canonical {t : Ty} (h : Proper t.constituents) :
    Proper t.canonical.constituents := (h.coherent _).canonical

end Grammar

end Fallible
