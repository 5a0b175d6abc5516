import Fallible.Proofs.Extensionality
import Fallible.Proofs.GraftedForms
import Fallible.Proofs.Normalising
import Fallible.Proofs.Reassembly

/-!
# Error sets and the unions that spell them

A set of errors can be written out as the members of a union, and the errors that a
type is written with form a set. A union member shows a classifier with its arguments
and a variable without any, so a set comes back from its members exactly if its
variables have no arguments. It comes back as it was, because the members are in the
order of the set, and the places of members and of atoms are ordered alike.

The other way round, the set drops what is written twice and puts the rest in order.
A canonical form does both, so the errors of a type have one canonical form before and
after, provided that no classifier is named twice: the set would keep one of the two.
-/

namespace Fallible

theorem distinct_snoc {α : Type} [BEq α] (xs : List α) (x : α) : distinct (xs ++ [x]) =
    if xs.any fun y => y == x then distinct xs else distinct xs ++ [x] := by
  rw [distinct_append, show distinct [x] = [x] from rfl, List.filter_cons]
  cases xs.any fun y => y == x <;> simp

/-- What is the same stays the same, so repetitions can be dropped before a map. -/
theorem distinct_map_distinct {α β : Type} [BEq α] [BEq β] [EquivBEq β] {f : α → β}
    (hf : ∀ x y, (x == y) = true → (f x == f y) = true) (xs : List α) :
    distinct ((distinct xs).map f) = distinct (xs.map f) := by
  induction xs with
  | nil => rfl
  | cons x xs ih =>
      have hrespects : ∀ y z : β, (y == z) = true → (!(f x == y)) = !(f x == z) :=
        fun y z hyz => by rw [BEq.congr_right hyz]
      rw [List.map_cons, distinct, List.map_cons, distinct, distinct, ← ih,
        filter_distinct hrespects, filter_distinct hrespects, List.filter_map, List.filter_map,
        List.filter_filter]
      congr 3
      refine List.filter_congr fun y _ => ?_
      cases hxy : x == y with
      | false => simp
      | true => simp [hf x y hxy]

theorem distinct_eq_nil {α : Type} [BEq α] {xs : List α} : distinct xs = [] ↔ xs = [] := by
  cases xs <;> simp [distinct]

/-- Of the same element repeated, one is left. -/
theorem distinct_of_forall_eq {α : Type} [BEq α] [ReflBEq α] {x : α} {ys : List α}
    (h : ∀ y ∈ ys, y = x) : distinct ys = if ys.isEmpty then [] else [x] := by
  cases ys with
  | nil => rfl
  | cons y ys =>
      obtain rfl := h y List.mem_cons_self
      have hrest : (distinct ys).filter (fun z => !(y == z)) = [] := by
        refine List.filter_eq_nil_iff.2 fun z hz => ?_
        rw [h z (List.mem_cons_of_mem y ((distinct_sublist ys).subset hz)), BEq.rfl]
        exact Bool.false_ne_true
      rw [distinct, hrest]
      rfl

namespace Ty

/-- The entry that an error constituent adds to a set. `Error` adds none. -/
def entryOf? : Ty → Option (Atom × List Ty)
  | .errorConst c args => some (.classifier c, args)
  | .errorVar v => some (.var v, [])
  | _ => none

/-- Whether the type is `Error`. -/
def isTop : Ty → Bool
  | .error => true
  | _ => false

theorem toMember_of_entryOf? {m : Ty} {e : Atom × List Ty} (h : m.entryOf? = some e) :
    e.1.toMember e.2 = m := by
  cases m <;> cases h <;> rfl

theorem beq_of_entryOf? {x y : Ty} {d e : Atom × List Ty} (hx : x.entryOf? = some d)
    (hy : y.entryOf? = some e) : (x == y) = (d == e) := by
  rw [Bool.eq_iff_iff, beq_iff, beq_entry_iff]
  cases x <;> cases hx <;> cases y <;> cases hy <;>
    simp [bare, bareAll_eq_map, bareEntry, Atom.bare]

end Ty

/-- The arguments of an atom that a union member shows. A variable shows none. -/
def Atom.shown : Atom → List Ty → List Ty
  | .classifier _, args => args
  | .var _, _ => []

namespace ErrorSet

/-! ## Reading a set off a list of errors -/

theorem foldl_addMember (ms : List Ty) : ∀ acc : Instantiations × Bool,
    ms.foldl addMember acc =
      (acc.1.insertAll (ms.filterMap Ty.entryOf?), acc.2 || ms.any Ty.isTop) := by
  induction ms with
  | nil => intro acc; simp [Table.insertAll]
  | cons m ms ih =>
      intro acc
      rw [List.foldl_cons, ih]
      cases m <;> simp [addMember, List.filterMap_cons, Ty.entryOf?, Ty.isTop, Table.insertAll]

theorem ofTy_eq (t : Ty) : ofTy t =
    ofTable (.ofList (t.errorPart.filterMap Ty.entryOf?)) (t.errorPart.any Ty.isTop) := by
  rw [ofTy, foldl_addMember]
  rfl

/-! ## A set from its members -/

theorem entryOf?_toMember (a : Atom) (args : List Ty) :
    (a.toMember args).entryOf? = some (a, a.shown args) := by
  cases a <;> rfl

theorem filterMap_entryOf?_members (s : ErrorSet) :
    s.members.filterMap Ty.entryOf? = s.entries.map fun e => (e.1, e.1.shown e.2) := by
  have htop : ((if s.universal then [Ty.error] else []).filterMap Ty.entryOf?) = [] := by
    cases s.universal <;> rfl
  rw [members, List.filterMap_append, htop, List.append_nil, List.filterMap_map]
  exact List.filterMap_eq_map' ▸ List.filterMap_congr fun e _ => entryOf?_toMember e.1 e.2

theorem any_isTop_members (s : ErrorSet) : s.members.any Ty.isTop = s.universal := by
  have hnone : (s.entries.map fun e => e.1.toMember e.2).any Ty.isTop = false := by
    refine List.any_eq_false.2 fun m hm => ?_
    obtain ⟨⟨a, args⟩, -, rfl⟩ := List.mem_map.1 hm
    cases a <;> exact Bool.false_ne_true
  rw [members, List.any_append, hnone]
  cases s.universal <;> rfl

theorem errorPart_members {s : ErrorSet} {m : Ty} (hm : m ∈ s.members) : m.errorPart = [m] := by
  rcases List.mem_append.1 hm with hm | hm
  · obtain ⟨⟨a, args⟩, -, rfl⟩ := List.mem_map.1 hm
    cases a <;> rfl
  · split at hm
    · rw [List.mem_singleton.1 hm]; rfl
    · cases hm

theorem errorPart_union_members (s : ErrorSet) : (Ty.union s.members).errorPart = s.members := by
  rw [View.errorPart_union, List.flatMap_congr fun m hm => errorPart_members hm]
  simp

/-- What comes back of a set: everything but arguments of variables. -/
theorem ofTy_union_members {s : ErrorSet} (hs : s.Distinct) :
    (ofTy (.union s.members)).entries = (s.entries.map fun e => (e.1, e.1.shown e.2)) ∧
      (ofTy (.union s.members)).universal = s.universal := by
  rw [ofTy_eq, errorPart_union_members, filterMap_entryOf?_members, any_isTop_members]
  have hkeys : (Table.mk (s.entries.map fun e => (e.1, e.1.shown e.2))).Distinct := by
    rw [Table.Distinct, Table.keys, List.map_map]
    exact hs
  rw [Table.ofList_of_distinct hkeys]
  exact ⟨sortOn_of_pairwise (List.pairwise_map.2 s.sorted), rfl⟩

theorem ofTy_union_members_eq_iff {s : ErrorSet} (hs : s.Distinct) :
    ofTy (.union s.members) = s ↔ ∀ v args, (.var v, args) ∈ s.entries → args = [] := by
  obtain ⟨hentries, huniversal⟩ := ofTy_union_members hs
  constructor
  · intro h v args hv
    rw [h] at hentries
    have hshown := List.map_inj_left.1 (hentries.symm.trans (List.map_id _).symm) _ hv
    exact (congrArg Prod.snd hshown).symm
  · intro hvars
    have hself : (s.entries.map fun e => (e.1, e.1.shown e.2)) = s.entries := by
      refine (List.map_congr_left fun e he => ?_).trans (List.map_id _)
      obtain ⟨a, args⟩ := e
      cases a with
      | classifier c => rfl
      | var v => rw [hvars v args he]; rfl
    rw [hself] at hentries
    generalize ofTy (.union s.members) = s' at hentries huniversal ⊢
    cases s
    cases s'
    cases hentries
    cases huniversal
    rfl

/-! ## A list of errors from its set -/

/-- Whether errors that are the same atom have the same arguments. -/
def Single (ms : List Ty) : Prop :=
  ∀ x ∈ ms, ∀ y ∈ ms, ∀ d e, x.entryOf? = some d → y.entryOf? = some e →
    (d.1 == e.1) = true → d.2 = e.2

theorem single_errorPart {t : Ty} (h : t.Unrepeated) : Single t.errorPart := by
  intro x hx y hy d e hd he hde
  have hx := (List.mem_filter.1 hx).1
  have hy := (List.mem_filter.1 hy).1
  cases x with
  | errorConst c as =>
      cases hd
      cases y with
      | errorConst c' bs =>
          cases he
          cases h.eq hx hy (Classifier.beq_iff.1 hde)
          rfl
      | errorVar w => cases he; cases hde
      | _ => cases he
  | errorVar v =>
      cases hd
      cases y with
      | errorConst c' bs => cases he; cases hde
      | errorVar w => cases he; rfl
      | _ => cases he
  | _ => cases hd

/-- An error is among others exactly if its atom is in their set. -/
theorem contains_ofList_eq_any {ms : List Ty} {m : Ty} {e : Atom × List Ty}
    (hm : m.entryOf? = some e) (h : Single (ms ++ [m])) :
    (Table.ofList (ms.filterMap Ty.entryOf?)).contains e.1 =
      (ms.filter fun x => x.entryOf?.isSome).any fun x => x == m := by
  rw [Table.contains_ofList, List.any_filterMap, List.any_filter]
  refine any_congr_mem fun x hx => ?_
  cases hd : x.entryOf? with
  | none => rfl
  | some d =>
      have hargs := h x (List.mem_append_left _ hx) m (by simp) d e hd hm
      rw [Ty.beq_of_entryOf? hd hm]
      show (d.1 == e.1) = (d.1 == e.1 && d.2 == e.2)
      cases hde : d.1 == e.1 with
      | false => rfl
      | true => rw [hargs hde, BEq.rfl]; rfl

/-- A set takes up each error at its first mention. -/
theorem map_toMember_ofList {ms : List Ty} (h : Single ms) :
    ((Table.ofList (ms.filterMap Ty.entryOf?)).entries.map fun e => e.1.toMember e.2) =
      distinct (ms.filter fun m => m.entryOf?.isSome) := by
  induction ms using List.reverseRecOn with
  | nil => rfl
  | append_singleton ms m ih =>
      have ih := ih fun x hx y hy => h x (List.mem_append_left _ hx) y (List.mem_append_left _ hy)
      rw [List.filterMap_append, List.filter_append]
      cases hm : m.entryOf? with
      | none => simpa [List.filterMap_cons, hm] using ih
      | some e =>
          have hadd : Table.ofList (ms.filterMap Ty.entryOf? ++ [m].filterMap Ty.entryOf?) =
              (Table.ofList (ms.filterMap Ty.entryOf?)).insert e.1 e.2 := by
            rw [List.filterMap_cons, hm, Table.ofList, Table.insertAll, List.foldl_append]
            rfl
          rw [hadd, List.filter_cons_of_pos (by rw [hm]; rfl), List.filter_nil, distinct_snoc,
            ← contains_ofList_eq_any hm h, ← ih]
          cases hin : (Table.ofList (ms.filterMap Ty.entryOf?)).contains e.1 with
          | false =>
              rw [Table.insert_of_not_contains _ hin, List.map_append]
              exact congrArg _ (congrArg (· :: []) (Ty.toMember_of_entryOf? hm))
          | true =>
              obtain ⟨args, hget⟩ := Table.get?_of_contains hin
              obtain ⟨a, ha, hae⟩ := Table.mem_of_get?_ofList hget
              obtain ⟨x, hx, hxa⟩ := List.mem_filterMap.1 ha
              obtain rfl : args = e.2 :=
                h x (List.mem_append_left _ hx) m (by simp) _ e hxa hm hae
              rw [Table.insert_of_get? hget]
              rfl

theorem members_ofTy {t : Ty} (h : t.Unrepeated) : (ofTy t).members =
    sortOn Ty.memberKey (distinct (t.errorPart.filter fun m => m.entryOf?.isSome)) ++
      if t.errorPart.any Ty.isTop then [.error] else [] := by
  have hkey : ∀ d e : Atom × List Ty, (Ty.memberKey (d.1.toMember d.2)).le
      (Ty.memberKey (e.1.toMember e.2)) = d.1.key.le e.1.key := by
    rintro ⟨a, xs⟩ ⟨b, ys⟩
    cases a <;> cases b <;> rfl
  rw [ofTy_eq, members, ← map_toMember_ofList (single_errorPart h)]
  exact congrArg (· ++ _) (map_sortOn hkey _)

end ErrorSet

namespace Ty

/-! ## Canonical forms -/

theorem canonical_beq {x y : Ty} (h : (x == y) = true) : (x.canonical == y.canonical) = true := by
  rw [beq_iff_respell] at h ⊢
  rw [← canonical_respell, h, canonical_respell]

/-- Putting errors in order before they are normalised changes no key's members. -/
theorem distinct_canonical_listed {t : Ty} {xs : List Ty} (hxs : ∀ m ∈ xs, m ∈ t.errorPart)
    (k : SortKey) :
    distinct (((sortOn memberKey (distinct xs)).map canonical).filter
        fun m => decide (memberKey m = k)) =
      distinct ((xs.map canonical).filter fun m => decide (memberKey m = k)) := by
  have hkey : ∀ m ∈ xs, decide (memberKey m.canonical = k) = decide (memberKey m = k) :=
    fun m hm => by rw [memberKey_canonical (hxs m hm)]
  have hsort := List.filter_congr fun m hm =>
    hkey m ((distinct_sublist xs).subset ((sortOn_perm memberKey _).mem_iff.1 hm))
  rw [List.filter_map, List.filter_map]
  calc distinct (((sortOn memberKey (distinct xs)).filter _).map canonical)
      = distinct (((sortOn memberKey (distinct xs)).filter
          fun m => decide (memberKey m = k)).map canonical) := congrArg _ (congrArg _ hsort)
    _ = distinct ((distinct (xs.filter fun m => decide (memberKey m = k))).map canonical) := by
        rw [filter_sortOn, filter_key_distinct]
    _ = distinct ((xs.filter fun m => decide (memberKey m = k)).map canonical) :=
        distinct_map_distinct (fun _ _ => canonical_beq) _
    _ = _ := congrArg _ (congrArg _ (List.filter_congr hkey).symm)

theorem constituents_union_of_errors {ms : List Ty} (h : ∀ m ∈ ms, m.isError = true) :
    (Ty.union ms).constituents = ms :=
  constituentsAll_of_listed fun m hm => constituents_of_single (Or.inr (h m hm))

/-- The place of `Error` in a listing, which is the last. -/
def topKey : SortKey := memberKey .error

theorem memberKey_eq_topKey_iff {m : Ty} : memberKey m = topKey ↔ m.isTop = true := by
  cases m <;> simp [memberKey, topKey, isTop]

theorem isTop_canonical {t m : Ty} (hm : m ∈ t.errorPart) : m.canonical.isTop = m.isTop := by
  rw [Bool.eq_iff_iff, ← memberKey_eq_topKey_iff, memberKey_canonical hm, memberKey_eq_topKey_iff]

theorem isSome_entryOf? {t m : Ty} (hm : m ∈ t.errorPart) : m.entryOf?.isSome = !m.isTop := by
  have hm := (List.mem_filter.1 hm).2
  cases m <;> first | rfl | cases hm

/-- The errors that add an entry are those that are not listed last. -/
theorem filter_entries (t : Ty) (k : SortKey) :
    (((t.errorPart.filter fun m => m.entryOf?.isSome).map canonical).filter
        fun m => decide (memberKey m = k)) =
      if k = topKey then []
      else (t.errorPart.map canonical).filter fun m => decide (memberKey m = k) := by
  rw [List.filter_map, List.filter_filter, List.filter_map]
  split
  · next hk =>
      refine List.map_eq_nil_iff.2 (List.filter_eq_nil_iff.2 fun m hm => ?_)
      rw [Function.comp_apply, hk, isSome_entryOf? hm, memberKey_canonical hm]
      simp [memberKey_eq_topKey_iff]
  · next hk =>
      refine congrArg _ (List.filter_congr fun m hm => ?_)
      rw [Function.comp_apply, isSome_entryOf? hm, memberKey_canonical hm]
      cases htop : m.isTop with
      | false => simp
      | true =>
          rw [memberKey_eq_topKey_iff.2 htop]
          simp [Ne.symm hk]

/-- The errors that are listed last are `Error`, once if at all. -/
theorem distinct_filter_topKey (t : Ty) :
    distinct ((t.errorPart.map canonical).filter fun m => decide (memberKey m = topKey)) =
      if t.errorPart.any isTop then [.error] else [] := by
  rw [distinct_of_forall_eq (x := .error)]
  · have hempty : ((t.errorPart.map canonical).filter
        fun m => decide (memberKey m = topKey)).isEmpty = !t.errorPart.any isTop := by
      rw [Bool.eq_iff_iff, List.isEmpty_iff, List.filter_eq_nil_iff, Bool.not_eq_true',
        List.any_eq_false, List.forall_mem_map]
      refine forall₂_congr fun m hm => not_congr ?_
      rw [decide_eq_true_iff, memberKey_eq_topKey_iff, isTop_canonical hm]
    rw [hempty]
    cases t.errorPart.any isTop <;> rfl
  · intro m hm
    have hm := memberKey_eq_topKey_iff.1 (of_decide_eq_true (List.mem_filter.1 hm).2)
    cases m <;> first | rfl | cases hm

/-- The set of a type's errors has the canonical form of the errors. -/
theorem canonical_members_ofTy {t : Ty} (h : t.Unrepeated) :
    (Ty.union (ErrorSet.ofTy t).members).canonical = (Ty.union t.errorPart).canonical := by
  have herrors : ∀ m ∈ t.errorPart, m.isError = true := fun m hm => (List.mem_filter.1 hm).2
  have hmembers : ∀ m ∈ (ErrorSet.ofTy t).members, m.isError = true := by
    intro m hm
    have hself : m ∈ m.errorPart := ErrorSet.errorPart_members hm ▸ List.mem_singleton_self m
    exact (List.mem_filter.1 hself).2
  rw [canonical_union, canonical_union, constituents_union_of_errors hmembers,
    constituents_union_of_errors herrors, ErrorSet.members_ofTy h]
  refine ofConstituents_congr fun k => ?_
  rw [List.map_append, List.filter_append]
  have hlisted : ∀ m ∈ t.errorPart.filter (fun m => m.entryOf?.isSome), m ∈ t.errorPart :=
    fun m hm => (List.mem_filter.1 hm).1
  by_cases hk : k = topKey
  · subst hk
    have hnone := distinct_canonical_listed hlisted topKey
    rw [filter_entries, if_pos rfl] at hnone
    rw [distinct_eq_nil.1 hnone, List.nil_append, distinct_filter_topKey]
    cases t.errorPart.any isTop <;> rfl
  · have hnone : ((if t.errorPart.any isTop then [Ty.error] else []).map canonical).filter
        (fun m => decide (memberKey m = k)) = [] := by
      cases t.errorPart.any isTop with
      | false => rfl
      | true => exact List.filter_cons_of_neg fun h => hk (of_decide_eq_true h).symm
    rw [hnone, List.append_nil, distinct_canonical_listed hlisted, filter_entries, if_neg hk]

end Ty

namespace ErrorSet

/-- A set made from a map comes back from its members exactly if no variable has
arguments, and the errors of a type that names no classifier twice are normalised
alike before and after they are made into a set. -/
theorem errors_convert_back {t : Instantiations} (ht : t.Distinct) (universal : Bool) {u : Ty}
    (hu : u.Unrepeated) :
    (ofTy (.union (ofTable t universal).members) = ofTable t universal ↔
      ∀ v args, (.var v, args) ∈ t.entries → args = []) ∧
    (Ty.union (ofTy u).members).canonical = (Ty.union u.errorPart).canonical := by
  refine ⟨?_, Ty.canonical_members_ofTy hu⟩
  rw [ofTy_union_members_eq_iff (distinct_ofTable ht universal)]
  exact forall₂_congr fun v args => imp_congr_left mem_entries_ofEntries

/-- Errors out of order and repeated: two variables of one name, one of them twice, around
`Error`, a type variable and a classifier. -/
def tangledErrors : Ty :=
  .union [.errorVar ⟨"E", .unbounded, true⟩, .any, .errorVar ⟨"E", .unbounded, false⟩,
    .union [.errorConst ⟨0, [], "A", [.covariant], some 0⟩ [.union [.value, .nothing]],
      .errorVar ⟨"E", .unbounded, true⟩, .var "T" false]]

theorem tangledErrors_convert_back :
    Table.Distinct ⟨[homonym true, withArgument, homonym false]⟩ ∧ tangledErrors.Unrepeated ∧
      ofTy (.union (ofTable ⟨[homonym true, withArgument, homonym false]⟩ true).members) =
        ofTable ⟨[homonym true, withArgument, homonym false]⟩ true ∧
      (Ty.union (ofTy tangledErrors).members).canonical =
        (Ty.union tangledErrors.errorPart).canonical := by
  have hdistinct : Table.Distinct ⟨[homonym true, withArgument, homonym false]⟩ := by
    unfold Table.Distinct
    decide
  have hunrepeated : tangledErrors.Unrepeated := by decide
  obtain ⟨hset, hcanonical⟩ := errors_convert_back hdistinct true hunrepeated
  refine ⟨hdistinct, hunrepeated, hset.2 fun v args hv => ?_, hcanonical⟩
  simp only [homonym, withArgument, List.mem_cons, Prod.mk.injEq, List.not_mem_nil, or_false,
    reduceCtorEq, false_and, false_or] at hv
  exact hv.elim And.right And.right

/-- Of a classifier that is named twice, the set keeps the arguments named last. -/
example :
    let c : Classifier := ⟨0, [], "A", [.covariant], some 0⟩
    let t : Ty := .union [.errorConst c [.value], .errorConst c [.any]]
    (Ty.union (ofTy t).members).canonical = .errorConst c [.any] ∧
      (Ty.union t.errorPart).canonical = t :=
  ⟨rfl, rfl⟩

end ErrorSet

end Fallible
