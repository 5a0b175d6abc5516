import Fallible.Proofs.Kinds

/-!
# A union is the least upper bound of its two sides

Whatever covers two types covers their union, and a union that obeys the grammar
covers each of its two sides.

For values the first half holds because the value part of a union is that of one
of the sides. For errors a union lists an atom of either side with the arguments
named last, but under the record named first. So an entry of the union may take
its record from one side and its arguments from the other, and then the two
records have to agree on the variances. No record takes part in the second half:
in a union that obeys the grammar everything is named once, so the union has the
value of the side, if the side has one, and every entry of the side.
-/

namespace Fallible

namespace View

/-! ## Reading one type after another -/

/-- Whether a table holds what was written to one table and then to another: what
was written last is found, and the keys are those of the two. -/
structure Above (base top all : Instantiations) : Prop where
  get : ∀ a, all.get? a = (top.get? a).or (base.get? a)
  keys : ∀ a ∈ all.keys, a ∈ base.keys ∨ a ∈ top.keys

variable {base top all : Instantiations}

theorem Above.insert (h : Above base top all) (a : Atom) (args : List Ty) :
    Above base (top.insert a args) (all.insert a args) where
  get b := by
    rw [Table.get?_insert, Table.get?_insert, h.get]
    split <;> rfl
  keys b hb := by
    cases hin : all.contains a with
    | true =>
        rw [Table.keys_insert_of_contains args hin] at hb
        exact (h.keys b hb).imp_right (Table.mem_keys_insert_of_mem args)
    | false =>
        -- What is new to the whole is new to its upper part.
        have htop : top.contains a = false := by
          rw [← Table.get?_eq_none, h.get] at hin
          rw [← Table.get?_eq_none]
          exact (Option.or_eq_none_iff.1 hin).1
        rcases Table.mem_keys_insert hb with rfl | hb
        · rw [Table.keys_insert_of_not_contains args htop]
          exact Or.inr (List.mem_append_right _ List.mem_cons_self)
        · exact (h.keys b hb).imp_right (Table.mem_keys_insert_of_mem args)

theorem Above.add {r r' : Reading} (h : Above base r.known r'.known) (m : Ty) :
    Above base (r.add .empty m).known (r'.add .empty m).known := by
  cases m with
  | errorConst c args => exact h.insert (.classifier c) args
  | errorVar x =>
      cases hx : x.flexible with
      | false => rw [add_rigid hx, add_rigid hx]; exact h.insert (.var x) []
      | true => rw [add_waiting hx rfl, add_waiting hx rfl]; exact h
  | _ => exact h

theorem Above.foldl_add {ms : List Ty} {r r' : Reading} (h : Above base r.known r'.known) :
    Above base (ms.foldl (Reading.add .empty) r).known
      (ms.foldl (Reading.add .empty) r').known := by
  induction ms generalizing r r' with
  | nil => exact h
  | cons m ms ih => exact ih (h.add m)

/-- An entry of the whole is one of a part, or it has the key of the lower part and
the value of the upper one. -/
theorem Above.entry (h : Above base top all) (hbase : base.Distinct) (htop : top.Distinct)
    (hall : all.Distinct) {e : Atom × List Ty} (he : e ∈ all.entries) :
    e ∈ base.entries ∨ e ∈ top.entries ∨
      ∃ x args, (x, e.2) ∈ top.entries ∧ (x == e.1) = true ∧ (e.1, args) ∈ base.entries := by
  have hget := h.get e.1
  rw [hall.get?_of_mem he] at hget
  rcases h.keys e.1 (List.mem_map_of_mem he) with hk | hk
  · obtain ⟨d, hd, hde⟩ := List.mem_map.1 hk
    cases ht : top.get? e.1 with
    | none =>
        rw [ht, ← hde, hbase.get?_of_mem hd] at hget
        exact Or.inl (Prod.ext hde (Option.some.inj hget).symm ▸ hd)
    | some args =>
        rw [ht] at hget
        obtain rfl : e.2 = args := Option.some.inj hget
        obtain ⟨x, hx, hxe⟩ := Table.mem_of_get? ht
        exact Or.inr (Or.inr ⟨x, d.2, hx, hxe, hde ▸ hd⟩)
  · obtain ⟨d, hd, hde⟩ := List.mem_map.1 hk
    rw [← hde, htop.get?_of_mem hd] at hget
    exact Or.inr (Or.inl (Prod.ext hde (Option.some.inj hget).symm ▸ hd))

section Sides

variable {t a b : Ty}

theorem errorPart_of_sides (h : t.constituents = a.constituents ++ b.constituents) :
    t.errorPart = a.errorPart ++ b.errorPart := by
  rw [Ty.errorPart, h, List.filter_append]
  rfl

/-- An entry of a union is one of a side, or it has the record of the first side
and the arguments of the second. -/
theorem known_of_sides (h : t.constituents = a.constituents ++ b.constituents)
    {e : Atom × List Ty} (he : e ∈ (interpretWith .empty t).known.entries) :
    e ∈ (interpretWith .empty a).known.entries ∨ e ∈ (interpretWith .empty b).known.entries ∨
      ∃ x args, (x, e.2) ∈ (interpretWith .empty b).known.entries ∧ (x == e.1) = true ∧
        (e.1, args) ∈ (interpretWith .empty a).known.entries := by
  have hdistinct : ∀ u : Ty,
      Table.Distinct (u.errorPart.foldl (Reading.add .empty) ⟨.empty, false, []⟩).known :=
    fun u => (distinct_interpretWith .empty u).of_perm (sortOn_perm _ _).symm
  have habove : Above (a.errorPart.foldl (Reading.add .empty) ⟨.empty, false, []⟩).known
      (b.errorPart.foldl (Reading.add .empty) ⟨.empty, false, []⟩).known
      (t.errorPart.foldl (Reading.add .empty) ⟨.empty, false, []⟩).known := by
    rw [errorPart_of_sides h, List.foldl_append]
    exact Above.foldl_add ⟨fun _ => rfl, fun _ hk => Or.inl hk⟩
  simp only [interpretWith, ErrorSet.ofTable, ErrorSet.mem_entries_ofEntries] at he ⊢
  exact habove.entry (hdistinct a) (hdistinct b) (hdistinct t) he

end Sides

end View

/-! ## Whatever covers both sides -/

/-- Whether the constants of two types that are of one number declare the same
variances. -/
def Ty.AgreeAtTop (a b : Ty) : Prop :=
  ∀ c ∈ Grammar.constants a.constituents, ∀ d ∈ Grammar.constants b.constituents,
    c.id = d.id → c.variances = d.variances

instance (a b : Ty) : Decidable (a.AgreeAtTop b) :=
  inferInstanceAs (Decidable (∀ c ∈ Grammar.constants a.constituents,
    ∀ d ∈ Grammar.constants b.constituents, c.id = d.id → c.variances = d.variances))

section Covered

variable {R : Ty → Ty → Prop} {t a b : Ty}

/-- Arguments are compared by the variances of the record that lists them. -/
theorem EntryCovered.of_beq {K : ErrorSet} {x y : Atom} {args : List Ty}
    (h : EntryCovered R K (x, args)) (hxy : (x == y) = true)
    (hv : ∀ i, x.variance i = y.variance i) : EntryCovered R K (y, args) := by
  cases hget : K.get? x with
  | none =>
      rw [EntryCovered, ← ErrorSet.get?_congr K hxy, hget]
      exact View.coveredByAlias_congr K hxy ▸ h.of_none hget
  | some args' =>
      rw [EntryCovered, ← ErrorSet.get?_congr K hxy, hget]
      exact (h.of_some hget).imp_right (Or.imp_right (Or.imp_right (·.congr hv)))

theorem mem_constants_of_known {c : Classifier} {args : List Ty}
    (h : (.classifier c, args) ∈ (View.interpretWith .empty t).known.entries) :
    c ∈ Grammar.constants t.constituents := by
  rcases View.stemsFrom_interpretWith _ h with ⟨x, hx⟩ | ⟨d, args', -, hd, -, hmem, -⟩
  · cases hx
  · cases hd
    exact List.mem_filterMap.2 ⟨_, (List.mem_filter.1 hmem).1, rfl⟩

theorem variance_of_agree (hagree : a.AgreeAtTop b) {x y : Atom} {xs ys : List Ty}
    (hx : (x, xs) ∈ (View.interpretWith .empty a).known.entries)
    (hy : (y, ys) ∈ (View.interpretWith .empty b).known.entries) (hxy : (y == x) = true)
    (i : Nat) : y.variance i = x.variance i := by
  cases x with
  | var v =>
      cases y with
      | var w => rfl
      | classifier d => cases hxy
  | classifier c =>
      cases y with
      | var w => cases hxy
      | classifier d =>
          have hvar := hagree c (mem_constants_of_known hx) d (mem_constants_of_known hy)
            (Classifier.beq_iff.1 hxy).symm
          show d.variances[i]?.getD .invariant = c.variances[i]?.getD .invariant
          rw [hvar]

theorem errorsHold_of_sides (h : t.constituents = a.constituents ++ b.constituents)
    (hagree : a.AgreeAtTop b) {I : Interpretation}
    (ha : ErrorsHold R I (View.interpretWith .empty a))
    (hb : ErrorsHold R I (View.interpretWith .empty b)) :
    ErrorsHold R I (View.interpretWith .empty t) := by
  rcases ha with hall | ⟨hau, hae, haf⟩
  · exact Or.inl hall
  rcases hb with hall | ⟨hbu, hbe, hbf⟩
  · exact Or.inl hall
  refine Or.inr ⟨?_, fun e he => ?_, fun x hx => ?_⟩
  · rw [View.universal_interpretWith] at hau hbu ⊢
    rw [View.errorPart_of_sides h, List.any_append, hau, hbu]
    rfl
  · rcases View.known_of_sides h he with he | he | ⟨y, args, hy, hye, hx⟩
    · exact hae e he
    · exact hbe e he
    · exact (hbe _ hy).of_beq hye (variance_of_agree hagree hx hy hye)
  · rw [View.flexible_interpretWith, View.errorPart_of_sides h, List.filterMap_append,
      List.mem_append, ← View.flexible_interpretWith, ← View.flexible_interpretWith] at hx
    exact hx.elim (haf x) (hbf x)

theorem valuePart_of_sides (h : t.constituents = a.constituents ++ b.constituents) :
    t.valuePart = a.valuePart ∨ t.valuePart = b.valuePart := by
  unfold Ty.valuePart
  rw [h, List.find?_append]
  cases a.constituents.find? fun m => m.isValue || m.isErroneous with
  | none => exact Or.inr rfl
  | some m => exact Or.inl rfl

theorem failed_of_sides (h : t.constituents = a.constituents ++ b.constituents) :
    t.failed = (a.failed || b.failed) := by
  rw [Ty.failed_eq, Ty.failed_eq, Ty.failed_eq, h, List.any_append]

theorem isSubtype_of_sides (h : t.constituents = a.constituents ++ b.constituents)
    (hagree : a.AgreeAtTop b) {c : Ty} (ha : isSubtype .classes c a = true)
    (hb : isSubtype .classes c b = true) : isSubtype .classes c t = true := by
  rw [isSubtype_iff] at ha hb ⊢
  rw [failed_of_sides h, Bool.or_eq_true]
  rcases ha with hc | haf | ⟨hav, hae⟩
  · exact Or.inl hc
  · exact Or.inr (Or.inl (Or.inl haf))
  rcases hb with hc | hbf | ⟨hbv, hbe⟩
  · exact Or.inl hc
  · exact Or.inr (Or.inl (Or.inr hbf))
  refine Or.inr (Or.inr ⟨?_, errorsHold_of_sides h hagree hae hbe⟩)
  rcases valuePart_of_sides h with hv | hv
  · exact hv ▸ hav
  · exact hv ▸ hbv

end Covered

/-! ## Each of the sides -/

section Covering

variable {R : Ty → Ty → Prop} {t u : Ty}

theorem valuePart_of_proper (h : Grammar.Proper u.constituents) (hf : u.failed = false) {m : Ty}
    (hm : m ∈ u.constituents) (hvalue : m.isValue = true) : u.valuePart = m := by
  rw [Ty.valuePart_of_not_failed hf]
  cases hfind : u.constituents.find? Ty.isValue with
  | none => exact absurd hvalue (List.find?_eq_none.1 hfind m hm)
  | some x =>
      exact h.eq_of_clashes (List.mem_of_find?_eq_some hfind) hm
        (Grammar.clashes_iff.2 (Or.inl ⟨List.find?_some hfind, hvalue⟩))

theorem valueCovers_of_sublist (h : Grammar.Proper u.constituents)
    (hsub : t.constituents.Sublist u.constituents) (hu : u.failed = false)
    (ht : t.failed = false) : ValueCovers R u.valuePart t.valuePart := by
  rw [Ty.valuePart_of_not_failed ht]
  cases hfind : t.constituents.find? Ty.isValue with
  | none => exact .nothing
  | some m =>
      rw [valuePart_of_proper h hu (hsub.subset (List.mem_of_find?_eq_some hfind))
        (List.find?_some hfind)]
      exact .same BEq.rfl

/-- A variable is covered if it is known or the alias that bounds it is. -/
theorem entryCovered_var {x : ErrorVar} {args : List Ty}
    (h : View.leaves (View.interpretWith .empty u).known (.var x) = false) :
    EntryCovered R (View.interpretWith .empty u).known (.var x, args) := by
  rw [View.leaves_eq_false] at h
  cases hget : (View.interpretWith .empty u).known.get? (.var x) with
  | some args' =>
      rw [EntryCovered, hget]
      exact Or.inl (known_var hget)
  | none =>
      rw [EntryCovered, hget]
      rw [← ErrorSet.isSome_get?, hget] at h
      exact h.resolve_left Bool.false_ne_true

/-- Whoever has the error constituents of a type covers its errors. In the place of a
rigid variable, the alias that bounds it will do. -/
theorem errorsHold_of_errorPart (ht : t.Unrepeated) (hu : u.Unrepeated)
    (h : ∀ m ∈ t.errorPart, m ∈ u.errorPart ∨ ∃ x, m = .errorVar x ∧ x.flexible = false ∧
      View.coveredByAlias (View.interpretWith .empty u).known (.var x) = true) :
    ErrorsHold R (View.interpretWith .empty u) (View.interpretWith .empty t) := by
  cases huniversal : (View.interpretWith .empty u).known.universal with
  | true => exact Or.inl huniversal
  | false =>
      refine Or.inr ⟨?_, ?_, fun x hx => ?_⟩
      · rw [View.universal_interpretWith, List.any_eq_false] at huniversal ⊢
        intro m hm hall
        rcases h m hm with hin | ⟨x, rfl, hx, -⟩
        · exact huniversal m hin hall
        · simp [Ty.yieldsAll, hx] at hall
      · rintro ⟨a, args⟩ he
        cases a with
        | classifier c =>
            rcases h _ (List.mem_filter.2 ⟨ht.mem_known.1 he, rfl⟩) with hin | ⟨x, hx, -⟩
            · have hget := (View.distinct_interpretWith .empty u).get?_of_mem
                (hu.mem_known.2 (List.mem_filter.1 hin).1)
              rw [EntryCovered, hget]
              exact Or.inr (Or.inr (Or.inl BEq.rfl))
            · cases hx
        | var x =>
            have hknown := ErrorSet.contains_of_mem he
            rw [View.contains_interpretWith, List.any_eq_true] at hknown
            obtain ⟨m, hm, hyields⟩ := hknown
            refine entryCovered_var (View.leaves_eq_false.2 ?_)
            rcases h m hm with hin | ⟨y, rfl, hy, hcovered⟩
            · refine Or.inl ?_
              rw [View.contains_interpretWith]
              exact List.any_eq_true.2 ⟨m, hin, hyields⟩
            · have hyx : (Atom.var y == .var x) = true := by simpa [Ty.yields, hy] using hyields
              exact Or.inr (View.coveredByAlias_congr _ hyx ▸ hcovered)
      · rw [View.flexible_interpretWith] at hx ⊢
        obtain ⟨m, hm, hmx⟩ := List.mem_filterMap.1 hx
        rcases h m hm with hin | ⟨y, rfl, hy, -⟩
        · exact List.contains_iff_exists_mem_beq.2 ⟨x, List.mem_filterMap.2 ⟨m, hin, hmx⟩, BEq.rfl⟩
        · simp [Ty.waiting?, hy] at hmx

/-- A type that obeys the grammar covers what is left when constituents are dropped. -/
theorem isSubtype_of_sublist (h : Grammar.Proper u.constituents)
    (hsub : t.constituents.Sublist u.constituents) : isSubtype .classes u t = true := by
  rw [isSubtype_iff]
  cases hu : u.failed with
  | true => exact Or.inl rfl
  | false =>
      cases ht : t.failed with
      | true => exact Or.inr (Or.inl rfl)
      | false =>
          refine Or.inr (Or.inr ⟨valueCovers_of_sublist h hsub hu ht, ?_⟩)
          exact errorsHold_of_errorPart (h.of_kinds (hsub.map _)).constants h.constants
            fun m hm => Or.inl ((hsub.filter _).subset hm)

end Covering

/-! ## The main statement -/

theorem constituents_unionOf_pair (a b : Ty) :
    (Ty.unionOf [a, b]).constituents = a.constituents ++ b.constituents := by
  rw [Ty.constituents_unionOf, Ty.constituentsAll_eq_flatMap]
  simp

/-- The union of two types is their least upper bound. It is below whatever covers
both, if the constants on its two sides agree on their variances, and above both
if it obeys the grammar. -/
theorem unionOf_isLeast_upperBound (a b : Ty) :
    (a.AgreeAtTop b → ∀ c, isSubtype .classes c a = true → isSubtype .classes c b = true →
      isSubtype .classes c (.unionOf [a, b]) = true) ∧
    (Grammar.isWellFormed [a, b] = true →
      isSubtype .classes (.unionOf [a, b]) a = true ∧
        isSubtype .classes (.unionOf [a, b]) b = true) := by
  have hsides := constituents_unionOf_pair a b
  refine ⟨fun hagree c ha hb => isSubtype_of_sides hsides hagree ha hb, fun hwell => ?_⟩
  have hproper : Grammar.Proper (Ty.unionOf [a, b]).constituents := by
    rw [Ty.constituents_unionOf]
    exact Grammar.check_eq_none_iff.1 (Option.isNone_iff_eq_none.1 hwell)
  constructor
  · exact isSubtype_of_sublist hproper (hsides ▸ List.sublist_append_left _ _)
  · exact isSubtype_of_sublist hproper (hsides ▸ List.sublist_append_right _ _)

/-- A whole number, or a failure that carries a truth value. -/
def countOrRefusal : Ty := .union [.con (.host .int) [], loneError .covariant .bool]

/-- A flexible variable without bound. -/
def openError : Ty := .errorVar ⟨"E", .unbounded, true⟩

/-- The least upper bound of a type with arguments and a flexible variable, below a
type that has more of both. -/
theorem unionOf_countOrRefusal_openError :
    isSubtype .classes (.union [.con (.host .object) [], loneError .covariant .int, openError])
        (.unionOf [countOrRefusal, openError]) = true ∧
      isSubtype .classes (.unionOf [countOrRefusal, openError]) countOrRefusal = true ∧
        isSubtype .classes (.unionOf [countOrRefusal, openError]) openError = true :=
  have h := unionOf_isLeast_upperBound countOrRefusal openError
  ⟨h.1 (by decide) _ (by decide) (by decide), h.2 (by decide)⟩

/-- Without agreement on variances a union can exceed what covers both of its sides:
it reads the arguments of the one by the record of the other. -/
theorem not_isSubtype_unionOf_of_two_records :
    ¬ ∀ a b c, (∀ t ∈ Ty.subtermsAll [a, b, c], t.isErroneous = false) →
      isSubtype .classes c a = true → isSubtype .classes c b = true →
      isSubtype .classes c (.unionOf [a, b]) = true := by
  intro h
  have hc := h (loneError .contravariant .object) (loneError .covariant .bool)
    (loneError .contravariant .int) (by decide) (by decide) (by decide)
  exact absurd hc (by decide)

end Fallible
