import Fallible.Proofs.Kinds
import Fallible.Proofs.Reopening
import Fallible.Proofs.Resolution

/-!
# A type put together again

A type is taken apart into its value part and the set of its errors, and put
together again as the union of the two. What comes out obeys the grammar if the
type does, and covers the type and is covered by it.

It is the type itself, normalised, but for two things. A set that holds `Error`
is spelled out as `Error` alone, so what stood beside it is gone. And a variable
that is bounded by an empty alias holds nothing, so no set has to receive it.
-/

namespace Fallible

namespace Grammar

/-- Two spellings of one variable overlap, unless it can hold nothing. -/
theorem overlap_of_beq {v w : ErrorVar} (h : (v == w) = true)
    (hv : View.coveredByAlias .empty (.var v) = false) :
    overlap (.errorVar v) (.errorVar w) = true := by
  have hbound : v.bound.bare = w.bound.bare :=
    congrArg ErrorVar.bound (ErrorVar.beq_iff_bare.1 h)
  rw [overlap, universeOf, universeOf, ← Universe.overlaps_bare, ← hbound, Universe.overlaps_bare]
  cases hv' : v.bound with
  | unbounded => rfl
  | bounded a =>
      rw [View.coveredByAlias, hv'] at hv
      obtain ⟨c, hc, -⟩ := List.all_eq_false.1 hv
      exact List.any_eq_true.2 ⟨c, hc, List.contains_iff_exists_mem_beq.2 ⟨c, hc, BEq.rfl⟩⟩

theorem not_isOpen_of_isValue {m : Ty} (h : m.isValue = true) : isOpen m = false := by
  cases m <;> first | rfl | cases h

end Grammar

/-! ## The errors of a type as a set -/

namespace View

/-- A variable is known if it stands in the type, as it stands there. -/
theorem errorVar_of_known {t : Ty} {x : ErrorVar} {args : List Ty}
    (h : (.var x, args) ∈ (interpretWith .empty t).known.entries) :
    .errorVar x ∈ t.errorPart := by
  have hfold : ∀ (ms : List Ty) (r : Reading), (∀ m ∈ ms, m ∈ t.errorPart) →
      (.var x ∈ r.known.keys → .errorVar x ∈ t.errorPart) →
      .var x ∈ (ms.foldl (Reading.add .empty) r).known.keys → .errorVar x ∈ t.errorPart := by
    intro ms
    induction ms with
    | nil => exact fun _ _ hr => hr
    | cons m ms ih =>
        intro r hms hr
        refine ih _ (fun y hy => hms y (by simp [hy])) fun hx => ?_
        cases m with
        | errorConst c args =>
            rcases Table.mem_keys_insert hx with heq | hx
            · cases heq
            · exact hr hx
        | errorVar y =>
            cases hy : y.flexible with
            | false =>
                rw [add_rigid hy] at hx
                rcases Table.mem_keys_insert hx with heq | hx
                · cases heq
                  exact hms _ (by simp)
                · exact hr hx
            | true => rw [add_waiting hy rfl] at hx; exact hr hx
        | _ => exact hr hx
  refine hfold t.errorPart ⟨.empty, false, []⟩ (fun _ h => h) nofun ?_
  exact List.mem_map_of_mem (ErrorSet.mem_entries_ofEntries.1 h)

end View

namespace Ty

/-- What a set without atoms has to receive to cover the errors of a type. A
variable bounded by an empty alias is covered as it is. -/
def received (t : Ty) : ErrorSet :=
  ⟨(View.interpretWith .empty t).known.entries.filter fun e => View.leaves .empty e.1,
    (View.interpretWith .empty t).known.universal,
    (View.interpretWith .empty t).known.sorted.filter _⟩

/-- A type put together from its value part and the set of its errors. -/
def reassembled (t : Ty) : Ty := .union [t.valuePart, Solution.image t.received]

end Ty

namespace Ty

/-- Whether two errors are different atoms. -/
def Unlike (x y : Ty) : Prop := Differ x y ∧ (x == y) = false

theorem Unlike.ne {x y : Ty} (h : Unlike x y) : x ≠ y := by
  rintro rfl
  rw [Unlike, BEq.rfl] at h
  cases h.2

theorem unlike_toMember {a b : Atom} {xs ys : List Ty} :
    Unlike (a.toMember xs) (b.toMember ys) ↔ (a == b) = false := by
  cases a with
  | classifier c =>
      cases b with
      | classifier d =>
          constructor
          · exact fun h => Bool.eq_false_iff.2 fun hcd =>
              h.1 c xs rfl d ys rfl (Classifier.beq_iff.1 hcd)
          · intro hne
            have hid : c.id ≠ d.id := fun h => Bool.false_ne_true
              (hne.symm.trans (Classifier.beq_iff.2 h))
            refine ⟨fun c' _ hc d' _ hd => ?_, Bool.eq_false_iff.2 fun h => ?_⟩
            · cases hc
              cases hd
              exact hid
            · exact hid (SortKey.mk.inj (memberKey_congr h)).2.1
      | var y => exact ⟨fun _ => rfl, fun _ => ⟨fun _ _ _ _ _ h => Ty.noConfusion h, rfl⟩⟩
  | var x =>
      cases b with
      | classifier d => exact ⟨fun _ => rfl, fun _ => ⟨fun _ _ h => Ty.noConfusion h, rfl⟩⟩
      | var y =>
          have hbeq := Solution.beq_errorVar x y
          exact ⟨fun h => hbeq.symm.trans h.2,
            fun h => ⟨fun _ _ h => Ty.noConfusion h, hbeq.trans h⟩⟩

section Received

variable {t : Ty}

theorem received_universal (hc : t.Closed) : t.received.universal = true ↔
    .error ∈ t.constituents := hc.universal_iff

theorem mem_received {e : Atom × List Ty} : e ∈ t.received.entries ↔
    e ∈ (View.interpretWith .empty t).known.entries ∧ View.leaves .empty e.1 = true :=
  List.mem_filter

theorem distinct_received (t : Ty) : t.received.Distinct :=
  List.Pairwise.sublist (List.filter_sublist.map Prod.fst) (View.distinct_interpretWith .empty t)

/-- What the set spells out stands in the type, unless it is `Error` alone. -/
theorem mem_of_mem_image (hc : t.Closed) (hn : t.Unrepeated) {m : Ty}
    (hm : m ∈ (Solution.image t.received).constituents) : m ∈ t.constituents := by
  cases hu : t.received.universal with
  | true =>
      rw [Solution.image, hu, if_pos rfl] at hm
      obtain rfl := List.mem_singleton.1 hm
      exact (received_universal hc).1 hu
  | false =>
      rw [Solution.constituents_image hu] at hm
      obtain ⟨⟨atom, args⟩, he, rfl⟩ := List.mem_map.1 hm
      obtain ⟨hknown, -⟩ := mem_received.1 he
      cases atom with
      | classifier c => exact hn.mem_known.1 hknown
      | var x => exact (List.mem_filter.1 (View.errorVar_of_known hknown)).1

theorem errorConst_mem_image (hc : t.Closed) (hn : t.Unrepeated) (hu : .error ∉ t.constituents)
    {c : Classifier} {args : List Ty} (h : .errorConst c args ∈ t.constituents) :
    .errorConst c args ∈ (Solution.image t.received).constituents := by
  rw [Solution.constituents_image (Bool.eq_false_iff.2 fun h => hu ((received_universal hc).1 h))]
  exact List.mem_map.2 ⟨_, mem_received.2 ⟨hn.mem_known.2 h, rfl⟩, rfl⟩

theorem errorVar_mem_image (hc : t.Closed) (hu : .error ∉ t.constituents)
    {x : ErrorVar} (h : .errorVar x ∈ t.constituents) :
    (∃ y, .errorVar y ∈ (Solution.image t.received).constituents ∧ (y == x) = true) ∨
      View.coveredByAlias .empty (.var x) = true := by
  obtain ⟨⟨atom, args⟩, he, hx⟩ :=
    ErrorSet.contains_iff.1 (hc.contains_var_iff.2 ⟨x, h, BEq.rfl⟩)
  cases atom with
  | classifier c => cases hx
  | var y =>
      cases hl : View.leaves .empty (.var y) with
      | true =>
          refine Or.inl ⟨y, ?_, hx⟩
          rw [Solution.constituents_image
            (Bool.eq_false_iff.2 fun h => hu ((received_universal hc).1 h))]
          exact List.mem_map.2 ⟨_, mem_received.2 ⟨he, hl⟩, rfl⟩
      | false =>
          rw [View.leaves_congr _ (b := .var x) hx] at hl
          exact Or.inr ((View.leaves_eq_false.1 hl).resolve_left nofun)

/-- The set spells out no atom twice. -/
theorem image_unlike (t : Ty) : (Solution.image t.received).constituents.Pairwise Unlike := by
  cases hu : t.received.universal with
  | true =>
      rw [Solution.image, hu, if_pos rfl]
      exact List.pairwise_singleton _ _
  | false =>
      rw [Solution.constituents_image hu, List.pairwise_map]
      exact (List.pairwise_map.1 t.distinct_received).imp unlike_toMember.2

end Received

/-- The value part of a type that has not failed is nothing or a value. -/
theorem constituents_valuePart {t : Ty} (hf : t.failed = false) :
    (t.valuePart = .nothing ∧ t.valuePart.constituents = [] ∧
        ∀ m ∈ t.constituents, m.isValue = false) ∨
      (t.valuePart.isValue = true ∧ t.valuePart ∈ t.constituents ∧
        t.valuePart.constituents = [t.valuePart]) := by
  rw [valuePart_of_not_failed hf]
  cases hfind : t.constituents.find? isValue with
  | none =>
      refine Or.inl ⟨rfl, rfl, fun m hm => ?_⟩
      exact Bool.eq_false_iff.2 (List.find?_eq_none.1 hfind m hm)
  | some m =>
      have hv := List.find?_some hfind
      exact Or.inr ⟨hv, List.mem_of_find?_eq_some hfind, constituents_of_isValue hv⟩

end Ty

section Reassembled

variable {t : Ty} (hc : t.Closed) (hp : Grammar.Proper t.constituents) (hf : t.failed = false)

theorem Ty.constituents_reassembled : t.reassembled.constituents =
    t.valuePart.constituents ++ (Solution.image t.received).constituents := by
  rw [reassembled, constituents, constituentsAll, constituentsAll, constituentsAll, List.append_nil]

include hc hp hf

theorem Ty.mem_of_mem_reassembled {m : Ty} (hm : m ∈ t.reassembled.constituents) :
    m ∈ t.constituents := by
  rw [constituents_reassembled, List.mem_append] at hm
  rcases hm with hm | hm
  · rcases constituents_valuePart hf with ⟨-, hnil, -⟩ | ⟨-, hmem, hsingle⟩
    · rw [hnil] at hm; cases hm
    · rw [hsingle] at hm
      exact List.mem_singleton.1 hm ▸ hmem
  · exact mem_of_mem_image hc hp.constants hm

theorem Ty.failed_reassembled : t.reassembled.failed = false := by
  rw [failed_eq, List.any_eq_false] at hf ⊢
  intro m hm
  exact hf m (mem_of_mem_reassembled hc hp (failed_eq t ▸ List.any_eq_false.2 hf) hm)

theorem Ty.closed_reassembled : t.reassembled.Closed :=
  .of_constituents fun _ hm => hc.constituent (mem_of_mem_reassembled hc hp hf hm)

theorem Ty.valuePart_reassembled : t.reassembled.valuePart = t.valuePart := by
  have herrors : (Solution.image t.received).constituents.find? isValue = none := by
    refine List.find?_eq_none.2 fun m hm => ?_
    rw [not_isValue_of_isError (Solution.isError_image m hm)]
    exact Bool.false_ne_true
  rw [valuePart_of_not_failed (failed_reassembled hc hp hf), constituents_reassembled,
    List.find?_append, herrors]
  rcases constituents_valuePart hf with ⟨hv, hnil, -⟩ | ⟨hv, -, hsingle⟩
  · rw [hnil, hv]; rfl
  · rw [hsingle, List.find?_cons_of_pos hv]; rfl

theorem Ty.proper_reassembled : Grammar.Proper t.reassembled.constituents := by
  have himage := image_unlike t
  have herror := fun m (hm : m ∈ (Solution.image t.received).constituents) =>
    not_isValue_of_isError (Solution.isError_image m hm)
  have hfrom := fun m (hm : m ∈ (Solution.image t.received).constituents) =>
    mem_of_mem_image hc hp.constants hm
  rw [constituents_reassembled]
  generalize (Solution.image t.received).constituents = errors at himage herror hfrom ⊢
  have hdisjoint : (errors.filter Grammar.isOpen).Pairwise
      fun x y => Grammar.overlap x y = false := by
    refine (himage.filter Grammar.isOpen).imp_of_mem fun {x y} hx hy hxy => ?_
    obtain ⟨hx, hxo⟩ := List.mem_filter.1 hx
    obtain ⟨hy, hyo⟩ := List.mem_filter.1 hy
    refine Bool.eq_false_iff.2 fun hover => hxy.ne ?_
    exact hp.eq_of_overlap (hfrom x hx) (hfrom y hy) hxo hyo hover
  rcases constituents_valuePart hf with ⟨-, hnil, -⟩ | ⟨hv, -, hsingle⟩
  · rw [hnil, List.nil_append]
    exact ⟨fun m hm => herror m (List.mem_of_mem_tail hm),
      constants_pairwise_iff.2 (himage.imp And.left), hdisjoint⟩
  · rw [hsingle, List.singleton_append]
    refine ⟨herror, constants_pairwise_iff.2 (List.pairwise_cons.2
      ⟨fun _ _ c as hc => ?_, himage.imp And.left⟩), ?_⟩
    · rw [hc] at hv
      cases hv
    · rw [List.filter_cons_of_neg]
      · exact hdisjoint
      · rw [Grammar.not_isOpen_of_isValue hv]
        exact Bool.false_ne_true

theorem Ty.namesOnce_reassembled (hn : t.NamesOnce) : t.reassembled.NamesOnce :=
  namesOnce_of_constituents (proper_reassembled hc hp hf).constants fun _ hm =>
    hn.of_mem_constituents (mem_of_mem_reassembled hc hp hf hm)

/-- A type and what it is put together to cover each other. -/
theorem Ty.isSubtype_reassembled : isSubtype .classes t.reassembled t = true ∧
    isSubtype .classes t t.reassembled = true := by
  have hclosed := closed_reassembled hc hp hf
  have hproper := (proper_reassembled hc hp hf).constants
  have hvalue := valuePart_reassembled hc hp hf
  have herror : .error ∈ t.constituents → .error ∈ t.reassembled.constituents := by
    intro h
    rw [constituents_reassembled, Solution.image, (received_universal hc).2 h, if_pos rfl]
    exact List.mem_append_right _ List.mem_cons_self
  have hsame : ∀ {a : Atom} {args : List Ty},
      ArgsCover (fun x y => isSubtype .classes x y = true) a args args :=
    Or.inr (Or.inr (Or.inl BEq.rfl))
  have himage : ∀ {m : Ty}, m ∈ (Solution.image t.received).constituents →
      m ∈ t.reassembled.constituents := by
    intro m hm
    rw [constituents_reassembled]
    exact List.mem_append_right _ hm
  refine ⟨(isSubtype_iff _ _).2 (Or.inr (Or.inr ⟨hvalue ▸ .same BEq.rfl, ?_⟩)),
    (isSubtype_iff _ _).2 (Or.inr (Or.inr ⟨hvalue ▸ .same BEq.rfl, ?_⟩))⟩
  · refine errorsHold_of_constituents hclosed hc hproper hp.constants herror
      (fun hu c args h => ⟨args, ?_, hsame⟩) (fun hu v h => ?_) .empty
    · exact himage (errorConst_mem_image hc hp.constants (fun h => hu (herror h)) h)
    · rcases errorVar_mem_image hc (fun h => hu (herror h)) h with ⟨w, hw, hwv⟩ | hcov
      · exact Or.inl ⟨w, himage hw, hwv⟩
      · exact Or.inr hcov
  · have hmem := fun m (hm : m ∈ t.reassembled.constituents) => mem_of_mem_reassembled hc hp hf hm
    exact errorsHold_of_constituents hc hclosed hp.constants hproper (hmem _)
      (fun _ c args h => ⟨args, hmem _ h, hsame⟩)
      (fun _ v h => Or.inl ⟨v, hmem _ h, BEq.rfl⟩) .empty

end Reassembled

/-! ## What is put together is what was taken apart -/

namespace Ty

/-- Errors that are all different are read one by one. -/
theorem reading_of_unlike (ms : List Ty) (r : View.Reading)
    (hms : ∀ m ∈ ms, (∃ c args, m = .errorConst c args) ∨
      ∃ x : ErrorVar, m = .errorVar x ∧ x.flexible = false)
    (hunlike : ((r.known.entries.map fun e => e.1.toMember e.2) ++ ms).Pairwise Unlike) :
    ((ms.foldl (View.Reading.add .empty) r).known.entries.map fun e => e.1.toMember e.2) =
      (r.known.entries.map fun e => e.1.toMember e.2) ++ ms := by
  induction ms generalizing r with
  | nil => exact (List.append_nil _).symm
  | cons m ms ih =>
      obtain ⟨a, args, rfl, hadd⟩ : ∃ (a : Atom) (args : List Ty), m = a.toMember args ∧
          (r.add .empty m).known = r.known.insert a args := by
        rcases hms m List.mem_cons_self with ⟨c, args, rfl⟩ | ⟨x, rfl, hx⟩
        · exact ⟨.classifier c, args, rfl, rfl⟩
        · exact ⟨.var x, [], rfl, by rw [View.add_rigid hx]⟩
      have hnew : r.known.contains a = false := by
        refine List.any_eq_false.2 fun e he => ?_
        rw [unlike_toMember.1 ((List.pairwise_append.1 hunlike).2.2 _
          (List.mem_map_of_mem he) _ List.mem_cons_self)]
        exact Bool.false_ne_true
      have hentries : ((r.add .empty (a.toMember args)).known.entries.map
          fun e => e.1.toMember e.2) =
            (r.known.entries.map fun e => e.1.toMember e.2) ++ [a.toMember args] := by
        rw [hadd, Table.insert_of_not_contains _ hnew, List.map_append]
        rfl
      rw [List.foldl_cons, ih _ (fun x hx => hms x (List.mem_cons_of_mem _ hx)), hentries,
        List.append_assoc, List.singleton_append]
      rw [hentries, List.append_assoc, List.singleton_append]
      exact hunlike

section Restored

variable {t : Ty} (hc : t.Closed) (hp : Grammar.Proper t.constituents)
  (hu : .error ∉ t.constituents)
  (hb : ∀ x, .errorVar x ∈ t.constituents → View.coveredByAlias .empty (.var x) = false)

include hu in
theorem error_cases {m : Ty} (hm : m ∈ t.errorPart) :
    (∃ c args, m = .errorConst c args) ∨ ∃ x : ErrorVar, m = .errorVar x := by
  obtain ⟨hmem, herr⟩ := List.mem_filter.1 hm
  cases m with
  | errorConst c args => exact Or.inl ⟨c, args, rfl⟩
  | errorVar x => exact Or.inr ⟨x, rfl⟩
  | error => exact absurd hmem hu
  | _ => cases herr

include hp hu hb in
/-- The errors of a type that obeys the grammar are all different. -/
theorem errorPart_unlike : t.errorPart.Pairwise Unlike := by
  have hdiffer := constants_pairwise_iff.1 hp.constants
  have hdisjoint := List.pairwise_filter.1 hp.disjoint
  refine ((hdiffer.and hdisjoint).filter isError).imp_of_mem fun {x y} hx hy hxy => ?_
  refine ⟨hxy.1, Bool.eq_false_iff.2 fun hbeq => ?_⟩
  have hkey := memberKey_congr hbeq
  rcases error_cases hu hx with ⟨c, as, rfl⟩ | ⟨v, rfl⟩
  · rcases error_cases hu hy with ⟨d, bs, rfl⟩ | ⟨w, rfl⟩
    · exact hxy.1 c as rfl d bs rfl (SortKey.mk.inj hkey).2.1
    · cases (SortKey.mk.inj hkey).1
  · rcases error_cases hu hy with ⟨d, bs, rfl⟩ | ⟨w, rfl⟩
    · cases (SortKey.mk.inj hkey).1
    · have hover := hxy.2 rfl rfl
      rw [Grammar.overlap_of_beq ((Solution.beq_errorVar v w).symm.trans hbeq)
        (hb v (List.mem_filter.1 hx).1)] at hover
      cases hover

include hc hp hu hb in
/-- The set spells out the errors as they are listed. -/
theorem constituents_image_received :
    (Solution.image t.received).constituents = sortOn memberKey t.errorPart := by
  have hread := reading_of_unlike t.errorPart ⟨.empty, false, []⟩ (fun m hm => ?_)
    (errorPart_unlike hp hu hb)
  · have hall : t.received.entries = (View.interpretWith .empty t).known.entries := by
      refine List.filter_eq_self.2 fun e he => ?_
      obtain ⟨a, args⟩ := e
      cases a with
      | classifier c => rfl
      | var x =>
          have hx := (List.mem_filter.1 (View.errorVar_of_known he)).1
          rw [View.leaves, hb x hx]
          rfl
    have hkey : ∀ e e' : Atom × List Ty, (memberKey (e.1.toMember e.2)).le
        (memberKey (e'.1.toMember e'.2)) = e.1.key.le e'.1.key := by
      rintro ⟨a, xs⟩ ⟨b, ys⟩
      cases a <;> cases b <;> rfl
    rw [Solution.constituents_image (Bool.eq_false_iff.2 fun h => hu ((received_universal hc).1 h)),
      hall]
    exact (map_sortOn hkey _).trans (congrArg _ hread)
  · rcases error_cases hu hm with h | ⟨x, rfl⟩
    · exact Or.inl h
    · exact Or.inr ⟨x, rfl, hc.rigid (List.mem_filter.1 hm).1⟩

include hp in
theorem constituents_eq_append (hf : t.failed = false) :
    t.constituents = t.valuePart.constituents ++ t.errorPart := by
  have hrest : ∀ m ∈ t.constituents, m.isValue = false → m.isError = true := by
    intro m hm hv
    rcases member_cases hm with h | h | rfl
    · rw [h] at hv; cases hv
    · exact h
    · rw [failed_eq] at hf
      exact absurd rfl (List.any_eq_false.1 hf _ hm)
  rcases constituents_valuePart hf with ⟨-, hnil, hnone⟩ | ⟨hv, hmem, hsingle⟩
  · rw [hnil, List.nil_append, errorPart,
      List.filter_eq_self.2 fun m hm => hrest m hm (hnone m hm)]
  · rw [hsingle, errorPart]
    have hvalues := hp.values
    cases hlist : t.constituents with
    | nil => rw [hlist] at hmem; cases hmem
    | cons m rest =>
        rw [hlist] at hvalues hmem hrest
        have hhead : t.valuePart = m := by
          refine (List.mem_cons.1 hmem).resolve_right fun h => ?_
          rw [hvalues _ h] at hv
          cases hv
        rw [hhead] at hv ⊢
        rw [List.filter_cons_of_neg, List.filter_eq_self.2, List.singleton_append]
        · exact fun x hx => hrest x (List.mem_cons_of_mem m hx) (hvalues x hx)
        · exact fun herr => Bool.false_ne_true ((not_isValue_of_isError herr).symm.trans hv)

theorem memberKey_canonical {m : Ty} (hm : m ∈ t.errorPart) :
    memberKey m.canonical = memberKey m := by
  cases m with
  | union ms => cases (List.mem_filter.1 hm).2
  | _ => rfl

include hc hp hu hb in
/-- A type that is put together again is as it was, but for the order. -/
theorem canonical_reassembled (hf : t.failed = false) : t.reassembled.canonical = t.canonical := by
  have hany : t ≠ .any := by
    rintro rfl
    exact hu (by simp [constituents])
  have hunion : t.reassembled.canonical =
      ofConstituents (t.reassembled.constituents.map canonical) := canonical_union _
  rw [hunion, canonical_eq_ofConstituents hany, constituents_reassembled,
    constituents_image_received hc hp hu hb]
  conv_rhs => rw [constituents_eq_append hp hf]
  -- Both lists have the errors of each key in the order of writing.
  refine ofConstituents_congr fun k => congrArg distinct ?_
  rw [List.map_append, List.map_append, List.filter_append, List.filter_append]
  congr 1
  rw [List.filter_map, List.filter_map]
  have hkey : ∀ m ∈ t.errorPart, (decide (memberKey m.canonical = k)) =
      decide (memberKey m = k) := fun m hm => by rw [memberKey_canonical hm]
  have hsort := List.filter_congr fun m hm => hkey m ((sortOn_perm memberKey _).mem_iff.1 hm)
  exact congrArg _ (hsort.trans ((filter_sortOn k _).trans (List.filter_congr hkey).symm))

end Restored

end Ty

end Fallible
