import Fallible.Proofs.Kinds

/-!
# What the violations say

The grammar of unions can be stated without the tests that check it, by places.
A value stands at the first place only. No classifier is named at two places. No
two places range over one classifier that they do not name: `Error` and a
variable without bound range over all numbers, a bounded variable over the
numbers of its alias.

The check decides this grammar. Beyond that, the list of all violations is an
exact account of how the grammar is broken: at most one report on values, one on
each classifier that is named more than once, however often it is, and one on
each two places that overlap, in this order.
-/

namespace Fallible.Grammar

/-! ## The grammar by places -/

/-- Whether a constituent that does not name a classifier may hold it, by number. -/
inductive MayHold : Ty → Int → Prop
  | error (id : Int) : MayHold .error id
  | unbounded (v : ErrorVar) (id : Int) (h : v.bound = .unbounded) : MayHold (.errorVar v) id
  | bounded (v : ErrorVar) (a : Alias) (c : Classifier) (h : v.bound = .bounded a)
      (hc : c ∈ a.members) : MayHold (.errorVar v) c.id

/-- Whether a constituent names a classifier, by number. -/
def Names (id : Int) (m : Ty) : Prop := ∃ c args, m = .errorConst c args ∧ c.id = id

/-- Whether two places name a classifier. -/
def NamedTwice (flat : List Ty) (id : Int) : Prop :=
  ∃ (i j : Nat) (x y : Ty),
    i < j ∧ flat[i]? = some x ∧ flat[j]? = some y ∧ Names id x ∧ Names id y

/-- Whether two places, the earlier one first, may hold the same classifier. -/
def Overlapping (flat : List Ty) (i j : Nat) : Prop :=
  i < j ∧ ∃ x y id, flat[i]? = some x ∧ flat[j]? = some y ∧ MayHold x id ∧ MayHold y id

/-- Whether every value stands at the first place, so that there is at most one. -/
def ValueFirst (flat : List Ty) : Prop := ∀ i m, flat[i]? = some m → m.isValue = true → i = 0

/-- Whether constituents obey the grammar, place by place. -/
structure Obeys (flat : List Ty) : Prop where
  values : ValueFirst flat
  constants : ∀ id, ¬ NamedTwice flat id
  ranges : ∀ i j, ¬ Overlapping flat i j

/-! ## Exact accounts -/

/-- What is to be reported on values: nothing if they are in place, a value that
is alone but out of place, or all values if there are several. -/
inductive ValueAccount (flat : List Ty) : List Cause → Prop
  | kept (h : ValueFirst flat) : ValueAccount flat []
  | misplaced (v : Ty) (i : Nat) (hv : flat[i]? = some v) (hvalue : v.isValue = true) (hi : i ≠ 0)
      (alone : ∀ j m, flat[j]? = some m → m.isValue = true → j = i) :
      ValueAccount flat [.misplacedValue flat v i]
  | multiple (i j : Nat) (x y : Ty) (hij : i < j) (hx : flat[i]? = some x) (hy : flat[j]? = some y)
      (hxv : x.isValue = true) (hyv : y.isValue = true) :
      ValueAccount flat [.multipleValues flat (flat.filter Ty.isValue)]

/-- The report on two places that overlap. -/
def overlapAt (flat : List Ty) (p : Nat × Nat) : Cause :=
  .overlappingVariables flat (flat.getD p.1 .nothing) (flat.getD p.2 .nothing)

/-- Whether a list of reports says once, and in the order of the rules, all that is
wrong with constituents. -/
inductive Account (flat : List Ty) : List Cause → Prop
  | intro (onValues : List Cause) (twice : List Classifier) (places : List (Nat × Nat))
      (values : ValueAccount flat onValues)
      (listed : twice.Sublist (constants flat))
      (once : (twice.map Classifier.id).Nodup)
      (named : ∀ id, id ∈ twice.map Classifier.id ↔ NamedTwice flat id)
      (inOrder : places.Pairwise fun p q => p.1 < q.1 ∨ (p.1 = q.1 ∧ p.2 < q.2))
      (overlaps : ∀ i j, (i, j) ∈ places ↔ Overlapping flat i j) :
      Account flat (onValues ++ twice.map (.duplicateClassifier flat) ++
        places.map (overlapAt flat))

/-! ## Places -/

section Places

variable {α : Type}

theorem zipIdx_pairwise (l : List α) : l.zipIdx.Pairwise fun a b => a.2 < b.2 := by
  rw [← List.pairwise_map, List.zipIdx_map_snd]
  exact List.pairwise_lt_range' 1

/-- Two places that stand in a relation are what makes a list fail to be without. -/
theorem exists_places_iff {R : α → α → Prop} {l : List α} :
    (∃ (i j : Nat) (x y : α), i < j ∧ l[i]? = some x ∧ l[j]? = some y ∧ R x y) ↔
      ¬ l.Pairwise fun x y => ¬ R x y := by
  rw [List.pairwise_iff_getElem]
  constructor
  · rintro ⟨i, j, x, y, hij, hx, hy, hxy⟩ h
    obtain ⟨hi, rfl⟩ := List.getElem?_eq_some_iff.1 hx
    obtain ⟨hj, rfl⟩ := List.getElem?_eq_some_iff.1 hy
    exact h i j hi hj hij hxy
  · intro h
    by_contra hnone
    refine h fun i j hi hj hij hxy => hnone ?_
    exact ⟨i, j, _, _, hij, List.getElem?_eq_getElem hi, List.getElem?_eq_getElem hj, hxy⟩

end Places

/-! ## Values -/

theorem mem_values {flat : List Ty} {m : Ty} {i : Nat} :
    (m, i) ∈ values flat ↔ flat[i]? = some m ∧ m.isValue = true := by
  rw [values, List.mem_filter, List.mem_zipIdx_iff_getElem?]

theorem valueViolations_account (flat : List Ty) : ValueAccount flat (valueViolations flat) := by
  have hall : (values flat).map Prod.fst = flat.filter Ty.isValue :=
    map_fst_filter_zipIdx Ty.isValue flat 0
  have hplaces : (values flat).Pairwise fun a b => a.2 < b.2 := (zipIdx_pairwise flat).filter _
  rw [valueViolations]
  cases hvs : values flat with
  | nil =>
      refine .kept fun i m hm hv => ?_
      have hin := mem_values.2 ⟨hm, hv⟩
      rw [hvs] at hin
      cases hin
  | cons p rest =>
      obtain ⟨v, i⟩ := p
      have hp := mem_values.1 (hvs ▸ List.mem_cons_self : (v, i) ∈ values flat)
      cases rest with
      | nil =>
          have halone : ∀ j m, flat[j]? = some m → m.isValue = true → j = i := by
            intro j m hm hv
            have hin := mem_values.2 ⟨hm, hv⟩
            rw [hvs, List.mem_singleton] at hin
            exact congrArg Prod.snd hin
          by_cases hi : i = 0
          · subst hi
            exact .kept halone
          · simp only [beq_iff_eq, hi, if_false]
            exact .misplaced v i hp.1 hp.2 hi halone
      | cons q rest =>
          obtain ⟨w, j⟩ := q
          have hq := mem_values.1
            (hvs ▸ List.mem_cons_of_mem _ List.mem_cons_self : (w, j) ∈ values flat)
          have hij : i < j := by
            rw [hvs] at hplaces
            exact (List.pairwise_cons.1 hplaces).1 (w, j) List.mem_cons_self
          rw [hvs] at hall
          simp only [hall]
          exact .multiple i j v w hij hp.1 hq.1 hp.2 hq.2

theorem ValueAccount.eq_nil_iff {flat : List Ty} {reports : List Cause}
    (h : ValueAccount flat reports) : reports = [] ↔ ValueFirst flat := by
  cases h with
  | kept h => exact iff_of_true rfl h
  | misplaced v i hv hvalue hi alone =>
      exact iff_of_false (List.cons_ne_nil _ _) fun h => hi (h i v hv hvalue)
  | multiple i j x y hij hx hy hxv hyv =>
      refine iff_of_false (List.cons_ne_nil _ _) fun h => ?_
      have := h j y hy hyv
      omega

/-! ## Classifiers named twice -/

/-- A classifier is reported if it was not before, and is met again after it was
met, here or earlier. -/
theorem mem_repeated {id : Int} {seen reported cs : List Classifier} :
    id ∈ (repeated seen reported cs).map Classifier.id ↔
      id ∉ reported.map Classifier.id ∧
        ((id ∈ seen.map Classifier.id ∧ id ∈ cs.map Classifier.id) ∨
          ¬ cs.Pairwise fun c d => ¬ (c.id = id ∧ d.id = id)) := by
  induction cs generalizing seen reported with
  | nil => simp [repeated]
  | cons c cs ih =>
      have hagain : ¬ (c :: cs).Pairwise (fun c d => ¬ (c.id = id ∧ d.id = id)) ↔
          (c.id = id ∧ id ∈ cs.map Classifier.id) ∨
            ¬ cs.Pairwise fun c d => ¬ (c.id = id ∧ d.id = id) := by
        rw [List.pairwise_cons, List.mem_map]
        grind
      rw [repeated, hagain]
      split
      · next hnew =>
          rw [Bool.and_eq_true, Bool.not_eq_true', ← Bool.not_eq_true, contains_iff_id_mem,
            contains_iff_id_mem] at hnew
          simp only [List.map_cons, List.mem_cons, ih]
          grind
      · next hold =>
          rw [Bool.and_eq_true, Bool.not_eq_true', ← Bool.not_eq_true, contains_iff_id_mem,
            contains_iff_id_mem] at hold
          simp only [List.map_cons, List.mem_cons, ih]
          grind

theorem repeated_sublist (seen reported cs : List Classifier) :
    (repeated seen reported cs).Sublist cs := by
  induction cs generalizing seen reported with
  | nil => exact .slnil
  | cons c cs ih =>
      rw [repeated]
      split
      · exact (ih _ _).cons_cons c
      · exact (ih _ _).cons c

theorem nodup_repeated (seen reported cs : List Classifier) :
    ((repeated seen reported cs).map Classifier.id).Nodup := by
  induction cs generalizing seen reported with
  | nil => exact .nil
  | cons c cs ih =>
      rw [repeated]
      split
      · rw [List.map_cons, List.nodup_cons, mem_repeated]
        exact ⟨fun h => h.1 List.mem_cons_self, ih _ _⟩
      · exact ih _ _

theorem namedTwice_iff {flat : List Ty} {id : Int} :
    id ∈ (repeated [] [] (constants flat)).map Classifier.id ↔ NamedTwice flat id := by
  rw [mem_repeated, NamedTwice, exists_places_iff, constants, List.pairwise_filterMap]
  simp only [List.map_nil, List.not_mem_nil, not_false_eq_true, true_and, false_and, false_or]
  refine not_congr (List.Pairwise.iff fun x y => ⟨fun h hxy => ?_, fun h c hc d hd hid => h ?_⟩)
  · obtain ⟨⟨c, as, rfl, hc⟩, ⟨d, bs, rfl, hd⟩⟩ := hxy
    exact h c rfl d rfl ⟨hc, hd⟩
  · cases x with
    | errorConst c' as =>
        cases y with
        | errorConst d' bs =>
            cases hc
            cases hd
            exact ⟨⟨c, as, rfl, hid.1⟩, d, bs, rfl, hid.2⟩
        | _ => cases hd
    | _ => cases hc

/-! ## Places that overlap -/

theorem mayHold_iff {m : Ty} {c : Classifier} :
    MayHold m c.id ↔ isOpen m = true ∧ (universeOf m).contains c = true := by
  constructor
  · intro h
    generalize hid : c.id = id at h
    cases h with
    | error => exact ⟨rfl, rfl⟩
    | unbounded v _ hv => exact ⟨rfl, by rw [universeOf, hv]; rfl⟩
    | bounded v a d hv hd =>
        refine ⟨rfl, ?_⟩
        rw [universeOf, hv]
        exact List.contains_iff_exists_mem_beq.2 ⟨d, hd, Classifier.beq_iff.2 hid⟩
  · rintro ⟨hopen, hholds⟩
    cases m with
    | error => exact .error _
    | errorVar v =>
        cases hv : v.bound with
        | unbounded => exact .unbounded v _ hv
        | bounded a =>
            rw [universeOf, hv] at hholds
            obtain ⟨d, hd, hcd⟩ := List.contains_iff_exists_mem_beq.1 hholds
            exact Classifier.beq_iff.1 hcd ▸ .bounded v a d hv hd
    | _ => cases hopen

/-- The test for overlap is exact: it looks for a classifier that both may hold. -/
theorem overlap_iff {x y : Ty} : isOpen x = true ∧ isOpen y = true ∧ overlap x y = true ↔
    ∃ id, MayHold x id ∧ MayHold y id := by
  rw [overlap, Universe.overlaps_iff]
  constructor
  · rintro ⟨hx, hy, c, hcx, hcy⟩
    exact ⟨c.id, mayHold_iff.2 ⟨hx, hcx⟩, mayHold_iff.2 ⟨hy, hcy⟩⟩
  · rintro ⟨id, hx, hy⟩
    have hx := mayHold_iff (c := ⟨id, [], "", [], none⟩) |>.1 hx
    have hy := mayHold_iff (c := ⟨id, [], "", [], none⟩) |>.1 hy
    exact ⟨hx.1, hy.1, _, hx.2, hy.2⟩

section Pairs

variable {α β : Type}

theorem pairs_map (f : α → β) (l : List α) :
    pairs (l.map f) = (pairs l).map fun p => (f p.1, f p.2) := by
  induction l with
  | nil => rfl
  | cons x xs ih =>
      rw [List.map_cons, pairs, pairs, ih, List.map_append, List.map_map, List.map_map]
      rfl

variable {l : List (α × Nat)}

theorem mem_pairs (h : l.Pairwise fun a b => a.2 < b.2) {a b : α × Nat} :
    (a, b) ∈ pairs l ↔ a ∈ l ∧ b ∈ l ∧ a.2 < b.2 := by
  induction l with
  | nil => simp [pairs]
  | cons x xs ih =>
      obtain ⟨hx, hxs⟩ := List.pairwise_cons.1 h
      rw [pairs, List.mem_append, ih hxs, List.mem_map]
      simp only [Prod.mk.injEq, List.mem_cons]
      constructor
      · rintro (⟨y, hy, rfl, rfl⟩ | ⟨ha, hb, hab⟩)
        · exact ⟨Or.inl rfl, Or.inr hy, hx y hy⟩
        · exact ⟨Or.inr ha, Or.inr hb, hab⟩
      · rintro ⟨rfl | ha, rfl | hb, hab⟩
        · omega
        · exact Or.inl ⟨b, hb, rfl, rfl⟩
        · have := hx a ha
          omega
        · exact Or.inr ⟨ha, hb, hab⟩

/-- The pairs of a list of places are listed by the first place, then by the second. -/
theorem pairs_pairwise (h : l.Pairwise fun a b => a.2 < b.2) :
    (pairs l).Pairwise fun p q => p.1.2 < q.1.2 ∨ (p.1.2 = q.1.2 ∧ p.2.2 < q.2.2) := by
  induction l with
  | nil => exact .nil
  | cons x xs ih =>
      obtain ⟨hx, hxs⟩ := List.pairwise_cons.1 h
      refine List.pairwise_append.2 ⟨?_, ih hxs, ?_⟩
      · exact List.Pairwise.map _ (fun a b hab => Or.inr ⟨rfl, hab⟩) hxs
      · intro p hp q hq
        obtain ⟨y, -, rfl⟩ := List.mem_map.1 hp
        exact Or.inl (hx q.1 ((mem_pairs hxs).1 hq).1)

end Pairs

/-- The places whose constituents overlap, found as the violations are. -/
def overlappingPlaces (flat : List Ty) : List (Nat × Nat) :=
  ((pairs (flat.zipIdx.filter fun m => isOpen m.1)).filter fun p => overlap p.1.1 p.2.1).map
    fun p => (p.1.2, p.2.2)

section Overlaps

variable {flat : List Ty}

theorem mem_overlappingPairs {p : (Ty × Nat) × (Ty × Nat)} :
    p ∈ (pairs (flat.zipIdx.filter fun m => isOpen m.1)).filter (fun p => overlap p.1.1 p.2.1) ↔
      flat[p.1.2]? = some p.1.1 ∧ flat[p.2.2]? = some p.2.1 ∧ p.1.2 < p.2.2 ∧
        ∃ id, MayHold p.1.1 id ∧ MayHold p.2.1 id := by
  rw [List.mem_filter, mem_pairs ((zipIdx_pairwise flat).filter _), List.mem_filter,
    List.mem_filter, List.mem_zipIdx_iff_getElem?, List.mem_zipIdx_iff_getElem?, ← overlap_iff]
  grind

theorem mem_overlappingPlaces {i j : Nat} :
    (i, j) ∈ overlappingPlaces flat ↔ Overlapping flat i j := by
  rw [overlappingPlaces, List.mem_map]
  constructor
  · rintro ⟨p, hp, hij⟩
    cases hij
    obtain ⟨hx, hy, hlt, id, hid⟩ := mem_overlappingPairs.1 hp
    exact ⟨hlt, _, _, id, hx, hy, hid⟩
  · rintro ⟨hlt, x, y, id, hx, hy, hid⟩
    exact ⟨((x, i), (y, j)), mem_overlappingPairs.2 ⟨hx, hy, hlt, id, hid⟩, rfl⟩

theorem overlappingPlaces_pairwise (flat : List Ty) :
    (overlappingPlaces flat).Pairwise fun p q => p.1 < q.1 ∨ (p.1 = q.1 ∧ p.2 < q.2) :=
  List.pairwise_map.2 ((pairs_pairwise ((zipIdx_pairwise flat).filter _)).filter _)

theorem variableViolations_eq (flat : List Ty) :
    variableViolations flat = (overlappingPlaces flat).map (overlapAt flat) := by
  rw [variableViolations, ← map_fst_filter_zipIdx isOpen flat 0, pairs_map, List.filter_map,
    List.map_map, overlappingPlaces, List.map_map]
  refine List.map_congr_left fun p hp => ?_
  obtain ⟨hx, hy, -⟩ := mem_overlappingPairs.1 hp
  simp only [Function.comp_apply, overlapAt, List.getD_eq_getElem?_getD, hx, hy, Option.getD_some]

end Overlaps

/-! ## The main statement -/

theorem violations_account (ms : List Ty) :
    Account (Ty.constituentsAll ms) (violations ms) := by
  rw [violations, variableViolations_eq]
  exact .intro _ _ _ (valueViolations_account _) (repeated_sublist _ _ _) (nodup_repeated _ _ _)
    (fun _ => namedTwice_iff) (overlappingPlaces_pairwise _) fun _ _ => mem_overlappingPlaces

theorem Account.eq_nil_iff {flat : List Ty} {reports : List Cause} (h : Account flat reports) :
    reports = [] ↔ Obeys flat := by
  cases h with
  | intro onValues twice places values listed once named inOrder overlaps =>
      rw [List.append_eq_nil_iff, List.append_eq_nil_iff, values.eq_nil_iff, List.map_eq_nil_iff,
        List.map_eq_nil_iff]
      constructor
      · rintro ⟨⟨hvalues, rfl⟩, rfl⟩
        exact ⟨hvalues, fun id hid => List.not_mem_nil ((named id).2 hid),
          fun i j hij => List.not_mem_nil ((overlaps i j).2 hij)⟩
      · rintro ⟨hvalues, hconstants, hranges⟩
        refine ⟨⟨hvalues, ?_⟩, ?_⟩
        · refine List.eq_nil_iff_forall_not_mem.2 fun c hc => hconstants c.id ?_
          exact (named c.id).1 (List.mem_map_of_mem hc)
        · exact List.eq_nil_iff_forall_not_mem.2 fun p hp => hranges p.1 p.2 ((overlaps _ _).1 hp)

/-- The check accepts a list of members exactly if its constituents obey the grammar,
and else answers with the first of all violations. The violations are an exact
account of how the grammar is broken. -/
theorem check_decides_grammar (ms : List Ty) :
    (check ms = none ↔ Obeys (Ty.constituentsAll ms)) ∧
      check ms = (violations ms).head? ∧
      Account (Ty.constituentsAll ms) (violations ms) := by
  refine ⟨?_, check_eq_head? ms, violations_account ms⟩
  rw [check_eq_head?, List.head?_eq_none_iff, (violations_account ms).eq_nil_iff]

example : (violations [.errorConst ⟨0, [], "A", [], none⟩ [], .con (.named "Int") [],
    .errorConst ⟨0, [], "A", [], none⟩ [], .errorVar ⟨"E", .unbounded, false⟩, .error]).map
      Cause.kind =
    ["MisplacedValueComponent", "DuplicateClassifier", "NonDisjointVariables"] := rfl

end Fallible.Grammar
