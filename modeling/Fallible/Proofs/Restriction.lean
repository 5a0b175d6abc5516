import Fallible.Proofs.Exclusion
import Fallible.Proofs.Violations

/-!
# What is left when a type is restricted to classifiers

Restricting collects constants in a table, under the classifiers that they name. The
constants of the type come first, in written order, and then bare ones for what its
variables and `Error` could carry. The first that is offered under a classifier
stays. So restricting lists each wanted classifier that the type names with the
arguments that the type gives it first, and each that the type could carry without
naming it with none.

Both narrowings obey the grammar of unions. Excluding leaves some constituents of a
canonical form, which obeys the grammar if the type does. Restricting leaves
constants of different classifiers, so it obeys the grammar whatever the type.
-/

namespace Fallible

namespace Narrowing

open Grammar (MayHold Names)

/-! ## Wanted classifiers -/

theorem id_mem_insertMember {c : Classifier} {ds : List Classifier} {i : Int} :
    i ∈ (Alias.insertMember c ds).map Classifier.id ↔ i = c.id ∨ i ∈ ds.map Classifier.id := by
  induction ds with
  | nil => simp [Alias.insertMember]
  | cons d rest ih =>
      rw [Alias.insertMember]
      split
      · simp
      · split
        · rw [List.map_cons, List.mem_cons, ih, List.map_cons, List.mem_cons]
          exact or_left_comm
        · have hid : c.id = d.id := by omega
          simp [hid]

/-- Collecting classifiers keeps their numbers. -/
theorem numbers_collect (cs : List Classifier) : numbers (Alias.collect cs) = numbers cs := by
  have hfold : ∀ (cs acc : List Classifier) (i : Int),
      i ∈ (cs.foldl (fun acc c => Alias.insertMember c acc) acc).map Classifier.id ↔
        i ∈ acc.map Classifier.id ∨ i ∈ cs.map Classifier.id := by
    intro cs
    induction cs with
    | nil => simp
    | cons c cs ih =>
        intro acc i
        rw [List.foldl_cons, ih, id_mem_insertMember, List.map_cons, List.mem_cons, or_assoc,
          or_left_comm]
  ext i
  rw [numbers, numbers, List.mem_toFinset, List.mem_toFinset, Alias.collect, hfold]
  simp

theorem couldCarry_iff {m : Ty} {c : Classifier} : couldCarry m c = true ↔ MayHold m c.id := by
  rw [Grammar.mayHold_iff]
  cases m <;> simp [couldCarry, ErrorVar.mayHold, Grammar.isOpen, Grammar.universeOf,
    Universe.contains]

/-! ## Offers -/

/-- What a constituent that names a wanted classifier offers. -/
def offer? (wanted : List Classifier) : Ty → Option (Classifier × Ty)
  | .errorConst c args => if wanted.contains c then some (c, .errorConst c args) else none
  | _ => none

/-- The bare constants that a constituent offers for what it could carry. -/
def bareOffers (wanted : List Classifier) (m : Ty) : List (Classifier × Ty) :=
  (wanted.filter (couldCarry m)).map fun c => (c, .errorConst c [])

/-- The constants that are offered, in the order of the offers. -/
def offers (wanted : List Classifier) (flat : List Ty) : List (Classifier × Ty) :=
  flat.filterMap (offer? wanted) ++ flat.flatMap (bareOffers wanted)

/-- The table that restricting fills. -/
def found (wanted : List Classifier) (flat : List Ty) : Table Classifier Ty :=
  flat.foldl (addCarried wanted) (named wanted flat)

section Found

variable {wanted : List Classifier} {flat : List Ty}

theorem found_eq_foldl (wanted : List Classifier) (flat : List Ty) : found wanted flat =
    (offers wanted flat).foldl (fun t e => t.insertNew e.1 e.2) .empty := by
  have hnamed : named wanted flat =
      (flat.filterMap (offer? wanted)).foldl (fun t e => t.insertNew e.1 e.2) .empty := by
    rw [named, List.foldl_filterMap]
    congr 1
    funext t m
    cases m with
    | errorConst c args => cases hc : wanted.contains c <;> simp [offer?, hc]
    | _ => rfl
  have hcarried : addCarried wanted = fun t m =>
      (bareOffers wanted m).foldl (fun t e => t.insertNew e.1 e.2) t := by
    funext t m
    rw [bareOffers, List.foldl_map, List.foldl_filter]
    rfl
  rw [found, offers, List.foldl_append, ← hnamed, List.foldl_flatMap, hcarried]

theorem distinct_found (wanted : List Classifier) (flat : List Ty) :
    (found wanted flat).Distinct := by
  rw [found_eq_foldl]
  exact Table.distinct_empty.foldl_insertNew _

theorem mem_offer? {e : Classifier × Ty} (h : e ∈ flat.filterMap (offer? wanted)) :
    ∃ args, e.2 = .errorConst e.1 args ∧ wanted.contains e.1 = true ∧ e.2 ∈ flat := by
  obtain ⟨m, hm, he⟩ := List.mem_filterMap.1 h
  cases m with
  | errorConst c args =>
      rw [offer?] at he
      split at he
      · next hc =>
          cases he
          exact ⟨args, rfl, hc, hm⟩
      · cases he
  | _ => cases he

theorem mem_bareOffers {e : Classifier × Ty} (h : e ∈ flat.flatMap (bareOffers wanted)) :
    e.2 = .errorConst e.1 [] ∧ wanted.contains e.1 = true ∧ ∃ m ∈ flat, MayHold m e.1.id := by
  obtain ⟨m, hm, he⟩ := List.mem_flatMap.1 h
  obtain ⟨c, hc, rfl⟩ := List.mem_map.1 he
  obtain ⟨hwanted, hcarry⟩ := List.mem_filter.1 hc
  exact ⟨rfl, List.contains_iff_exists_mem_beq.2 ⟨c, hwanted, BEq.rfl⟩, m, hm,
    couldCarry_iff.1 hcarry⟩

/-- Whether restricting lists a classifier with some arguments: those of a constant, or
none if no constant names the classifier but a constituent may hold it. -/
inductive Listed (flat : List Ty) (c : Classifier) : List Ty → Prop
  | named (args : List Ty) (h : .errorConst c args ∈ flat) : Listed flat c args
  | carried (m : Ty) (unnamed : ∀ x ∈ flat, ¬ Names c.id x) (hm : m ∈ flat)
      (h : MayHold m c.id) : Listed flat c []

theorem listed_of_found {e : Classifier × Ty} (h : e ∈ (found wanted flat).entries) :
    ∃ args, e.2 = .errorConst e.1 args ∧ wanted.contains e.1 = true ∧ Listed flat e.1 args := by
  have hfirst : Table.find e.1 (offers wanted flat) = some e.2 := by
    have hget := (distinct_found wanted flat).get?_of_mem h
    rw [found_eq_foldl, Table.get?_foldl_insertNew, Table.get?_empty, Option.none_or] at hget
    exact hget
  rw [found_eq_foldl] at h
  rcases List.mem_append.1 ((Table.mem_foldl_insertNew h).resolve_left List.not_mem_nil) with
    hnamed | hbare
  · obtain ⟨args, he, hwanted, hmem⟩ := mem_offer? hnamed
    exact ⟨args, he, hwanted, .named _ (he ▸ hmem)⟩
  · obtain ⟨he, hwanted, m, hm, hhold⟩ := mem_bareOffers hbare
    refine ⟨[], he, hwanted, ?_⟩
    rw [offers, Table.find_append] at hfirst
    cases hnamed : Table.find e.1 (flat.filterMap (offer? wanted)) with
    | some v =>
        -- A constant was offered before, and it is the same.
        rw [hnamed, Option.some_or, Option.some.injEq] at hfirst
        obtain ⟨k, hk⟩ := Table.mem_of_find hnamed
        obtain ⟨-, -, -, hmem⟩ := mem_offer? hk
        exact .named _ (he ▸ hfirst ▸ hmem)
    | none =>
        refine .carried m (fun x hx hx' => ?_) hm hhold
        obtain ⟨d, bs, rfl, hid⟩ := hx'
        have hoffer : (d, Ty.errorConst d bs) ∈ flat.filterMap (offer? wanted) := by
          refine List.mem_filterMap.2 ⟨_, hx, ?_⟩
          rw [offer?, contains_eq_decide, hid, ← contains_eq_decide, hwanted, if_pos rfl]
        have hnone := Table.find_isSome e.1 (flat.filterMap (offer? wanted))
        rw [hnamed] at hnone
        exact List.any_eq_false.1 hnone.symm _ hoffer (Classifier.beq_iff.2 hid)

/-- Whatever the type names or could carry is found, if it is wanted. -/
theorem contains_found {c : Classifier} (hc : wanted.contains c = true) {m : Ty} (hm : m ∈ flat)
    (h : Names c.id m ∨ MayHold m c.id) : (found wanted flat).contains c = true := by
  have hoffer : ∃ e ∈ offers wanted flat, (e.1 == c) = true := by
    rcases h with ⟨d, args, rfl, hid⟩ | h
    · refine ⟨(d, .errorConst d args), List.mem_append_left _ ?_, Classifier.beq_iff.2 hid⟩
      refine List.mem_filterMap.2 ⟨_, hm, ?_⟩
      rw [offer?, contains_eq_decide, hid, ← contains_eq_decide, hc, if_pos rfl]
    · obtain ⟨d, hd, hcd⟩ := List.contains_iff_exists_mem_beq.1 hc
      rw [Classifier.beq_iff] at hcd
      refine ⟨(d, .errorConst d []), List.mem_append_right _ ?_, Classifier.beq_iff.2 hcd.symm⟩
      refine List.mem_flatMap.2 ⟨m, hm, List.mem_map.2 ⟨d, List.mem_filter.2 ⟨hd, ?_⟩, rfl⟩⟩
      exact couldCarry_iff.2 (hcd ▸ h)
  rw [found_eq_foldl, Table.contains_foldl_insertNew, List.any_eq_true.2 hoffer, Bool.or_true]

end Found

/-! ## What restricting lists -/

/-- The union of the constants that restricting finds. -/
def selection (t : Ty) (cs : List Classifier) : Ty :=
  .union (found (Alias.collect cs) t.constituents).values

section Restrict

variable {t : Ty} {cs : List Classifier}

theorem contains_collect (cs : List Classifier) (c : Classifier) :
    (Alias.collect cs).contains c = decide (c.id ∈ numbers cs) := by
  rw [contains_eq_decide, numbers_collect]

theorem listed_of_selection {m : Ty} (h : m ∈ (found (Alias.collect cs) t.constituents).values) :
    ∃ c args, m = .errorConst c args ∧ c.id ∈ numbers cs ∧ Listed t.constituents c args := by
  obtain ⟨e, he, rfl⟩ := List.mem_map.1 h
  obtain ⟨args, hconst, hwanted, hlisted⟩ := listed_of_found he
  rw [contains_collect, decide_eq_true_iff] at hwanted
  exact ⟨e.1, args, hconst, hwanted, hlisted⟩

theorem constituents_selection (t : Ty) (cs : List Classifier) :
    (selection t cs).constituents = (found (Alias.collect cs) t.constituents).values := by
  refine Ty.constituentsAll_of_listed fun m hm => ?_
  obtain ⟨c, args, rfl, -⟩ := listed_of_selection hm
  rfl

theorem failed_selection (t : Ty) (cs : List Classifier) : (selection t cs).failed = false := by
  rw [Ty.failed_eq, constituents_selection, List.any_eq_false]
  intro m hm
  obtain ⟨c, args, rfl, -⟩ := listed_of_selection hm
  exact Bool.false_ne_true

theorem unrepeated_selection (t : Ty) (cs : List Classifier) : (selection t cs).Unrepeated := by
  rw [Ty.unrepeated_iff, constituents_selection, Table.values, List.pairwise_map]
  have hkeys := distinct_found (Alias.collect cs) t.constituents
  rw [Table.Distinct, Table.keys, List.pairwise_map] at hkeys
  refine hkeys.imp_of_mem fun {a b} ha hb hne => ?_
  obtain ⟨args, hargs, -⟩ := listed_of_found ha
  obtain ⟨args', hargs', -⟩ := listed_of_found hb
  rw [hargs, hargs']
  intro c as hc d bs hd hid
  cases hc
  cases hd
  exact Bool.eq_false_iff.1 hne (Classifier.beq_iff.2 hid)

theorem restrict_of_failed (h : t.failed = true) (cs : List Classifier) :
    restrict t cs = .erroneous := by
  rw [Ty.failed_eq] at h
  exact if_pos h

theorem restrict_of_sound (h : t.failed = false) (cs : List Classifier) :
    restrict t cs = (selection t cs).canonical := by
  rw [Ty.failed_eq] at h
  exact if_neg (Bool.eq_false_iff.1 h)

theorem unrepeated_restrict (t : Ty) (cs : List Classifier) : (restrict t cs).Unrepeated := by
  cases h : t.failed with
  | true => rw [restrict_of_failed h]; exact Ty.unrepeated_of_single rfl
  | false => rw [restrict_of_sound h]; exact (unrepeated_selection t cs).canonical

theorem listed_of_restrict (h : t.failed = false) {m : Ty}
    (hm : m ∈ (restrict t cs).constituents) : ∃ c args, m = .errorConst c (args.map Ty.canonical) ∧
      c.id ∈ numbers cs ∧ Listed t.constituents c args := by
  rw [restrict_of_sound h] at hm
  obtain ⟨x, hx, rfl⟩ := Ty.mem_canonical hm
  rw [constituents_selection] at hx
  obtain ⟨c, args, rfl, hc, hlisted⟩ := listed_of_selection hx
  refine ⟨c, args, ?_, hc, hlisted⟩
  rw [Ty.canonical, Ty.canonicalAll_eq_map]

/-- Whatever the type names or could carry is listed, if it is asked for. -/
theorem exists_mem_restrict (h : t.failed = false) {i : Int} (hi : i ∈ numbers cs) {m : Ty}
    (hm : m ∈ t.constituents) (hcarries : Names i m ∨ MayHold m i) :
    ∃ c args, .errorConst c args ∈ (restrict t cs).constituents ∧ c.id = i := by
  have hin : (found (Alias.collect cs) t.constituents).contains ⟨i, [], "", [], none⟩ = true := by
    refine contains_found ?_ hm hcarries
    rw [contains_collect]
    exact decide_eq_true hi
  obtain ⟨e, he, hid⟩ := List.any_eq_true.1 hin
  obtain ⟨args, hconst, -⟩ := listed_of_found he
  have hsel : .errorConst e.1 args ∈ (selection t cs).constituents := by
    rw [constituents_selection, ← hconst]
    exact List.mem_map_of_mem he
  rw [restrict_of_sound h]
  exact ⟨e.1, _, (unrepeated_selection t cs).errorConst_mem_canonical (failed_selection t cs) hsel,
    Classifier.beq_iff.1 hid⟩

theorem failed_restrict (t : Ty) (cs : List Classifier) : (restrict t cs).failed = t.failed := by
  cases h : t.failed with
  | true => rw [restrict_of_failed h]; rfl
  | false => rw [restrict_of_sound h, Ty.failed_canonical, failed_selection]

/-- Restricting leaves no value. -/
theorem find?_isValue_restrict (h : t.failed = false) (cs : List Classifier) :
    (restrict t cs).constituents.find? Ty.isValue = none := by
  refine List.find?_eq_none.2 fun m hm => ?_
  obtain ⟨c, args, rfl, -⟩ := listed_of_restrict h hm
  exact Bool.false_ne_true

theorem proper_restrict (t : Ty) (cs : List Classifier) :
    Grammar.Proper (restrict t cs).constituents := by
  cases h : t.failed with
  | true => rw [restrict_of_failed h]; exact .singleton _
  | false =>
      refine ⟨fun m hm => ?_, unrepeated_restrict t cs, ?_⟩
      · obtain ⟨c, args, rfl, -⟩ := listed_of_restrict h (List.mem_of_mem_tail hm)
        rfl
      · have hnone : (restrict t cs).constituents.filter Grammar.isOpen = [] := by
          refine List.filter_eq_nil_iff.2 fun m hm => ?_
          obtain ⟨c, args, rfl, -⟩ := listed_of_restrict h hm
          exact Bool.false_ne_true
        rw [hnone]
        exact .nil

end Restrict

/-! ## The grammar -/

theorem isWellFormed_iff {t : Ty} :
    Grammar.isWellFormed [t] = true ↔ Grammar.Proper t.constituents := by
  rw [Grammar.isWellFormed, Option.isNone_iff_eq_none, Grammar.check_eq_none_iff,
    Ty.constituentsAll_eq_flatMap, List.flatMap_singleton]

/-- A type that obeys the grammar still does once it is normalised and once classifiers
are excluded from it. What it is restricted to obeys the grammar in any case. -/
theorem narrowing_keeps_grammar (t : Ty) (cs : List Classifier) :
    (Grammar.isWellFormed [t] = true → Grammar.isWellFormed [t.canonical] = true ∧
      Grammar.isWellFormed [exclude t cs] = true) ∧
    Grammar.isWellFormed [restrict t cs] = true := by
  simp only [isWellFormed_iff]
  exact ⟨fun h => ⟨h.canonical, proper_exclude h cs⟩, proper_restrict t cs⟩

/-- The variable and the classifiers of `mixedWays`, with the value in front. -/
def orderedWays : Ty :=
  .union [.con (.named "Int") [], .union (threeWays.reverse.map fun c => .errorConst c []),
    .errorVar ⟨"X", .bounded (.of "AB" (threeWays.take 2)), false⟩]

theorem narrowing_of_orderedWays :
    Grammar.isWellFormed [orderedWays] = true ∧ Grammar.isWellFormed [mixedWays] = false ∧
      Grammar.isWellFormed [orderedWays.canonical] = true ∧
      Grammar.isWellFormed [exclude orderedWays (threeWays.take 1)] = true ∧
      Grammar.isWellFormed [restrict orderedWays (threeWays.take 1)] = true ∧
      Grammar.isWellFormed [restrict mixedWays (threeWays.take 1)] = true := by
  have hwell : Grammar.isWellFormed [orderedWays] = true := by decide
  obtain ⟨hkeeps, hrestrict⟩ := narrowing_keeps_grammar orderedWays (threeWays.take 1)
  obtain ⟨hcanonical, hexclude⟩ := hkeeps hwell
  exact ⟨hwell, by decide, hcanonical, hexclude, hrestrict,
    (narrowing_keeps_grammar mixedWays (threeWays.take 1)).2⟩

end Narrowing

end Fallible
