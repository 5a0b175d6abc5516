import Fallible.Proofs.Table
import Fallible.Proofs.WrittenOrder
import Mathlib.Data.List.Nodup

/-!
# Error sets as maps

An error set is made from a map of atoms to arguments, and two sets are equal if
their listings are. Atoms are listed by a key that tells classifiers apart, and
variables by their names only. So a set does not always forget in which order its
map was written.

Main statement: maps that agree under every atom give equal sets exactly if the
variables of each name were written in one order. They do if no two share a name.
-/

namespace Fallible

/-- The error variable that an atom is, if it is one. -/
def Atom.var? : Atom → Option ErrorVar
  | .classifier _ => none
  | .var v => some v

/-- The error variables of a map, in the order of writing. -/
def insertedVars (t : Instantiations) : List ErrorVar := t.keys.filterMap Atom.var?

/-- An entry without the spelling of classifiers. -/
def bareEntry (e : Atom × List Ty) : Atom × List Ty := (e.1.bare, e.2.map Ty.bare)

theorem beq_entry_iff (d e : Atom × List Ty) : (d == e) = true ↔ bareEntry d = bareEntry e := by
  show (d.1 == e.1 && d.2 == e.2) = true ↔ _
  rw [Bool.and_eq_true, Atom.beq_iff, beq_list_iff fun _ _ => Ty.beq_iff, bareEntry, bareEntry,
    Prod.mk.injEq]

theorem Atom.key_bare (a : Atom) : a.bare.key = a.key := by
  cases a <;> rfl

/-- Atoms of one key are equal, unless they are variables. -/
theorem Atom.beq_of_key {a b : Atom} (hkey : a.key = b.key)
    (hvar : ∀ v w, a = .var v → b = .var w → v.name = w.name → (v == w) = true) :
    (a == b) = true := by
  cases a with
  | classifier c =>
      cases b with
      | classifier d => exact Classifier.beq_iff.2 (congrArg SortKey.id hkey)
      | var w => cases hkey
  | var v =>
      cases b with
      | classifier d => cases hkey
      | var w => exact hvar v w rfl rfl (congrArg SortKey.name hkey)

namespace ErrorSet

theorem beq_iff {s t : ErrorSet} : (s == t) = true ↔
    s.entries.map bareEntry = t.entries.map bareEntry ∧ s.universal = t.universal := by
  show (s.entries == t.entries && s.universal == t.universal) = true ↔ _
  rw [Bool.and_eq_true, beq_list_iff beq_entry_iff, beq_iff_eq]

/-- Sets made from two maps are equal if the entries of each key are, in the order of
writing. -/
theorem ofTable_beq_iff_keys (t u : Instantiations) (universal : Bool) :
    (ofTable t universal == ofTable u universal) = true ↔
      ∀ k, (t.entries.map bareEntry).filter (fun e => decide (e.1.key = k)) =
        (u.entries.map bareEntry).filter fun e => decide (e.1.key = k) := by
  have hbare : ∀ es : List (Atom × List Ty), (ofEntries es universal).entries.map bareEntry =
      sortOn (fun e => e.1.key) (es.map bareEntry) :=
    map_sortOn fun d e => by rw [bareEntry, bareEntry, Atom.key_bare, Atom.key_bare]
  rw [beq_iff, ofTable, ofTable, hbare, hbare]
  exact (and_iff_left rfl).trans sortOn_eq_iff

section Tables

variable {t u : Instantiations}

theorem nodup_bareEntries (h : t.Distinct) :
    ((t.entries.map bareEntry).map Prod.fst).Nodup := by
  rw [List.map_map]
  refine List.Pairwise.map _ (fun d e hne heq => ?_) (List.pairwise_map.1 h)
  exact Bool.eq_false_iff.1 hne (Atom.beq_iff.2 heq)

/-- Whether two maps have the same arguments under every atom, up to spelling. -/
def SameArguments (t u : Instantiations) : Prop := ∀ a, (t.get? a == u.get? a) = true

theorem SameArguments.symm (h : SameArguments t u) : SameArguments u t := by
  intro a
  have ha := h a
  cases ht : t.get? a with
  | none =>
      rw [ht] at ha
      cases hu : u.get? a with
      | none => rfl
      | some bs => rw [hu] at ha; cases ha
  | some as =>
      rw [ht] at ha
      cases hu : u.get? a with
      | none => rw [hu] at ha; cases ha
      | some bs => rw [hu] at ha; exact BEq.symm (α := List Ty) ha

/-- Maps that were written in two orders. -/
theorem sameArguments_of_perm (h : t.Distinct) (hperm : u.entries.Perm t.entries) :
    SameArguments t u := by
  intro a
  rw [h.get?_of_perm hperm]
  exact BEq.rfl

theorem bareEntries_subset (ht : t.Distinct) (hsame : SameArguments t u) :
    ∀ e ∈ t.entries.map bareEntry, e ∈ u.entries.map bareEntry := by
  intro e he
  obtain ⟨⟨a, args⟩, hmem, rfl⟩ := List.mem_map.1 he
  have hget := hsame a
  rw [ht.get?_of_mem hmem] at hget
  cases hu : u.get? a with
  | none => rw [hu] at hget; cases hget
  | some args' =>
      rw [hu] at hget
      obtain ⟨b, hb, hba⟩ := Table.mem_of_get? hu
      refine List.mem_map.2 ⟨(b, args'), hb, ((beq_entry_iff _ _).1 ?_).symm⟩
      exact Bool.and_eq_true_iff.2 ⟨BEq.symm hba, hget⟩

theorem bareEntries_perm (ht : t.Distinct) (hu : u.Distinct) (hsame : SameArguments t u) :
    (t.entries.map bareEntry).Perm (u.entries.map bareEntry) := by
  refine (List.perm_ext_iff_of_nodup (List.Nodup.of_map _ (nodup_bareEntries ht))
    (List.Nodup.of_map _ (nodup_bareEntries hu))).2 fun e => ?_
  exact ⟨bareEntries_subset ht hsame e, bareEntries_subset hu hsame.symm e⟩

/-- Entries of a key that tells their atoms apart can be written in any order. -/
theorem filter_key_eq_of_same (ht : t.Distinct) (hu : u.Distinct) (hsame : SameArguments t u)
    {k : SortKey} (hk : ∀ a ∈ t.keys, ∀ b ∈ t.keys, a.key = k → b.key = k → (a == b) = true) :
    (t.entries.map bareEntry).filter (fun e => decide (e.1.key = k)) =
      (u.entries.map bareEntry).filter fun e => decide (e.1.key = k) := by
  refine eq_of_perm_of_forall_eq ((bareEntries_perm ht hu hsame).filter _) fun d hd e he => ?_
  obtain ⟨hd, hdk⟩ := List.mem_filter.1 hd
  obtain ⟨he, hek⟩ := List.mem_filter.1 he
  refine List.inj_on_of_nodup_map (nodup_bareEntries ht) hd he ?_
  obtain ⟨d, hdt, rfl⟩ := List.mem_map.1 hd
  obtain ⟨e, het, rfl⟩ := List.mem_map.1 he
  have hdk := (Atom.key_bare d.1).symm.trans (of_decide_eq_true hdk)
  have hek := (Atom.key_bare e.1).symm.trans (of_decide_eq_true hek)
  exact Atom.beq_iff.1 (hk _ (List.mem_map_of_mem hdt) _ (List.mem_map_of_mem het) hdk hek)

theorem map_fst_filter_key_var (name : String) (es : List (Atom × List Ty)) :
    ((es.map bareEntry).filter fun e => decide (e.1.key = ⟨1, 0, name⟩)).map Prod.fst =
      (((es.map Prod.fst).filterMap Atom.var?).filter fun v => v.name == name).map
        fun v => .var v.bare := by
  induction es with
  | nil => rfl
  | cons e es ih =>
      obtain ⟨a, args⟩ := e
      rw [List.map_cons]
      cases a with
      | classifier c =>
          rw [List.filter_cons_of_neg (by simp [bareEntry, Atom.bare, Atom.key]), ih]
          rfl
      | var v =>
          rw [List.filter_cons]
          by_cases hv : v.name = name <;>
            simpa [bareEntry, Atom.bare, ErrorVar.bare, Atom.key, Atom.var?, hv] using ih

theorem namesakes_insertedVars (h : t.Distinct) (name : String) :
    namesakes name (insertedVars t) = (insertedVars t).filter fun v => v.name == name := by
  refine distinct_of_pairwise (List.Pairwise.filter _ (List.pairwise_filterMap.2 ?_))
  refine List.Pairwise.imp (fun {a b} hab v hv w hw => ?_) h
  cases a <;> cases hv
  cases b <;> cases hw
  exact hab

theorem ofTable_beq_iff_namesakes (ht : t.Distinct) (hu : u.Distinct)
    (hsame : SameArguments t u) (universal : Bool) :
    (ofTable t universal == ofTable u universal) = true ↔
      ∀ name, (namesakes name (insertedVars t) == namesakes name (insertedVars u)) = true := by
  have hvar : ∀ v w : ErrorVar, (v == w) = true ↔ Atom.var v.bare = Atom.var w.bare :=
    fun v w => ErrorVar.beq_iff_bare.trans (Atom.var.injEq _ _).to_iff.symm
  have hname : ∀ name,
      (namesakes name (insertedVars t) == namesakes name (insertedVars u)) = true ↔
        (t.entries.map bareEntry).filter (fun e => decide (e.1.key = ⟨1, 0, name⟩)) =
          (u.entries.map bareEntry).filter fun e => decide (e.1.key = ⟨1, 0, name⟩) := by
    intro name
    rw [namesakes_insertedVars ht, namesakes_insertedVars hu, beq_list_iff hvar, insertedVars,
      insertedVars, Table.keys, Table.keys, ← map_fst_filter_key_var, ← map_fst_filter_key_var]
    refine ⟨eq_of_map_eq fun d hd e he => ?_, congrArg _⟩
    refine List.inj_on_of_nodup_map (nodup_bareEntries ht) (List.mem_filter.1 hd).1 ?_
    exact (bareEntries_perm ht hu hsame).mem_iff.2 (List.mem_filter.1 he).1
  rw [ofTable_beq_iff_keys]
  refine ⟨fun h name => (hname name).2 (h _), fun h k => ?_⟩
  by_cases hk : ∃ name, k = ⟨1, 0, name⟩
  · obtain ⟨name, rfl⟩ := hk
    exact (hname name).1 (h name)
  · refine filter_key_eq_of_same ht hu hsame fun a _ b _ ha hb => ?_
    refine Atom.beq_of_key (ha.trans hb.symm) fun v _ hv => absurd ⟨v.name, ?_⟩ hk
    rw [← ha, hv]
    rfl

/-- Two maps that agree under every atom give equal sets if and only if the variables of
each name were written in one order. So they do if no two variables share a name. -/
theorem ofTable_shows_order_of_namesakes (ht : t.Distinct) (hu : u.Distinct)
    (hsame : SameArguments t u) (universal : Bool) :
    ((ofTable t universal == ofTable u universal) = true ↔
      ∀ name, (namesakes name (insertedVars t) == namesakes name (insertedVars u)) = true) ∧
    ((∀ v ∈ insertedVars t, ∀ w ∈ insertedVars t, v.name = w.name → (v == w) = true) →
      (ofTable t universal == ofTable u universal) = true) := by
  refine ⟨ofTable_beq_iff_namesakes ht hu hsame universal, fun honce => ?_⟩
  refine (ofTable_beq_iff_keys t u universal).2 fun k => ?_
  refine filter_key_eq_of_same ht hu hsame fun a ha b hb hak hbk => ?_
  refine Atom.beq_of_key (hak.trans hbk.symm) fun v w hv hw => ?_
  exact honce v (List.mem_filterMap.2 ⟨a, ha, by rw [hv]; rfl⟩) w
    (List.mem_filterMap.2 ⟨b, hb, by rw [hw]; rfl⟩)

end Tables

/-- A variable that is rigid or flexible, without a bound. -/
def homonym (flexible : Bool) : Atom × List Ty := (.var ⟨"E", .unbounded, flexible⟩, [])

/-- A classifier with an argument. -/
def withArgument : Atom × List Ty := (.classifier ⟨0, [], "A", [.covariant], some 0⟩, [.value])

/-- The classifier may be written in front of the variables or between them. -/
theorem ofTable_of_homonyms_in_order :
    SameArguments ⟨[homonym false, withArgument, homonym true]⟩
        ⟨[withArgument, homonym false, homonym true]⟩ ∧
      (ofTable ⟨[homonym false, withArgument, homonym true]⟩ true ==
        ofTable ⟨[withArgument, homonym false, homonym true]⟩ true) = true := by
  have hdistinct : Table.Distinct ⟨[homonym false, withArgument, homonym true]⟩ := by
    unfold Table.Distinct
    decide
  have hperm : [withArgument, homonym false, homonym true].Perm
    [homonym false, withArgument, homonym true] := .swap ..
  have hsame := sameArguments_of_perm (u := ⟨[withArgument, homonym false, homonym true]⟩)
    hdistinct hperm
  exact ⟨hsame, (ofTable_shows_order_of_namesakes hdistinct (hdistinct.of_perm hperm) hsame
    true).1.2 fun name => BEq.rfl⟩

/-- The two variables may not change places. -/
theorem ofTable_depends_on_order :
    ¬ ∀ (t u : Instantiations) (universal : Bool), t.Distinct → u.Distinct →
      u.entries.Perm t.entries → (ofTable t universal == ofTable u universal) = true := by
  intro h
  have hbeq := h ⟨[homonym false, homonym true]⟩ ⟨[homonym true, homonym false]⟩ false
    (List.pairwise_pair.2 rfl) (List.pairwise_pair.2 rfl) (.swap ..)
  exact absurd hbeq (by decide)

end ErrorSet

end Fallible
