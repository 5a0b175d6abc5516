import Fallible.Proofs.Checks
import Fallible.Proofs.Formation
import Fallible.Proofs.Resolution

/-!
# Sets that fit the unions they are put into

A solution puts whole sets in the place of error variables. A union that obeyed
the grammar need not obey it afterwards, and where the union is an argument
nothing checks it again.

Two variables of one union cannot get into each other's way: each has a set
within its alias, and their aliases have nothing in common. There are two other
ways to break the union. A set can hold two rigid variables that overlap, since
sets are not unions and no rule is asked of them. And a set can hold a classifier
that the union names itself, with other arguments. A solution fits a union if
neither happens.
-/

namespace Fallible

namespace Grammar

/-! ## What a constituent may hold -/

namespace Kind

/-- Whether a constituent of the kind names a classifier, or may hold it without
naming it. -/
def holds : Kind → Classifier → Bool
  | .named i, c => i == c.id
  | .ranging u, c => u.contains c
  | _, _ => false

variable {k l : Kind}

theorem exists_holds_of_clashes (h : k.clashes l = true) :
    (k = .value ∧ l = .value) ∨ ∃ c, k.holds c = true ∧ l.holds c = true := by
  cases k with
  | value => cases l <;> first | exact Or.inl ⟨rfl, rfl⟩ | cases h
  | named i =>
      cases l with
      | named j =>
          have hij : j = i := (beq_iff_eq.1 h).symm
          exact Or.inr ⟨⟨i, [], "", [], none⟩, beq_iff_eq.2 rfl, beq_iff_eq.2 hij⟩
      | _ => cases h
  | ranging x =>
      cases l with
      | ranging y => exact Or.inr (Universe.overlaps_iff.1 h)
      | _ => cases h
  | other => cases h

theorem clashes_of_holds {c : Classifier} (hk : k.holds c = true) (hl : l.holds c = true) :
    k.clashes l = true ∨ (∃ i x, k = .named i ∧ l = .ranging x) ∨
      ∃ x i, k = .ranging x ∧ l = .named i := by
  cases k with
  | named i =>
      cases l with
      | named j => exact Or.inl (beq_iff_eq.2 ((beq_iff_eq.1 hk).trans (beq_iff_eq.1 hl).symm))
      | ranging y => exact Or.inr (Or.inl ⟨i, y, rfl, rfl⟩)
      | _ => cases hl
  | ranging x =>
      cases l with
      | named j => exact Or.inr (Or.inr ⟨x, j, rfl, rfl⟩)
      | ranging y => exact Or.inl (Universe.overlaps_iff.2 ⟨c, hk, hl⟩)
      | _ => cases hl
  | _ => cases hk

end Kind

theorem errorConst_of_kind {x : Ty} {i : Int} (h : kind x = .named i) :
    ∃ c args, x = .errorConst c args ∧ c.id = i := by
  cases x with
  | errorConst c args => cases h; exact ⟨c, args, rfl, rfl⟩
  | _ => cases h

end Grammar

/-! ## Closing -/

namespace Ty

/-- What is left of a type once projections that were never bound have gone. -/
def closing (t : Ty) : Ty := t.canonical.ground.canonical

theorem mem_arguments_closing {t a : Ty} (h : a ∈ t.closing.arguments) :
    ∃ x ∈ t.arguments, a = x.closing := by
  obtain ⟨y, hy, rfl⟩ := mem_arguments_canonical h
  rw [ground_eq_graft] at hy
  rcases (rebuilds_graft grounding).mem_arguments hy with ⟨z, hz, rfl⟩ | ⟨z, hz, hy⟩
  · obtain ⟨x, hx, rfl⟩ := mem_arguments_canonical hz
    exact ⟨x, hx, by rw [closing, ground_eq_graft]⟩
  · cases z with
    | valueProj name flexible => cases flexible <;> exact absurd hy List.not_mem_nil
    | union | con | errorConst => cases hz
    | _ => exact absurd hy List.not_mem_nil

/-- Dropping projections leaves a constituent of the same kind, or none. -/
theorem mem_grounding {m t x : Ty} (hm : m ∈ t.constituents)
    (hx : x ∈ (m.graft grounding).constituents) :
    x = m.graft grounding ∧ Grammar.kind x = Grammar.kind m := by
  have hsole : ∀ {y : Ty}, m.graft grounding = y → y.constituents = [y] →
      Grammar.kind y = Grammar.kind m →
      x = m.graft grounding ∧ Grammar.kind x = Grammar.kind m := by
    intro y hy hsole hkind
    rw [hy, hsole] at hx
    rw [List.mem_singleton.1 hx]
    exact ⟨hy.symm, hkind⟩
  cases m with
  | valueProj name flexible =>
      cases flexible with
      | true => exact absurd hx List.not_mem_nil
      | false => exact hsole rfl rfl rfl
  | union | any | var | nothing => rcases member_cases hm with h | h | h <;> cases h
  | _ => exact hsole rfl rfl rfl

end Ty

/-- A type is closed to one that obeys the grammar if constituents clash only if they
are closed to the same. -/
theorem Grammar.Coherent.closing {t : Ty} (h : Coherent Ty.closing t.constituents) :
    Proper t.closing.constituents := by
  refine Coherent.canonical fun x hx y hy hclash => ?_
  rw [Ty.ground_eq_graft,
    Ty.constituents_graft Ty.harmless_grounding ((Ty.split_canonical t).spared _)] at hx hy
  obtain ⟨m, hm, hx⟩ := List.mem_flatMap.1 hx
  obtain ⟨n, hn, hy⟩ := List.mem_flatMap.1 hy
  obtain ⟨rfl, hkx⟩ := Ty.mem_grounding hm hx
  obtain ⟨rfl, hky⟩ := Ty.mem_grounding hn hy
  obtain ⟨x, hxt, rfl⟩ := Ty.mem_canonical hm
  obtain ⟨y, hyt, rfl⟩ := Ty.mem_canonical hn
  rw [hkx, hky, kind_canonical hxt, kind_canonical hyt] at hclash
  rw [← Ty.ground_eq_graft, ← Ty.ground_eq_graft]
  exact h x hxt y hyt hclash

theorem Alias.contains_of_id {a : Alias} {c d : Classifier} (h : a.contains d = true)
    (hid : d.id = c.id) : a.contains c = true := by
  obtain ⟨e, he, hde⟩ := List.contains_iff_exists_mem_beq.1 h
  exact List.contains_iff_exists_mem_beq.2
    ⟨e, he, BEq.trans (Classifier.beq_iff.2 hid.symm) hde⟩

/-! ## Solutions -/

namespace Solution

open Grammar (Proper Coherent Kind kind)

/-- A solution as solving leaves it: each set names an atom once, stays within the
alias of its variable, and has well-formed arguments. -/
structure WellFormed (s : Solution) : Prop where
  clean : s.Clean
  distinct : s.sets.Distinct
  listed : ∀ v set, s.get? v = some set → set.Distinct
  within : ∀ v set, s.get? v = some set → Fixpoint.WithinAlias s v
  args : ∀ v set, s.get? v = some set → ∀ e ∈ set.entries, ∀ x ∈ e.2, x.WellFormed

/-- Whether the sets of a solution fit a union. The variables of one set do not
overlap, and a classifier that the union names has the same arguments there as in the
sets, once they are resolved. -/
structure Fits (s : Solution) (t : Ty) : Prop where
  apart : ∀ v set, .errorVar v ∈ t.constituents → s.get? v = some set → set.universal = false →
    ∀ x y, set.contains (.var x) = true → set.contains (.var y) = true →
      x.bound.overlaps y.bound = true → (x == y) = true
  agree : ∀ v set, .errorVar v ∈ t.constituents → s.get? v = some set → set.universal = false →
    ∀ c args d args', .errorConst c args ∈ t.constituents →
      (.classifier d, args') ∈ set.entries → c.id = d.id →
      (s.settled (.errorConst c args) == (Ty.errorConst d args').closing) = true

theorem wellFormed_empty : (Solution.empty).WellFormed :=
  ⟨⟨fun _ _ h => (by cases h), fun _ h => (by cases h)⟩, Table.distinct_empty,
    fun _ _ h => (by cases h), fun _ _ h => (by cases h), fun _ _ h => (by cases h)⟩

theorem mem_arguments_image {set : ErrorSet} {a : Ty} (h : a ∈ (image set).arguments) :
    ∃ e ∈ set.entries, ∃ x ∈ e.2, a = x ∨ a ∈ x.arguments := by
  cases hu : set.universal with
  | true =>
      rw [image, hu, if_pos rfl] at h
      exact absurd h List.not_mem_nil
  | false =>
      rw [image, hu, if_neg Bool.false_ne_true, Ty.arguments, Ty.mem_argumentsAll] at h
      obtain ⟨m, hm, ha⟩ := h
      rw [ErrorSet.members, hu, if_neg Bool.false_ne_true, List.append_nil] at hm
      obtain ⟨⟨atom, args⟩, he, rfl⟩ := List.mem_map.1 hm
      cases atom with
      | var w => exact absurd ha List.not_mem_nil
      | classifier c =>
          refine ⟨_, he, ?_⟩
          rcases List.mem_append.1 ha with ha | ha
          · exact ⟨a, ha, Or.inl rfl⟩
          · obtain ⟨x, hx, ha⟩ := Ty.mem_argumentsAll.1 ha
            exact ⟨x, hx, Or.inr ha⟩

theorem settled_eq (s : Solution) (t : Ty) : s.settled t = (t.canonical.graft s.leaf).closing := by
  rw [settled, apply_eq, Ty.closing]

section Fitting

variable {s : Solution} (hs : s.WellFormed)

include hs

/-- What a constituent becomes: one of the same kind, or the atoms of a set. -/
theorem WellFormed.mem_graft {m t x : Ty} (hm : m ∈ t.constituents)
    (hx : x ∈ (m.graft s.leaf).constituents) :
    ((m.graft s.leaf).constituents = [x] ∧ m.graft s.leaf = x ∧ kind x = kind m) ∨
      ∃ v set, m = .errorVar v ∧ s.get? v = some set ∧ set.universal = false ∧
        ∃ e ∈ set.entries, x = e.1.toMember e.2 := by
  have hsole : ∀ {y : Ty}, m.graft s.leaf = y → y.constituents = [y] → kind y = kind m →
      (m.graft s.leaf).constituents = [x] ∧ m.graft s.leaf = x ∧ kind x = kind m := by
    intro y hy hsole hkind
    rw [hy, hsole] at hx ⊢
    obtain rfl := List.mem_singleton.1 hx
    exact ⟨rfl, rfl, hkind⟩
  cases m with
  | errorVar v =>
      cases hv : s.get? v with
      | none => exact Or.inl (hsole (leaf_waiting hs.distinct hv) rfl rfl)
      | some set =>
          have hleaf : (Ty.errorVar v).graft s.leaf = image set := leaf_solved hs.distinct hv
          cases hu : set.universal with
          | true =>
              rw [image, hu, if_pos rfl] at hleaf
              refine Or.inl (hsole hleaf rfl ?_)
              -- Only a variable without alias holds everything.
              cases hb : v.bound with
              | unbounded => rw [kind, kind, hb]; rfl
              | bounded a =>
                  have hfits := (Fixpoint.fitsAlias_iff.1 (hs.within v set hv a hb)).1
                  rw [Solution.getD, hv, Option.getD_some, hu] at hfits
                  cases hfits
          | false =>
              rw [hleaf, constituents_image hu] at hx
              obtain ⟨e, he, rfl⟩ := List.mem_map.1 hx
              exact Or.inr ⟨v, set, rfl, hv, hu, e, he, rfl⟩
  | valueProj name flexible => exact Or.inl (hsole (leaf_valueProj name flexible) rfl rfl)
  | union | any | var | nothing => rcases Ty.member_cases hm with h | h | h <;> cases h
  | con c args => exact Or.inl (hsole rfl rfl rfl)
  | errorConst c args => exact Or.inl (hsole rfl rfl rfl)
  | value | error | erroneous => exact Or.inl (hsole rfl rfl rfl)

theorem WellFormed.value_of_mem_graft {m t x : Ty} (hm : m ∈ t.constituents)
    (hx : x ∈ (m.graft s.leaf).constituents) (hv : kind x = .value) : kind m = .value := by
  rcases hs.mem_graft hm hx with ⟨_, _, hkind⟩ | ⟨_, _, _, _, _, ⟨atom, args⟩, _, rfl⟩
  · exact hkind.symm.trans hv
  · cases atom <;> cases hv

/-- What takes the place of a constituent holds nothing that it could not hold. -/
theorem WellFormed.holds_of_mem_graft {m t x : Ty} (hm : m ∈ t.constituents)
    (hx : x ∈ (m.graft s.leaf).constituents) {c : Classifier} (hc : (kind x).holds c = true) :
    (kind m).holds c = true := by
  rcases hs.mem_graft hm hx with ⟨_, _, hkind⟩ | ⟨v, set, rfl, hv, hu, ⟨atom, args⟩, he, rfl⟩
  · rwa [← hkind]
  · show v.bound.bare.contains c = true
    rw [Universe.contains_bare]
    cases hb : v.bound with
    | unbounded => rfl
    | bounded a =>
        have hfits := hs.within v set hv a hb
        rw [Solution.getD, hv, Option.getD_some, Fixpoint.fitsAlias_iff] at hfits
        have hin : atom.isWithin a = true := hfits.2 _ he
        cases atom with
        | classifier d => exact Alias.contains_of_id hin (beq_iff_eq.1 hc)
        | var w =>
            change w.bound.bare.contains c = true at hc
            rw [Universe.contains_bare] at hc
            rw [Atom.isWithin] at hin
            cases hw : w.bound with
            | unbounded => rw [hw] at hin; cases hin
            | bounded b =>
                rw [hw] at hin hc
                obtain ⟨d, hd, hcd⟩ := List.contains_iff_exists_mem_beq.1 hc
                exact Alias.contains_of_id (List.all_eq_true.1 hin d hd)
                  (Classifier.beq_iff.1 hcd).symm

/-- The atoms of a set clash only if they are spelled differently. -/
theorem WellFormed.beq_of_clashes {v : ErrorVar} {set : ErrorSet} (hv : s.get? v = some set)
    (hapart : ∀ x y, set.contains (.var x) = true → set.contains (.var y) = true →
      x.bound.overlaps y.bound = true → (x == y) = true) {e e' : Atom × List Ty}
    (he : e ∈ set.entries) (he' : e' ∈ set.entries)
    (hclash : (kind (e.1.toMember e.2)).clashes (kind (e'.1.toMember e'.2)) = true) :
    ((e.1.toMember e.2).closing == (e'.1.toMember e'.2).closing) = true := by
  have hget : ∀ {e : Atom × List Ty}, e ∈ set.entries → set.get? e.1 = some e.2 :=
    fun he => (hs.listed v set hv).get?_of_mem he
  obtain ⟨atom, args⟩ := e
  obtain ⟨atom', args'⟩ := e'
  cases atom with
  | classifier c =>
      cases atom' with
      | classifier d =>
          have hcd : (Atom.classifier c == .classifier d) = true :=
            Classifier.beq_iff.2 (beq_iff_eq.1 hclash)
          obtain rfl : args = args' := by
            have hsame := set.get?_congr hcd
            exact Option.some.inj ((hget he).symm.trans (hsame.trans (hget he')))
          show (Ty.errorConst c (Ty.canonicalAll (Ty.groundAll (Ty.canonicalAll args))) ==
            Ty.errorConst d (Ty.canonicalAll (Ty.groundAll (Ty.canonicalAll args)))) = true
          rw [Ty.beq_iff, Ty.bare, Ty.bare, Classifier.beq_iff_bare.1 hcd]
      | var y => cases hclash
  | var x =>
      cases atom' with
      | classifier d => cases hclash
      | var y =>
          change x.bound.bare.overlaps y.bound.bare = true at hclash
          rw [Universe.overlaps_bare] at hclash
          exact (beq_errorVar x y).trans
            (hapart x y (ErrorSet.contains_of_mem he) (ErrorSet.contains_of_mem he') hclash)

/-- Applying a solution to a union that it fits leaves no clash. -/
theorem WellFormed.coherent_graft {a : Ty} (ha : Proper a.constituents) (hsplit : a.Split)
    (hcanon : ∀ m ∈ a.constituents, m.canonical = m) (hfits : s.Fits a) :
    Coherent Ty.closing (a.graft s.leaf).constituents := by
  -- A classifier that the union names, and one in a set.
  have hagree : ∀ {m n x y : Ty} {i : Int} {u : Universe}, m ∈ a.constituents →
      n ∈ a.constituents → kind m = .named i → kind n = .ranging u →
      x ∈ (m.graft s.leaf).constituents → y ∈ (n.graft s.leaf).constituents →
      (kind x).clashes (kind y) = true → (x.closing == y.closing) = true := by
    intro m n x y i u hm hn hi hu hx hy hclash
    obtain ⟨c, args, rfl, rfl⟩ := Grammar.errorConst_of_kind hi
    obtain rfl := List.mem_singleton.1 hx
    rcases hs.mem_graft hn hy with ⟨_, _, hkind⟩ | ⟨v, set, rfl, hv, hno, ⟨atom, args'⟩, he, rfl⟩
    · rw [hkind, hu] at hclash
      cases hclash
    · cases atom with
      | var w => cases hclash
      | classifier d =>
          have hsame := hfits.agree v set hn hv hno c args d args' hm he (beq_iff_eq.1 hclash)
          rw [settled_eq, hcanon _ hm] at hsame
          exact hsame
  intro x hx y hy hclash
  rw [Ty.constituents_graft (harmless_leaf hs.clean hs.distinct) (hsplit.spared _)] at hx hy
  obtain ⟨m, hm, hx⟩ := List.mem_flatMap.1 hx
  obtain ⟨n, hn, hy⟩ := List.mem_flatMap.1 hy
  cases hmn : (kind m).clashes (kind n) with
  | true =>
      obtain rfl := ha.eq_of_clashes hm hn hmn
      rcases hs.mem_graft hm hx with ⟨hsole, _⟩ | ⟨v, set, rfl, hv, hu, e, he, rfl⟩
      · rw [hsole] at hy
        rw [List.mem_singleton.1 hy]
        exact BEq.rfl
      · have hleaf : (Ty.errorVar v).graft s.leaf = image set := leaf_solved hs.distinct hv
        rw [hleaf, constituents_image hu] at hy
        obtain ⟨e', he', rfl⟩ := List.mem_map.1 hy
        exact hs.beq_of_clashes hv (hfits.apart v set hm hv hu) he he' hclash
  | false =>
      rcases Kind.exists_holds_of_clashes hclash with ⟨hxv, hyv⟩ | ⟨c, hcx, hcy⟩
      · rw [hs.value_of_mem_graft hm hx hxv, hs.value_of_mem_graft hn hy hyv] at hmn
        cases hmn
      · rcases Kind.clashes_of_holds (hs.holds_of_mem_graft hm hx hcx)
          (hs.holds_of_mem_graft hn hy hcy) with h | ⟨i, u, hi, hu⟩ | ⟨u, i, hu, hi⟩
        · rw [hmn] at h
          cases h
        · exact hagree hm hn hi hu hx hy hclash
        · rw [Kind.clashes_comm] at hclash
          exact BEq.symm (hagree hn hm hi hu hy hx hclash)

/-- An argument of a type to which a solution is applied is one of its arguments, or
stands in a set. -/
theorem WellFormed.mem_arguments_graft {t a : Ty} (ha : a ∈ (t.graft s.leaf).arguments) :
    (∃ x ∈ t.arguments, a = x.graft s.leaf) ∨ a.WellFormed := by
  refine ((Ty.rebuilds_graft s.leaf).mem_arguments ha).imp_right ?_
  rintro ⟨x, hx, ha⟩
  cases x with
  | errorVar v =>
      cases hv : s.get? v with
      | none =>
          rw [Ty.graft, leaf_waiting hs.distinct hv] at ha
          exact absurd ha List.not_mem_nil
      | some set =>
          rw [Ty.graft, leaf_solved hs.distinct hv] at ha
          obtain ⟨e, he, x, hx, ha⟩ := mem_arguments_image ha
          rcases ha with rfl | ha
          · exact hs.args v set hv e he _ hx
          · exact (hs.args v set hv e he x hx).of_mem_arguments ha
  | valueProj name flexible =>
      rw [Ty.graft, leaf_valueProj] at ha
      exact absurd ha List.not_mem_nil
  | union | con | errorConst => cases hx
  | _ => exact absurd ha List.not_mem_nil

/-- A type that a solution fits is settled to one that is well-formed inside. -/
theorem WellFormed.wellFormedWithin_settled {t : Ty} (ht : t.WellFormedWithin)
    (hfits : ∀ a ∈ t.canonical.arguments, s.Fits a) : (s.settled t).WellFormedWithin := by
  intro a ha
  rw [settled_eq] at ha
  obtain ⟨x, hx, rfl⟩ := Ty.mem_arguments_closing ha
  refine Grammar.Coherent.closing ?_
  rcases hs.mem_arguments_graft hx with ⟨y, hy, rfl⟩ | hx
  · obtain ⟨z, _, rfl⟩ := Ty.mem_arguments_canonical hy
    exact hs.coherent_graft (ht.canonical _ hy) (Ty.split_canonical z)
      z.canonical_canonical_and_constituents.2 (hfits _ hy)
  · exact hx.top.coherent _

end Fitting

/-- A solution stays well-formed if more variables get empty sets. -/
theorem WellFormed.extend {s : Solution} (hs : s.WellFormed) {vs : List ErrorVar}
    (hvs : ∀ v ∈ vs, v.flexible = true) :
    (s.extend (.ofList (vs.map fun v => (v, .empty)))).WellFormed := by
  have hget := get?_extend hs.distinct vs
  refine ⟨hs.clean.extend hs.distinct vs hvs, (Table.distinct_ofList _).insertAll _, ?_, ?_, ?_⟩
  all_goals
    intro v set hv
    rcases hget v with h | ⟨_, h⟩
  · exact hs.listed v set (h.symm.trans hv)
  · cases h.symm.trans hv
    exact List.Pairwise.nil
  · intro a ha
    have hfits := hs.within v set (h.symm.trans hv) a ha
    rwa [Solution.getD, ← h] at hfits
  · intro a _
    rw [Solution.getD, h, Option.getD_some]
    exact Fixpoint.fitsAlias_iff.2 ⟨rfl, fun _ he => absurd he List.not_mem_nil⟩
  · exact hs.args v set (h.symm.trans hv)
  · cases h.symm.trans hv
    exact fun _ he => absurd he List.not_mem_nil

end Solution

/-- What the solver finds is well-formed, if the arguments in the constraints are. -/
theorem Fixpoint.wellFormed_of_solveBy {policy : Policy} {r : Registry} {view : View}
    {cs : List Constraint} {o : Outcome} (hclean : ∀ c ∈ cs, c.Clean)
    (hargs : ∀ c ∈ cs, ∀ set ∈ c.errorSets, ∀ e ∈ set.entries, ∀ x ∈ e.2, x.WellFormed)
    (h : solveBy policy r view cs .empty = .ok o) (ho : o.success = true) :
    o.solution.WellFormed := by
  obtain ⟨state, hrun, hviolation, rfl⟩ := solveBy_success h ho
  have hregular := Regular.run hrun
  refine ⟨run_clean (p := ⟨cs, policy, view.holds⟩) hclean hrun,
    (run_distinct hrun).mapValues _, ?_, ?_, ?_⟩
  all_goals intro v set hv
  · rw [Holdings.eq_toSet_of_get? hv]
    exact ErrorSet.distinct_ofTable (hregular.distinct v) _
  · have hin : state.holdings.contains v = true := by
      rw [← Table.contains_mapValues Holding.toSet]
      exact Table.contains_of_get? hv
    obtain ⟨c, hc, w, hw, hwv⟩ := run_mentioned hrun hin
    have hwithin := (violationFrom_none_iff.1 hviolation c hc).2 w hw ((hclean c hc).flexible w hw)
    exact (hwithin.resolve_left (by simp)).congr hwv
  · intro e he x hx
    rw [Holdings.eq_toSet_of_get? hv] at he
    obtain ⟨_, _, _, _, hpool⟩ := (hregular.inPlay v).2 e (ErrorSet.mem_entries_ofEntries.1 he)
    rcases List.mem_append.1 (hpool x hx) with hx | hx
    · obtain ⟨d, hd, hx⟩ := List.mem_flatMap.1 hx
      have hoffers : ∀ e ∈ offered .empty cs, ∀ x ∈ e.2, x.WellFormed :=
        offered_each (fun _ h => absurd h List.not_mem_nil) hargs
          fun _ _ hx => absurd hx List.not_mem_nil
      exact hoffers d hd x hx
    · have hlast : ∀ y ∈ [Ty.value, Ty.nothing], y.WellFormed := by decide
      exact hlast x hx

end Fallible
