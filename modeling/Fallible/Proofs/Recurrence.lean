import Fallible.Proofs.Offers
import Mathlib.Algebra.BigOperators.Fin
import Mathlib.Algebra.Order.BigOperators.Group.Finset
import Mathlib.Data.Fintype.BigOperators
import Mathlib.Data.Fintype.Pigeonhole
import Mathlib.Data.List.GetD

/-!
# A run that does not end comes back to where it was

What happens next in a run depends on the queue and on what the variables hold,
and on nothing else. If both are as they were some steps before, the run goes
round for ever.

The converse needs counting. Only the targets of constraints change. What a
target holds is made up from a finite pool, except for the order in which its
atoms were taken up. That order only gets longer, so it is the same in two
states of one run if it has the same length in both, for all targets together.
A state is thus told from the others of its run by a number of atoms, a queue
and a choice from the pool for every target, and there are `stepBound` of these
descriptions. A run that has made that many steps has been through more states
than there are descriptions, and will never end.

So `stepBound` is not one bound out of many: a run that it stops has no end.
-/

namespace Fallible.Fixpoint

/-! ## What the next step depends on -/

/-- Whether two states have the same queue and the same holdings. -/
def State.Same (s s' : State) : Prop :=
  s.queue = s'.queue ∧ ∀ v, s.holdings.of v = s'.holdings.of v

theorem contribution?_of_same {hs hs' : Holdings} (h : ∀ v, hs.of v = hs'.of v)
    (c : Constraint) : c.contribution? hs = c.contribution? hs' := by
  unfold Constraint.contribution?
  cases c.demand with
  | subset sub sup known => simp only [Holdings.source, h]
  | unionSubset v known required => rfl
  | upperBound v bound => rfl
  | none => rfl

theorem Problem.step_of_no_target {p : Problem} {s : State} {place : Nat} {rest : List Nat}
    (h : ∀ c, p.constraints[place]? = some c → c.target? = none) :
    p.step s place rest = .ok (.next (s.skipped rest)) := by
  unfold Problem.step
  cases hc : p.constraints[place]? with
  | none => rfl
  | some c =>
      have hcon : ∀ hs : Holdings, c.contribution? hs = none := by
        intro hs
        cases hcon : c.contribution? hs with
        | none => rfl
        | some ti =>
            have htarget := (Constraint.contribution?_some hcon).1
            rw [h c hc] at htarget
            cases htarget
      simp only [Problem.applyTo, hcon]
      rfl

/-- Either there is nothing to do at a place, or something is contributed. -/
theorem Problem.idle_or_contribution (p : Problem) (hs : Holdings) (place : Nat) :
    (∀ c, p.constraints[place]? = some c → c.target? = none) ∨
      ∃ c t inc, p.constraints[place]? = some c ∧ c.contribution? hs = some (t, inc) := by
  cases hc : p.constraints[place]? with
  | none => exact Or.inl fun c hc' => by cases hc'
  | some c =>
      cases hcon : c.contribution? hs with
      | none =>
          refine Or.inl fun d hd => ?_
          cases hd
          exact Constraint.target?_of_contribution?_none hcon
      | some ti => exact Or.inr ⟨c, ti.1, ti.2, rfl, hcon⟩

theorem Problem.step_of_clash {p : Problem} {s : State} {place : Nat} {rest : List Nat}
    {c : Constraint} {t : ErrorVar} {inc : Holding} {k : Classifier} {first second : List Ty}
    (hc : p.constraints[place]? = some c) (hcon : c.contribution? s.holdings = some (t, inc))
    (habs : (s.holdings.of t).absorb p.policy p.holds inc = .ok (.clash k first second)) :
    p.step s place rest = .ok (.conflict (s.skipped rest)
      ⟨c.location, .ambiguousArguments t k first second⟩) := by
  unfold Problem.step
  simp only [hc, Problem.applyTo, hcon, habs, bind, Except.bind]
  rfl

theorem Problem.step_of_done {p : Problem} {s : State} {place : Nat} {rest : List Nat}
    {c : Constraint} {t : ErrorVar} {inc h : Holding} {grew : Bool}
    (hc : p.constraints[place]? = some c) (hcon : c.contribution? s.holdings = some (t, inc))
    (habs : (s.holdings.of t).absorb p.policy p.holds inc = .ok (.done h grew)) :
    p.step s place rest = .ok (.next (s.written p rest t h grew)) := by
  unfold Problem.step
  simp only [hc, Problem.applyTo, hcon, habs, bind, Except.bind]
  cases grew with
  | true => rfl
  | false => rfl

/-- The same again: a step does not tell such states apart. -/
theorem Problem.advance_of_same {p : Problem} {s s' u : State} (h : s.Same s')
    (hu : p.advance s = some u) : ∃ u', p.advance s' = some u' ∧ u.Same u' := by
  obtain ⟨place, rest, hq, hstep⟩ := Problem.advance_some hu
  have hadv : ∀ {w}, p.step s' place rest = .ok (.next w) → p.advance s' = some w := by
    intro w hw
    unfold Problem.advance
    rw [← h.1, hq]
    simp only [hw]
  rcases Problem.step_next hstep with ⟨hnone, rfl⟩ |
    ⟨c, t, inc, k, grew, hc, hcon, habs, rfl⟩
  · exact ⟨_, hadv (Problem.step_of_no_target hnone), rfl, h.2⟩
  · rw [contribution?_of_same h.2] at hcon
    rw [h.2] at habs
    refine ⟨_, hadv (Problem.step_of_done hc hcon habs), rfl, fun v => ?_⟩
    show Holdings.of (s.holdings.insert t k) v = Holdings.of (s'.holdings.insert t k) v
    rw [Holdings.of_insert, Holdings.of_insert, h.2]

theorem Problem.stateAfter_of_same {p : Problem} {s s' : State} (h : s.Same s') :
    ∀ {n : Nat} {u : State}, p.stateAfter s n = some u →
      ∃ u', p.stateAfter s' n = some u' ∧ u.Same u' := by
  intro n
  induction n with
  | zero => intro u hu; cases hu; exact ⟨s', rfl, h⟩
  | succ n ih =>
      intro u hu
      rw [Problem.stateAfter] at hu
      obtain ⟨w, hw, hadv⟩ := Option.bind_eq_some_iff.1 hu
      obtain ⟨w', hw', hsame⟩ := ih hw
      obtain ⟨u', hu', hsame'⟩ := Problem.advance_of_same hsame hadv
      exact ⟨u', by rw [Problem.stateAfter, hw']; exact hu', hsame'⟩

/-- Whether the loop comes back to a queue and holdings it has had before. -/
def Problem.Recurs (p : Problem) (s : State) : Prop :=
  ∃ i j a b, i < j ∧ p.stateAfter s i = some a ∧ p.stateAfter s j = some b ∧ a.Same b

/-- Once it has come back, the loop goes on for ever. -/
theorem Problem.Recurs.stateAfter {p : Problem} {s : State} (h : p.Recurs s) (n : Nat) :
    ∃ u, p.stateAfter s n = some u := by
  obtain ⟨i, j, a, b, hij, ha, hb, hsame⟩ := h
  induction n using Nat.strongRecOn with
  | ind n ih =>
      by_cases hn : n ≤ j
      · exact Problem.stateAfter_some_mono hb hn
      · -- The walk from `b` follows the walk from `a`, which is `j - i` steps behind.
        obtain ⟨u, hu⟩ := ih (i + (n - j)) (by omega)
        rw [p.stateAfter_add, ha] at hu
        obtain ⟨u', hu', _⟩ := Problem.stateAfter_of_same hsame hu
        refine ⟨u', ?_⟩
        have hn' : n = j + (n - j) := by omega
        rw [hn', p.stateAfter_add, hb]
        exact hu'

/-! ## Descriptions of states -/

section Description

variable (cs : List Constraint) (offers : List (Atom × List Ty))

/-- The places of a holding where something is chosen: one for every offer, and
one for every argument of an offer. -/
abbrev Choice : Type := (k : Fin offers.length) × Option (Fin (offers.get k).2.length)

/-- A flag, and for every place a choice: from the pool for an argument, and for
an offer whether there is a list of its length at all. -/
abbrev HoldingCode : Type := Bool × (Choice offers → Fin (offeredArgs offers + 3))

/-- A number of atoms, a queue and a holding for every constraint's target. -/
abbrev Code : Type :=
  Fin (cs.length * offers.length + 1) ×
    (Fin cs.length → Fin (cs.length + 1)) × (Fin cs.length → HoldingCode offers)

theorem offeredArgs_eq_sum :
    offeredArgs offers = ∑ k : Fin offers.length, (offers.get k).2.length := by
  induction offers with
  | nil => rfl
  | cons e rest ih =>
      rw [offeredArgs, List.foldr_cons, ← offeredArgs, ih]
      exact (Fin.sum_univ_succ fun k : Fin (rest.length + 1) =>
        ((e :: rest).get k).2.length).symm

theorem card_choice : Fintype.card (Choice offers) = offers.length + offeredArgs offers := by
  rw [Fintype.card_sigma, offeredArgs_eq_sum]
  simp only [Fintype.card_option, Fintype.card_fin]
  rw [Finset.sum_add_distrib, Finset.sum_const, Finset.card_univ, Fintype.card_fin]
  simp [Nat.add_comm]

theorem card_holdingCode : Fintype.card (HoldingCode offers) = holdingBound offers := by
  rw [Fintype.card_prod, Fintype.card_fun, card_choice, Fintype.card_bool, Fintype.card_fin]
  rfl

theorem card_code (initial : Table ErrorVar ErrorSet) :
    Fintype.card (Code cs (offered initial cs)) = stepBound initial cs := by
  rw [Fintype.card_prod, Fintype.card_prod, Fintype.card_fun, Fintype.card_fun,
    card_holdingCode]
  simp only [Fintype.card_fin]
  rfl

theorem length_pool : (pool offers).length = offeredArgs offers + 2 := by
  unfold pool
  rw [List.length_append, List.length_flatMap]
  congr 1
  induction offers with
  | nil => rfl
  | cons e rest ih =>
      rw [List.map_cons, List.sum_cons, ih]
      rfl

end Description

/-! ### Holdings -/

section Holding

variable {offers : List (Atom × List Ty)}

/-- The list that a description has for an offer: nothing, or arguments from the
pool. -/
def readArgs (f : Choice offers → Fin (offeredArgs offers + 3)) (k : Fin offers.length) :
    Option (List Ty) :=
  if (f ⟨k, none⟩).val = 0 then none
  else some (List.ofFn fun i => (pool offers).getD (f ⟨k, some i⟩).val .value)

/-- Whether a description is that of a holding: under every offered atom, the
lists as long as the offered one are the same. -/
def Describes (code : HoldingCode offers) (h : Holding) : Prop :=
  code.1 = h.universal ∧ ∀ k : Fin offers.length, ∀ args : List Ty,
    args.length = (offers.get k).2.length →
    (h.atoms.get? (offers.get k).1 = some args ↔ readArgs code.2 k = some args)

theorem exists_readArgs (want : Fin offers.length → Option (List Ty))
    (hlen : ∀ k args, want k = some args → args.length = (offers.get k).2.length)
    (hpool : ∀ k args, want k = some args → ∀ x ∈ args, x ∈ pool offers) :
    ∃ f : Choice offers → Fin (offeredArgs offers + 3), ∀ k, readArgs f k = want k := by
  -- One offer at a time: its mark and the places of its arguments in the pool.
  have hone : ∀ k, ∃ g : Option (Fin (offers.get k).2.length) →
      Fin (offeredArgs offers + 3),
      (if (g none).val = 0 then none
        else some (List.ofFn fun i => (pool offers).getD (g (some i)).val .value)) =
        want k := by
    intro k
    cases hw : want k with
    | none => exact ⟨fun _ => 0, by simp⟩
    | some args =>
        have hl := hlen k args hw
        have hplace : ∀ i : Fin (offers.get k).2.length,
            ∃ m : Fin (offeredArgs offers + 3),
              (pool offers).getD m.val .value = args.get (i.cast hl.symm) := by
          intro i
          obtain ⟨m, hm, hget⟩ :=
            List.getElem_of_mem (hpool k args hw _ (List.get_mem args (i.cast hl.symm)))
          have hbound := length_pool offers
          refine ⟨⟨m, by omega⟩, ?_⟩
          rw [List.getD_eq_getElem _ _ hm, hget]
        choose place hplace using hplace
        refine ⟨fun o => o.elim 1 place, ?_⟩
        simp only [Option.elim_none, Option.elim_some, Fin.val_one, one_ne_zero, if_false,
          hplace, Option.some.injEq]
        refine List.ext_getElem (by simp [hl]) ?_
        intro i h₁ h₂
        simp
  choose g hg using hone
  exact ⟨fun c => g c.1 c.2, hg⟩

theorem exists_describes {h : Holding} (hin : AllInPlay offers h.atoms) :
    ∃ code : HoldingCode offers, Describes code h := by
  obtain ⟨f, hf⟩ := exists_readArgs
    (fun k => (h.atoms.get? (offers.get k).1).filter
      fun args => args.length == (offers.get k).2.length)
    (fun k args hw => by
      have := (Option.filter_eq_some_iff.1 hw).2
      simpa using this)
    (fun k args hw => by
      obtain ⟨_, _, _, _, hpool⟩ := hin.get? (Option.filter_eq_some_iff.1 hw).1
      exact hpool)
  refine ⟨(h.universal, f), rfl, fun k args hl => ?_⟩
  rw [hf, Option.filter_eq_some_iff]
  simp [hl]

/-- Holdings of one description agree under every atom. -/
theorem Describes.get? {code : HoldingCode offers} {h h' : Holding}
    (hd : Describes code h) (hd' : Describes code h') (hin : AllInPlay offers h.atoms)
    {a : Atom} {args : List Ty} (hg : h.atoms.get? a = some args) :
    h'.atoms.get? a = some args := by
  obtain ⟨e, he, hea, hl, _⟩ := hin.get? hg
  obtain ⟨k, hk⟩ := List.get_of_mem he
  rw [← Table.get?_congr _ hea, ← hk] at hg ⊢
  rw [← hk] at hl
  exact (hd'.2 k args hl).2 ((hd.2 k args hl).1 hg)

theorem Describes.unique {code : HoldingCode offers} {h h' : Holding}
    (hd : Describes code h) (hd' : Describes code h') (hin : AllInPlay offers h.atoms)
    (hdis : h.atoms.Distinct) (hkeys : h.atoms.keys = h'.atoms.keys) : h = h' := by
  have hatoms : h.atoms = h'.atoms := by
    refine hdis.ext hkeys fun a ha => ?_
    obtain ⟨args, hg⟩ : ∃ args, h.atoms.get? a = some args := by
      refine Table.get?_of_contains ?_
      rw [Table.contains_eq_any_keys, List.any_eq_true]
      exact ⟨a, ha, BEq.rfl⟩
    rw [hg, hd.get? hd' hin hg]
  cases h
  cases h'
  rw [Holding.mk.injEq]
  exact ⟨hatoms, hd.1.symm.trans hd'.1⟩

/-- A holding has no more atoms than were offered. -/
theorem length_keys_le {t : Instantiations} (hin : AllInPlay offers t) (hdis : t.Distinct) :
    t.keys.length ≤ offers.length := by
  have hoffer : ∀ i : Fin t.keys.length, ∃ k : Fin offers.length,
      ((offers.get k).1 == t.keys.get i) = true := by
    intro i
    obtain ⟨e, he, hea⟩ := List.mem_map.1 (List.get_mem t.keys i)
    obtain ⟨d, hd, hda, _⟩ := hin.2 e he
    obtain ⟨k, hk⟩ := List.get_of_mem hd
    exact ⟨k, by rw [hk, ← hea]; exact hda⟩
  choose offer hoffer using hoffer
  have hinj : Function.Injective offer := by
    intro i j hij
    have hsame : (t.keys.get i == t.keys.get j) = true :=
      BEq.trans (BEq.symm (hoffer i)) (hij ▸ hoffer j)
    have hpair := List.pairwise_iff_get.1 hdis
    rcases Nat.lt_trichotomy i.val j.val with hlt | heq | hgt
    · rw [hpair i j hlt] at hsame; cases hsame
    · exact Fin.ext heq
    · rw [BEq.comm, hpair j i hgt] at hsame; cases hsame
  have hcard := Fintype.card_le_of_injective offer hinj
  simpa using hcard

end Holding

/-! ### States -/

section State

variable {cs : List Constraint} {initial : Table ErrorVar ErrorSet}

/-- What the target of the constraint at a place holds. -/
def State.slot (s : State) (cs : List Constraint) (j : Fin cs.length) : Holding :=
  match (cs.get j).target? with
  | some t => s.holdings.of t
  | none => .empty

/-- The number of atoms that the targets hold, each counted as often as it is a
target. -/
def State.size (s : State) (cs : List Constraint) : Nat :=
  ∑ j : Fin cs.length, (s.slot cs j).atoms.keys.length

/-- Whether a description is that of a state. -/
structure CodeOf (code : Code cs (offered initial cs)) (s : State) : Prop where
  size : code.1.val = s.size cs
  queue : ∀ j, (code.2.1 j).val = s.queue.getD j.val cs.length
  slots : ∀ j, Describes (code.2.2 j) (s.slot cs j)

theorem Regular.slot_inPlay {s : State} (h : Regular cs initial s) (j : Fin cs.length) :
    AllInPlay (offered initial cs) (s.slot cs j).atoms := by
  unfold State.slot
  cases (cs.get j).target? with
  | some t => exact h.inPlay t
  | none => exact AllInPlay.empty

theorem Regular.slot_distinct {s : State} (h : Regular cs initial s) (j : Fin cs.length) :
    (s.slot cs j).atoms.Distinct := by
  unfold State.slot
  cases (cs.get j).target? with
  | some t => exact h.distinct t
  | none => exact Table.distinct_empty

theorem Regular.size_le {s : State} (h : Regular cs initial s) :
    s.size cs ≤ cs.length * (offered initial cs).length := by
  have hsum := Finset.sum_le_card_nsmul Finset.univ
    (fun j : Fin cs.length => (s.slot cs j).atoms.keys.length) (offered initial cs).length
    (fun j _ => length_keys_le (h.slot_inPlay j) (h.slot_distinct j))
  unfold State.size
  simpa using hsum

theorem Regular.getD_queue_le {s : State} (h : Regular cs initial s) (j : Nat) :
    s.queue.getD j cs.length ≤ cs.length := by
  by_cases hj : j < s.queue.length
  · rw [List.getD_eq_getElem _ _ hj]
    exact Nat.le_of_lt (h.places _ (List.getElem_mem hj))
  · rw [List.getD_eq_default _ _ (by omega)]

theorem Regular.exists_code {s : State} (h : Regular cs initial s) :
    ∃ code : Code cs (offered initial cs), CodeOf code s := by
  choose slots hslots using fun j => exists_describes (h.slot_inPlay j)
  refine ⟨(⟨s.size cs, Nat.lt_succ_of_le h.size_le⟩,
    fun j => ⟨s.queue.getD j.val cs.length, Nat.lt_succ_of_le (h.getD_queue_le j.val)⟩,
    slots), rfl, fun j => rfl, hslots⟩

/-- The queue never holds more places than there are. -/
theorem Regular.length_queue_le {s : State} (h : Regular cs initial s) :
    s.queue.length ≤ cs.length := by
  have hsub : s.queue ⊆ List.range cs.length :=
    fun i hi => List.mem_range.2 (h.places i hi)
  have hlen := (List.subperm_of_subset h.nodup hsub).length_le
  rwa [List.length_range] at hlen

theorem CodeOf.queue_eq {code : Code cs (offered initial cs)} {s s' : State}
    (hc : CodeOf code s) (hc' : CodeOf code s') (h : Regular cs initial s)
    (h' : Regular cs initial s') : s.queue = s'.queue := by
  -- The end of a queue shows: no place is as large as the number of constraints.
  have hend : ∀ {u : State}, Regular cs initial u → ∀ j,
      u.queue.getD j cs.length = cs.length ↔ u.queue.length ≤ j := by
    intro u hu j
    by_cases hj : j < u.queue.length
    · rw [List.getD_eq_getElem _ _ hj]
      have := hu.places _ (List.getElem_mem hj)
      omega
    · rw [List.getD_eq_default _ _ (by omega)]
      omega
  have hget : ∀ j, s.queue.getD j cs.length = s'.queue.getD j cs.length := by
    intro j
    by_cases hj : j < cs.length
    · exact (hc.queue ⟨j, hj⟩).symm.trans (hc'.queue ⟨j, hj⟩)
    · have h₁ := h.length_queue_le
      have h₂ := h'.length_queue_le
      rw [(hend h j).2 (by omega), (hend h' j).2 (by omega)]
  have hlen : s.queue.length = s'.queue.length := by
    have h₁ := (hend h s'.queue.length).1 (by rw [hget]; exact (hend h' _).2 (Nat.le_refl _))
    have h₂ := (hend h' s.queue.length).1
      (by rw [← hget]; exact (hend h _).2 (Nat.le_refl _))
    omega
  refine List.ext_getElem hlen ?_
  intro j h₁ h₂
  rw [← List.getD_eq_getElem _ cs.length h₁, ← List.getD_eq_getElem _ cs.length h₂]
  exact hget j

/-- Two states of a run with one description are the same. -/
theorem CodeOf.same {code : Code cs (offered initial cs)} {s s' : State}
    (hc : CodeOf code s) (hc' : CodeOf code s') (h : Regular cs initial s)
    (h' : Regular cs initial s')
    (hkeys : ∀ v, (s.holdings.of v).atoms.keys <+: (s'.holdings.of v).atoms.keys) :
    s.Same s' := by
  have hpre : ∀ j, (s.slot cs j).atoms.keys <+: (s'.slot cs j).atoms.keys := by
    intro j
    unfold State.slot
    cases (cs.get j).target? with
    | some t => exact hkeys t
    | none => exact List.prefix_rfl
  have hlen : ∀ j, (s.slot cs j).atoms.keys.length = (s'.slot cs j).atoms.keys.length := by
    have hsum : s.size cs = s'.size cs := hc.size.symm.trans hc'.size
    intro j
    exact (Finset.sum_eq_sum_iff_of_le fun j _ => (hpre j).length_le).1 hsum j
      (Finset.mem_univ j)
  have hslot : ∀ j, s.slot cs j = s'.slot cs j := fun j =>
    (hc.slots j).unique (hc'.slots j) (h.slot_inPlay j) (h.slot_distinct j)
      ((hpre j).eq_of_length (hlen j))
  refine ⟨hc.queue_eq hc' h h', fun v => ?_⟩
  by_cases hv : ∃ c ∈ cs, ∃ t, c.target? = some t ∧ (t == v) = true
  · obtain ⟨c, hmem, t, ht, htv⟩ := hv
    obtain ⟨j, rfl⟩ := List.get_of_mem hmem
    have := hslot j
    unfold State.slot at this
    rw [ht] at this
    rw [← Holdings.of_congr _ htv, ← Holdings.of_congr _ htv]
    exact this
  · have hframe : ∀ c ∈ cs, ∀ t, c.target? = some t → (t == v) = false := by
      intro c hmem t ht
      cases htv : t == v with
      | false => rfl
      | true => exact absurd ⟨c, hmem, t, ht, htv⟩ hv
    rw [h.frame v hframe, h'.frame v hframe]

end State

/-! ## Counting -/

/-- A run that is not over after `stepBound` steps has been where it is
before. -/
theorem Problem.recurs_of_running {p : Problem} {initial : Table ErrorVar ErrorSet} {u : State}
    (h : p.stateAfter (State.start initial p.constraints) (stepBound initial p.constraints) =
      some u) : p.Recurs (State.start initial p.constraints) := by
  choose state hstate using fun i : Fin (stepBound initial p.constraints + 1) =>
    Problem.stateAfter_some_mono h (Nat.le_of_lt_succ i.isLt)
  have hreg := fun i => Regular.stateAfter (hstate i)
  choose code hcode using fun i => (hreg i).exists_code
  obtain ⟨i, j, hij, hsame⟩ := Fintype.exists_ne_map_eq_of_card_lt code (by
    rw [card_code, Fintype.card_fin]
    exact Nat.lt_succ_self _)
  -- Of the two, the earlier one is the start of the walk to the later.
  have hback : ∀ {i j}, i < j → code i = code j →
      p.Recurs (State.start initial p.constraints) := by
    intro i j hlt heq
    refine ⟨i.val, j.val, state i, state j, hlt, hstate i, hstate j, ?_⟩
    refine (hcode i).same (heq ▸ hcode j) (hreg i) (hreg j) fun v => ?_
    refine Problem.stateAfter_keys (p := p) (n := j.val - i.val) ?_ v
    have hj : j.val = i.val + (j.val - i.val) := by
      have : i.val < j.val := hlt
      omega
    have := hstate j
    rw [hj, p.stateAfter_add, hstate i] at this
    exact this
  rcases lt_or_gt_of_ne hij with hlt | hgt
  · exact hback hlt hsame
  · exact hback hgt hsame.symm

/-- The loop comes back to where it was exactly if it never stops. -/
theorem Problem.recurs_iff {p : Problem} {initial : Table ErrorVar ErrorSet} :
    p.Recurs (State.start initial p.constraints) ↔
      ¬ p.Ends (State.start initial p.constraints) := by
  constructor
  · intro h ⟨n, hn⟩
    obtain ⟨u, hu⟩ := h.stateAfter n
    rw [hn] at hu
    cases hu
  · intro h
    cases hb : p.stateAfter (State.start initial p.constraints)
        (stepBound initial p.constraints) with
    | some u => exact Problem.recurs_of_running hb
    | none => exact absurd ⟨_, hb⟩ h

end Fallible.Fixpoint
