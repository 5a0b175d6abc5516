import Fallible.Proofs.Step

/-!
# What can be held during a run

Nothing is held during a run that was not offered at its start. The atoms are
those of the given sets and of the constraints. The arguments of an atom are as
many as in some list offered for it, and each of them was offered somewhere, or
is `Value` or `Nothing`, which merging may put in the place of two arguments
that do not compare. So the lists that an atom can have are drawn from a finite
pool, however long a run takes.

The order in which a variable has taken up its atoms only ever gets longer. A
variable that is the target of no constraint never changes.
-/

namespace Fallible

/-! ## Where merged arguments come from -/

namespace Payload

/-- A merged argument is one of the two, or one of the two fallbacks. -/
theorem mergeArg_origin {p : Policy} {holds : Comparison} {v : Variance} {old new m : Ty}
    (h : mergeArg p holds v old new = .ok (some m)) :
    m = old ∨ m = new ∨ m = .value ∨ m = .nothing := by
  have hagreed : ∀ {r : Except Fault (Option Ty)}, r = .ok (agreed old new) →
      r = .ok (some m) → m = old := by
    intro r hr hm
    rw [hr] at hm
    injection hm with hm
    unfold agreed at hm
    split at hm
    · injection hm with hm; exact hm.symm
    · cases hm
  have hchoice : ∀ {x y : Ty} {fallback : Option Ty},
      (do
        if ← holds old new then return some x
        else if ← holds new old then return some y
        else return fallback : Except Fault (Option Ty)) = .ok (some m) →
      m = x ∨ m = y ∨ fallback = some m := by
    intro x y fallback hm
    cases h1 : holds old new with
    | error f => rw [h1] at hm; cases hm
    | ok b1 =>
        rw [h1] at hm
        cases b1 with
        | true => cases hm; exact Or.inl rfl
        | false =>
            cases h2 : holds new old with
            | error f => simp [h2, bind, Except.bind] at hm
            | ok b2 =>
                simp only [h2, bind, Except.bind] at hm
                cases b2 with
                | true => cases hm; exact Or.inr (Or.inl rfl)
                | false => cases hm; exact Or.inr (Or.inr rfl)
  cases v with
  | invariant => exact Or.inl (hagreed rfl h)
  | covariant =>
      cases p with
      | strict => exact Or.inl (hagreed rfl h)
      | soft =>
          rcases hchoice h with h | h | h
          · exact Or.inl h
          · exact Or.inr (Or.inl h)
          · cases h; exact Or.inr (Or.inr (Or.inl rfl))
  | contravariant =>
      cases p with
      | strict =>
          rcases hchoice h with h | h | h
          · exact Or.inr (Or.inl h)
          · exact Or.inl h
          · cases h
      | soft =>
          rcases hchoice h with h | h | h
          · exact Or.inr (Or.inl h)
          · exact Or.inl h
          · cases h; exact Or.inr (Or.inr (Or.inr rfl))

/-- All that merging the first two arguments can do when it succeeds. -/
theorem mergeFrom_cons {p : Policy} {holds : Comparison} {atom : Atom} {i : Nat} {a b : Ty}
    {as bs ms : List Ty} (h : mergeFrom p holds atom i (a :: as) (b :: bs) = .ok (some ms)) :
    ∃ m rest, ms = m :: rest ∧ mergeArg p holds (atom.variance i) a b = .ok (some m) ∧
      mergeFrom p holds atom (i + 1) as bs = .ok (some rest) := by
  rw [mergeFrom] at h
  cases hm : mergeArg p holds (atom.variance i) a b with
  | error f => rw [hm] at h; cases h
  | ok m =>
      rw [hm] at h
      cases m with
      | none => cases h
      | some m =>
          simp only [bind, Except.bind] at h
          cases hr : mergeFrom p holds atom (i + 1) as bs with
          | error f => rw [hr] at h; cases h
          | ok rest =>
              rw [hr] at h
              cases rest with
              | none => cases h
              | some rest => cases h; exact ⟨m, rest, rfl, rfl, rfl⟩

theorem mergeFrom_origin {p : Policy} {holds : Comparison} {atom : Atom} :
    ∀ {i : Nat} {as bs ms : List Ty}, as.length = bs.length →
      mergeFrom p holds atom i as bs = .ok (some ms) →
      ms.length = as.length ∧
        ∀ m ∈ ms, m ∈ as ∨ m ∈ bs ∨ m = .value ∨ m = .nothing := by
  intro i as
  induction as generalizing i with
  | nil =>
      intro bs ms _ h
      simp only [mergeFrom] at h
      cases h
      exact ⟨rfl, fun m hm => absurd hm List.not_mem_nil⟩
  | cons a as ih =>
      intro bs ms hlen h
      cases bs with
      | nil => cases hlen
      | cons b bs =>
          obtain ⟨m, rest, rfl, hm, hr⟩ := mergeFrom_cons h
          obtain ⟨hl, hmem⟩ := ih (by simpa using hlen) hr
          refine ⟨by rw [List.length_cons, List.length_cons, hl], fun x hx => ?_⟩
          rcases List.mem_cons.1 hx with rfl | hx
          · rcases mergeArg_origin hm with rfl | rfl | h
            · exact Or.inl (List.mem_cons_self ..)
            · exact Or.inr (Or.inl (List.mem_cons_self ..))
            · exact Or.inr (Or.inr h)
          · rcases hmem x hx with h | h | h
            · exact Or.inl (List.mem_cons_of_mem _ h)
            · exact Or.inr (Or.inl (List.mem_cons_of_mem _ h))
            · exact Or.inr (Or.inr h)

/-- A merged list is as long as one of the two, and each of its arguments
comes from one of them or is a fallback. -/
theorem merge_origin {p : Policy} {holds : Comparison} {atom : Atom} {cur inc ms : List Ty}
    (h : merge p holds atom cur inc = .ok (some ms)) :
    (ms.length = cur.length ∨ ms.length = inc.length) ∧
      ∀ m ∈ ms, m ∈ cur ∨ m ∈ inc ∨ m = .value ∨ m = .nothing := by
  unfold merge at h
  split at h
  · cases h; exact ⟨Or.inl rfl, fun m hm => Or.inl hm⟩
  · split at h
    · cases h; exact ⟨Or.inr rfl, fun m hm => Or.inr (Or.inl hm)⟩
    · split at h
      · cases h
      · next hlen =>
          have hlen : cur.length = inc.length := by simpa using hlen
          obtain ⟨hl, hmem⟩ := mergeFrom_origin hlen h
          exact ⟨Or.inl hl, hmem⟩

end Payload

namespace Fixpoint

/-! ## Lists in play -/

/-- The arguments that can stand in a list. -/
def pool (offers : List (Atom × List Ty)) : List Ty :=
  offers.flatMap Prod.snd ++ [.value, .nothing]

/-- Whether an atom can come to have a list of arguments. -/
def InPlay (offers : List (Atom × List Ty)) (a : Atom) (args : List Ty) : Prop :=
  ∃ e ∈ offers, (e.1 == a) = true ∧ args.length = e.2.length ∧ ∀ x ∈ args, x ∈ pool offers

section InPlay

variable {offers : List (Atom × List Ty)}

theorem InPlay.of_mem {e : Atom × List Ty} (h : e ∈ offers) {a : Atom}
    (ha : (e.1 == a) = true) : InPlay offers a e.2 :=
  ⟨e, h, ha, rfl, fun _ hx =>
    List.mem_append_left _ (List.mem_flatMap.2 ⟨e, h, hx⟩)⟩

theorem InPlay.congr {a b : Atom} {args : List Ty} (h : InPlay offers a args)
    (hab : (a == b) = true) : InPlay offers b args := by
  obtain ⟨e, he, hea, hlen, hpool⟩ := h
  exact ⟨e, he, BEq.trans hea hab, hlen, hpool⟩

theorem InPlay.merge {p : Policy} {holds : Comparison} {a : Atom} {cur inc ms : List Ty}
    (hcur : InPlay offers a cur) (hinc : InPlay offers a inc)
    (h : Payload.merge p holds a cur inc = .ok (some ms)) : InPlay offers a ms := by
  obtain ⟨e, he, hea, hlen, hpool⟩ := hcur
  obtain ⟨d, hd, hda, hlen', hpool'⟩ := hinc
  obtain ⟨hl, hmem⟩ := Payload.merge_origin h
  have hms : ∀ x ∈ ms, x ∈ pool offers := by
    intro x hx
    rcases hmem x hx with hx | hx | rfl | rfl
    · exact hpool x hx
    · exact hpool' x hx
    · simp [pool]
    · simp [pool]
  rcases hl with hl | hl
  · exact ⟨e, he, hea, hl.trans hlen, hms⟩
  · exact ⟨d, hd, hda, hl.trans hlen', hms⟩

/-- Whether the atoms of a table are offered and their lists are in play. -/
def AllInPlay (offers : List (Atom × List Ty)) (t : Instantiations) : Prop :=
  t.keys ⊆ offers.map Prod.fst ∧ ∀ e ∈ t.entries, InPlay offers e.1 e.2

theorem AllInPlay.empty : AllInPlay offers .empty :=
  ⟨List.nil_subset _, fun _ he => absurd he List.not_mem_nil⟩

theorem AllInPlay.get? {t : Instantiations} (h : AllInPlay offers t) {a : Atom}
    {args : List Ty} (hg : t.get? a = some args) : InPlay offers a args := by
  obtain ⟨k, hk, hka⟩ := Table.mem_of_get? hg
  exact (h.2 _ hk).congr hka

theorem AllInPlay.insert {t : Instantiations} (h : AllInPlay offers t) {a : Atom}
    {args : List Ty} (hmem : a ∈ offers.map Prod.fst) (ha : InPlay offers a args) :
    AllInPlay offers (t.insert a args) := by
  refine ⟨fun k hk => ?_, fun e he => ?_⟩
  · rcases Table.mem_keys_insert hk with rfl | hk
    · exact hmem
    · exact h.1 hk
  · rcases Table.mem_insert he with ⟨hk, hv⟩ | ht
    · rw [hv]; exact ha.congr (BEq.symm hk)
    · exact h.2 e ht

/-- The lists of a set are in play if its entries are offered. -/
theorem AllInPlay.index {s : ErrorSet} (h : ∀ e ∈ s.entries, e ∈ offers) :
    AllInPlay offers s.index := by
  have hall : ∀ (es : List (Atom × List Ty)) (t : Instantiations), AllInPlay offers t →
      (∀ e ∈ es, e ∈ offers) → AllInPlay offers (t.insertAll es) := by
    intro es
    induction es with
    | nil => intro t ht _; exact ht
    | cons e rest ih =>
        intro t ht hes
        have he := hes e (List.mem_cons_self ..)
        refine ih _ (ht.insert (List.mem_map_of_mem he) (InPlay.of_mem he BEq.rfl)) ?_
        exact fun d hd => hes d (List.mem_cons_of_mem _ hd)
  exact hall s.entries .empty AllInPlay.empty h

theorem AllInPlay.beyond {h : Holding} (hp : AllInPlay offers h.atoms) (known : ErrorSet) :
    AllInPlay offers (h.beyond known).atoms := by
  refine ⟨fun k hk => ?_, fun e he => hp.2 e (List.mem_filter.1 he).1⟩
  obtain ⟨e, he, rfl⟩ := List.mem_map.1 hk
  exact hp.1 (List.mem_map_of_mem (List.mem_filter.1 he).1)

end InPlay

/-! ## Absorbing keeps lists in play, and keeps the order of atoms -/

theorem absorb_allInPlay {offers : List (Atom × List Ty)} {p : Policy} {holds : Comparison}
    {h inc h' : Holding} {grew : Bool} (hh : AllInPlay offers h.atoms)
    (hinc : AllInPlay offers inc.atoms) (hd : h.absorb p holds inc = .ok (.done h' grew)) :
    AllInPlay offers h'.atoms := by
  refine Holding.absorb_invariant (I := AllInPlay offers) ?_ ?_ hh hd
  · intro e he t _ ht
    exact ht.insert (hinc.1 (List.mem_map_of_mem he)) (hinc.2 e he)
  · intro e he t old m hget hm _ ht
    exact ht.insert (hinc.1 (List.mem_map_of_mem he))
      ((ht.get? hget).merge (hinc.2 e he) hm)

theorem absorb_distinct {p : Policy} {holds : Comparison} {h inc h' : Holding} {grew : Bool}
    (hh : h.atoms.Distinct) (hd : h.absorb p holds inc = .ok (.done h' grew)) :
    h'.atoms.Distinct := by
  refine Holding.absorb_invariant (I := Table.Distinct) ?_ ?_ hh hd
  · intro e _ t _ ht
    exact ht.insert e.1 e.2
  · intro e _ t old m _ _ _ ht
    exact ht.insert e.1 m

theorem absorb_keys {p : Policy} {holds : Comparison} {h inc h' : Holding} {grew : Bool}
    (hd : h.absorb p holds inc = .ok (.done h' grew)) : h.atoms.keys <+: h'.atoms.keys := by
  refine Holding.absorb_invariant (I := fun t => h.atoms.keys <+: t.keys) ?_ ?_
    (List.prefix_rfl) hd
  · intro e _ t hnone ht
    rw [Table.keys_insert_of_not_contains e.2 (Table.get?_eq_none.1 hnone)]
    exact ht.trans (List.prefix_append ..)
  · intro e _ t old m hget _ _ ht
    rw [Table.keys_insert_of_contains m (Table.contains_of_get? hget)]
    exact ht

/-! ## The states of a run -/

theorem mem_offered_initial {initial : Table ErrorVar ErrorSet} {cs : List Constraint}
    {v : ErrorVar} {s : ErrorSet} (h : initial.get? v = some s) :
    ∀ e ∈ s.entries, e ∈ offered initial cs := by
  intro e he
  obtain ⟨k, hk, _⟩ := Table.mem_of_get? h
  exact List.mem_append_left _
    (List.mem_flatMap.2 ⟨s, List.mem_map.2 ⟨(k, s), hk, rfl⟩, he⟩)

theorem mem_offered_constraint {initial : Table ErrorVar ErrorSet} {cs : List Constraint}
    {c : Constraint} (hc : c ∈ cs) {e : Atom × List Ty}
    (he : e ∈ (match c.demand with
      | .unionSubset _ _ required => required.entries
      | .subset sub _ _ => [(.var sub, [])]
      | _ => [])) : e ∈ offered initial cs :=
  List.mem_append_right _ (List.mem_flatMap.2 ⟨c, hc, he⟩)

/-- What holds of the holdings and the queue in every state of a run. -/
structure Regular (cs : List Constraint) (initial : Table ErrorVar ErrorSet) (s : State) :
    Prop where
  nodup : s.queue.Nodup
  places : ∀ i ∈ s.queue, i < cs.length
  inPlay : ∀ v, AllInPlay (offered initial cs) (s.holdings.of v).atoms
  distinct : ∀ v, (s.holdings.of v).atoms.Distinct
  /-- Only targets change. -/
  frame : ∀ v, (∀ c ∈ cs, ∀ t, c.target? = some t → (t == v) = false) →
    s.holdings.of v = (Holdings.start initial cs).of v

theorem Regular.start (initial : Table ErrorVar ErrorSet) (cs : List Constraint) :
    Regular cs initial (State.start initial cs) where
  nodup := List.nodup_range
  places _ h := List.mem_range.1 h
  inPlay v := by
    show AllInPlay _ (Holdings.of (Holdings.start initial cs) v).atoms
    rw [Holdings.of_start]
    cases hv : initial.get? v with
    | none => exact AllInPlay.empty
    | some s => exact AllInPlay.index (mem_offered_initial hv)
  distinct v := by
    show (Holdings.of (Holdings.start initial cs) v).atoms.Distinct
    rw [Holdings.of_start]
    cases hv : initial.get? v with
    | none => exact Table.distinct_empty
    | some s => exact Table.distinct_ofList s.entries
  frame _ _ := rfl

theorem contribution_allInPlay {cs : List Constraint} {initial : Table ErrorVar ErrorSet}
    {c : Constraint} (hc : c ∈ cs) {hs : Holdings} {t : ErrorVar} {inc : Holding}
    (hin : ∀ v, AllInPlay (offered initial cs) (hs.of v).atoms)
    (hcon : c.contribution? hs = some (t, inc)) : AllInPlay (offered initial cs) inc.atoms := by
  have hoff := @mem_offered_constraint initial cs c hc
  unfold Constraint.contribution? at hcon
  cases hd : c.demand with
  | subset sub sup known =>
      rw [hd] at hcon hoff
      cases hcon
      refine AllInPlay.beyond ?_ known
      unfold Holdings.source
      split
      · exact hin sub
      · have hself := hoff (List.mem_singleton.2 rfl)
        exact AllInPlay.empty.insert (List.mem_map_of_mem hself) (InPlay.of_mem hself BEq.rfl)
  | unionSubset v known required =>
      rw [hd] at hcon hoff
      cases hcon
      exact AllInPlay.beyond (AllInPlay.index fun e he => hoff he) known
  | upperBound v bound => rw [hd] at hcon; cases hcon
  | none => rw [hd] at hcon; cases hcon

theorem Problem.nodup_readers (p : Problem) (v : ErrorVar) : (p.readers v).Nodup := by
  unfold Problem.readers
  have hidx : (p.constraints.zipIdx.map Prod.snd).Nodup := by
    rw [List.zipIdx_map_snd]
    exact List.nodup_range' ..
  exact hidx.sublist (List.filter_sublist.map Prod.snd)

theorem Problem.nodup_requeue {p : Problem} {rest : List Nat} (h : rest.Nodup)
    (t : ErrorVar) : (p.requeue rest t).Nodup := by
  unfold Problem.requeue
  rw [List.nodup_append]
  refine ⟨h, (p.nodup_readers t).filter _, ?_⟩
  intro i hi j hj hij
  subst hij
  have := (List.mem_filter.1 hj).2
  simp [hi] at this

theorem Regular.step {p : Problem} {initial : Table ErrorVar ErrorSet} {s s' : State}
    {place : Nat} {rest : List Nat} (hs : Regular p.constraints initial s)
    (hq : s.queue = place :: rest) (hstep : p.step s place rest = .ok (.next s')) :
    Regular p.constraints initial s' := by
  have hnodup : rest.Nodup := by
    have := hs.nodup
    rw [hq, List.nodup_cons] at this
    exact this.2
  have hplaces : ∀ i ∈ rest, i < p.constraints.length := fun i hi =>
    hs.places i (by rw [hq]; exact List.mem_cons_of_mem _ hi)
  rcases Problem.step_next hstep with ⟨_, rfl⟩ |
    ⟨c, t, inc, h', grew, hc, hcon, habs, rfl⟩
  · exact ⟨hnodup, hplaces, hs.inPlay, hs.distinct, hs.frame⟩
  · have hmem := List.mem_of_getElem? hc
    refine ⟨?_, fun i hi => ?_, fun v => ?_, fun v => ?_, fun v hv => ?_⟩
    · show (if grew then p.requeue rest t else rest).Nodup
      split
      · exact Problem.nodup_requeue hnodup t
      · exact hnodup
    · change i ∈ (if grew then p.requeue rest t else rest) at hi
      split at hi
      · rcases Problem.mem_requeue.1 hi with hi | hi
        · exact hplaces i hi
        · obtain ⟨d, u, hd, _⟩ := Problem.mem_readers.1 hi
          exact (List.getElem?_eq_some_iff.1 hd).1
      · exact hplaces i hi
    · show AllInPlay _ (Holdings.of (s.holdings.insert t h') v).atoms
      rw [Holdings.of_insert]
      split
      · exact absorb_allInPlay (hs.inPlay t)
          (contribution_allInPlay hmem hs.inPlay hcon) habs
      · exact hs.inPlay v
    · show (Holdings.of (s.holdings.insert t h') v).atoms.Distinct
      rw [Holdings.of_insert]
      split
      · exact absorb_distinct (hs.distinct t) habs
      · exact hs.distinct v
    · show Holdings.of (s.holdings.insert t h') v = _
      rw [Holdings.of_insert, hv c hmem t (Constraint.contribution?_some hcon).1]
      exact hs.frame v hv

/-- A step makes the list of a variable's atoms longer or leaves it. -/
theorem Problem.step_keys {p : Problem} {s s' : State} {place : Nat} {rest : List Nat}
    (hstep : p.step s place rest = .ok (.next s')) (v : ErrorVar) :
    (s.holdings.of v).atoms.keys <+: (s'.holdings.of v).atoms.keys := by
  rcases Problem.step_next hstep with ⟨_, rfl⟩ |
    ⟨c, t, inc, h', grew, _, _, habs, rfl⟩
  · exact List.prefix_rfl
  · show _ <+: (Holdings.of (s.holdings.insert t h') v).atoms.keys
    rw [Holdings.of_insert]
    split
    · next htv =>
        rw [← Holdings.of_congr s.holdings htv]
        exact absorb_keys habs
    · exact List.prefix_rfl

theorem Problem.stateAfter_keys {p : Problem} {s s' : State} {n : Nat}
    (h : p.stateAfter s n = some s') (v : ErrorVar) :
    (s.holdings.of v).atoms.keys <+: (s'.holdings.of v).atoms.keys :=
  Problem.stateAfter_invariant
    (I := fun u => (s.holdings.of v).atoms.keys <+: (u.holdings.of v).atoms.keys)
    (fun hi _ hstep => hi.trans (Problem.step_keys hstep v)) List.prefix_rfl h

theorem Regular.stateAfter {p : Problem} {initial : Table ErrorVar ErrorSet} {n : Nat}
    {s : State} (h : p.stateAfter (State.start initial p.constraints) n = some s) :
    Regular p.constraints initial s :=
  Problem.stateAfter_invariant (I := Regular p.constraints initial)
    (fun hi hq hstep => hi.step hq hstep) (Regular.start initial p.constraints) h

theorem Regular.run {p : Problem} {initial : Table ErrorVar ErrorSet} {n : Nat} {s : State}
    (h : p.run n (State.start initial p.constraints) = .ok (.next s)) :
    Regular p.constraints initial s :=
  (Problem.run_next (I := Regular p.constraints initial) (fun hi hq hstep => hi.step hq hstep)
    (Regular.start initial p.constraints) h).1

end Fixpoint

end Fallible
