import Fallible.Proofs.Recurrence

/-!
# Runs that settle

The loop ends if merging only ever moves a list of arguments downwards in some
rank. Weigh every atom that a target holds by how far down its list is, and
count the flag for one more. Growth raises the weight of the variable that grew
and lowers no other, and the weight is bounded because the atoms and the ranks
are. A step that brings no growth makes the queue shorter. So the room left for
weights, and then the length of the queue, get smaller with every step.

Two cases need no knowledge of how arguments compare. Without arguments there
is nothing to merge, and no conflict either. Under the strict policy a list is
only ever exchanged for another along a contravariant parameter; where there is
none, an empty list may be filled in once and that is all.
-/

namespace Fallible.Table

/-! ## What a write does to a sum over the values -/

variable {α β : Type} [BEq α]

theorem sum_insert_of_not_contains {t : Table α β} {k : α} (v : β) (w : β → Nat)
    (h : t.contains k = false) :
    ((t.insert k v).values.map w).sum = (t.values.map w).sum + w v := by
  rw [insert_of_not_contains v h, values, List.map_append, List.map_append, List.sum_append]
  simp [values]

theorem sum_insert_of_get? {t : Table α β} {k : α} {old : β} (v : β) (w : β → Nat)
    (h : t.get? k = some old) :
    ((t.insert k v).values.map w).sum + w old = (t.values.map w).sum + w v := by
  obtain ⟨es⟩ := t
  show (((put k v es).map Prod.snd).map w).sum + w old = ((es.map Prod.snd).map w).sum + w v
  change find k es = some old at h
  induction es with
  | nil => cases h
  | cons e rest ih =>
      obtain ⟨k', v'⟩ := e
      rw [find] at h
      rw [put]
      split at h
      · next hk =>
          cases h
          rw [if_pos hk]
          simp only [List.map_cons, List.sum_cons]
          omega
      · next hk =>
          rw [if_neg hk]
          have := ih h
          simp only [List.map_cons, List.sum_cons] at this ⊢
          omega

end Fallible.Table

namespace Fallible.Fixpoint

/-! ## Weights -/

/-- Whether merging moves lists in play downwards, in ranks up to `top`. -/
structure Settles (p : Problem) (offers : List (Atom × List Ty)) (rank : List Ty → Nat)
    (top : Nat) : Prop where
  bounded : ∀ args, rank args ≤ top
  descends : ∀ {a : Atom}, a ∈ offers.map Prod.fst → ∀ {cur inc m : List Ty},
    InPlay offers a cur → InPlay offers a inc →
    Payload.merge p.policy p.holds a cur inc = .ok (some m) → (m == cur) = false →
    rank m < rank cur

/-- The weight of some atoms with their arguments. -/
def atomsWeight (rank : List Ty → Nat) (top : Nat) (t : Instantiations) : Nat :=
  (t.values.map fun args => top + 1 - rank args).sum

def holdingWeight (rank : List Ty → Nat) (top : Nat) (h : Holding) : Nat :=
  atomsWeight rank top h.atoms + h.universal.toNat

section Weight

variable {p : Problem} {offers : List (Atom × List Ty)} {rank : List Ty → Nat} {top : Nat}

theorem Settles.absorbEntries (hp : Settles p offers rank top) :
    ∀ {es : List (Atom × List Ty)} {h h' : Holding} {grew grew' : Bool},
      (∀ e ∈ es, e.1 ∈ offers.map Prod.fst ∧ InPlay offers e.1 e.2) →
      AllInPlay offers h.atoms →
      Holding.absorbEntries p.policy p.holds es h grew = .ok (.done h' grew') →
      atomsWeight rank top h.atoms ≤ atomsWeight rank top h'.atoms ∧
        (grew' = true →
          grew = true ∨ atomsWeight rank top h.atoms < atomsWeight rank top h'.atoms) := by
  intro es
  induction es with
  | nil =>
      intro h h' grew grew' _ _ hd
      rw [Holding.absorbEntries] at hd
      cases hd
      exact ⟨Nat.le_refl _, fun hg => Or.inl hg⟩
  | cons e rest ih =>
      intro h h' grew grew' hes hh hd
      obtain ⟨atom, args⟩ := e
      obtain ⟨hname, hplay⟩ := hes _ (List.mem_cons_self ..)
      have hrest : ∀ d ∈ rest, d.1 ∈ offers.map Prod.fst ∧ InPlay offers d.1 d.2 :=
        fun d hd => hes d (List.mem_cons_of_mem _ hd)
      rcases Holding.absorbEntries_cons hd with
        ⟨hget, hr⟩ | ⟨old, m, hget, hm, ⟨_, hr⟩ | ⟨hne, hr⟩⟩
      · obtain ⟨hle, _⟩ := ih hrest (hh.insert hname hplay) hr
        have hsum := Table.sum_insert_of_not_contains args (fun args => top + 1 - rank args)
          (Table.get?_eq_none.1 hget)
        have hrank := hp.bounded args
        have hlt : atomsWeight rank top h.atoms <
            atomsWeight rank top (h.atoms.insert atom args) := by
          unfold atomsWeight
          omega
        exact ⟨Nat.le_of_lt (hlt.trans_le hle), fun _ => Or.inr (hlt.trans_le hle)⟩
      · exact ih hrest hh hr
      · obtain ⟨hle, _⟩ := ih hrest
          (hh.insert hname ((hh.get? hget).merge hplay hm)) hr
        have hsum := Table.sum_insert_of_get? m (fun args => top + 1 - rank args) hget
        have hrank := hp.bounded old
        have hdown := hp.descends hname (hh.get? hget) hplay hm hne
        have hlt : atomsWeight rank top h.atoms <
            atomsWeight rank top (h.atoms.insert atom m) := by
          unfold atomsWeight
          omega
        exact ⟨Nat.le_of_lt (hlt.trans_le hle), fun _ => Or.inr (hlt.trans_le hle)⟩

/-- Growth raises the weight of a holding. -/
theorem Settles.absorb (hp : Settles p offers rank top) {h inc h' : Holding} {grew : Bool}
    (hinc : AllInPlay offers inc.atoms) (hh : AllInPlay offers h.atoms)
    (hd : h.absorb p.policy p.holds inc = .ok (.done h' grew)) :
    holdingWeight rank top h ≤ holdingWeight rank top h' ∧
      (grew = true → holdingWeight rank top h < holdingWeight rank top h') := by
  have hes : ∀ e ∈ inc.atoms.entries, e.1 ∈ offers.map Prod.fst ∧ InPlay offers e.1 e.2 :=
    fun e he => ⟨hinc.1 (List.mem_map_of_mem he), hinc.2 e he⟩
  have hh' : AllInPlay offers
      ({ h with universal := h.universal || inc.universal } : Holding).atoms := hh
  obtain ⟨hle, hgrew⟩ := hp.absorbEntries hes hh' hd
  obtain ⟨hu, _, _⟩ := Holding.absorb_done hd
  change atomsWeight rank top h.atoms ≤ _ at hle
  change grew = true → _ ∨ atomsWeight rank top h.atoms < _ at hgrew
  unfold holdingWeight
  rw [hu]
  refine ⟨?_, fun hg => ?_⟩
  · cases h.universal <;> cases inc.universal <;> simp <;> omega
  · rcases hgrew hg with hflag | hlt
    · rw [Bool.and_eq_true, Bool.not_eq_true'] at hflag
      rw [hflag.1, hflag.2]
      simp
      omega
    · cases h.universal <;> cases inc.universal <;> simp <;> omega

theorem holdingWeight_le {h : Holding} (hin : AllInPlay offers h.atoms)
    (hdis : h.atoms.Distinct) :
    holdingWeight rank top h ≤ offers.length * (top + 1) + 1 := by
  have hlen := length_keys_le hin hdis
  have hsum : atomsWeight rank top h.atoms ≤ h.atoms.values.length * (top + 1) := by
    unfold atomsWeight
    have := List.sum_le_card_nsmul (h.atoms.values.map fun args => top + 1 - rank args)
      (top + 1) (by
        intro x hx
        obtain ⟨args, _, rfl⟩ := List.mem_map.1 hx
        omega)
    simpa using this
  have hsame : h.atoms.values.length = h.atoms.keys.length := by
    simp [Table.values, Table.keys]
  have hmul : h.atoms.values.length * (top + 1) ≤ offers.length * (top + 1) :=
    Nat.mul_le_mul_right _ (by omega)
  have hflag : h.universal.toNat ≤ 1 := Bool.toNat_le _
  unfold holdingWeight
  omega

end Weight

/-! ## The measure of a state -/

section Measure

variable {p : Problem} {initial : Table ErrorVar ErrorSet} {rank : List Ty → Nat} {top : Nat}

def State.weight (s : State) (cs : List Constraint) (rank : List Ty → Nat) (top : Nat) : Nat :=
  ∑ j : Fin cs.length, holdingWeight rank top (s.slot cs j)

/-- A bound on the weight of any state. -/
def weightBound (initial : Table ErrorVar ErrorSet) (cs : List Constraint) (top : Nat) : Nat :=
  cs.length * ((offered initial cs).length * (top + 1) + 1)

/-- The room left for weights, each worth more than the longest queue, and the
length of the queue. -/
def State.measure (s : State) (initial : Table ErrorVar ErrorSet) (cs : List Constraint)
    (rank : List Ty → Nat) (top : Nat) : Nat :=
  (weightBound initial cs top - s.weight cs rank top) * (cs.length + 1) + s.queue.length

theorem Regular.weight_le {s : State} (h : Regular p.constraints initial s) :
    s.weight p.constraints rank top ≤ weightBound initial p.constraints top := by
  have hsum := Finset.sum_le_card_nsmul Finset.univ
    (fun j : Fin p.constraints.length =>
      holdingWeight rank top (s.slot p.constraints j))
    ((offered initial p.constraints).length * (top + 1) + 1)
    (fun j _ => holdingWeight_le (h.slot_inPlay j) (h.slot_distinct j))
  unfold State.weight weightBound
  simpa using hsum

/-- What the targets hold after a write. -/
theorem State.slot_written (s : State) (rest : List Nat) (t : ErrorVar) (h : Holding)
    (grew : Bool) (j : Fin p.constraints.length) :
    (s.written p rest t h grew).slot p.constraints j =
      if (p.constraints.get j).target?.any (fun u => t == u) then h
      else s.slot p.constraints j := by
  unfold State.slot State.written
  cases (p.constraints.get j).target? with
  | none => rfl
  | some u => simp only [Option.any_some, Holdings.of_insert]

/-- Writing what was absorbed raises the weight of a state if it is growth. -/
theorem Settles.weight_written (hp : Settles p (offered initial p.constraints) rank top)
    {s : State} (hs : Regular p.constraints initial s) {place : Nat} {rest : List Nat}
    {c : Constraint} {t : ErrorVar} {inc h : Holding}
    (hc : p.constraints[place]? = some c) (hcon : c.contribution? s.holdings = some (t, inc))
    (habs : (s.holdings.of t).absorb p.policy p.holds inc = .ok (.done h true)) :
    s.weight p.constraints rank top <
      (s.written p rest t h true).weight p.constraints rank top := by
  obtain ⟨hle, hlt⟩ := hp.absorb
    (contribution_allInPlay (List.mem_of_getElem? hc) hs.inPlay hcon) (hs.inPlay t) habs
  obtain ⟨hplace, hget⟩ := List.getElem?_eq_some_iff.1 hc
  have htarget := (Constraint.contribution?_some hcon).1
  refine Finset.sum_lt_sum (fun j _ => ?_) ⟨⟨place, hplace⟩, Finset.mem_univ _, ?_⟩
  · rw [State.slot_written]
    split
    · next hj =>
        obtain ⟨u, hu, htu⟩ := (Option.any_eq_true _ _).1 hj
        unfold State.slot
        rw [hu]
        show holdingWeight rank top (s.holdings.of u) ≤ _
        rw [← Holdings.of_congr _ htu]
        exact hle
    · exact Nat.le_refl _
  · have hc' : p.constraints.get ⟨place, hplace⟩ = c := hget
    rw [State.slot_written, hc', htarget, if_pos (by simp)]
    unfold State.slot
    rw [hc', htarget]
    exact hlt rfl

/-- Every step makes the measure smaller. -/
theorem Settles.step (hp : Settles p (offered initial p.constraints) rank top)
    {s s' : State} {place : Nat} {rest : List Nat} (hs : Regular p.constraints initial s)
    (hq : s.queue = place :: rest) (hstep : p.step s place rest = .ok (.next s')) :
    s'.measure initial p.constraints rank top < s.measure initial p.constraints rank top := by
  -- Without growth the targets hold what they held, and the queue is shorter.
  have hquiet : ∀ {u : State}, u.queue = rest →
      (∀ j, u.slot p.constraints j = s.slot p.constraints j) →
      u.measure initial p.constraints rank top <
        s.measure initial p.constraints rank top := by
    intro u hu hslot
    have hw : u.weight p.constraints rank top = s.weight p.constraints rank top := by
      unfold State.weight
      exact Finset.sum_congr rfl fun j _ => by rw [hslot]
    unfold State.measure
    rw [hw, hu, hq, List.length_cons]
    omega
  have hreg := hs.step hq hstep
  rcases Problem.step_next hstep with ⟨_, rfl⟩ |
    ⟨c, t, inc, h, grew, hc, hcon, habs, rfl⟩
  · exact hquiet rfl fun j => rfl
  · cases grew with
    | false =>
        refine hquiet rfl fun j => ?_
        rw [State.slot_written]
        split
        · next hj =>
            obtain ⟨u, hu, htu⟩ := (Option.any_eq_true _ _).1 hj
            unfold State.slot
            rw [hu]
            show h = s.holdings.of u
            rw [← Holdings.of_congr _ htu]
            exact (Holding.absorb_done habs).2.2 rfl
        · rfl
    | true =>
        have hup : s.weight p.constraints rank top <
            (s.written p rest t h true).weight p.constraints rank top :=
          hp.weight_written hs hc hcon habs
        have hbound : (s.written p rest t h true).weight p.constraints rank top ≤
            weightBound initial p.constraints top := hreg.weight_le
        have hqueue := hreg.length_queue_le
        unfold State.measure
        generalize weightBound initial p.constraints top = room at *
        generalize s.weight p.constraints rank top = before at *
        generalize (s.written p rest t h true).weight p.constraints rank top = after at *
        have hmul : (room - after + 1) * (p.constraints.length + 1) ≤
            (room - before) * (p.constraints.length + 1) :=
          Nat.mul_le_mul_right _ (by omega)
        rw [Nat.add_mul, Nat.one_mul] at hmul
        omega

theorem Settles.ends (hp : Settles p (offered initial p.constraints) rank top) :
    p.Ends (State.start initial p.constraints) := by
  have hdrop : ∀ n u, p.stateAfter (State.start initial p.constraints) n = some u →
      u.measure initial p.constraints rank top + n ≤
        (State.start initial p.constraints).measure initial p.constraints rank top := by
    intro n
    induction n with
    | zero => intro u hu; cases hu; omega
    | succ n ih =>
        intro u hu
        rw [Problem.stateAfter] at hu
        obtain ⟨w, hw, hadv⟩ := Option.bind_eq_some_iff.1 hu
        obtain ⟨place, rest, hq, hstep⟩ := Problem.advance_some hadv
        have := ih w hw
        have := hp.step (Regular.stateAfter hw) hq hstep
        omega
  refine ⟨(State.start initial p.constraints).measure initial p.constraints rank top + 1, ?_⟩
  cases h : p.stateAfter (State.start initial p.constraints)
      ((State.start initial p.constraints).measure initial p.constraints rank top + 1) with
  | none => rfl
  | some u =>
      have := hdrop _ u h
      omega

end Measure

/-! ## Runs without a conflict -/

/-- A step goes on if what its constraint contributes can be absorbed. -/
theorem Problem.step_of_absorbs {p : Problem} {s : State} {place : Nat} {rest : List Nat}
    (h : ∀ c t inc, p.constraints[place]? = some c → c.contribution? s.holdings = some (t, inc) →
      ∃ h' grew, (s.holdings.of t).absorb p.policy p.holds inc = .ok (.done h' grew)) :
    ∃ s', p.step s place rest = .ok (.next s') := by
  rcases p.idle_or_contribution s.holdings place with hidle | ⟨c, t, inc, hc, hcon⟩
  · exact ⟨_, Problem.step_of_no_target hidle⟩
  · obtain ⟨h', grew, habs⟩ := h c t inc hc hcon
    exact ⟨_, Problem.step_of_done hc hcon habs⟩

/-- A loop that ends has stopped by the bound. -/
theorem Problem.Ends.stopped {p : Problem} {initial : Table ErrorVar ErrorSet}
    (h : p.Ends (State.start initial p.constraints)) :
    p.stateAfter (State.start initial p.constraints) (stepBound initial p.constraints) = none := by
  cases hb : p.stateAfter (State.start initial p.constraints)
      (stepBound initial p.constraints) with
  | some u => exact absurd h (Problem.recurs_iff.1 (Problem.recurs_of_running hb))
  | none => rfl

/-- A loop that ends, and none of whose steps is in its way, reaches an empty
queue in time. -/
theorem Problem.run_of_steps {p : Problem} {initial : Table ErrorVar ErrorSet}
    (hends : p.Ends (State.start initial p.constraints))
    (hstep : ∀ {k s}, p.stateAfter (State.start initial p.constraints) k = some s →
      ∀ place rest, ∃ s', p.step s place rest = .ok (.next s')) :
    ∃ s, p.run (stepBound initial p.constraints) (State.start initial p.constraints) =
      .ok (.next s) ∧ s.queue = [] := by
  obtain ⟨k, s, hk, hadv, hrun⟩ := Problem.run_of_stopped hends.stopped
  -- The loop has not stopped at a step, so it has stopped for want of one.
  have hq : s.queue = [] := by
    cases hq : s.queue with
    | nil => rfl
    | cons place rest =>
        obtain ⟨s', hs'⟩ := hstep hk place rest
        unfold Problem.advance at hadv
        rw [hq] at hadv
        simp only [hs'] at hadv
        cases hadv
  refine ⟨s, ?_, hq⟩
  rw [hrun _ (Nat.le_refl _)]
  unfold Problem.answer
  rw [hq]

/-! ## Without arguments -/

section PayloadFree

variable {offers : List (Atom × List Ty)}

theorem InPlay.eq_nil (hfree : ∀ e ∈ offers, e.2 = []) {a : Atom} {args : List Ty}
    (h : InPlay offers a args) : args = [] := by
  obtain ⟨e, he, _, hlen, _⟩ := h
  rw [hfree e he] at hlen
  exact List.length_eq_zero_iff.1 hlen

theorem settles_of_payloadFree (p : Problem) (hfree : ∀ e ∈ offers, e.2 = []) :
    Settles p offers (fun _ => 0) 0 where
  bounded _ := Nat.le_refl _
  descends := by
    intro a _ cur inc m hcur hinc hm hne
    rw [hcur.eq_nil hfree, hinc.eq_nil hfree] at hm
    cases hm
    rw [hcur.eq_nil hfree] at hne
    cases hne

/-- Lists that are all empty are absorbed without a conflict. -/
theorem absorbEntries_of_payloadFree (p : Policy) (holds : Comparison) :
    ∀ {es : List (Atom × List Ty)} {h : Holding} {grew : Bool}, (∀ e ∈ es, e.2 = []) →
      (∀ a args, h.atoms.get? a = some args → args = []) →
      ∃ h' grew', Holding.absorbEntries p holds es h grew = .ok (.done h' grew') := by
  intro es
  induction es with
  | nil => intro h grew _ _; exact ⟨h, grew, by rw [Holding.absorbEntries]; rfl⟩
  | cons e rest ih =>
      intro h grew hes hh
      obtain ⟨atom, args⟩ := e
      have hrest : ∀ d ∈ rest, d.2 = [] := fun d hd => hes d (List.mem_cons_of_mem _ hd)
      have hargs : args = [] := hes _ (List.mem_cons_self ..)
      rw [Holding.absorbEntries]
      cases hget : h.atoms.get? atom with
      | none =>
          refine ih hrest fun a bs ha => ?_
          rw [Table.get?_insert] at ha
          split at ha
          · cases ha; exact hargs
          · exact hh a bs ha
      | some old =>
          rw [hargs, hh atom old hget]
          exact ih hrest hh

theorem absorb_of_payloadFree (p : Policy) (holds : Comparison) {h inc : Holding}
    (hfree : ∀ e ∈ offers, e.2 = []) (hh : AllInPlay offers h.atoms)
    (hinc : AllInPlay offers inc.atoms) :
    ∃ h' grew, h.absorb p holds inc = .ok (.done h' grew) :=
  absorbEntries_of_payloadFree p holds (fun e he => (hinc.2 e he).eq_nil hfree)
    fun _ _ hget => (hh.get? hget).eq_nil hfree

theorem step_of_payloadFree {p : Problem} {initial : Table ErrorVar ErrorSet} {s : State}
    (hfree : ∀ e ∈ offered initial p.constraints, e.2 = [])
    (hs : Regular p.constraints initial s) (place : Nat) (rest : List Nat) :
    ∃ s', p.step s place rest = .ok (.next s') :=
  Problem.step_of_absorbs fun _ t _ hc hcon =>
    absorb_of_payloadFree p.policy p.holds hfree (hs.inPlay t)
      (contribution_allInPlay (List.mem_of_getElem? hc) hs.inPlay hcon)

/-- Without arguments every run reaches an empty queue in time. -/
theorem run_of_payloadFree {p : Problem} {initial : Table ErrorVar ErrorSet}
    (hfree : ∀ e ∈ offered initial p.constraints, e.2 = []) :
    ∃ s, p.run (stepBound initial p.constraints) (State.start initial p.constraints) =
      .ok (.next s) ∧ s.queue = [] :=
  Problem.run_of_steps (settles_of_payloadFree p hfree).ends fun hk =>
    step_of_payloadFree hfree (Regular.stateAfter hk)

end PayloadFree

/-! ## The strict policy -/

section Strict

variable {holds : Comparison} {a : Atom}

theorem mergeFrom_strict (hvar : ∀ i, a.variance i ≠ .contravariant) :
    ∀ {i : Nat} {as bs ms : List Ty}, as.length = bs.length →
      Payload.mergeFrom .strict holds a i as bs = .ok (some ms) → ms = as := by
  intro i as
  induction as generalizing i with
  | nil =>
      intro bs ms _ h
      simp only [Payload.mergeFrom] at h
      cases h
      rfl
  | cons x as ih =>
      intro bs ms hlen h
      cases bs with
      | nil => cases hlen
      | cons y bs =>
          obtain ⟨m, rest, rfl, hm, hr⟩ := Payload.mergeFrom_cons h
          have hagreed : ∀ o, Payload.agreed x y = some o → o = x := by
            intro o ho
            unfold Payload.agreed at ho
            split at ho
            · cases ho; rfl
            · cases ho
          have hx : m = x := by
            cases hv : a.variance i with
            | covariant => rw [hv] at hm; exact hagreed m (Except.ok.inj hm)
            | invariant => rw [hv] at hm; exact hagreed m (Except.ok.inj hm)
            | contravariant => exact absurd hv (hvar i)
          rw [hx, ih (by simpa using hlen) hr]

theorem settles_of_strict {p : Problem} {offers : List (Atom × List Ty)}
    (hpol : p.policy = .strict)
    (hvar : ∀ e ∈ offers, ∀ i, e.1.variance i ≠ .contravariant) :
    Settles p offers (fun args => if args = [] then 1 else 0) 1 where
  bounded args := by split <;> omega
  descends := by
    intro a ha cur inc m _ _ hm hne
    obtain ⟨e, he, rfl⟩ := List.mem_map.1 ha
    rw [hpol] at hm
    unfold Payload.merge at hm
    split at hm
    · cases hm
      rw [BEq.rfl] at hne
      cases hne
    · next hinc =>
        split at hm
        · next hcur =>
            cases hm
            rw [List.isEmpty_iff] at hcur
            have hinc : inc ≠ [] := by
              intro h
              simp [h] at hinc
            rw [if_pos hcur, if_neg hinc]
            omega
        · split at hm
          · cases hm
          · next hlen =>
              have hlen : cur.length = inc.length := by simpa using hlen
              rw [mergeFrom_strict (hvar e he) hlen hm, BEq.rfl] at hne
              cases hne

end Strict

end Fallible.Fixpoint
