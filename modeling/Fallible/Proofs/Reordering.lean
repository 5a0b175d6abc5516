import Fallible.Proofs.Naming
import Fallible.Proofs.Reaching

/-!
# The order of the constraints

Two lists of the same constraints are solved by the same closed holdings, so
under the strict policy they have the same least ones: what is held in the end
is the same but for spelling, since which of two lists that are the same for `==`
is kept depends on which one comes first.

The checks that follow do not look at names, but they do look at variances. So
they come to the same result if records of one number declare the same variances
wherever they are offered. If they do not, the order of the constraints can
decide between success and failure.
-/

namespace Fallible

/-! ## What is offered -/

theorem Ty.classifiersAll_subset {ts us : List Ty} (h : us ⊆ ts) :
    classifiersAll us ⊆ classifiersAll ts := by
  intro c hc
  obtain ⟨args, hargs⟩ := mem_classifiersAll.1 hc
  obtain ⟨t, ht, hsub⟩ := mem_subtermsAll.1 hargs
  exact mem_classifiersAll.2 ⟨args, mem_subtermsAll.2 ⟨t, h ht, hsub⟩⟩

theorem Ty.Agree.mono {ts us : List Ty} (h : Agree ts)
    (hsub : classifiersAll us ⊆ classifiersAll ts) : Agree us :=
  fun c hc d hd => h c (hsub hc) d (hsub hd)

theorem Holdings.Solves.of_mem {initial : Table ErrorVar ErrorSet} {cs cs' : List Constraint}
    {ks : Holdings} (h : ks.Solves initial cs) (hmem : ∀ c ∈ cs', c ∈ cs) :
    ks.Solves initial cs' where
  above v := by
    have hv := h.above v
    rw [of_start] at hv ⊢
    exact hv
  closed c hc := h.closed c (hmem c hc)

namespace Fixpoint

variable {offers : List (Atom × List Ty)}

theorem AllInPlay.mono {offers' : List (Atom × List Ty)} {t : Instantiations}
    (h : AllInPlay offers t) (hsub : ∀ e ∈ offers, e ∈ offers') : AllInPlay offers' t := by
  have hpool : ∀ x ∈ pool offers, x ∈ pool offers' := by
    intro x hx
    refine List.mem_append.2 ((List.mem_append.1 hx).imp_left fun hx => ?_)
    obtain ⟨e, he, hxe⟩ := List.mem_flatMap.1 hx
    exact List.mem_flatMap.2 ⟨e, hsub e he, hxe⟩
  refine ⟨fun a ha => ?_, fun e he => ?_⟩
  · obtain ⟨e, he, rfl⟩ := List.mem_map.1 (h.1 ha)
    exact List.mem_map_of_mem (hsub e he)
  · obtain ⟨d, hd, hde, hlen, hargs⟩ := h.2 e he
    exact ⟨d, hsub d hd, hde, hlen, fun x hx => hpool x (hargs x hx)⟩

/-- The offered atoms with their arguments, as types. -/
def offeredTypes (offers : List (Atom × List Ty)) : List Ty := offers.map fun e => e.1.toMember e.2

section Unnamed

variable (hagree : Ty.Agree (offeredTypes offers))

include hagree

theorem unnamed_of_offered {a b : Atom} (ha : a ∈ offers.map Prod.fst)
    (hb : b ∈ offers.map Prod.fst) (hab : (a == b) = true) :
    a.respell .unnamed = b.respell .unnamed := by
  have hmem : ∀ c, Atom.classifier c ∈ offers.map Prod.fst →
      ∃ args, .errorConst c args ∈ Ty.subtermsAll (offeredTypes offers) := by
    intro c hc
    obtain ⟨⟨a, args⟩, he, rfl⟩ := List.mem_map.1 hc
    exact ⟨args, Ty.arg_mem_subterms (List.mem_map.2 ⟨_, he, rfl⟩)⟩
  cases a with
  | var x =>
      cases b with
      | classifier d => cases hab
      | var y => exact Atom.beq_iff.1 hab
  | classifier c =>
      cases b with
      | var y => cases hab
      | classifier d =>
          obtain ⟨as, has⟩ := hmem c ha
          obtain ⟨bs, hbs⟩ := hmem d hb
          have hid : c.id = d.id := Classifier.beq_iff.1 hab
          simp [Atom.respell, Spelling.unnamed, hid, hagree.errorConst has hbs hid]

theorem unnamed_of_pool (hfree : ∀ x args, (Atom.var x, args) ∈ offers → args = [])
    {xs ys : List Ty} (hxs : ∀ x ∈ xs, x ∈ pool offers) (hys : ∀ y ∈ ys, y ∈ pool offers)
    (hxy : (xs == ys) = true) :
    xs.map (Ty.respell .unnamed) = ys.map (Ty.respell .unnamed) := by
  -- `Value` and `Nothing` are in the pool too, and have no classifiers.
  have hplain : Ty.Agree (offeredTypes offers ++ [.value, .nothing]) := by
    refine hagree.mono fun c hc => ?_
    obtain ⟨args, hargs⟩ := Ty.mem_classifiersAll.1 hc
    obtain ⟨t, ht, hsub⟩ := Ty.mem_subtermsAll.1 hargs
    rcases List.mem_append.1 ht with ht | ht
    · exact Ty.mem_classifiersAll.2 ⟨args, Ty.mem_subtermsAll.2 ⟨t, ht, hsub⟩⟩
    · simp only [List.mem_cons, List.not_mem_nil, or_false] at ht
      rcases ht with rfl | rfl <;> simp [Ty.subterms] at hsub
  have hmem : ∀ x ∈ pool offers, x ∈ Ty.subtermsAll (offeredTypes offers ++ [.value, .nothing]) := by
    intro x hx
    rcases List.mem_append.1 hx with hx | hx
    · obtain ⟨⟨a, args⟩, he, hx⟩ := List.mem_flatMap.1 hx
      cases a with
      | var y =>
          rw [hfree y args he] at hx
          cases hx
      | classifier c =>
          refine Ty.mem_subtermsAll.2 ⟨.errorConst c args, ?_, ?_⟩
          · exact List.mem_append_left _ (List.mem_map.2 ⟨_, he, rfl⟩)
          · rw [Ty.subterms, List.mem_cons]
            exact Or.inr (Ty.arg_mem_subterms hx)
    · exact Ty.arg_mem_subterms (List.mem_append_right _ hx)
  exact Ty.map_unnamed_of_beq (Ty.list_beq_iff_respell.1 hxy) fun x hx y hy =>
    hplain.unnamed_of_beq (hmem x (hxs x hx)) (hmem y (hys y hy))

/-- What is offered and the same for `==` is the same but for names. -/
theorem respell_of_allInPlay (hfree : ∀ x args, (Atom.var x, args) ∈ offers → args = [])
    {h k : Holding} (hh : AllInPlay offers h.atoms) (hk : AllInPlay offers k.atoms)
    (hdis : k.atoms.Distinct) (hle : h ≤ k) (hge : k ≤ h) {e : Atom × List Ty}
    (he : e ∈ k.atoms.entries) :
    ∃ e' ∈ h.atoms.entries, respellEntry .unnamed e' = respellEntry .unnamed e := by
  have hbeq := Holding.get?_beq_of_le hle hge e.1
  rw [hdis.get?_of_mem he] at hbeq
  cases hget : h.atoms.get? e.1 with
  | none => rw [hget] at hbeq; cases hbeq
  | some args =>
      rw [hget] at hbeq
      obtain ⟨b, hb, hbe⟩ := Table.mem_of_get? hget
      refine ⟨(b, args), hb, Prod.ext ?_ ?_⟩
      · exact unnamed_of_offered hagree (hh.1 (List.mem_map_of_mem hb))
          (hk.1 (List.mem_map_of_mem he)) hbe
      · obtain ⟨_, _, _, _, hargs⟩ := hh.2 _ hb
        obtain ⟨_, _, _, _, hargs'⟩ := hk.2 _ he
        exact unnamed_of_pool hagree hfree hargs hargs' hbeq

end Unnamed

/-! ## The same constraints in another list -/

section Order

variable {cs cs' : List Constraint} {initial : Table ErrorVar ErrorSet} {view : View}

theorem mem_offered_iff (hmem : ∀ c, c ∈ cs ↔ c ∈ cs') (e : Atom × List Ty) :
    e ∈ offered initial cs ↔ e ∈ offered initial cs' := by
  simp only [offered, List.mem_append, List.mem_flatMap, hmem]

theorem violation?_of_sameEntries {sets sets' : Solution}
    (huniv : ∀ v, (sets.getD v).universal = (sets'.getD v).universal)
    (hback : ∀ v, ∀ e ∈ (sets'.getD v).entries, ∃ e' ∈ (sets.getD v).entries,
      respellEntry .unnamed e' = respellEntry .unnamed e)
    (hmem : ∀ c ∈ cs', c ∈ cs) (h : violation? view.covers sets cs = .ok none) :
    violation? view.covers sets' cs' = .ok none := by
  rw [violation?_none_iff] at h ⊢
  intro c hc
  obtain ⟨hbound, halias⟩ := h c (hmem c hc)
  refine ⟨boundViolation_none_iff.2 fun v bound hd => ?_, fun v hv hflex a ha => ?_⟩
  · have hcov := boundViolation_none_iff.1 hbound v bound hd
    unfold finalSet at hcov ⊢
    split
    · next hflex =>
        rw [if_pos hflex] at hcov
        exact view.covers_of_sameEntries (huniv v) (hback v) hcov
    · next hrigid =>
        rw [if_neg hrigid] at hcov
        exact hcov
  · obtain ⟨hno, hall⟩ := fitsAlias_iff.1 (halias v hv hflex a ha)
    refine fitsAlias_iff.2 ⟨huniv v ▸ hno, fun e he => ?_⟩
    obtain ⟨e', he', hsame⟩ := hback v e he
    rw [← Atom.isWithin_congr a (Atom.beq_of_respell (congrArg Prod.fst hsame))]
    exact hall e' he'

section Strict

variable (hmem : ∀ c, c ∈ cs ↔ c ∈ cs')
  (hvar : ∀ e ∈ offered initial cs, ∀ i, e.1.variance i ≠ .contravariant)

include hmem hvar

/-- Runs on the same constraints end in the same place. -/
theorem holdings_le_of_mem_iff {holds holds' : Comparison} {n n' : Nat} {s s' : State}
    (hrun : (Problem.mk cs .strict holds).run n (State.start initial cs) = .ok (.next s))
    (hrun' : (Problem.mk cs' .strict holds').run n' (State.start initial cs') = .ok (.next s')) :
    s.holdings ≤ s'.holdings := by
  have hvar' : ∀ e ∈ offered initial cs', ∀ i, e.1.variance i ≠ .contravariant :=
    fun e he => hvar e ((mem_offered_iff hmem e).2 he)
  have hsolves := (run_strict_isLeast (p := ⟨cs', .strict, holds'⟩) rfl hvar' hrun').1
  exact (run_strict_isLeast (p := ⟨cs, .strict, holds⟩) rfl hvar hrun).2
    (hsolves.of_mem fun c => (hmem c).1)

/-- A success does not depend on the order, where declarations agree. -/
theorem success_of_mem_iff {r : Registry} {o : Outcome}
    (hfree : ∀ x args, (Atom.var x, args) ∈ offered initial cs → args = [])
    (hagree : Ty.Agree (offeredTypes (offered initial cs)))
    (h : solveBy .strict r view cs initial = .ok o) (ho : o.success = true) :
    ∃ o', solveBy .strict r view cs' initial = .ok o' ∧ o'.success = true := by
  have hoffers : ∀ e ∈ offered initial cs', e ∈ offered initial cs :=
    fun e => (mem_offered_iff hmem e).2
  have hunknown : unknown? r cs' = none := by
    have hall := unknown?_eq_none_iff.1 (unknown?_of_success h ho)
    exact unknown?_eq_none_iff.2 fun c hc => hall c ((hmem c).2 hc)
  obtain ⟨s, hrun, hviolation, rfl⟩ := solveBy_success h ho
  have hsolves := (run_strict_isLeast (p := ⟨cs, .strict, view.holds⟩) rfl hvar hrun).1
  obtain ⟨s', hrun'⟩ := (run_strict_iff_solvable (p := ⟨cs', .strict, view.holds⟩) rfl
    fun e he => hvar e (hoffers e he)).2 ⟨_, hsolves.of_mem fun c => (hmem c).2⟩
  have hle := holdings_le_of_mem_iff hmem hvar hrun hrun'
  have hge := holdings_le_of_mem_iff (fun c => (hmem c).symm)
    (fun e he => hvar e (hoffers e he)) hrun' hrun
  have hreg := Regular.run hrun
  have hreg' := Regular.run hrun'
  refine ⟨_, solveBy_of_run hunknown hrun' ?_, rfl⟩
  refine violation?_of_sameEntries (fun v => ?_) (fun v e he => ?_) (fun c => (hmem c).2) hviolation
  · rw [Holdings.getD_toSolution, Holdings.getD_toSolution]
    exact Holding.universal_eq_of_le (hle v) (hge v)
  · rw [Holdings.getD_toSolution] at he ⊢
    obtain ⟨e', he', hsame⟩ := respell_of_allInPlay hagree hfree (hreg.inPlay v)
      ((hreg'.inPlay v).mono hoffers) (hreg'.distinct v) (hle v) (hge v)
      (ErrorSet.mem_entries_ofEntries.1 he)
    exact ⟨e', ErrorSet.mem_entries_ofEntries.2 he', hsame⟩

theorem sets_of_mem_iff {r : Registry} {o o' : Outcome}
    (h : solveBy .strict r view cs initial = .ok o) (ho : o.success = true)
    (h' : solveBy .strict r view cs' initial = .ok o') (ho' : o'.success = true) (v : ErrorVar) :
    (o.solution.getD v).universal = (o'.solution.getD v).universal ∧
      ∀ a, ((o.solution.getD v).get? a == (o'.solution.getD v).get? a) = true := by
  obtain ⟨s, hrun, _, rfl⟩ := solveBy_success h ho
  obtain ⟨s', hrun', _, rfl⟩ := solveBy_success h' ho'
  have hle := holdings_le_of_mem_iff hmem hvar hrun hrun' v
  have hge := holdings_le_of_mem_iff (fun c => (hmem c).symm)
    (fun e he => hvar e ((mem_offered_iff hmem e).2 he)) hrun' hrun v
  refine ⟨?_, fun a => ?_⟩
  · rw [Holdings.getD_toSolution, Holdings.getD_toSolution]
    exact Holding.universal_eq_of_le hle hge
  · rw [Holdings.get?_getD_toSolution ((Regular.run hrun).distinct v),
      Holdings.get?_getD_toSolution ((Regular.run hrun').distinct v)]
    exact Holding.get?_beq_of_le hle hge a

end Strict

end Order

/-- Under the strict policy the order of the constraints does not matter. Two
successes have the same sets, and one order succeeds if the other does, provided
that records of one number declare the same variances wherever they are offered. -/
theorem solving_ignores_order (r : Registry) (view : View) (cs cs' : List Constraint)
    (initial : Table ErrorVar ErrorSet) (hperm : cs.Perm cs')
    (hvar : ∀ e ∈ offered initial cs, ∀ i, e.1.variance i ≠ .contravariant)
    (hfree : ∀ x args, (Atom.var x, args) ∈ offered initial cs → args = []) :
    (view.holds.Total → (∃ o, solveBy .strict r view cs initial = .ok o) ∧
      ∃ o', solveBy .strict r view cs' initial = .ok o') ∧
    ∀ o o', solveBy .strict r view cs initial = .ok o →
      solveBy .strict r view cs' initial = .ok o' →
      (Ty.Agree (offeredTypes (offered initial cs)) → o.success = o'.success) ∧
      (o.success = true → o'.success = true → ∀ v,
        (o.solution.getD v).universal = (o'.solution.getD v).universal ∧
          ∀ a, ((o.solution.getD v).get? a == (o'.solution.getD v).get? a) = true) := by
  have hmem : ∀ c, c ∈ cs ↔ c ∈ cs' := fun c => hperm.mem_iff
  have hoffers : ∀ e ∈ offered initial cs', e ∈ offered initial cs :=
    fun e => (mem_offered_iff hmem e).2
  have hvar' : ∀ e ∈ offered initial cs', ∀ i, e.1.variance i ≠ .contravariant :=
    fun e he => hvar e (hoffers e he)
  have hfree' : ∀ x args, (Atom.var x, args) ∈ offered initial cs' → args = [] :=
    fun x args he => hfree x args (hoffers _ he)
  refine ⟨fun htotal => ⟨solveBy_strict_total r htotal hvar hfree,
    solveBy_strict_total r htotal hvar' hfree'⟩, fun o o' ho ho' => ⟨fun hagree => ?_,
    fun hok hok' => sets_of_mem_iff hmem hvar ho hok ho' hok'⟩⟩
  have hagree' : Ty.Agree (offeredTypes (offered initial cs')) :=
    hagree.mono (Ty.classifiersAll_subset (List.map_subset _ hoffers))
  rw [Bool.eq_iff_iff]
  constructor
  · intro hok
    obtain ⟨o'', ho'', hok'⟩ := success_of_mem_iff hmem hvar hfree hagree ho hok
    cases ho'.symm.trans ho''
    exact hok'
  · intro hok
    obtain ⟨o'', ho'', hok'⟩ := success_of_mem_iff (fun c => (hmem c).symm) hvar' hfree' hagree'
      ho' hok
    cases ho.symm.trans ho''
    exact hok'

/-- Filling in an argument after it has gone round, or before. -/
theorem solving_round_reversed : ∃ o o',
    solveBy .strict (.holding 0 [roundFault]) (View.plain .classes) (round [.value]) .empty =
        .ok o ∧
      solveBy .strict (.holding 0 [roundFault]) (View.plain .classes) (round [.value]).reverse
        .empty = .ok o' ∧
      o.success = o'.success := by
  have hvar : ∀ e ∈ offered .empty (round [.value]), ∀ c ∈ e.1.classifier?,
      .contravariant ∉ c.variances := by decide
  have hfree : ∀ e ∈ offered .empty (round [.value]), e.1.classifier? = none → e.2 = [] := by
    decide
  obtain ⟨htotal, hsame⟩ := solving_ignores_order (.holding 0 [roundFault]) (View.plain .classes)
    (round [.value]) (round [.value]).reverse .empty (List.reverse_perm _).symm
    (fun e he => Atom.variance_ne_contravariant (hvar e he)) fun x args he => hfree _ he rfl
  obtain ⟨⟨o, ho⟩, o', ho'⟩ := htotal (View.holds_plain_answers .classes)
  exact ⟨o, o', ho, ho', (hsame o o' ho ho').1 (by decide)⟩

/-! Two records of number one, of which one says that its argument may grow and
the other that it may not. -/

def twinRecord (id : Nat) (name : String) (v : Variance) : Classifier :=
  ⟨id, [], name, [v], some 0⟩

def twinSet (inner : Classifier) (c : HostClass) : ErrorSet :=
  .ofEntries [(.classifier (twinRecord 0 "K" .covariant),
    [.errorConst inner [.con (.host c) []]])] false

def twinGiven (name : String) (v : Variance) : Constraint :=
  ⟨.unionSubset (roundVar "E") .empty (twinSet (twinRecord 1 name v) .bool), .unknown, ""⟩

def twinBound : Constraint :=
  ⟨.upperBound (roundVar "E") (twinSet (twinRecord 1 "A" .covariant) .int), .unknown, ""⟩

def twinRegistry : Registry := .holding 0 [twinRecord 0 "K" .covariant, twinRecord 1 "A" .covariant]

/-- Without agreement on variances the record that comes first decides. -/
theorem not_success_of_perm :
    ¬ ∀ (cs cs' : List Constraint), cs.Perm cs' →
      (∀ c ∈ Ty.classifiersAll (offeredTypes (offered .empty cs)),
        .contravariant ∉ c.variances) →
      (∀ e ∈ offered .empty cs, e.1.classifier? = none → e.2 = []) →
      ∀ o o', solveBy .strict twinRegistry (View.plain .classes) cs .empty = .ok o →
        solveBy .strict twinRegistry (View.plain .classes) cs' .empty = .ok o' →
        o.success = o'.success := by
  intro h
  have hsame := h [twinGiven "A" .covariant, twinGiven "B" .invariant, twinBound]
    [twinGiven "B" .invariant, twinGiven "A" .covariant, twinBound] (.swap ..) (by decide)
    (by decide) _ _ rfl rfl
  exact absurd hsame (by decide)

end Fixpoint

end Fallible
