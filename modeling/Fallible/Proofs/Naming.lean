import Fallible.Proofs.Arguments
import Fallible.Proofs.Canonical

/-!
# Comparisons do not look at names

Whether a type covers another depends on the numbers of their classifiers and on
the variances these declare, and on nothing else that a classifier carries. So
types that are the same but for scopes and names can stand for each other on
either side, in every view and at every depth.

Names do decide the order in which errors are compared, and with it the fault
that is met first. Free of them is the answer, and whether there is one. Both are
needed: a rule of the host's goes on from an argument that does not cover, and
would stop at one that cannot be compared.
-/

namespace Fallible

/-- Whether two computations come to results that are related, or both to a fault. -/
inductive Concur {α : Type} (R : α → α → Prop) : Except Fault α → Except Fault α → Prop
  | ok {x y : α} : R x y → Concur R (.ok x) (.ok y)
  | error (e f : Fault) : Concur R (.error e) (.error f)

namespace Concur

variable {α β : Type}

theorem refl (a : Except Fault α) : Concur Eq a a := by
  cases a with
  | ok x => exact .ok rfl
  | error e => exact .error e e

theorem symm {a b : Except Fault α} (h : Concur Eq a b) : Concur Eq b a := by
  cases h with
  | ok hxy => exact .ok hxy.symm
  | error e f => exact .error f e

theorem trans {a b c : Except Fault α} (h : Concur Eq a b) (k : Concur Eq b c) : Concur Eq a c := by
  cases h with
  | ok hxy => exact hxy ▸ k
  | error e f =>
      cases k with
      | error _ g => exact .error e g

theorem bind {R : α → α → Prop} {S : β → β → Prop} {a b : Except Fault α}
    {f g : α → Except Fault β} (h : Concur R a b) (hfg : ∀ x y, R x y → Concur S (f x) (g y)) :
    Concur S (a >>= f) (b >>= g) := by
  cases h with
  | ok hxy => exact hfg _ _ hxy
  | error e e' => exact .error e e'

/-- Going on only from an answer that is yes. -/
theorem ifTrue {R : β → β → Prop} {a b : Except Fault Bool} {x y z z' : Except Fault β}
    (h : Concur Eq a b) (hxy : Concur R x y) (hz : Concur R z z') :
    Concur R (a >>= fun r => if r then x else z) (b >>= fun r => if r then y else z') := by
  refine h.bind fun r _ hr => ?_
  subst hr
  cases r with
  | false => exact hz
  | true => exact hxy

theorem ok_iff {a b : Except Fault α} (h : Concur Eq a b) (x : α) : a = .ok x ↔ b = .ok x := by
  cases h with
  | ok hxy => rw [hxy]
  | error e f => simp

end Concur

/-- Whether a comparison does not look at names. -/
def Comparison.Nameless (h : Comparison) : Prop :=
  ∀ x y, Concur Eq (h (x.respell .unnamed) (y.respell .unnamed)) (h x y)

/-! ## Arguments -/

section Nameless

variable {h : Comparison} (hh : h.Nameless)

include hh

namespace Payload

theorem coversArg_unnamed (v : Variance) (x y : Ty) :
    Concur Eq (coversArg h v (x.respell .unnamed) (y.respell .unnamed)) (coversArg h v x y) := by
  cases v with
  | covariant => exact hh x y
  | contravariant => exact hh y x
  | invariant => exact (hh x y).ifTrue (hh y x) (.refl _)

theorem coversFrom_unnamed (a : Atom) (i : Nat) (xs ys : List Ty) :
    Concur Eq (coversFrom h (a.respell .unnamed) i (xs.map (Ty.respell .unnamed))
      (ys.map (Ty.respell .unnamed))) (coversFrom h a i xs ys) := by
  induction xs generalizing i ys with
  | nil => simpa only [List.map_nil, coversFrom] using .refl _
  | cons x xs ih =>
      cases ys with
      | nil => simpa only [List.map_nil, coversFrom] using .refl _
      | cons y ys =>
          simp only [List.map_cons, coversFrom, Atom.variance_respell_unnamed]
          exact (coversArg_unnamed hh _ x y).ifTrue (ih (i + 1) ys) (.refl _)

theorem covers_unnamed (a : Atom) (xs ys : List Ty) :
    Concur Eq (covers h (a.respell .unnamed) (xs.map (Ty.respell .unnamed))
      (ys.map (Ty.respell .unnamed))) (covers h a xs ys) := by
  simp only [covers, List.isEmpty_map, Ty.map_respell_beq, List.length_map]
  split
  · exact .refl _
  · split
    · exact .refl _
    · exact coversFrom_unnamed hh a 0 xs ys

/-- Arguments that differ in names only are compared with the same result. -/
theorem covers_of_unnamed {a a' : Atom} {xs xs' ys ys' : List Ty}
    (ha : a'.respell .unnamed = a.respell .unnamed)
    (hxs : xs'.map (Ty.respell .unnamed) = xs.map (Ty.respell .unnamed))
    (hys : ys'.map (Ty.respell .unnamed) = ys.map (Ty.respell .unnamed)) :
    Concur Eq (covers h a' xs' ys') (covers h a xs ys) := by
  have hboth := covers_unnamed hh a' xs' ys'
  rw [ha, hxs, hys] at hboth
  exact hboth.symm.trans (covers_unnamed hh a xs ys)

end Payload

theorem Inquiry.run_unnamed (q : Inquiry) (as bs : List Ty) :
    Concur Eq (q.run h (as.map (Ty.respell .unnamed)) (bs.map (Ty.respell .unnamed)))
      (q.run h as bs) := by
  have hreply : ∀ turned i j, Concur Eq (reply h (as.map (Ty.respell .unnamed))
      (bs.map (Ty.respell .unnamed)) turned i j) (reply h as bs turned i j) := by
    intro turned i j
    rw [reply, reply, List.getElem?_map, List.getElem?_map]
    cases as[i]? with
    | none => exact .refl _
    | some a =>
        cases bs[j]? with
        | none => exact .refl _
        | some b =>
            cases turned with
            | false => exact hh a b
            | true => exact hh b a
  induction q with
  | answer related => exact .refl _
  | ask turned i j next ih => exact (hreply turned i j).bind fun r _ hr => hr ▸ ih r

namespace View

theorem argsAgree_unnamed (as bs : List Ty) :
    Concur Eq (argsAgree h (as.map (Ty.respell .unnamed)) (bs.map (Ty.respell .unnamed)))
      (argsAgree h as bs) := by
  induction as generalizing bs with
  | nil => cases bs <;> simpa only [List.map_nil, List.map_cons, argsAgree] using .refl _
  | cons a as ih =>
      cases bs with
      | nil => simpa only [List.map_nil, List.map_cons, argsAgree] using .refl _
      | cons b bs =>
          simp only [List.map_cons, argsAgree]
          exact (Payload.coversArg_unnamed hh _ a b).ifTrue (ih bs) (.refl _)

theorem consRelate_unnamed (order : ValueOrder) (c d : Con) (as bs : List Ty) :
    Concur Eq (consRelate order h c (as.map (Ty.respell .unnamed)) d
      (bs.map (Ty.respell .unnamed))) (consRelate order h c as d bs) := by
  cases order with
  | classes =>
      simp only [consRelate, classesRelate, List.length_map, List.isEmpty_map]
      split
      · split
        · exact .refl _
        · exact argsAgree_unnamed hh as bs
      · exact .refl _
  | custom rule =>
      -- The rule does not look at names, and neither do the replies that it gets.
      have hsame : ∀ ts : List Ty, (ts.map (Ty.respell .unnamed) == ts) = true := fun ts => by
        simp [Ty.list_beq_iff_respell, Ty.respell_bare_respell]
      simp only [consRelate, rule.congr (hsame as) (hsame bs)]
      exact Inquiry.run_unnamed hh _ as bs

end View

end Nameless

/-! ## Sets -/

/-- Whether two sets have the same atoms with the same arguments, but for names. -/
def ErrorSet.SameBut (s s' : ErrorSet) : Prop :=
  ∀ a, (s.get? a).map (List.map (Ty.respell .unnamed)) =
    (s'.get? a).map (List.map (Ty.respell .unnamed))

namespace ErrorSet

theorem SameBut.contains {s s' : ErrorSet} (h : s.SameBut s') (a : Atom) :
    s.contains a = s'.contains a := by
  have hsome := congrArg Option.isSome (h a)
  rw [Option.isSome_map, Option.isSome_map] at hsome
  rw [ErrorSet.contains, ErrorSet.contains, ← Table.isSome_get?, ← Table.isSome_get?]
  exact hsome

/-- Sets with the same entries but for names are the same as maps. -/
theorem SameBut.of_entries {s s' : ErrorSet} (hs : s.Distinct) (hs' : s'.Distinct)
    (hforth : ∀ e ∈ s.entries, ∃ e' ∈ s'.entries,
      respellEntry .unnamed e' = respellEntry .unnamed e)
    (hback : ∀ e ∈ s'.entries, ∃ e' ∈ s.entries,
      respellEntry .unnamed e' = respellEntry .unnamed e) : s.SameBut s' := by
  have hone : ∀ {s s' : ErrorSet} {a : Atom} {args : List Ty}, s.Distinct → s'.Distinct →
      (∀ e ∈ s.entries, ∃ e' ∈ s'.entries,
        respellEntry .unnamed e' = respellEntry .unnamed e) → s.get? a = some args →
      (s'.get? a).map (List.map (Ty.respell .unnamed)) =
        some (args.map (Ty.respell .unnamed)) := by
    intro s s' a args hs hs' hforth hget
    obtain ⟨b, hb, hba⟩ := hs.mem_of_get? hget
    obtain ⟨e', he', hsame⟩ := hforth _ hb
    obtain ⟨hatom, hargs⟩ := Prod.mk.injEq .. ▸ hsame
    rw [← s'.get?_congr (BEq.trans (Atom.beq_of_respell hatom) hba), hs'.get?_of_mem he']
    exact congrArg some hargs
  intro a
  cases hget : s.get? a with
  | some args => rw [hone hs hs' hforth hget]; rfl
  | none =>
      cases hget' : s'.get? a with
      | none => rfl
      | some args =>
          have hsome := hone hs' hs hback hget'
          rw [hget] at hsome
          cases hsome

end ErrorSet

/-- Whether the arguments of an entry can be compared, if there are any to compare with. -/
def EntryAnswered (h : Comparison) (sup : ErrorSet) (e : Atom × List Ty) : Prop :=
  ∀ args, sup.get? e.1 = some args → ∃ r, Payload.covers h e.1 args e.2 = .ok r

section Errors

variable {h : Comparison} (hh : h.Nameless) {sup sup' : ErrorSet} (hsup : sup.SameBut sup')
  {e e' : Atom × List Ty} (he : respellEntry .unnamed e' = respellEntry .unnamed e)

include hsup he in
theorem ErrorSet.SameBut.get?_entry : (sup.get? e.1).map (List.map (Ty.respell .unnamed)) =
    (sup'.get? e'.1).map (List.map (Ty.respell .unnamed)) := by
  rw [sup'.get?_congr (Atom.beq_of_respell (congrArg Prod.fst he))]
  exact hsup e.1

include hh hsup he

theorem EntryCovered.of_sameBut (hcov : EntryCovered (fun x y => h x y = .ok true) sup e) :
    EntryCovered (fun x y => h x y = .ok true) sup' e' := by
  obtain ⟨hatom, hargs⟩ := Prod.mk.injEq .. ▸ he
  have hread := hsup.get?_entry he
  rw [EntryCovered]
  cases hget : sup.get? e.1 with
  | none =>
      rw [hget, eq_comm, Option.map_none, Option.map_eq_none_iff] at hread
      rw [hread]
      have hal : View.coveredByAlias sup e'.1 = true := by
        rw [View.coveredByAlias_congr sup (Atom.beq_of_respell hatom)]
        exact hcov.of_none hget
      exact View.coveredByAlias_mono (fun a ha => by rw [← hsup.contains, ha]) hal
  | some args =>
      rw [hget, eq_comm, Option.map_some, Option.map_eq_some_iff] at hread
      obtain ⟨args', hget', hsame⟩ := hread
      have hconcur := Payload.covers_of_unnamed hh hatom hsame hargs
      have hcovers := (Payload.covers_iff _ _ _).2 (hcov.of_some hget)
      rw [hget']
      exact (Payload.covers_iff _ _ _).1 ((hconcur.ok_iff true).2 hcovers)

theorem EntryAnswered.of_sameBut (hans : EntryAnswered h sup e) : EntryAnswered h sup' e' := by
  obtain ⟨hatom, hargs⟩ := Prod.mk.injEq .. ▸ he
  intro args' hget'
  have hread := hsup.get?_entry he
  rw [hget', Option.map_some, Option.map_eq_some_iff] at hread
  obtain ⟨args, hget, hsame⟩ := hread
  obtain ⟨r, hr⟩ := hans args hget
  exact ⟨r, ((Payload.covers_of_unnamed hh hatom hsame.symm hargs).ok_iff r).2 hr⟩

end Errors

namespace View

theorem uncovered_answers_iff {h : Comparison} {sup : ErrorSet} {es : List (Atom × List Ty)}
    (missing mismatched : Instantiations) :
    (∃ r, uncovered h sup es missing mismatched = .ok r) ↔ ∀ e ∈ es, EntryAnswered h sup e := by
  induction es generalizing missing mismatched with
  | nil => exact ⟨fun _ _ he => absurd he List.not_mem_nil, fun _ => ⟨_, rfl⟩⟩
  | cons e rest ih =>
      rw [List.forall_mem_cons]
      cases hget : sup.get? e.1 with
      | none =>
          have he : EntryAnswered h sup e := fun args hsome => by rw [hget] at hsome; cases hsome
          simp only [uncovered, hget, he, true_and]
          split
          · exact ih _ _
          · exact ih _ _
      | some supArgs =>
          have he : EntryAnswered h sup e ↔ ∃ r, Payload.covers h e.1 supArgs e.2 = .ok r :=
            ⟨fun hans => hans supArgs hget, fun hr args hsome => by
              cases hget.symm.trans hsome
              exact hr⟩
          simp only [uncovered, hget, he]
          cases hr : Payload.covers h e.1 supArgs e.2 with
          | error f => simp [bind, Except.bind]
          | ok r => cases r <;> simpa [bind, Except.bind] using ih _ _

theorem compareErrors_answers_iff {h : Comparison} {sup sub : Interpretation} :
    (∃ r, compareErrors h sup sub = .ok r) ↔ sup.known.universal = true ∨
      (sub.known.universal && !sup.flexible.any fun x => x.bound.isUnbounded) = true ∨
        ∀ e ∈ sub.known.entries, EntryAnswered h sup.known e := by
  rw [compareErrors, ← uncovered_answers_iff .empty .empty]
  by_cases hsup : sup.known.universal = true
  · simp [hsup, pure, Except.pure]
  · by_cases hsub : (sub.known.universal && !sup.flexible.any fun x => x.bound.isUnbounded) = true
    · simp [hsup, hsub, pure, Except.pure]
    · simp only [hsup, hsub, residualWith, Bool.false_eq_true, if_false, false_or]
      cases uncovered h sup.known sub.known.entries .empty .empty with
      | error f => simp [bind, Except.bind]
      | ok r =>
          simp only [bind, Except.bind, pure, Except.pure, Except.ok.injEq, exists_eq', iff_true]
          split
          · exact ⟨_, rfl⟩
          · split
            · exact ⟨_, rfl⟩
            · split <;> exact ⟨_, rfl⟩

theorem sameBut_interpretWith (s : Solution) (t : Ty) :
    (interpretWith s (t.respell .unnamed)).known.SameBut (interpretWith s t).known :=
  .of_entries (distinct_interpretWith s _) (distinct_interpretWith s t)
    (fun _ he => (sameEntries_interpretWith .unnamed s t).2 he)
    fun _ he => (sameEntries_interpretWith .unnamed s t).1 he

section Errors

variable {h : Comparison} (hh : h.Nameless) (s : Solution) (sup sub : Ty)

/-- What is said of each error of a type in terms of another can be said without names. -/
theorem forall_entries_unnamed {P : ErrorSet → Atom × List Ty → Prop}
    (hP : ∀ {t t' : ErrorSet}, t.SameBut t' → ∀ {e e' : Atom × List Ty},
      respellEntry .unnamed e' = respellEntry .unnamed e → P t e → P t' e') :
    (∀ e ∈ (interpretWith s (sub.respell .unnamed)).known.entries,
        P (interpretWith s (sup.respell .unnamed)).known e) ↔
      ∀ e ∈ (interpretWith s sub).known.entries, P (interpretWith s sup).known e := by
  have hsup := sameBut_interpretWith s sup
  constructor
  · intro hall e he
    obtain ⟨e', he', hsame⟩ := (sameEntries_interpretWith .unnamed s sub).1 he
    exact hP hsup hsame.symm (hall e' he')
  · intro hall e he
    obtain ⟨e', he', hsame⟩ := (sameEntries_interpretWith .unnamed s sub).2 he
    exact hP (fun a => (hsup a).symm) hsame.symm (hall e' he')

include hh

theorem errorsHold_unnamed :
    ErrorsHold (fun x y => h x y = .ok true) (interpretWith s (sup.respell .unnamed))
        (interpretWith s (sub.respell .unnamed)) ↔
      ErrorsHold (fun x y => h x y = .ok true) (interpretWith s sup) (interpretWith s sub) := by
  have hcontains : ∀ {xs ys zs : List ErrorVar}, (∀ x, xs.contains x = ys.contains x) →
      (∀ x ∈ xs, zs.contains x = true) → ∀ y ∈ ys, zs.contains y = true := by
    intro xs ys zs hxy hxs y hy
    have hmem := hxy y
    rw [List.contains_iff_exists_mem_beq.2 ⟨y, hy, BEq.rfl⟩] at hmem
    obtain ⟨x, hx, hyx⟩ := List.contains_iff_exists_mem_beq.1 hmem
    obtain ⟨z, hz, hxz⟩ := List.contains_iff_exists_mem_beq.1 (hxs x hx)
    exact List.contains_iff_exists_mem_beq.2 ⟨z, hz, BEq.trans hyx hxz⟩
  simp only [ErrorsHold, universal_respell, flexible_respell]
  refine or_congr_right (and_congr_right fun _ => and_congr
    (forall_entries_unnamed s sup sub (EntryCovered.of_sameBut hh))
    ⟨hcontains (flexible_respell .unnamed s sub), hcontains fun x => ?_⟩)
  exact (flexible_respell .unnamed s sub x).symm

/-- Verdicts on errors are reached together, and hold together. -/
theorem compareErrors_unnamed :
    Concur (fun r r' => r = .holds ↔ r' = .holds)
      (compareErrors h (interpretWith s (sup.respell .unnamed))
        (interpretWith s (sub.respell .unnamed)))
      (compareErrors h (interpretWith s sup) (interpretWith s sub)) := by
  have hany : ∀ t : Ty, ((interpretWith s (t.respell .unnamed)).flexible.any fun x =>
      x.bound.isUnbounded) = (interpretWith s t).flexible.any fun x => x.bound.isUnbounded := by
    intro t
    rw [flexible_eq_map, List.any_map]
    refine congrArg _ (funext fun x => ?_)
    obtain ⟨name, bound, flexible⟩ := x
    cases bound <;> rfl
  have hholds := errorsHold_unnamed hh s sup sub
  rw [← compareErrors_iff, ← compareErrors_iff] at hholds
  have hans : (∃ r, compareErrors h (interpretWith s (sup.respell .unnamed))
      (interpretWith s (sub.respell .unnamed)) = .ok r) ↔
        ∃ r, compareErrors h (interpretWith s sup) (interpretWith s sub) = .ok r := by
    rw [compareErrors_answers_iff, compareErrors_answers_iff, universal_respell, universal_respell,
      hany, forall_entries_unnamed s sup sub (EntryAnswered.of_sameBut hh)]
  revert hholds hans
  cases compareErrors h (interpretWith s (sup.respell .unnamed))
      (interpretWith s (sub.respell .unnamed)) with
  | error e =>
      cases compareErrors h (interpretWith s sup) (interpretWith s sub) with
      | error f => exact fun _ _ => .error e f
      | ok r => exact fun _ hans => absurd hans (by simp)
  | ok r =>
      cases compareErrors h (interpretWith s sup) (interpretWith s sub) with
      | error f => exact fun _ hans => absurd hans (by simp)
      | ok r' => exact fun hholds _ => .ok (by simpa only [Except.ok.injEq] using hholds)

end Errors

/-! ## Values -/

/-- A step with its classifiers spelled another way. -/
def ValueStep.respell (f : Spelling) : ValueStep → ValueStep
  | .decided answer => .decided answer
  | .bind name t => .bind name (t.respell f)
  | .constructors c as d bs => .constructors c (Ty.respellAll f as) d (Ty.respellAll f bs)

theorem valueStep_respell (f : Spelling) (x y : Ty) :
    valueStep (fun _ => false) (x.respell f) (y.respell f) =
      (valueStep (fun _ => false) x y).respell f := by
  have hlattice : latticeStep (x.respell f) (y.respell f) = (latticeStep x y).respell f := by
    cases x <;> cases y <;> rfl
  rw [valueStep_nothing_free, valueStep_nothing_free, Ty.respell_beq_respell,
    Ty.isErroneous_respell, Ty.isErroneous_respell, hlattice]
  split <;> rfl

/-- The answer to what a comparison of values comes down to, nothing being bound. -/
def ValueStep.answer (order : ValueOrder) (h : Comparison) : ValueStep → Except Fault Bool
  | .decided answer => .ok answer
  | .bind _ _ => .ok false
  | .constructors c as d bs => consRelate order h c as d bs

theorem compareValues_eq (v : View) (h : Comparison) (x y : Ty) :
    v.compareValues h x y = v.follow x >>= fun a => v.follow y >>= fun b =>
      (valueStep (fun _ => false) a b).answer v.order h := by
  rw [compareValues]
  refine bind_congr fun a => bind_congr fun b => ?_
  cases valueStep (fun _ => false) a b <;> rfl

theorem follow_respell (v : View) (f : Spelling) (t : Ty) :
    Concur (fun a b => a.respell f = b.respell f) (v.follow (t.respell f)) (v.follow t) := by
  cases t with
  | valueProj name flexible =>
      show Concur _ (v.follow (.valueProj name flexible)) _
      cases v.follow (.valueProj name flexible) with
      | error e => exact .error e e
      | ok u => exact .ok rfl
  | _ => exact .ok (Ty.respell_respell f _)

theorem compareValues_unnamed (v : View) {h : Comparison} (hh : h.Nameless) (x y : Ty) :
    Concur Eq (v.compareValues h (x.respell .unnamed) (y.respell .unnamed))
      (v.compareValues h x y) := by
  have hstep : ∀ step : ValueStep, Concur Eq ((step.respell .unnamed).answer v.order h)
      (step.answer v.order h) := by
    intro step
    cases step with
    | decided answer => exact .refl _
    | bind name t => exact .refl _
    | constructors c as d bs =>
        simp only [ValueStep.respell, ValueStep.answer, Ty.respellAll_eq_map]
        exact consRelate_unnamed hh v.order c d as bs
  rw [compareValues_eq, compareValues_eq]
  refine (v.follow_respell .unnamed x).bind fun a a' ha => ?_
  refine (v.follow_respell .unnamed y).bind fun b b' hb => ?_
  have hboth := hstep (valueStep (fun _ => false) a b)
  rw [← valueStep_respell, ha, hb, valueStep_respell] at hboth
  exact hboth.symm.trans (hstep _)

/-! ## Types -/

theorem holdsWithin_unnamed (v : View) (n : Nat) : (v.holdsWithin n).Nameless := by
  induction n with
  | zero => exact fun x y => .error _ _
  | succ n ih =>
      intro x y
      have hwith : Concur (fun r r' => r = .holds ↔ r' = .holds)
          (v.compareWith (v.holdsWithin n) (x.respell .unnamed) (y.respell .unnamed))
          (v.compareWith (v.holdsWithin n) x y) := by
        rw [compareWith, compareWith, Ty.failed_respell, Ty.failed_respell, Ty.valuePart_respell,
          Ty.valuePart_respell]
        split
        · exact .ok Iff.rfl
        · exact (v.compareValues_unnamed ih _ _).ifTrue
            (compareErrors_unnamed ih v.solution x y) (.ok Iff.rfl)
      refine hwith.bind fun r r' hr => .ok ?_
      rw [Bool.eq_iff_iff, beq_iff_eq, beq_iff_eq]
      exact hr

theorem holds_unnamed (v : View) : v.holds.Nameless := by
  intro x y
  have hdepth : v.depth (x.respell .unnamed) (y.respell .unnamed) = v.depth x y := by
    rw [depth, depth, Ty.size_respell, Ty.size_respell]
  rw [holds, holds, hdepth]
  exact v.holdsWithin_unnamed _ x y

/-- Whether a set stays within a bound does not depend on names, nor on the
order of its entries. -/
theorem covers_of_sameEntries (v : View) {bound s s' : ErrorSet}
    (huniv : s.universal = s'.universal)
    (hback : ∀ e ∈ s'.entries, ∃ e' ∈ s.entries,
      respellEntry .unnamed e' = respellEntry .unnamed e)
    (h : v.covers bound s = .ok true) : v.covers bound s' = .ok true := by
  rw [covers, coversWith_iff] at h ⊢
  refine h.imp_right fun ⟨hno, hall⟩ => ⟨huniv ▸ hno, fun e he => ?_⟩
  obtain ⟨e', he', hsame⟩ := hback e he
  exact (hall e' he').of_sameBut v.holds_unnamed (fun _ => rfl) hsame.symm

end View

end Fallible
