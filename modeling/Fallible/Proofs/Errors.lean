import Fallible.Proofs.Shape
import Fallible.Proofs.Table
import Fallible.Subtyping.View

/-!
# Comparing errors where classifiers have no arguments

The errors of a type are collected from its error constituents one by one.
What ends up in the known set, whether the set is universal, and which
variables are left over, can each be said constituent by constituent, with no
regard to the order.

Without arguments, comparing two known sets is plain inclusion: an atom that
is there covers itself, and what is not there must be covered through its
alias. The comparison of arguments is never asked, so all this has an answer
whatever that comparison is.
-/

namespace Fallible

/-! ## What a constituent contributes -/

namespace Ty


/-- Whether an error constituent brings an atom, under a solution. -/
def yields (s : Solution) : Ty → Atom → Bool
  | .errorConst c _, a => .classifier c == a
  | .errorVar x, a =>
      if x.flexible then (s.get? x).any fun set => set.contains a else .var x == a
  | _, _ => false

/-- Whether an error constituent brings everything. -/
def yieldsAll (s : Solution) : Ty → Bool
  | .error => true
  | .errorVar x => x.flexible && (s.get? x).any fun set => set.universal
  | _ => false

/-- The variable that an error constituent leaves unsolved. -/
def waiting? (s : Solution) : Ty → Option ErrorVar
  | .errorVar x => if x.flexible && (s.get? x).isNone then some x else none
  | _ => none

theorem waiting?_eq_some {s : Solution} {m : Ty} {x : ErrorVar} :
    m.waiting? s = some x ↔ m = .errorVar x ∧ x.flexible = true ∧ s.get? x = none := by
  cases m with
  | errorVar y =>
      rw [waiting?]
      constructor
      · intro h
        split at h
        · next hy =>
            cases h
            rw [Bool.and_eq_true, Option.isNone_iff_eq_none] at hy
            exact ⟨rfl, hy⟩
        · cases h
      · rintro ⟨h, hx, hs⟩
        cases h
        simp [hx, hs]
  | _ => simp [waiting?]

end Ty

theorem Solution.get?_congr (s : Solution) {v w : ErrorVar} (h : (v == w) = true) :
    s.get? v = s.get? w := Table.get?_congr s.sets h

theorem Solution.getD_congr (s : Solution) {v w : ErrorVar} (h : (v == w) = true) :
    s.getD v = s.getD w := by
  unfold getD
  rw [s.get?_congr h]

/-- Whether no set of the solution has arguments. -/
def Solution.PayloadFree (s : Solution) : Prop :=
  ∀ v set, s.get? v = some set → set.PayloadFree

theorem Solution.payloadFree_of_values {s : Solution}
    (h : ∀ set ∈ s.sets.values, set.PayloadFree) : s.PayloadFree := by
  intro v set hget
  obtain ⟨k, hk, _⟩ := Table.mem_of_get? hget
  exact h set (List.mem_map_of_mem hk)

namespace View

/-! ## Interpretations -/

/-! The three things that an error variable can do. -/

theorem add_rigid {s : Solution} {r : Reading} {x : ErrorVar} (hx : x.flexible = false) :
    r.add s (.errorVar x) = { r with known := r.known.insert (.var x) [] } := by
  simp [Reading.add, hx]

theorem add_solved {s : Solution} {r : Reading} {x : ErrorVar} {set : ErrorSet}
    (hx : x.flexible = true) (hs : s.get? x = some set) :
    r.add s (.errorVar x) =
      { r with
        known := set.entries.foldl (fun t e => t.insertNew e.1 e.2) r.known
        universal := r.universal || set.universal } := by
  simp [Reading.add, hx, hs]

theorem add_waiting {s : Solution} {r : Reading} {x : ErrorVar} (hx : x.flexible = true)
    (hs : s.get? x = none) :
    r.add s (.errorVar x) = { r with flexible := r.flexible ++ [x] } := by
  simp [Reading.add, hx, hs]

theorem contains_add (s : Solution) (r : Reading) (m : Ty) (a : Atom) :
    (r.add s m).known.contains a = (r.known.contains a || m.yields s a) := by
  cases m with
  | errorConst c args =>
      show (r.known.insert (.classifier c) args).contains a = _
      rw [Table.contains_insert, Bool.or_comm]
      rfl
  | errorVar x =>
      cases hx : x.flexible with
      | false =>
          rw [add_rigid hx, Table.contains_insert, Bool.or_comm]
          simp [Ty.yields, hx]
      | true =>
          cases hs : s.get? x with
          | none => rw [add_waiting hx hs]; simp [Ty.yields, hx, hs]
          | some set =>
              rw [add_solved hx hs, Table.contains_foldl_insertNew, ← ErrorSet.contains_eq_any]
              simp [Ty.yields, hx, hs]
  | _ => simp [Reading.add, Ty.yields]

theorem universal_add (s : Solution) (r : Reading) (m : Ty) :
    (r.add s m).universal = (r.universal || m.yieldsAll s) := by
  cases m with
  | errorVar x =>
      cases hx : x.flexible with
      | false => rw [add_rigid hx]; simp [Ty.yieldsAll, hx]
      | true =>
          cases hs : s.get? x with
          | none => rw [add_waiting hx hs]; simp [Ty.yieldsAll, hs]
          | some set => rw [add_solved hx hs]; simp [Ty.yieldsAll, hx, hs]
  | _ => simp [Reading.add, Ty.yieldsAll]

theorem flexible_add (s : Solution) (r : Reading) (m : Ty) :
    (r.add s m).flexible = r.flexible ++ (m.waiting? s).toList := by
  cases m with
  | errorVar x =>
      cases hx : x.flexible with
      | false => rw [add_rigid hx]; simp [Ty.waiting?, hx]
      | true =>
          cases hs : s.get? x with
          | none => rw [add_waiting hx hs]; simp [Ty.waiting?, hx, hs]
          | some set => rw [add_solved hx hs]; simp [Ty.waiting?, hs]
  | _ => simp [Reading.add, Ty.waiting?]

theorem contains_interpretWith (s : Solution) (t : Ty) (a : Atom) :
    (interpretWith s t).known.contains a = t.errorPart.any fun m => m.yields s a := by
  have hfold : ∀ (ms : List Ty) (r : Reading),
      (ms.foldl (Reading.add s) r).known.contains a =
        (r.known.contains a || ms.any fun m => m.yields s a) := by
    intro ms
    induction ms with
    | nil => intro r; simp
    | cons m rest ih =>
        intro r
        rw [List.foldl_cons, ih, contains_add, List.any_cons, Bool.or_assoc]
  show (ErrorSet.ofTable _ _).contains a = _
  rw [ErrorSet.contains_ofTable, hfold]
  rfl

theorem universal_interpretWith (s : Solution) (t : Ty) :
    (interpretWith s t).known.universal = t.errorPart.any fun m => m.yieldsAll s := by
  have hfold : ∀ (ms : List Ty) (r : Reading),
      (ms.foldl (Reading.add s) r).universal =
        (r.universal || ms.any fun m => m.yieldsAll s) := by
    intro ms
    induction ms with
    | nil => intro r; simp
    | cons m rest ih =>
        intro r
        rw [List.foldl_cons, ih, universal_add, List.any_cons, Bool.or_assoc]
  show (List.foldl (Reading.add s) _ t.errorPart).universal = _
  rw [hfold]
  rfl

theorem flexible_interpretWith (s : Solution) (t : Ty) :
    (interpretWith s t).flexible = t.errorPart.filterMap fun m => m.waiting? s := by
  have hfold : ∀ (ms : List Ty) (r : Reading),
      (ms.foldl (Reading.add s) r).flexible =
        r.flexible ++ ms.filterMap fun m => m.waiting? s := by
    intro ms
    induction ms with
    | nil => intro r; simp
    | cons m rest ih =>
        intro r
        rw [List.foldl_cons, ih, flexible_add, List.filterMap_cons]
        cases m.waiting? s <;> simp
  show (List.foldl (Reading.add s) _ t.errorPart).flexible = _
  rw [hfold]
  rfl

/-! A solution adds to what is known before solving, and only through the
variables that were waiting. -/

theorem any_or_filterMap {l : List Ty} (f : Ty → Bool) (g : Ty → Option ErrorVar)
    (h : ErrorVar → Bool) :
    (l.any fun m => f m || (g m).any h) = (l.any f || (l.filterMap g).any h) := by
  induction l with
  | nil => rfl
  | cons m rest ih =>
      rw [List.any_cons, List.any_cons, List.filterMap_cons, ih]
      cases hg : g m with
      | none => simp [Bool.or_assoc]
      | some x => simp only [Option.any_some, List.any_cons]; ac_rfl

theorem contains_interpretWith_solved (s : Solution) (t : Ty) (a : Atom) :
    (interpretWith s t).known.contains a =
      ((interpretWith .empty t).known.contains a ||
        (interpretWith .empty t).flexible.any fun x =>
          (s.get? x).any fun set => set.contains a) := by
  rw [contains_interpretWith, contains_interpretWith, flexible_interpretWith,
    ← any_or_filterMap]
  congr 1
  funext m
  cases m with
  | errorVar x =>
      cases hx : x.flexible with
      | false => simp [Ty.yields, Ty.waiting?, hx]
      | true => simp [Ty.yields, Ty.waiting?, hx, Solution.get?, Solution.empty]
  | _ => simp [Ty.yields, Ty.waiting?]

theorem universal_interpretWith_solved (s : Solution) (t : Ty) :
    (interpretWith s t).known.universal =
      ((interpretWith .empty t).known.universal ||
        (interpretWith .empty t).flexible.any fun x =>
          (s.get? x).any fun set => set.universal) := by
  rw [universal_interpretWith, universal_interpretWith, flexible_interpretWith,
    ← any_or_filterMap]
  congr 1
  funext m
  cases m with
  | errorVar x =>
      cases hx : x.flexible with
      | false => simp [Ty.yieldsAll, Ty.waiting?, hx]
      | true => simp [Ty.yieldsAll, Ty.waiting?, hx, Solution.get?, Solution.empty]
  | _ => simp [Ty.yieldsAll, Ty.waiting?]

theorem mem_flexible_interpretWith {s : Solution} {t : Ty} {x : ErrorVar} :
    x ∈ (interpretWith s t).flexible ↔
      .errorVar x ∈ t.errorPart ∧ x.flexible = true ∧ s.get? x = none := by
  rw [flexible_interpretWith, List.mem_filterMap]
  constructor
  · rintro ⟨m, hm, hx⟩
    obtain ⟨rfl, hflex⟩ := Ty.waiting?_eq_some.1 hx
    exact ⟨hm, hflex⟩
  · rintro ⟨hm, hflex⟩
    exact ⟨_, hm, Ty.waiting?_eq_some.2 ⟨rfl, hflex⟩⟩

theorem payloadFree_interpretWith {s : Solution} (hs : s.PayloadFree) {t : Ty}
    (ht : t.payloadFree = true) : (interpretWith s t).known.PayloadFree := by
  have hinsert : ∀ {t : Instantiations} {a : Atom},
      (∀ e ∈ t.entries, e.2 = []) → ∀ e ∈ (t.insert a []).entries, e.2 = [] := by
    intro t a h e he
    rcases Table.mem_insert he with ⟨_, hv⟩ | he
    · exact hv
    · exact h e he
  have hadd : ∀ {m : Ty} {r : Reading}, m.payloadFree = true →
      (∀ e ∈ r.known.entries, e.2 = []) → ∀ e ∈ (r.add s m).known.entries, e.2 = [] := by
    intro m r hm hr
    cases m with
    | errorConst c args =>
        have hargs : args = [] := List.isEmpty_iff.1 hm
        subst hargs
        exact hinsert hr
    | errorVar x =>
        cases hx : x.flexible with
        | false => rw [add_rigid hx]; exact hinsert hr
        | true =>
            cases hsx : s.get? x with
            | none => rw [add_waiting hx hsx]; exact hr
            | some set =>
                rw [add_solved hx hsx]
                intro e he
                exact (Table.mem_foldl_insertNew he).elim (hr e) (hs x set hsx e)
    | _ => exact hr
  have hfold : ∀ (ms : List Ty) (r : Reading), (∀ m ∈ ms, m.payloadFree = true) →
      (∀ e ∈ r.known.entries, e.2 = []) →
      ∀ e ∈ (ms.foldl (Reading.add s) r).known.entries, e.2 = [] := by
    intro ms
    induction ms with
    | nil => intro r _ h; exact h
    | cons m rest ih =>
        intro r hms h
        rw [List.foldl_cons]
        exact ih _ (fun e he => hms e (List.mem_cons_of_mem _ he))
          (hadd (hms m (List.mem_cons_self ..)) h)
  intro e he
  refine hfold t.errorPart ⟨.empty, false, []⟩ (fun m hm => ?_)
    (fun e he => absurd he List.not_mem_nil) e (ErrorSet.mem_entries_ofEntries.1 he)
  exact Ty.payloadFree_of_mem_constituents ht (List.mem_filter.1 hm).1

/-! ## Known sets -/

/-- Whether a set leaves an atom uncovered, arguments aside. -/
def leaves (sup : ErrorSet) (a : Atom) : Bool := !sup.contains a && !coveredByAlias sup a

theorem coveredByAlias_bare (sup : ErrorSet) (a : Atom) :
    coveredByAlias sup a.bare = coveredByAlias sup a := by
  cases a with
  | classifier c => rfl
  | var x =>
      obtain ⟨name, bound, flexible⟩ := x
      cases bound with
      | unbounded => rfl
      | bounded al =>
          show (al.members.map Classifier.bare).all _ = al.members.all _
          rw [List.all_map]
          congr 1
          funext c
          exact ErrorSet.contains_congr sup (Atom.beq_iff.2 rfl)

theorem coveredByAlias_congr (sup : ErrorSet) {a b : Atom} (h : (a == b) = true) :
    coveredByAlias sup a = coveredByAlias sup b := by
  rw [← coveredByAlias_bare sup a, Atom.beq_iff.1 h, coveredByAlias_bare]

theorem coveredByAlias_mono {s t : ErrorSet} (h : ∀ a, s.contains a = true → t.contains a = true)
    {a : Atom} (ha : coveredByAlias s a = true) : coveredByAlias t a = true := by
  cases a with
  | classifier c => cases ha
  | var x =>
      obtain ⟨name, bound, flexible⟩ := x
      cases bound with
      | unbounded => cases ha
      | bounded al =>
          refine List.all_eq_true.2 fun c hc => ?_
          exact h _ (List.all_eq_true.1 ha c hc)

theorem leaves_congr (sup : ErrorSet) {a b : Atom} (h : (a == b) = true) :
    leaves sup a = leaves sup b := by
  unfold leaves
  rw [ErrorSet.contains_congr sup h, coveredByAlias_congr sup h]

theorem leaves_eq_false {sup : ErrorSet} {a : Atom} :
    leaves sup a = false ↔ sup.contains a = true ∨ coveredByAlias sup a = true := by
  unfold leaves
  cases sup.contains a <;> cases coveredByAlias sup a <;> simp

/-- What a set covers, a larger set covers. -/
theorem leaves_mono {s t : ErrorSet} (h : ∀ a, s.contains a = true → t.contains a = true)
    {a : Atom} (ha : leaves s a = false) : leaves t a = false := by
  rw [leaves_eq_false] at ha ⊢
  rcases ha with ha | ha
  · exact Or.inl (h a ha)
  · exact Or.inr (coveredByAlias_mono h ha)

theorem covers_nil (holds : Comparison) (atom : Atom) (sub : List Ty) :
    Payload.covers holds atom [] sub = .ok true := rfl

/-- Without arguments in `sup`, an atom is uncovered only if it is missing. -/
theorem uncovered_of_payloadFree (holds : Comparison) {sup : ErrorSet} (h : sup.PayloadFree)
    (es : List (Atom × List Ty)) (missing mismatched : Instantiations) :
    uncovered holds sup es missing mismatched =
      .ok (missing.insertAll (es.filter fun e => leaves sup e.1), mismatched) := by
  induction es generalizing missing with
  | nil => rfl
  | cons e rest ih =>
      obtain ⟨atom, args⟩ := e
      rw [uncovered]
      cases hget : sup.get? atom with
      | some supArgs =>
          have hnil : supArgs = [] := by
            obtain ⟨k, hk⟩ := ErrorSet.mem_of_get? hget
            exact h _ hk
          have hin : sup.contains atom = true := by
            rw [← ErrorSet.isSome_get?, hget]
            rfl
          have hleaves : leaves sup atom = false := by simp [leaves, hin]
          rw [List.filter_cons_of_neg (by simp [hleaves])]
          simp only [hnil, covers_nil, bind, Except.bind, if_true]
          exact ih missing
      | none =>
          have hin : sup.contains atom = false := by
            rw [← ErrorSet.isSome_get?, hget]
            rfl
          cases hal : coveredByAlias sup atom with
          | true =>
              have hleaves : leaves sup atom = false := by simp [leaves, hal]
              rw [List.filter_cons_of_neg (by simp [hleaves])]
              exact ih missing
          | false =>
              have hleaves : leaves sup atom = true := by simp [leaves, hin, hal]
              rw [List.filter_cons_of_pos (by simp [hleaves])]
              exact ih (missing.insert atom args)

/-- What is missing of a set. -/
def missingOf (sup sub : ErrorSet) : ErrorSet :=
  .ofTable (.ofList (sub.entries.filter fun e => leaves sup e.1)) false

theorem residualWith_of_payloadFree (holds : Comparison) {sup : ErrorSet}
    (h : sup.PayloadFree) (sub : ErrorSet) :
    residualWith holds sup sub = .ok ⟨missingOf sup sub, .ofTable .empty false⟩ := by
  unfold residualWith
  rw [uncovered_of_payloadFree holds h]
  rfl

theorem contains_missingOf (sup sub : ErrorSet) (a : Atom) :
    (missingOf sup sub).contains a = (sub.contains a && leaves sup a) := by
  unfold missingOf
  rw [ErrorSet.contains_ofTable, Table.contains_ofList, ErrorSet.contains_eq_any,
    List.any_filter]
  induction sub.entries with
  | nil => rfl
  | cons e rest ih =>
      rw [List.any_cons, List.any_cons, ih]
      cases hea : e.1 == a with
      | false => simp
      | true => rw [leaves_congr sup hea]; cases leaves sup a <;> simp

theorem isEmpty_missingOf (sup sub : ErrorSet) :
    (missingOf sup sub).isEmpty = true ↔
      ∀ a, sub.contains a = true → leaves sup a = false := by
  rw [ErrorSet.isEmpty_iff]
  constructor
  · rintro ⟨hnone, _⟩ a ha
    have := hnone a
    rw [contains_missingOf, ha, Bool.true_and] at this
    exact this
  · intro h
    refine ⟨fun a => ?_, rfl⟩
    rw [contains_missingOf]
    cases ha : sub.contains a with
    | false => rfl
    | true => rw [h a ha]; rfl

/-- Whether `sup` has everything that `sub` has, as a set. -/
def Includes (sup sub : ErrorSet) : Prop :=
  sup.universal = true ∨
    sub.universal = false ∧ ∀ a, sub.contains a = true → leaves sup a = false

/-- Without arguments, containing a set is including it. -/
theorem coversWith_iff_includes (holds : Comparison) {sup : ErrorSet} (h : sup.PayloadFree)
    (sub : ErrorSet) :
    (∃ b, coversWith holds sup sub = .ok b) ∧
      (coversWith holds sup sub = .ok true ↔ Includes sup sub) := by
  unfold coversWith Includes
  cases hu : sup.universal with
  | true => exact ⟨⟨true, rfl⟩, fun _ => Or.inl rfl, fun _ => rfl⟩
  | false =>
      cases hv : sub.universal with
      | true =>
          refine ⟨⟨false, rfl⟩, fun hb => ?_, fun hi => ?_⟩
          · cases hb
          · rcases hi with hi | hi
            · cases hi
            · cases hi.1
      | false =>
          rw [if_neg Bool.false_ne_true, if_neg Bool.false_ne_true,
            residualWith_of_payloadFree holds h]
          refine ⟨⟨_, rfl⟩, fun hb => ?_, fun hi => ?_⟩
          · have hand := Except.ok.inj hb
            rw [Bool.and_eq_true] at hand
            exact Or.inr ⟨rfl, (isEmpty_missingOf sup sub).1 hand.1⟩
          · have hmissing := (isEmpty_missingOf sup sub).2
              (hi.resolve_left Bool.false_ne_true).2
            show Except.ok ((missingOf sup sub).isEmpty && _) = _
            rw [hmissing]
            rfl

/-! ## Interpretations compared -/

/-- The verdict on errors, arguments aside. -/
def errorVerdict (sup sub : Interpretation) : Verdict :=
  if sup.known.universal then .holds
  else if sub.known.universal && !sup.flexible.any (fun x => x.bound.isUnbounded) then .fails
  else if (missingOf sup.known sub.known).isEmpty &&
      (sub.flexible.filter fun x => !sup.flexible.contains x).isEmpty &&
      !sub.known.universal then .holds
  else if !(missingOf sup.known sub.known).isEmpty && sup.flexible.isEmpty then .fails
  else .pending

theorem compareErrors_of_payloadFree (holds : Comparison) {sup : Interpretation}
    (h : sup.known.PayloadFree) (sub : Interpretation) :
    compareErrors holds sup sub = .ok (errorVerdict sup sub) := by
  unfold compareErrors errorVerdict
  split
  · rfl
  · split
    · rfl
    · simp only [residualWith_of_payloadFree holds h, bind, Except.bind]
      rw [show ErrorSet.isEmpty (.ofTable .empty false) = true from rfl]
      simp only [Bool.not_true, Bool.false_eq_true, if_false]
      split
      · rfl
      · split <;> rfl

/-- Errors hold if they are included, and no unsolved variable of `sub` is
missing from `sup`. -/
theorem errorVerdict_holds_iff (sup sub : Interpretation) :
    errorVerdict sup sub = .holds ↔
      sup.known.universal = true ∨
        (sub.known.universal = false ∧
          (∀ a, sub.known.contains a = true → leaves sup.known a = false)) ∧
        ∀ x ∈ sub.flexible, sup.flexible.contains x = true := by
  unfold errorVerdict
  have hflow : (sub.flexible.filter fun x => !sup.flexible.contains x).isEmpty = true ↔
      ∀ x ∈ sub.flexible, sup.flexible.contains x = true := by
    rw [List.isEmpty_iff, List.filter_eq_nil_iff]
    simp
  rw [← hflow, ← isEmpty_missingOf]
  cases sup.known.universal <;> cases sub.known.universal <;>
    cases (missingOf sup.known sub.known).isEmpty <;>
    cases (sub.flexible.filter fun x => !sup.flexible.contains x).isEmpty <;>
    cases sup.flexible.any (fun x => x.bound.isUnbounded) <;>
    cases sup.flexible.isEmpty <;> simp

end View

end Fallible
