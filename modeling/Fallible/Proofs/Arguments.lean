import Fallible.Proofs.Covering

/-!
# Comparing errors whose classifiers have arguments

With arguments a known set is a map, and one set contains another if every
entry of the other is covered: the atom is there with arguments that cover its
own, or everything it can stand for is there. The code collects what is missing
and what is mismatched, and a comparison holds where both collections stay
empty. So it comes down to a condition on each entry by itself, and the order
of the entries does not matter.

Everything is stated over a comparison of arguments that may also be at fault.
Asking whether the answer is yes leaves faults out of sight: an entry whose
comparison is at fault is not covered.
-/

namespace Fallible

/-! ## Argument lists -/

/-- Whether an argument of a parameter covers another, given which types cover
which. -/
def ArgCovers (R : Ty → Ty → Prop) : Variance → Ty → Ty → Prop
  | .covariant, x, y => R x y
  | .contravariant, x, y => R y x
  | .invariant, x, y => R x y ∧ R y x

/-- Whether two lists are equally long and cover each other place by place. -/
def ArgsMatch (R : Ty → Ty → Prop) (a : Atom) (xs ys : List Ty) : Prop :=
  xs.length = ys.length ∧
    ∀ i x y, xs[i]? = some x → ys[i]? = some y → ArgCovers R (a.variance i) x y

/-- Whether the arguments of an atom cover others. -/
def ArgsCover (R : Ty → Ty → Prop) (a : Atom) (xs ys : List Ty) : Prop :=
  xs = [] ∨ ys = [] ∨ (xs == ys) = true ∨ ArgsMatch R a xs ys

namespace Payload

variable {h : Comparison}

theorem coversArg_iff (v : Variance) (x y : Ty) :
    coversArg h v x y = .ok true ↔ ArgCovers (fun a b => h a b = .ok true) v x y := by
  cases v with
  | covariant => rfl
  | contravariant => rfl
  | invariant =>
      rw [coversArg, ArgCovers]
      cases hxy : h x y with
      | error f => simp [bind, Except.bind]
      | ok b => cases b <;> simp [bind, Except.bind, pure, Except.pure]

theorem coversFrom_cons {a : Atom} {i : Nat} {x y : Ty} {xs ys : List Ty} :
    coversFrom h a i (x :: xs) (y :: ys) = .ok true ↔
      ArgCovers (fun a b => h a b = .ok true) (a.variance i) x y ∧
        coversFrom h a (i + 1) xs ys = .ok true := by
  rw [← coversArg_iff, coversFrom]
  cases coversArg h (a.variance i) x y with
  | error f => simp [bind, Except.bind]
  | ok b => cases b <;> simp [bind, Except.bind, pure, Except.pure]

theorem coversFrom_iff {a : Atom} : ∀ {i : Nat} {xs ys : List Ty}, xs.length = ys.length →
    (coversFrom h a i xs ys = .ok true ↔
      ∀ j x y, xs[j]? = some x → ys[j]? = some y →
        ArgCovers (fun a b => h a b = .ok true) (a.variance (i + j)) x y) := by
  intro i xs
  induction xs generalizing i with
  | nil => intro ys _; simp [coversFrom, pure, Except.pure]
  | cons x xs ih =>
      intro ys hlen
      cases ys with
      | nil => cases hlen
      | cons y ys =>
          rw [coversFrom_cons, ih (by simpa using hlen)]
          constructor
          · rintro ⟨hhead, htail⟩ j u v hu hv
            cases j with
            | zero => cases hu; cases hv; exact hhead
            | succ j =>
                rw [show i + (j + 1) = i + 1 + j by omega]
                exact htail j u v (by simpa using hu) (by simpa using hv)
          · intro hall
            refine ⟨hall 0 x y rfl rfl, fun j u v hu hv => ?_⟩
            rw [show i + 1 + j = i + (j + 1) by omega]
            exact hall (j + 1) u v (by simpa using hu) (by simpa using hv)

theorem covers_iff (a : Atom) (xs ys : List Ty) :
    covers h a xs ys = .ok true ↔ ArgsCover (fun x y => h x y = .ok true) a xs ys := by
  rw [covers, ArgsCover, ArgsMatch]
  by_cases hxs : xs = []
  · simp [hxs, pure, Except.pure]
  by_cases hys : ys = []
  · simp [hys, pure, Except.pure]
  by_cases hbeq : (xs == ys) = true
  · simp [hbeq, pure, Except.pure]
  by_cases hlen : xs.length = ys.length
  · rw [if_neg (by simp [hxs, hys, hbeq]), if_neg (by simp [hlen]), coversFrom_iff hlen]
    simp [hxs, hys, hbeq, hlen]
  · rw [if_neg (by simp [hxs, hys, hbeq]), if_pos (by simp [hlen])]
    simp [hxs, hys, hbeq, hlen, pure, Except.pure]

end Payload

/-! ## Known sets -/

/-- Whether a set has what an entry of another set says. -/
def EntryCovered (R : Ty → Ty → Prop) (sup : ErrorSet) (e : Atom × List Ty) : Prop :=
  match sup.get? e.1 with
  | some args => ArgsCover R e.1 args e.2
  | none => View.coveredByAlias sup e.1 = true

/-- Whether the errors of one interpretation cover those of another. -/
def ErrorsHold (R : Ty → Ty → Prop) (sup sub : Interpretation) : Prop :=
  sup.known.universal = true ∨
    sub.known.universal = false ∧ (∀ e ∈ sub.known.entries, EntryCovered R sup.known e) ∧
      ∀ x ∈ sub.flexible, sup.flexible.contains x = true

theorem EntryCovered.of_some {R : Ty → Ty → Prop} {sup : ErrorSet} {e : Atom × List Ty}
    {args : List Ty} (h : EntryCovered R sup e) (hget : sup.get? e.1 = some args) :
    ArgsCover R e.1 args e.2 := by
  rw [EntryCovered, hget] at h
  exact h

theorem EntryCovered.of_none {R : Ty → Ty → Prop} {sup : ErrorSet} {e : Atom × List Ty}
    (h : EntryCovered R sup e) (hget : sup.get? e.1 = none) :
    View.coveredByAlias sup e.1 = true := by
  rw [EntryCovered, hget] at h
  exact h

namespace View

variable {h : Comparison}

theorem uncovered_cons {sup : ErrorSet} {e : Atom × List Ty} {rest : List (Atom × List Ty)}
    {missing mismatched : Instantiations} {r : Instantiations × Instantiations}
    (hr : uncovered h sup (e :: rest) missing mismatched = .ok r) :
    (EntryCovered (fun x y => h x y = .ok true) sup e ∧
      uncovered h sup rest missing mismatched = .ok r) ∨
    uncovered h sup rest missing (mismatched.insert e.1 e.2) = .ok r ∨
    uncovered h sup rest (missing.insert e.1 e.2) mismatched = .ok r := by
  rw [uncovered] at hr
  cases hget : sup.get? e.1 with
  | none =>
      simp only [hget] at hr
      split at hr
      · next hal => exact Or.inl ⟨by rw [EntryCovered, hget]; exact hal, hr⟩
      · exact Or.inr (Or.inr hr)
  | some args =>
      simp only [hget] at hr
      cases hc : Payload.covers h e.1 args e.2 with
      | error f => rw [hc] at hr; cases hr
      | ok b =>
          rw [hc] at hr
          cases b with
          | false => exact Or.inr (Or.inl hr)
          | true =>
              refine Or.inl ⟨?_, hr⟩
              rw [EntryCovered, hget]
              exact (Payload.covers_iff e.1 args e.2).1 hc

theorem uncovered_of_covered {sup : ErrorSet} {es : List (Atom × List Ty)}
    (hes : ∀ e ∈ es, EntryCovered (fun x y => h x y = .ok true) sup e)
    (missing mismatched : Instantiations) :
    uncovered h sup es missing mismatched = .ok (missing, mismatched) := by
  induction es with
  | nil => rfl
  | cons e rest ih =>
      have he := hes e (by simp)
      replace ih := ih fun d hd => hes d (by simp [hd])
      rw [uncovered]
      cases hget : sup.get? e.1 with
      | none => simp only [he.of_none hget, if_true, ih]
      | some args =>
          simp only [(Payload.covers_iff e.1 args e.2).2 (he.of_some hget), bind, Except.bind,
            if_true, ih]

/-- What was collected is never dropped again, so nothing is collected only if
every entry is covered. -/
theorem covered_of_uncovered {sup : ErrorSet} : ∀ {es : List (Atom × List Ty)}
    {missing mismatched : Instantiations},
    uncovered h sup es missing mismatched = .ok (.empty, .empty) →
    missing = .empty ∧ mismatched = .empty ∧
      ∀ e ∈ es, EntryCovered (fun x y => h x y = .ok true) sup e := by
  have hne : ∀ (t : Instantiations) (a : Atom) (args : List Ty), t.insert a args ≠ .empty := by
    intro t a args he
    have hc := Table.contains_insert t a a args
    rw [he] at hc
    simp at hc
  intro es
  induction es with
  | nil =>
      intro missing mismatched hr
      cases hr
      exact ⟨rfl, rfl, by simp⟩
  | cons e rest ih =>
      intro missing mismatched hr
      rcases uncovered_cons hr with ⟨he, hrest⟩ | hrest | hrest
      · obtain ⟨hm, hn, hall⟩ := ih hrest
        refine ⟨hm, hn, fun d hd => ?_⟩
        rcases List.mem_cons.1 hd with rfl | hd
        · exact he
        · exact hall d hd
      · exact absurd (ih hrest).2.1 (hne _ _ _)
      · exact absurd (ih hrest).1 (hne _ _ _)

theorem isEmpty_ofTable (t : Instantiations) :
    (ErrorSet.ofTable t false).isEmpty = true ↔ t = .empty := by
  rw [ErrorSet.isEmpty_iff]
  constructor
  · rintro ⟨hnone, _⟩
    obtain ⟨es⟩ := t
    cases es with
    | nil => rfl
    | cons e rest =>
        have hc := hnone e.1
        rw [ErrorSet.contains_ofTable] at hc
        simp [Table.contains] at hc
  · rintro rfl
    exact ⟨fun a => by rw [ErrorSet.contains_ofTable]; rfl, rfl⟩

theorem uncovered_ok {sup : ErrorSet} {es : List (Atom × List Ty)}
    {missing mismatched : Instantiations} {r : Instantiations × Instantiations}
    (hr : uncovered h sup es missing mismatched = .ok r) :
    r.1 = missing.insertAll (es.filter fun e => leaves sup e.1) ∧
      ∃ clashing, r.2 = mismatched.insertAll clashing ∧
        (clashing = [] ↔ ∀ e ∈ es, ∀ args, sup.get? e.1 = some args →
          ArgsCover (fun x y => h x y = .ok true) e.1 args e.2) := by
  induction es generalizing missing mismatched with
  | nil =>
      rw [uncovered] at hr
      cases hr
      exact ⟨rfl, [], rfl, by simp⟩
  | cons e rest ih =>
      obtain ⟨atom, ys⟩ := e
      have hleaves : leaves sup atom = (!(sup.get? atom).isSome && !coveredByAlias sup atom) := by
        rw [leaves, ErrorSet.isSome_get?]
      rw [uncovered] at hr
      cases hget : sup.get? atom with
      | none =>
          rw [hget] at hr hleaves
          cases hal : coveredByAlias sup atom <;> simp only [hal] at hr hleaves
          all_goals
            obtain ⟨hmissing, clashing, hclashing, hiff⟩ := ih hr
            refine ⟨?_, clashing, hclashing, ?_⟩
            · rw [hmissing]
              simp [hleaves, Table.insertAll]
            · rw [hiff]
              simp [hget]
      | some xs =>
          rw [hget] at hleaves
          simp only [hget] at hr
          cases hc : Payload.covers h atom xs ys with
          | error f => rw [hc] at hr; cases hr
          | ok b =>
              rw [hc] at hr
              cases b with
              | true =>
                  obtain ⟨hmissing, clashing, hclashing, hiff⟩ := ih hr
                  refine ⟨by rw [hmissing]; simp [hleaves], clashing, hclashing, ?_⟩
                  rw [hiff]
                  have := (Payload.covers_iff atom xs ys).1 hc
                  simp [hget, this]
              | false =>
                  obtain ⟨hmissing, clashing, hclashing, -⟩ := ih hr
                  refine ⟨by rw [hmissing]; simp [hleaves], (atom, ys) :: clashing, hclashing, ?_⟩
                  have hnot : ¬ ArgsCover (fun x y => h x y = .ok true) atom xs ys := by
                    rw [← Payload.covers_iff, hc]
                    simp
                  simp [hget, hnot]

/-- What is missing does not depend on arguments. What is mismatched does. -/
theorem residualWith_ok {sup sub : ErrorSet} {r : Residual}
    (hr : residualWith h sup sub = .ok r) :
    r.missing = missingOf sup sub ∧
      (r.mismatched.isEmpty = true ↔ ∀ e ∈ sub.entries, ∀ args, sup.get? e.1 = some args →
        ArgsCover (fun x y => h x y = .ok true) e.1 args e.2) := by
  rw [residualWith] at hr
  cases hu : uncovered h sup sub.entries .empty .empty with
  | error f => rw [hu] at hr; cases hr
  | ok p =>
      rw [hu] at hr
      cases hr
      obtain ⟨hmissing, clashing, hclashing, hiff⟩ := uncovered_ok hu
      refine ⟨by rw [hmissing]; rfl, ?_⟩
      rw [isEmpty_ofTable, hclashing, ← hiff]
      cases clashing with
      | nil => simp [Table.insertAll]
      | cons e rest =>
          have hin := Table.contains_ofList (e :: rest) e.1
          simp only [List.any_cons, BEq.rfl, Bool.true_or] at hin
          simp only [reduceCtorEq, iff_false]
          intro hempty
          rw [Table.ofList, hempty] at hin
          cases hin

theorem residualWith_isEmpty_iff (sup sub : ErrorSet) :
    (∃ r, residualWith h sup sub = .ok r ∧ r.missing.isEmpty = true ∧
        r.mismatched.isEmpty = true) ↔
      ∀ e ∈ sub.entries, EntryCovered (fun x y => h x y = .ok true) sup e := by
  rw [residualWith]
  constructor
  · rintro ⟨r, hr, hm, hn⟩
    cases hu : uncovered h sup sub.entries .empty .empty with
    | error f => rw [hu] at hr; cases hr
    | ok p =>
        obtain ⟨missing, mismatched⟩ := p
        rw [hu] at hr
        cases hr
        rw [(isEmpty_ofTable _).1 hm, (isEmpty_ofTable _).1 hn] at hu
        exact (covered_of_uncovered hu).2.2
  · intro hall
    refine ⟨_, by rw [uncovered_of_covered hall]; rfl, ?_, ?_⟩
    · exact (isEmpty_ofTable _).2 rfl
    · exact (isEmpty_ofTable _).2 rfl

/-- What it means that a known set contains another. -/
theorem coversWith_iff (sup sub : ErrorSet) :
    coversWith h sup sub = .ok true ↔
      sup.universal = true ∨
        sub.universal = false ∧
          ∀ e ∈ sub.entries, EntryCovered (fun x y => h x y = .ok true) sup e := by
  rw [← residualWith_isEmpty_iff, coversWith]
  cases hu : sup.universal with
  | true => simp [pure, Except.pure]
  | false =>
      cases hv : sub.universal with
      | true => simp [pure, Except.pure]
      | false =>
          cases hr : residualWith h sup sub with
          | error f => simp [bind, Except.bind]
          | ok r => simp [bind, Except.bind, pure, Except.pure]

theorem compareErrors_iff (sup sub : Interpretation) :
    compareErrors h sup sub = .ok .holds ↔
      ErrorsHold (fun x y => h x y = .ok true) sup sub := by
  have hflow : (sub.flexible.filter fun x => !sup.flexible.contains x).isEmpty = true ↔
      ∀ x ∈ sub.flexible, sup.flexible.contains x = true := by
    rw [List.isEmpty_iff, List.filter_eq_nil_iff]
    simp
  rw [ErrorsHold, ← residualWith_isEmpty_iff, ← hflow, compareErrors]
  dsimp only
  generalize (sub.flexible.filter fun x => !sup.flexible.contains x).isEmpty = stays
  cases sup.known.universal with
  | true => simp [pure, Except.pure]
  | false =>
      cases hr : residualWith h sup.known sub.known with
      | error f =>
          cases sub.known.universal <;>
            cases sup.flexible.any (fun x => x.bound.isUnbounded) <;>
            simp [bind, Except.bind, pure, Except.pure]
      | ok r =>
          cases sub.known.universal <;>
            cases sup.flexible.any (fun x => x.bound.isUnbounded) <;>
            cases hm : r.mismatched.isEmpty <;> cases hn : r.missing.isEmpty <;>
            cases stays <;> cases sup.flexible.isEmpty <;>
            simp [bind, Except.bind, pure, Except.pure, hm, hn]

end View

namespace View

theorem distinct_interpretWith (s : Solution) (t : Ty) : (interpretWith s t).known.Distinct := by
  have hadd : ∀ (r : Reading) (m : Ty), r.known.Distinct → (r.add s m).known.Distinct := by
    intro r m h
    cases m with
    | errorConst c args => exact h.insert _ _
    | errorVar x =>
        cases hx : x.flexible with
        | false => rw [add_rigid hx]; exact h.insert _ _
        | true =>
            cases hs : s.get? x with
            | none => rw [add_waiting hx hs]; exact h
            | some set => rw [add_solved hx hs]; exact h.foldl_insertNew set.entries
    | _ => exact h
  have hfold : ∀ (ms : List Ty) (r : Reading), r.known.Distinct →
      (ms.foldl (Reading.add s) r).known.Distinct := by
    intro ms
    induction ms with
    | nil => exact fun _ h => h
    | cons m ms ih => exact fun r h => ih _ (hadd r m h)
  exact ErrorSet.distinct_ofTable (hfold t.errorPart _ Table.distinct_empty) _

end View

/-! ## Types -/

/-- One level of the comparison holds if values and errors do, unless one of the
types has failed. -/
theorem View.compareWith_holds_iff (v : View) (h : Comparison) (sup sub : Ty) :
    v.compareWith h sup sub = .ok .holds ↔
      sup.failed = true ∨ sub.failed = true ∨
        v.compareValues h sup.valuePart sub.valuePart = .ok true ∧
          ErrorsHold (fun x y => h x y = .ok true) (v.interpret sup) (v.interpret sub) := by
  rw [← compareErrors_iff, compareWith, ← or_assoc, ← Bool.or_eq_true]
  cases sup.failed || sub.failed with
  | true => simp [pure, Except.pure]
  | false =>
      cases v.compareValues h sup.valuePart sub.valuePart with
      | error f => simp [bind, Except.bind]
      | ok b => cases b <;> simp [bind, Except.bind, pure, Except.pure]

theorem View.holdsWithin_succ (v : View) (n : Nat) (sup sub : Ty) :
    v.holdsWithin (n + 1) sup sub = .ok true ↔
      v.compareWith (v.holdsWithin n) sup sub = .ok .holds := by
  rw [holdsWithin]
  cases v.compareWith (v.holdsWithin n) sup sub with
  | error f => simp [bind, Except.bind]
  | ok r => cases r <;> simp [bind, Except.bind, pure, Except.pure]

/-- What it means that a type covers another in a shallow view. -/
theorem View.holds_iff {v : View} (hv : v.Shallow) (ho : v.order = .classes) (sup sub : Ty) :
    v.holds sup sub = .ok true ↔
      sup.failed = true ∨ sub.failed = true ∨
        ValueCovers (fun x y => v.holds x y = .ok true) sup.valuePart sub.valuePart ∧
          ErrorsHold (fun x y => v.holds x y = .ok true) (v.interpret sup) (v.interpret sub) := by
  have hspared : ∀ t : Ty, ∀ name ∈ t.projections, v.bindings.contains name = false := by
    intro t name _
    rw [hv.unbound]
    rfl
  rw [← compareValues_iff ho v.holds (hspared _) (hspared _), ← compareWith_holds_iff, holds_eq hv]
  cases v.compareWith v.holds sup sub with
  | error f => simp [bind, Except.bind]
  | ok r => cases r <;> simp [bind, Except.bind]

/-- What it means that a type covers another where nothing is solved or bound. -/
theorem isSubtype_iff (sup sub : Ty) :
    isSubtype .classes sup sub = true ↔
      sup.failed = true ∨ sub.failed = true ∨
        ValueCovers (fun x y => isSubtype .classes x y = true) sup.valuePart sub.valuePart ∧
          ErrorsHold (fun x y => isSubtype .classes x y = true)
            (View.interpretWith .empty sup) (View.interpretWith .empty sub) := by
  have hR : ∀ x y, (View.plain .classes).holds x y = .ok true ↔ isSubtype .classes x y = true := by
    intro x y
    rw [holds_plain_eq_isSubtype, Except.ok.injEq]
  have h := View.holds_iff (View.shallow_plain .classes) rfl sup sub
  simp only [hR] at h
  exact h

end Fallible
