import Fallible.Proofs.Arguments

/-!
# Two tests of containment

Whether a set of errors contains another is tested in two places. One test goes
through the entries of the smaller set and stops at the first that the larger set
lacks, or has with arguments that do not cover. The other goes on to the end and
sorts what is left uncovered into missing and mismatched atoms. Only the second
knows that the classifiers of an alias together cover every variable bounded by it.

An entry that the first test passes, the second passes. So the two can differ only
where the larger set has the whole alias of a variable and not the variable. They
can also differ in being at fault: the second makes every comparison that the first
makes, in the same order, and may make more after the first has stopped.
-/

namespace Fallible

/-- Whether a set has the atom of an entry, with arguments that cover its own. -/
def EntryListed (R : Ty → Ty → Prop) (sup : ErrorSet) (e : Atom × List Ty) : Prop :=
  ∃ args, sup.get? e.1 = some args ∧ ArgsCover R e.1 args e.2

/-! ## Stopping at the first entry that is not covered -/

namespace Payload

variable {h : Comparison} {sup : ErrorSet}

theorem coversEntries_iff (es : List (Atom × List Ty)) :
    coversEntries h sup es = .ok true ↔
      ∀ e ∈ es, EntryListed (fun x y => h x y = .ok true) sup e := by
  induction es with
  | nil => simp [coversEntries, pure, Except.pure]
  | cons e rest ih =>
      rw [List.forall_mem_cons, ← ih, coversEntries, EntryListed]
      cases hget : sup.get? e.1 with
      | none => simp [pure, Except.pure]
      | some args =>
          simp only [Option.some.injEq, exists_eq_left', ← covers_iff]
          cases covers h e.1 args e.2 with
          | error f => simp [bind, Except.bind]
          | ok answer => cases answer <;> simp [bind, Except.bind, pure, Except.pure]

theorem subsumes_iff (sup sub : ErrorSet) :
    subsumes h sup sub = .ok true ↔
      sup.universal = true ∨
        sub.universal = false ∧
          ∀ e ∈ sub.entries, EntryListed (fun x y => h x y = .ok true) sup e := by
  rw [← coversEntries_iff, subsumes]
  cases sup.universal <;> cases sub.universal <;> simp [pure, Except.pure]

/-- Until the first test stops, the second has met nothing but covered entries. -/
theorem uncovered_error_of_coversEntries {f : Fault} {es : List (Atom × List Ty)}
    (hes : coversEntries h sup es = .error f) (missing mismatched : Instantiations) :
    View.uncovered h sup es missing mismatched = .error f := by
  induction es with
  | nil => cases hes
  | cons e rest ih =>
      rw [coversEntries] at hes
      rw [View.uncovered]
      cases hget : sup.get? e.1 with
      | none => rw [hget] at hes; cases hes
      | some args =>
          simp only [hget] at hes ⊢
          cases hc : covers h e.1 args e.2 with
          | error g => rw [hc] at hes; cases hes; rfl
          | ok answer =>
              rw [hc] at hes
              cases answer with
              | false => cases hes
              | true => exact ih hes

theorem coversWith_error_of_subsumes {sub : ErrorSet} {f : Fault}
    (hf : subsumes h sup sub = .error f) : View.coversWith h sup sub = .error f := by
  rw [subsumes] at hf
  rw [View.coversWith]
  split at hf
  · cases hf
  · next hsup =>
      split at hf
      · cases hf
      · next hsub =>
          rw [if_neg hsup, if_neg hsub, View.residualWith, uncovered_error_of_coversEntries hf]
          rfl

end Payload

/-! ## Covering through an alias -/

theorem View.coveredByAlias_iff {sup : ErrorSet} {a : Atom} :
    coveredByAlias sup a = true ↔ ∃ x al, a = .var x ∧ x.bound = .bounded al ∧
      ∀ c ∈ al.members, sup.contains (.classifier c) = true := by
  cases a with
  | classifier c => simp [coveredByAlias]
  | var x => cases hb : x.bound <;> simp [coveredByAlias, hb]

/-- An entry is covered if it is listed, or if its atom is not and the alias is. -/
theorem entryCovered_iff {R : Ty → Ty → Prop} {sup : ErrorSet} {e : Atom × List Ty} :
    EntryCovered R sup e ↔
      EntryListed R sup e ∨ sup.contains e.1 = false ∧ View.coveredByAlias sup e.1 = true := by
  rw [EntryCovered, EntryListed, ← ErrorSet.isSome_get?]
  cases sup.get? e.1 <;> simp

theorem EntryListed.contains {R : Ty → Ty → Prop} {sup : ErrorSet} {e : Atom × List Ty}
    (h : EntryListed R sup e) : sup.contains e.1 = true := by
  obtain ⟨args, hget, -⟩ := h
  rw [← ErrorSet.isSome_get?, hget]
  rfl

/-! ## The two tests -/

namespace View

/-- A set that has no variable's whole alias in place of the variable covers nothing
through an alias. -/
theorem not_coveredByAlias_of_unaided {sup sub : ErrorSet}
    (hunaided : ∀ x al, .var x ∈ sub.atoms → x.bound = .bounded al →
      sup.contains (.var x) = true ∨ ∃ c ∈ al.members, sup.contains (.classifier c) = false)
    {e : Atom × List Ty} (he : e ∈ sub.entries) (habsent : sup.contains e.1 = false) :
    coveredByAlias sup e.1 ≠ true := by
  intro hal
  -- The set may spell the variable in two ways; it is asked about the first.
  have hin : sub.atoms.any (fun a => a == e.1) = true :=
    (Table.contains_eq_any_keys _ _).symm.trans (ErrorSet.contains_of_mem he)
  obtain ⟨a, ha, hae⟩ := List.any_eq_true.1 hin
  rw [← coveredByAlias_congr sup hae] at hal
  obtain ⟨x, al, rfl, hbound, hall⟩ := coveredByAlias_iff.1 hal
  rcases hunaided x al ha hbound with hx | ⟨c, hc, hmissing⟩
  · rw [ErrorSet.contains_congr sup hae, habsent] at hx
    cases hx
  · rw [hall c hc] at hmissing
    cases hmissing

/-- The test that stops early holds exactly if the one that goes on does and no
variable is covered by its alias alone. Where it is at fault, the other is. -/
theorem subsumes_iff_covers_unaided (v : View) (sup sub : ErrorSet) :
    (Payload.subsumes v.holds sup sub = .ok true ↔
      v.covers sup sub = .ok true ∧ (sup.universal = true ∨
        ∀ x al, .var x ∈ sub.atoms → x.bound = .bounded al →
          sup.contains (.var x) = true ∨
            ∃ c ∈ al.members, sup.contains (.classifier c) = false)) ∧
    ∀ f, Payload.subsumes v.holds sup sub = .error f → v.covers sup sub = .error f := by
  refine ⟨?_, fun f => Payload.coversWith_error_of_subsumes⟩
  rw [Payload.subsumes_iff, covers, coversWith_iff]
  constructor
  · rintro (hsup | ⟨hsub, hlisted⟩)
    · exact ⟨Or.inl hsup, Or.inl hsup⟩
    · refine ⟨Or.inr ⟨hsub, fun e he => entryCovered_iff.2 (Or.inl (hlisted e he))⟩,
        Or.inr fun x al hx _ => Or.inl ?_⟩
      obtain ⟨e, he, hex⟩ := Table.mem_keys_ofList hx
      exact hex ▸ (hlisted e he).contains
  · rintro ⟨hsup | ⟨hsub, hcovered⟩, hunaided⟩
    · exact Or.inl hsup
    · refine hunaided.imp_right fun hunaided => ⟨hsub, fun e he => ?_⟩
      refine (entryCovered_iff.1 (hcovered e he)).resolve_right fun halias => ?_
      exact not_coveredByAlias_of_unaided hunaided he halias.1 halias.2

/-- A classifier is the whole alias of a variable, which only one test sees. -/
example :
    let c : Classifier := ⟨0, [], "A", [], some 0⟩
    let sup : ErrorSet := .ofAtoms [.classifier c]
    let sub : ErrorSet := .ofAtoms [.var ⟨"E", .bounded (.of "OnlyA" [c]), false⟩]
    (plain .classes).covers sup sub = .ok true ∧
      Payload.subsumes (plain .classes).holds sup sub = .ok false :=
  ⟨rfl, rfl⟩

end View

end Fallible
