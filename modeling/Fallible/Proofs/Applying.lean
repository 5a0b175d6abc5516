import Fallible.Proofs.Resolution
import Fallible.Proofs.Verdicts

/-!
# Reading a solution and putting it in

A comparison may look solved variables up as it goes, or the sets may be put in
the place of the variables first. Where no classifier has arguments the two give
one verdict. A variable that is looked up brings the atoms of its set; the set
put in its place spells out the same atoms. A universal set is spelled out as
`Error` alone, and its atoms are lost, but in a universal set they do not matter.
What is not solved waits in both.

A solution puts nothing in the place of value projections, so the value part
stays where it is, however many values a union has.
-/

namespace Fallible

namespace Solution

/-- A solution is ground when what it lists is. -/
theorem ground_of_entries {s : Solution} (hkeys : ∀ p ∈ s.sets.entries, p.1.flexible = true)
    (hsets : ∀ p ∈ s.sets.entries, ∀ e ∈ p.2.entries,
      e.2 = [] ∧ ∀ x, e.1 = .var x → x.flexible = false) : s.Ground where
  free v set hv e he := by
    obtain ⟨k, hk, _⟩ := Table.mem_of_get? hv
    exact (hsets _ hk e he).1
  rigid v set hv x hx := by
    obtain ⟨k, hk, _⟩ := Table.mem_of_get? hv
    obtain ⟨e, he, hex⟩ := ErrorSet.contains_iff.1 hx
    cases hatom : e.1 with
    | classifier c => rw [hatom] at hex; cases hex
    | var y =>
        rw [hatom] at hex
        exact (ErrorVar.flexible_congr (v := y) hex).symm.trans ((hsets _ hk e he).2 y hatom)
  keys v hv := by
    obtain ⟨set, hset⟩ := Table.get?_of_contains hv
    obtain ⟨k, hk, hkv⟩ := Table.mem_of_get? hset
    exact (ErrorVar.flexible_congr hkv).symm.trans (hkeys _ hk)

section Put

variable {s : Solution} (hs : s.Ground) (hd : s.sets.Distinct)

/-- A variable without a set waits under any solution. -/
theorem errors_waiting {v : ErrorVar} (hv : v.flexible = true) (h : s.get? v = none) :
    SameErrors (View.interpretWith s (.errorVar v)) (View.interpretWith .empty (.errorVar v)) := by
  have hvar : (Ty.errorVar v).errorPart = [.errorVar v] := rfl
  have hempty : Solution.empty.get? v = none := rfl
  refine ⟨?_, fun _ a => ?_, fun _ x => ?_⟩
  · rw [View.universal_interpretWith, View.universal_interpretWith, hvar]
    simp [Ty.yieldsAll, h, hempty]
  · rw [View.contains_interpretWith, View.contains_interpretWith, hvar]
    simp [Ty.yields, hv, h, hempty]
  · rw [View.flexible_interpretWith, View.flexible_interpretWith, hvar]
    simp [Ty.waiting?, hv, h, hempty]

include hs hd

/-- What is put in the place of a variable has the errors that are looked up for it. -/
theorem errors_put (v : ErrorVar) : SameErrors (View.interpretWith s (.errorVar v))
    (View.interpretWith .empty (s.leaf (.errorVar v))) := by
  cases hv : s.get? v with
  | some set => exact errors_leaf hs.clean hd fun _ => Table.contains_of_get? hv
  | none =>
      cases hflex : v.flexible with
      | false => exact errors_leaf hs.clean hd fun h => absurd (hflex.symm.trans h) Bool.false_ne_true
      | true =>
          rw [leaf_waiting hd hv]
          exact errors_waiting hflex hv

theorem payloadFree_leaf (v : ErrorVar) : (s.leaf (.errorVar v)).payloadFree = true := by
  cases hv : s.get? v with
  | none => rw [leaf_waiting hd hv]; rfl
  | some set =>
      rw [leaf_solved hd hv]
      have hwithin : (image set).Within (Ty.Unbindable fun _ => True) :=
        within_image (hs.free v set hv) (hs.rigid v set hv)
      exact hwithin.free

theorem payloadFree_apply {t : Ty} (h : t.payloadFree = true) :
    (s.apply t).payloadFree = true := by
  rw [apply_eq]
  refine Ty.payloadFree_canonical (Ty.payloadFree_graft (Ty.payloadFree_canonical h) fun x hx => ?_)
  rcases Ty.unknown_cases hx with ⟨name, flexible, rfl⟩ | ⟨v, rfl⟩ | ⟨name, flexible, rfl⟩
  · rw [Ty.graft, leaf_valueProj]; rfl
  · exact payloadFree_leaf hs hd v
  · rfl

/-- Putting a solution in is a faithful step where classifiers have no arguments. -/
theorem faithful_apply : Faithful (fun t => t.payloadFree = true) ⟨.classes, s, .empty⟩
    (View.plain .classes) s.apply where
  failed := by
    intro t _
    rw [apply_eq, Ty.failed_canonical, Ty.failed_graft (harmless_leaf hs.clean hd),
      Ty.failed_canonical]
  value := by
    intro t _ hf
    have hh := harmless_leaf hs.clean hd
    have hcanon : t.canonical.failed = false := t.failed_canonical.trans hf
    have hgraft : (t.canonical.graft s.leaf).failed = false :=
      (Ty.failed_graft hh _).trans hcanon
    rw [apply_eq, apply_eq, Ty.valuePart_canonical hgraft, ← Ty.valuePart_canonical hf,
      Ty.valuePart_graft hh t.split_canonical hcanon]
    refine Or.inr fun name _ => ?_
    rw [leaf_valueProj]
    exact Ty.noConfusion
  con c args := by
    simp only [apply_eq, Ty.canonical, Ty.graft, Ty.canonicalAll_eq_map, Ty.graftAll_eq_map,
      List.map_map, Ty.con.injEq, true_and]
    exact List.map_congr_left fun a _ => (apply_eq s a).symm
  other t ht := by
    have hproj : ∀ name flexible,
        s.apply (.valueProj name flexible) = .valueProj name flexible := by
      intro name flexible
      rw [apply_eq]
      show (s.leaf (.valueProj name flexible)).canonical = _
      rw [leaf_valueProj]
      rfl
    rcases t.valuePart_cases with h | ⟨c, args, h⟩ | ⟨name, h⟩
    · rcases h with h | h | h | ⟨name, h⟩
      · rw [h, apply_eq]; rfl
      · rw [h, apply_eq]; rfl
      · rw [h, apply_eq]; rfl
      · rw [h, hproj]
    · exact absurd h (ht c args)
    · rw [h, hproj]
  errors := by
    intro t _ hf
    have hh := harmless_leaf hs.clean hd
    have hgraft : (t.canonical.graft s.leaf).failed = false := by
      rw [Ty.failed_graft hh, Ty.failed_canonical, hf]
    rw [apply_eq]
    exact ((Ty.errors_canonical s hf).trans
      (Ty.errors_graft hh t.split_canonical fun v _ => errors_put hs hd v)).trans
      (Ty.errors_canonical .empty hgraft)
  carried := by
    intro t ht _
    refine ⟨fun a xs ha hxs => absurd ?_ hxs, fun a ys ha hys => absurd ?_ hys⟩
    · exact View.payloadFree_interpretWith hs.free ht _ ha
    · exact View.payloadFree_interpretWith payloadFree_empty (payloadFree_apply hs hd ht) _ ha
  arg := by
    intro t c args ht hc a ha
    have hv := Ty.payloadFree_valuePart ht
    rw [hc] at hv
    exact Ty.payloadFreeAll_iff.1 hv a ha
  payload := by
    intro t a args ht ha x hx
    have hnil : args = [] := View.payloadFree_interpretWith hs.free ht _ ha
    rw [hnil] at hx
    exact absurd hx List.not_mem_nil

end Put

end Solution

/-- Where no classifier has arguments, a comparison that looks solved variables up
gives the verdict of the types with the solution put in. -/
theorem check_solved_eq_check_applied {s : Solution} (hs : s.Ground) (hd : s.sets.Distinct)
    {sup sub : Ty} (hsup : sup.payloadFree = true) (hsub : sub.payloadFree = true)
    (location : Location) :
    ∃ verdict, ((Engine.mk .classes s none none).check sup sub location).1 = .ok verdict ∧
      ((Engine.plain .classes).check (s.apply sup) (s.apply sub) location).1 = .ok verdict := by
  have hv : (View.mk .classes s .empty).Shallow := ⟨rfl, View.argsBelow_interpretWith hs.free⟩
  rw [Engine.check_unbound rfl rfl, Engine.check_unbound rfl rfl]
  obtain ⟨verdict, hverdict⟩ := View.compareWith_holds_answers hv sup sub
  refine ⟨verdict, hverdict, ?_⟩
  rw [← hverdict]
  exact ((Solution.faithful_apply hs hd).compareWith_eq hv (View.shallow_plain .classes) rfl rfl
    hsup hsub).symm

/-- `E` holds a rigid variable, `F` everything, and `G` has no set. -/
def mixedSolution : Solution :=
  ⟨⟨[(⟨"E", .unbounded, true⟩,
      ⟨[(.var ⟨"R", .unbounded, false⟩, [])], false, List.pairwise_singleton ..⟩),
    (⟨"F", .unbounded, true⟩, ⟨[], true, ErrorSet.empty.sorted⟩)]⟩⟩

theorem ground_mixedSolution : mixedSolution.Ground := by
  refine Solution.ground_of_entries (by decide) fun p hp e he => ?_
  simp only [mixedSolution, List.mem_cons, List.not_mem_nil, or_false] at hp
  rcases hp with rfl | rfl
  · obtain rfl := List.mem_singleton.1 he
    exact ⟨rfl, fun x hx => by cases hx; rfl⟩
  · cases he

theorem check_mixedSolution_applied :
    ∃ verdict,
      ((Engine.mk .classes mixedSolution none none).check
        (.union [.errorVar ⟨"E", .unbounded, true⟩, .errorVar ⟨"F", .unbounded, true⟩])
        (.union [.errorVar ⟨"E", .unbounded, true⟩, .errorVar ⟨"G", .unbounded, true⟩])
        .unknown).1 = .ok verdict ∧
      ((Engine.plain .classes).check
        (mixedSolution.apply
          (.union [.errorVar ⟨"E", .unbounded, true⟩, .errorVar ⟨"F", .unbounded, true⟩]))
        (mixedSolution.apply
          (.union [.errorVar ⟨"E", .unbounded, true⟩, .errorVar ⟨"G", .unbounded, true⟩]))
        .unknown).1 = .ok verdict :=
  check_solved_eq_check_applied ground_mixedSolution (by unfold Table.Distinct; decide)
    (by decide) (by decide) .unknown

end Fallible
