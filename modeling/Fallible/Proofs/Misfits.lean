import Fallible.Proofs.Adequacy
import Fallible.Proofs.Fitting
import Fallible.Proofs.GraftedForms

/-!
# Where a solution does not fit

That a solution fits the arguments of a type is enough for the type to be settled
to a well-formed one. It is also necessary, as long as nothing in the type has
failed. Every argument then has its place in what the type is settled to, up to
the spelling of classifiers, because normalising drops a constituent only if it
stands there already. So a clash that a solution makes in an argument is there in
the end.

A union with a failed constituent is normalised to a failed type, and whatever
stood in it is gone. That is why failed types are left out.
-/

namespace Fallible

namespace Ty

open Grammar (Proper kind)

/-! ## Spelling -/

theorem closing_congr {x y : Ty} (h : (x == y) = true) : (x.closing == y.closing) = true := by
  have hclosing : ∀ t : Ty, t.closing.respell .bare =
      (((t.respell .bare).canonical.graft grounding).respell .bare).canonical := by
    intro t
    rw [closing, ground_eq_graft, ← canonical_respell, canonical_respell .bare t,
      respell_graft fun _ => rfl]
  rw [beq_iff_respell] at h ⊢
  rw [hclosing, hclosing, h]

theorem kind_respell (t : Ty) : kind (t.respell .bare) = kind t := by
  cases t with
  | errorVar v =>
      exact congrArg Grammar.Kind.ranging (congrArg ErrorVar.bound v.bare_bare)
  | _ => rfl

theorem kind_congr {x y : Ty} (h : (x == y) = true) : kind x = kind y := by
  rw [← kind_respell x, beq_iff_respell.1 h, kind_respell]

theorem proper_congr {x y : Ty} (h : (x == y) = true) (hx : Proper x.constituents) :
    Proper y.constituents := by
  have hkinds : ∀ t : Ty, (t.respell .bare).constituents.map kind = t.constituents.map kind := by
    intro t
    rw [constituents_respell, List.map_map]
    exact List.map_congr_left fun m _ => kind_respell m
  refine hx.of_kinds ?_
  rw [← hkinds x, ← hkinds y, beq_iff_respell.1 h]

theorem arguments_respell (t : Ty) :
    (t.respell .bare).arguments = t.arguments.map (respell .bare) := by
  have hall : ∀ ms : List Ty,
      (∀ m ∈ ms, (m.respell .bare).arguments = m.arguments.map (respell .bare)) →
      argumentsAll (ms.map (respell .bare)) = (argumentsAll ms).map (respell .bare) := by
    intro ms
    induction ms with
    | nil => exact fun _ => rfl
    | cons m ms ih =>
        intro hms
        rw [List.map_cons, argumentsAll, argumentsAll, List.map_append, hms m List.mem_cons_self,
          ih fun x hx => hms x (List.mem_cons_of_mem m hx)]
  induction t with
  | union ms ih => rw [respell, arguments, arguments, respellAll_eq_map, hall ms ih]
  | con c args ih | errorConst c args ih =>
      rw [respell, arguments, arguments, respellAll_eq_map, hall args ih, List.map_append]
  | _ => rfl

theorem exists_mem_arguments_of_beq {x y a : Ty} (h : (x == y) = true) (ha : a ∈ x.arguments) :
    ∃ b ∈ y.arguments, (b == a) = true := by
  have hmem := List.mem_map_of_mem (f := respell .bare) ha
  rw [← arguments_respell, beq_iff_respell.1 h, arguments_respell] at hmem
  obtain ⟨b, hb, hba⟩ := List.mem_map.1 hmem
  exact ⟨b, hb, beq_iff_respell.2 hba⟩

/-! ## What is kept -/

/-- A constituent other than a projection has its place in what a type is closed to. -/
theorem exists_mem_closing {t m : Ty} (hf : t.failed = false) (hm : m ∈ t.constituents)
    (hproj : ∀ name, m ≠ .valueProj name true) :
    ∃ x ∈ t.closing.constituents, (x == m.closing) = true := by
  obtain ⟨k, hk, hkm⟩ := exists_mem_canonical hf hm
  have hsole : (k.graft grounding).constituents = [k.graft grounding] := by
    cases k with
    | valueProj name flexible =>
        cases flexible with
        | false => rfl
        | true =>
            rw [beq_iff] at hkm
            cases m with
            | valueProj n f => cases hkm; exact absurd rfl (hproj name)
            | union | any | var | nothing => rcases member_cases hm with h | h | h <;> cases h
            | _ => cases hkm
    | union | any | var | nothing => rcases member_cases hk with h | h | h <;> cases h
    | _ => rfl
  have hground : k.graft grounding ∈ t.canonical.ground.constituents := by
    rw [ground_eq_graft, constituents_graft harmless_grounding ((split_canonical t).spared _)]
    exact List.mem_flatMap.2 ⟨k, hk, by rw [hsole]; exact List.mem_singleton_self _⟩
  have hfailed : t.canonical.ground.failed = false := by
    rw [ground_eq_graft, failed_graft harmless_grounding, failed_canonical, hf]
  obtain ⟨x, hx, hxk⟩ := exists_mem_canonical hfailed hground
  have hkk : (k.graft grounding).canonical = k.closing := by
    rw [closing, t.canonical_canonical_and_constituents.2 k hk, ground_eq_graft]
  have hmm : m.canonical.closing = m.closing := by rw [closing, canonical_canonical, ← closing]
  refine ⟨x, hx, BEq.trans hxk ?_⟩
  rw [hkk, ← hmm]
  exact closing_congr hkm

theorem closing_con (c : Con) (args : List Ty) :
    (Ty.con c args).closing = .con c (args.map closing) := by
  simp only [closing, canonical, ground, canonicalAll_eq_map, groundAll_eq_map, List.map_map]
  rfl

theorem closing_errorConst (c : Classifier) (args : List Ty) :
    (Ty.errorConst c args).closing = .errorConst c (args.map closing) := by
  simp only [closing, canonical, ground, canonicalAll_eq_map, groundAll_eq_map, List.map_map]
  rfl

/-- An argument stands in a constituent that is not an unknown. -/
theorem exists_constituent_of_mem_arguments {t a : Ty} (h : a ∈ t.arguments) :
    ∃ m ∈ t.constituents, a ∈ m.arguments :=
  exists_constituent (P := fun t => a ∈ t.arguments) List.not_mem_nil List.not_mem_nil
    (fun _ _ h => absurd h List.not_mem_nil) (fun _ h => mem_argumentsAll.1 h) h

theorem failed_of_erroneous_not_mem {t : Ty} (h : .erroneous ∉ t.subterms) : t.failed = false := by
  refine Bool.eq_false_iff.2 fun hf => ?_
  rcases mem_subterms_of_mem_constituents (failed_iff.1 hf) with hm | hm | hm | ⟨_, _, hm⟩ | ⟨_, hm⟩
  · exact h hm
  all_goals cases hm

end Ty

/-! ## Solutions -/

namespace Solution

open Grammar (Proper kind)

variable {s : Solution} (hs : s.WellFormed)

include hs

/-- A constituent that is put in has its place in what the type is closed to. -/
theorem WellFormed.exists_mem_closing {t m x : Ty} (hsplit : t.Split) (hf : t.failed = false)
    (hm : m ∈ t.constituents) (hx : x ∈ (m.graft s.leaf).constituents)
    (hproj : ∀ name, x ≠ .valueProj name true) :
    ∃ y ∈ (t.graft s.leaf).closing.constituents, (y == x.closing) = true := by
  have hh := harmless_leaf hs.clean hs.distinct
  refine Ty.exists_mem_closing ((Ty.failed_graft hh t).trans hf) ?_ hproj
  rw [Ty.constituents_graft hh (hsplit.spared _)]
  exact List.mem_flatMap.2 ⟨m, hm, hx⟩

/-- Arguments have their place in what a type is closed to, if nothing in it failed. -/
theorem WellFormed.exists_mem_arguments {t a : Ty} (hsplit : t.Split)
    (hsound : .erroneous ∉ t.subterms) (ha : a ∈ t.arguments) :
    ∃ b ∈ (t.graft s.leaf).closing.arguments, (b == (a.graft s.leaf).closing) = true := by
  induction hn : t.size using Nat.strong_induction_on generalizing t a with
  | _ n ih =>
      subst hn
      have hargs : ∀ args : List Ty, (∀ x ∈ args, x ∈ t.arguments) →
          a ∈ args ++ Ty.argumentsAll args →
          ∃ b ∈ args.map (fun x => (x.graft s.leaf).closing) ++
              Ty.argumentsAll (args.map fun x => (x.graft s.leaf).closing),
            (b == (a.graft s.leaf).closing) = true := by
        intro args hin ha
        rcases List.mem_append.1 ha with ha | ha
        · exact ⟨_, List.mem_append_left _ (List.mem_map_of_mem ha), BEq.rfl⟩
        · obtain ⟨x, hx, ha⟩ := Ty.mem_argumentsAll.1 ha
          obtain ⟨b, hb, hba⟩ := ih x.size (Ty.size_lt_of_mem_arguments (hin x hx))
            (fun name hv => hsplit name (Ty.unknowns_of_arguments (hin x hx) hv))
            (fun h => hsound (Ty.subterms_trans h (Ty.mem_subterms_of_arguments (hin x hx)))) ha rfl
          exact ⟨b, List.mem_append_right _
            (Ty.mem_argumentsAll.2 ⟨_, List.mem_map_of_mem hx, hb⟩), hba⟩
      obtain ⟨m, hm, ham⟩ := Ty.exists_constituent_of_mem_arguments ha
      -- A constituent with arguments is rebuilt around them.
      have hplace : (∀ name, m.graft s.leaf ≠ .valueProj name true) ∧
          (m.graft s.leaf).constituents = [m.graft s.leaf] ∧
          ∃ b ∈ (m.graft s.leaf).closing.arguments, (b == (a.graft s.leaf).closing) = true := by
        have hin : ∀ x, x ∈ m.arguments → x ∈ t.arguments := fun x => Ty.arguments_of_mem hm
        cases m with
        | con c args =>
            have hb := hargs args (fun x hx => hin x (List.mem_append_left _ hx)) ham
            refine ⟨fun _ h => Ty.noConfusion h, rfl, ?_⟩
            rw [Ty.graft, Ty.graftAll_eq_map, Ty.closing_con, List.map_map]
            exact hb
        | errorConst c args =>
            have hb := hargs args (fun x hx => hin x (List.mem_append_left _ hx)) ham
            refine ⟨fun _ h => Ty.noConfusion h, rfl, ?_⟩
            rw [Ty.graft, Ty.graftAll_eq_map, Ty.closing_errorConst, List.map_map]
            exact hb
        | union ms => rcases Ty.member_cases hm with h | h | h <;> cases h
        | _ => exact absurd ham List.not_mem_nil
      obtain ⟨hproj, hsole, b, hb, hba⟩ := hplace
      obtain ⟨y, hy, hym⟩ := hs.exists_mem_closing hsplit (Ty.failed_of_erroneous_not_mem hsound) hm
        (by rw [hsole]; exact List.mem_singleton_self _) hproj
      obtain ⟨d, hd, hdb⟩ := Ty.exists_mem_arguments_of_beq (BEq.symm hym) hb
      exact ⟨d, Ty.arguments_of_mem hy hd, BEq.trans hdb hba⟩

/-- If an argument obeys the grammar once a solution is applied, the solution fits it. -/
theorem WellFormed.fits_of_proper {a : Ty} (hsplit : a.Split) (hf : a.failed = false)
    (hcanon : ∀ m ∈ a.constituents, m.canonical = m)
    (hp : Proper (a.graft s.leaf).closing.constituents) : s.Fits a := by
  -- Errors that clash are closed to the same, as both have their place.
  have hsame : ∀ {m n x y : Ty}, m ∈ a.constituents → n ∈ a.constituents →
      x ∈ (m.graft s.leaf).constituents → y ∈ (n.graft s.leaf).constituents →
      x.isError = true → y.isError = true → (kind x).clashes (kind y) = true →
      (x.closing == y.closing) = true := by
    have hplace : ∀ {m x : Ty}, m ∈ a.constituents → x ∈ (m.graft s.leaf).constituents →
        x.isError = true → ∃ z ∈ (a.graft s.leaf).closing.constituents,
          (z == x.closing) = true ∧ kind z = kind x := by
      intro m x hm hx hxe
      have hproj : ∀ name, x ≠ .valueProj name true := by
        rintro name rfl
        cases hxe
      obtain ⟨z, hz, hzx⟩ := hs.exists_mem_closing hsplit hf hm hx hproj
      refine ⟨z, hz, hzx, (Ty.kind_congr hzx).trans ?_⟩
      cases x <;> first | rfl | cases hxe
    intro m n x y hm hn hx hy hxe hye hclash
    obtain ⟨x', hx', hxx, hkx⟩ := hplace hm hx hxe
    obtain ⟨y', hy', hyy, hky⟩ := hplace hn hy hye
    rw [← hkx, ← hky] at hclash
    rw [hp.eq_of_clashes hx' hy' hclash] at hxx
    exact BEq.trans (BEq.symm hxx) hyy
  have hput : ∀ {v set}, s.get? v = some set → set.universal = false → ∀ e ∈ set.entries,
      e.1.toMember e.2 ∈ ((Ty.errorVar v).graft s.leaf).constituents := by
    intro v set hv hu e he
    rw [Ty.graft, leaf_solved hs.distinct hv, constituents_image hu]
    exact List.mem_map_of_mem he
  constructor
  · intro v set hm hv hu x y hx hy hover
    have hatom : ∀ {x : ErrorVar}, set.contains (.var x) = true →
        ∃ x', .errorVar x' ∈ ((Ty.errorVar v).graft s.leaf).constituents ∧ (x' == x) = true := by
      intro x hx
      obtain ⟨⟨atom, args⟩, he, heq⟩ := ErrorSet.contains_iff.1 hx
      cases atom with
      | classifier c => cases heq
      | var x' => exact ⟨x', hput hv hu _ he, heq⟩
    obtain ⟨x', hx', hxx⟩ := hatom hx
    obtain ⟨y', hy', hyy⟩ := hatom hy
    have hclash : (kind (.errorVar x')).clashes (kind (.errorVar y')) = true := by
      rw [Ty.kind_congr ((beq_errorVar x' x).trans hxx),
        Ty.kind_congr ((beq_errorVar y' y).trans hyy)]
      exact (Universe.overlaps_bare _ _).trans hover
    have hxy := (beq_errorVar x' y').symm.trans (hsame hm hm hx' hy' rfl rfl hclash)
    exact BEq.trans (BEq.symm hxx) (BEq.trans hxy hyy)
  · intro v set hm hv hu c args d args' hc he hid
    rw [settled_eq, hcanon _ hc]
    exact hsame hc hm (List.mem_singleton_self _) (hput hv hu _ he) rfl rfl (beq_iff_eq.2 hid)

/-- A solution fits the arguments of a type that it settles to a well-formed one, if
nothing in the type has failed. -/
theorem WellFormed.fits_of_settled {t : Ty} (hsound : .erroneous ∉ t.canonical.subterms)
    (h : (s.settled t).WellFormedWithin) : ∀ a ∈ t.canonical.arguments, s.Fits a := by
  intro a ha
  obtain ⟨b, hb, hba⟩ := hs.exists_mem_arguments (Ty.split_canonical t) hsound ha
  rw [← settled_eq] at hb
  obtain ⟨x, _, rfl⟩ := Ty.mem_arguments_canonical ha
  refine hs.fits_of_proper (Ty.split_canonical x) (Ty.failed_of_erroneous_not_mem fun hin => ?_)
    x.canonical_canonical_and_constituents.2 (Ty.proper_congr hba (h b hb))
  exact hsound (Ty.subterms_trans hin (Ty.mem_subterms_of_arguments ha))

end Solution

end Fallible
