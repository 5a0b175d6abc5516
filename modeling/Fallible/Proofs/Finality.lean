import Fallible.Proofs.Verdicts
import Mathlib.Data.List.Pairwise

/-!
# When a failure is final

A comparison that fails while variables wait should fail whatever they turn out
to hold. On the errors of two types that is so. A solution only adds to what is
known: it adds to the errors that have to be covered, and where it adds to the
errors that cover them, a variable was waiting and the verdict was not that the
comparison fails. Arguments are another matter, for they are compared by yes or
no and one that has to wait counts as one that fails. So the failure is final
if no two arguments have to wait for each other.

Two things more can undo a failure. A variable that turns out to hold every
classifier covers a classifier whose arguments clash with those beside the
variable. And a set may bring in a record of a classifier of its own, with
other variances, which the arguments are then compared by.
-/

namespace Fallible

/-! ## A solution adds to what is known -/

theorem Table.Distinct.key_eq {K : Instantiations} (h : K.Distinct) {a b : Atom}
    (ha : a ∈ K.keys) (hb : b ∈ K.keys) (hab : (a == b) = true) : a = b := by
  have : Std.Symm fun a b : Atom => (a == b) = false := ⟨fun _ _ h => by rw [BEq.comm, h]⟩
  by_contra hne
  rw [List.Pairwise.forall h ha hb hne] at hab
  cases hab

/-- Whether one table has all of another, and keys beyond those of one kind only. -/
structure Enlarged (P : Atom → Prop) (K K' : Instantiations) : Prop where
  get : ∀ a args, K.get? a = some args → K'.get? a = some args
  keys : ∀ b ∈ K'.keys, b ∈ K.keys ∨ P b

namespace Enlarged

variable {P : Atom → Prop} {K K' : Instantiations}

theorem insert (h : Enlarged P K K') (a : Atom) (args : List Ty) :
    Enlarged P (K.insert a args) (K'.insert a args) where
  get b ys hb := by
    rw [Table.get?_insert] at hb ⊢
    split
    · next hab => rw [if_pos hab] at hb; exact hb
    · next hab => rw [if_neg hab] at hb; exact h.get b ys hb
  keys b hb := by
    cases hin' : K'.contains a with
    | true =>
        rw [Table.keys_insert_of_contains args hin'] at hb
        exact (h.keys b hb).imp_left (Table.mem_keys_insert_of_mem args)
    | false =>
        -- What is new to the larger table is new to the smaller one.
        have hin : K.contains a = false := by
          refine Bool.eq_false_iff.2 fun hin => ?_
          obtain ⟨ys, hys⟩ := Table.get?_of_contains hin
          rw [Table.contains_of_get? (h.get a ys hys)] at hin'
          cases hin'
        rw [Table.keys_insert_of_not_contains args hin', List.mem_append,
          List.mem_singleton] at hb
        rcases hb with hb | rfl
        · exact (h.keys b hb).imp_left (Table.mem_keys_insert_of_mem args)
        · rw [Table.keys_insert_of_not_contains args hin]
          exact Or.inl (List.mem_append_right _ (List.mem_singleton.2 rfl))

theorem insertNew (h : Enlarged P K K') {a : Atom} (args : List Ty) (ha : P a) :
    Enlarged P K (K'.insertNew a args) where
  get b ys hb := by
    have hb' := h.get b ys hb
    rw [Table.get?_insertNew, if_neg, hb']
    intro hnew
    rw [Bool.and_eq_true, Bool.not_eq_true'] at hnew
    rw [Table.contains_congr _ hnew.2, Table.contains_of_get? hb'] at hnew
    cases hnew.1
  keys b hb := by
    obtain ⟨e, he, rfl⟩ := List.mem_map.1 hb
    rcases Table.mem_insertNew he with he | rfl
    · exact h.keys _ (List.mem_map_of_mem he)
    · exact Or.inr ha

theorem insertNewAll (h : Enlarged P K K') {es : List (Atom × List Ty)} (hes : ∀ e ∈ es, P e.1) :
    Enlarged P K (es.foldl (fun t e => t.insertNew e.1 e.2) K') := by
  induction es generalizing K' with
  | nil => exact h
  | cons e es ih =>
      exact ih (h.insertNew e.2 (hes e (by simp))) fun e' he' => hes e' (by simp [he'])

end Enlarged

/-- Whether an atom is one that a solution lists. -/
def Solution.Lists (s : Solution) (a : Atom) : Prop :=
  ∃ x set args, s.get? x = some set ∧ (a, args) ∈ set.entries

namespace View

variable {s : Solution}

theorem enlarged_add {r r' : Reading} (h : Enlarged s.Lists r.known r'.known) (m : Ty) :
    Enlarged s.Lists (r.add .empty m).known (r'.add s m).known := by
  cases m with
  | errorConst c args => exact h.insert (.classifier c) args
  | errorVar x =>
      cases hx : x.flexible with
      | false => rw [add_rigid hx, add_rigid hx]; exact h.insert (.var x) []
      | true =>
          rw [add_waiting hx rfl]
          cases hs : s.get? x with
          | none => rw [add_waiting hx hs]; exact h
          | some set =>
              rw [add_solved hx hs]
              exact h.insertNewAll fun e he => ⟨x, set, e.2, hs, he⟩
  | _ => exact h

/-- What is known before solving is known after, with the same arguments and under
the same record, unless the solution lists one of its own. -/
theorem known_solved {t : Ty} {a : Atom} {args : List Ty}
    (h : (a, args) ∈ (interpretWith .empty t).known.entries) :
    ∃ b, (b, args) ∈ (interpretWith s t).known.entries ∧ (b == a) = true ∧
      (b = a ∨ s.Lists b) := by
  have hfold : ∀ (ms : List Ty) (r r' : Reading), Enlarged s.Lists r.known r'.known →
      Enlarged s.Lists (ms.foldl (Reading.add .empty) r).known
        (ms.foldl (Reading.add s) r').known := by
    intro ms
    induction ms with
    | nil => exact fun _ _ h => h
    | cons m ms ih => exact fun r r' h => ih _ _ (enlarged_add h m)
  have henlarged := hfold t.errorPart ⟨.empty, false, []⟩ ⟨.empty, false, []⟩
    ⟨fun _ _ h => h, fun _ h => Or.inl h⟩
  have hd : Table.Distinct (t.errorPart.foldl (Reading.add .empty) ⟨.empty, false, []⟩).known :=
    (distinct_interpretWith .empty t).of_perm (sortOn_perm _ _).symm
  rw [interpretWith, ErrorSet.ofTable, ErrorSet.mem_entries_ofEntries] at h
  obtain ⟨b, hb, hba⟩ := Table.mem_of_get? (henlarged.get a args (hd.get?_of_mem h))
  refine ⟨b, ErrorSet.mem_entries_ofEntries.2 hb, hba, ?_⟩
  refine (henlarged.keys b (List.mem_map_of_mem hb)).imp_left fun hin => ?_
  exact hd.key_eq hin (List.mem_map_of_mem h) hba

theorem errorVerdict_fails {sup sub : Interpretation} (h : errorVerdict sup sub = .fails) :
    sup.known.universal = false ∧
      ((sub.known.universal = true ∧ ∀ x ∈ sup.flexible, x.bound.isUnbounded = false) ∨
        ((missingOf sup.known sub.known).isEmpty = false ∧ sup.flexible = [])) := by
  unfold errorVerdict at h
  split at h
  · cases h
  · next hu =>
      refine ⟨Bool.eq_false_iff.2 hu, ?_⟩
      split at h
      · next hopen => left; simpa using hopen
      · split at h
        · cases h
        · split at h
          · next hnone => right; simpa using hnone
          · cases h

end View

/-! ## Errors -/

/-- Whether a solution leaves alone what decides the arguments in a type. -/
structure Solution.Spares (s : Solution) (t : Ty) : Prop where
  /-- A variable that holds every classifier has no arguments beside it. -/
  beside : ∀ x set, .errorVar x ∈ t.errorPart → x.flexible = true → s.get? x = some set →
    set.universal = true → ∀ c args, .errorConst c args ∈ t.errorPart → args = []
  /-- The sets bring in no record with variances of its own. -/
  records : ∀ c args, .errorConst c args ∈ t.errorPart → ∀ a, s.Lists a →
    (a == .classifier c) = true → ∀ i, a.variance i = Atom.variance (.classifier c) i

/-- Whether only variables without bound hold every classifier. -/
def Solution.Bounded (s : Solution) : Prop :=
  ∀ x set, s.get? x = some set → set.universal = true → x.bound.isUnbounded = true

section Errors

variable {s : Solution} {R R' : Ty → Ty → Prop} {sup sub : Ty}

theorem ArgsCover.imp {a : Atom} {xs ys : List Ty} (h : ArgsCover R a xs ys)
    (himp : ∀ x ∈ xs, ∀ y ∈ ys, (R x y → R' x y) ∧ (R y x → R' y x)) : ArgsCover R' a xs ys := by
  rcases h with h | h | h | ⟨hlen, h⟩
  · exact Or.inl h
  · exact Or.inr (Or.inl h)
  · exact Or.inr (Or.inr (Or.inl h))
  · refine Or.inr (Or.inr (Or.inr ⟨hlen, fun i x y hx hy => ?_⟩))
    obtain ⟨hxy, hyx⟩ := himp x (List.mem_of_getElem? hx) y (List.mem_of_getElem? hy)
    have hcov := h i x y hx hy
    cases hv : a.variance i <;> rw [hv] at hcov
    · exact hxy hcov
    · exact hyx hcov
    · exact ⟨hxy hcov.1, hyx hcov.2⟩

theorem ArgsCover.congr {a b : Atom} {xs ys : List Ty} (h : ArgsCover R a xs ys)
    (hv : ∀ i, a.variance i = b.variance i) : ArgsCover R b xs ys :=
  h.imp_right (Or.imp_right (Or.imp_right fun h => h.congr hv))

theorem EntryCovered.leaves {K : ErrorSet} {e : Atom × List Ty} (h : EntryCovered R K e) :
    View.leaves K e.1 = false := by
  rw [View.leaves_eq_false, ← ErrorSet.isSome_get?]
  cases hget : K.get? e.1 with
  | some args => exact Or.inl rfl
  | none => exact Or.inr (h.of_none hget)

/-- A set that becomes universal was waiting for a variable that does. -/
theorem View.universal_of_solved (hu : (interpretWith .empty sup).known.universal = false)
    (h : (interpretWith s sup).known.universal = true) :
    ∃ x ∈ (interpretWith .empty sup).flexible, ∃ set, s.get? x = some set ∧
      set.universal = true := by
  rw [universal_interpretWith_solved, hu, Bool.false_or, List.any_eq_true] at h
  obtain ⟨x, hx, hset⟩ := h
  cases hget : s.get? x with
  | none => rw [hget] at hset; cases hset
  | some set => rw [hget] at hset; exact ⟨x, hx, set, hget, hset⟩

/-- Without arguments, errors that are covered once variables are solved did not
fail before. -/
theorem View.errorVerdict_ne_fails (hs : s.Bounded)
    (h : ErrorsHold R (interpretWith s sup) (interpretWith s sub)) :
    errorVerdict (interpretWith .empty sup) (interpretWith .empty sub) ≠ .fails := by
  intro hfails
  obtain ⟨hu, hcase⟩ := errorVerdict_fails hfails
  rcases h with huniv | ⟨hsub, hcovered, -⟩
  · obtain ⟨x, hx, set, hget, hset⟩ := universal_of_solved hu huniv
    rcases hcase with ⟨-, hbounded⟩ | ⟨-, hnone⟩
    · have := hbounded x hx
      rw [hs x set hget hset] at this
      cases this
    · rw [hnone] at hx
      cases hx
  · rw [universal_interpretWith_solved, Bool.or_eq_false_iff] at hsub
    rcases hcase with ⟨hopen, -⟩ | ⟨hmissing, hnone⟩
    · rw [hsub.1] at hopen
      cases hopen
    · -- Nothing waits on the covering side, so what it covers now it covered before.
      have hsame : ∀ a, (interpretWith s sup).known.contains a = true →
          (interpretWith .empty sup).known.contains a = true := by
        intro a ha
        rw [contains_interpretWith_solved, hnone] at ha
        simpa using ha
      refine Bool.false_ne_true (hmissing.symm.trans ((isEmpty_missingOf _ _).2 fun a ha => ?_))
      have ha' : (interpretWith s sub).known.contains a = true := by
        rw [contains_interpretWith_solved, ha, Bool.true_or]
      obtain ⟨e, he, hea⟩ := ErrorSet.contains_iff.1 ha'
      exact leaves_mono hsame ((leaves_congr _ hea).symm.trans (hcovered e he).leaves)

/-- An argument of a known error is an argument of the type. -/
theorem View.mem_arguments_of_known {t x : Ty} {e : Atom × List Ty}
    (he : e ∈ (interpretWith .empty t).known.entries) (hx : x ∈ e.2) : x ∈ t.arguments := by
  rcases stemsFrom_interpretWith e he with ⟨y, rfl⟩ | ⟨-, -, c, -, -, -, hc⟩
  · cases hx
  · exact Ty.arguments_of_mem (List.mem_filter.1 hc).1 (List.mem_append_left _ hx)

/-- Arguments that clash go on to clash, if comparing them holds no more often. -/
theorem not_clash_of_solved (hsup : s.Spares sup) (hsub : s.Spares sub)
    (hR : ∀ x ∈ sup.arguments, ∀ y ∈ sub.arguments, (R x y → R' x y) ∧ (R y x → R' y x))
    (h : ErrorsHold R (View.interpretWith s sup) (View.interpretWith s sub)) :
    ¬ Clash R' (View.interpretWith .empty sup) (View.interpretWith .empty sub) := by
  rintro ⟨hu, a, xs, b, ys, ha, hb, hab, hno⟩
  rcases h with huniv | ⟨-, hcovered, -⟩
  · obtain ⟨x, hx, set, hget, hset⟩ := View.universal_of_solved hu huniv
    obtain ⟨hmem, hflex, -⟩ := View.mem_flexible_interpretWith.1 hx
    rcases View.stemsFrom_interpretWith _ ha with ⟨_, h⟩ | ⟨-, -, c, -, -, -, hc⟩
    · exact hno (Or.inl (congrArg Prod.snd h))
    · exact hno (Or.inl (hsup.beside x set hmem hflex hget hset c xs hc))
  · obtain ⟨b', hb', hbb, horigin⟩ := View.known_solved (s := s) hb
    obtain ⟨a', ha', haa, -⟩ := View.known_solved (s := s) ha
    have hget : (View.interpretWith s sup).known.get? b' = some xs := by
      rw [← (View.distinct_interpretWith s sup).get?_of_mem ha']
      exact ErrorSet.get?_congr _ (PartialEquivBEq.trans hbb
        (BEq.symm (PartialEquivBEq.trans haa hab)))
    have hvariance : ∀ i, b'.variance i = b.variance i := by
      rcases horigin with rfl | hlisted
      · exact fun _ => rfl
      rcases View.stemsFrom_interpretWith _ hb with ⟨x, hx⟩ | ⟨c, args, -, hc, -, hmem, -⟩
      · obtain rfl : b = .var x := congrArg Prod.fst hx
        cases b' with
        | classifier c => cases hbb
        | var y => exact fun _ => rfl
      · obtain rfl : b = .classifier c := hc
        exact hsub.records c args hmem b' hlisted hbb
    refine hno ((((hcovered _ hb').of_some hget).congr hvariance).imp fun x hx y hy => ?_)
    exact hR x (View.mem_arguments_of_known ha hx) y (View.mem_arguments_of_known hb hy)

end Errors

/-! ## Types -/

section Types

variable {s : Solution} {sup sub : Ty}

/-- Two types that compare once variables are solved do not fail before, if that
is so of the arguments. -/
theorem compareWith_ne_fails (hs : s.Bounded) (hsup : s.Spares sup) (hsub : s.Spares sub)
    {h : Comparison}
    (hh : ∀ x ∈ sup.arguments, ∀ y ∈ sub.arguments,
      (h x y = .ok true → (View.plain .classes).holds x y = .ok true) ∧
        (h y x = .ok true → (View.plain .classes).holds y x = .ok true))
    (hholds : (View.mk .classes s .empty).compareWith h sup sub = .ok .holds) :
    (View.plain .classes).compareWith (View.plain .classes).holds sup sub ≠ .ok .fails := by
  have hplain := View.shallow_plain .classes
  intro hfails
  rcases View.compareWith_answer hfails with ⟨-, hr⟩ | ⟨hf, hvalue, -⟩ | ⟨hf, -, herrors⟩
  · cases hr
  all_goals
    obtain ⟨hfsup, hfsub⟩ := Bool.or_eq_false_iff.1 hf
    rw [View.compareWith_holds_iff, hfsup, hfsub] at hholds
    obtain ⟨hvalues, hcovered⟩ := (hholds.resolve_left Bool.false_ne_true).resolve_left
      Bool.false_ne_true
  · rw [View.compareValues_iff rfl h (fun _ _ => rfl) fun _ _ => rfl] at hvalues
    have hcovers := (hplain.compareValues_iff rfl _ _).2 (hvalues.imp
      fun c as d bs hc hd a ha b hb =>
        hh a (Ty.mem_arguments_of_valuePart hc ha) b (Ty.mem_arguments_of_valuePart hd hb))
    rw [hvalue] at hcovers
    cases hcovers
  · obtain ⟨-, hno⟩ :=
      View.compareErrors_answer (View.distinct_interpretWith .empty sup) herrors
    exact View.errorVerdict_ne_fails hs hcovered
      (hno (not_clash_of_solved hsup hsub hh hcovered)).symm

/-- Whether no argument in one type has to wait when it is compared with one in
the other. -/
def Ty.ArgumentsDecided (sup sub : Ty) : Prop :=
  ∀ x ∈ sup.arguments, ∀ y ∈ sub.arguments,
    (View.plain .classes).compareWith (View.plain .classes).holds x y ≠ .ok .pending ∧
      (View.plain .classes).compareWith (View.plain .classes).holds y x ≠ .ok .pending

/-- Arguments that compare once variables are solved compared before. -/
theorem holds_of_solved (hs : s.Bounded)
    (hspares : ∀ t ∈ sup.arguments ++ sub.arguments, s.Spares t)
    (hdecided : sup.ArgumentsDecided sub) (n : Nat) :
    ∀ x ∈ sup.arguments, ∀ y ∈ sub.arguments,
      ((View.mk .classes s .empty).holdsWithin n x y = .ok true →
        (View.plain .classes).holds x y = .ok true) ∧
      ((View.mk .classes s .empty).holdsWithin n y x = .ok true →
        (View.plain .classes).holds y x = .ok true) := by
  have hplain := View.shallow_plain .classes
  have hanswer : ∀ {x y : Ty},
      (View.plain .classes).compareWith (View.plain .classes).holds x y ≠ .ok .fails →
      (View.plain .classes).compareWith (View.plain .classes).holds x y ≠ .ok .pending →
      (View.plain .classes).holds x y = .ok true := by
    intro x y hfails hpending
    obtain ⟨r, hr⟩ := View.compareWith_holds_answers hplain x y
    rw [View.holds_eq hplain, hr]
    rw [hr] at hfails hpending
    cases r with
    | holds => rfl
    | fails => exact absurd rfl hfails
    | pending => exact absurd rfl hpending
  induction n with
  | zero => exact fun x _ y _ => ⟨nofun, nofun⟩
  | succ n ih =>
      intro x hx y hy
      have hsx := hspares x (List.mem_append_left _ hx)
      have hsy := hspares y (List.mem_append_right _ hy)
      obtain ⟨hxy, hyx⟩ := hdecided x hx y hy
      simp only [View.holdsWithin_succ]
      refine ⟨fun h => hanswer ?_ hxy, fun h => hanswer ?_ hyx⟩
      · exact compareWith_ne_fails hs hsx hsy (fun a ha b hb =>
          ih a (Ty.arguments_trans hx ha) b (Ty.arguments_trans hy hb)) h
      · exact compareWith_ne_fails hs hsy hsx (fun a ha b hb =>
          (ih b (Ty.arguments_trans hx hb) a (Ty.arguments_trans hy ha)).symm) h

end Types

/-- A comparison that fails is not made to hold by solving variables, if no two
arguments have to wait for each other and the solution leaves alone what decides
the arguments. -/
theorem check_solved_ne_holds_of_fails {s : Solution} {sup sub : Ty} {location : Location}
    (hfails : ((Engine.plain .classes).check sup sub location).1 = .ok .fails) (hs : s.Bounded)
    (hspares : ∀ t ∈ sup :: sub :: (sup.arguments ++ sub.arguments), s.Spares t)
    (hdecided : sup.ArgumentsDecided sub) :
    ((Engine.mk .classes s none none).check sup sub location).1 ≠ .ok .holds := by
  rw [Engine.check_unbound rfl rfl] at hfails ⊢
  intro hholds
  have harguments := fun n =>
    holds_of_solved hs (fun t ht => hspares t (by simp [ht])) hdecided n
  refine compareWith_ne_fails hs (hspares sup (by simp)) (hspares sub (by simp)) ?_ hholds hfails
  exact fun x hx y hy => ⟨(harguments _ x hx y hy).1, (harguments _ x hx y hy).2⟩

/-- `E` holds one classifier without parameters. -/
def oneClassifier : Solution :=
  ⟨⟨[(⟨"E", .unbounded, true⟩, ⟨[(.classifier ⟨1, [], "B", [], none⟩, [])], false,
    List.pairwise_singleton ..⟩)]⟩⟩

theorem get?_oneClassifier {x : ErrorVar} {set : ErrorSet} (h : oneClassifier.get? x = some set) :
    set.universal = false ∧ ∀ e ∈ set.entries, e.1 = .classifier ⟨1, [], "B", [], none⟩ := by
  obtain ⟨k, hk, -⟩ := Table.mem_of_get? h
  obtain rfl := congrArg Prod.snd (List.mem_singleton.1 hk)
  exact ⟨rfl, fun e he => congrArg Prod.fst (List.mem_singleton.1 he)⟩

/-- A classifier with an argument, beside a variable that waits. -/
def besideVariable (c : HostClass) : Ty :=
  .union [loneError .covariant c, .errorVar ⟨"E", .unbounded, true⟩]

theorem id_of_mem_besideVariable {h : HostClass} {c : Classifier} {args : List Ty}
    (hc : .errorConst c args ∈ (besideVariable h).errorPart) : c.id = 0 := by
  change Ty.errorConst c args ∈ [loneError .covariant h, .errorVar ⟨"E", .unbounded, true⟩] at hc
  rcases List.mem_cons.1 hc with hc | hc
  · cases hc
    rfl
  · cases List.mem_singleton.1 hc

theorem check_besideVariable_ne_holds :
    ((Engine.plain .classes).check (besideVariable .int) (besideVariable .str) .unknown).1 =
        .ok .fails ∧
      ((Engine.mk .classes oneClassifier none none).check (besideVariable .int)
        (besideVariable .str) .unknown).1 ≠ .ok .holds := by
  have hconstant : ∀ t ∈ besideVariable .int :: besideVariable .str ::
      ((besideVariable .int).arguments ++ (besideVariable .str).arguments),
      ∀ c args, .errorConst c args ∈ t.errorPart → c.id = 0 := by
    intro t ht c args hc
    rcases List.mem_cons.1 ht with rfl | ht
    · exact id_of_mem_besideVariable hc
    rcases List.mem_cons.1 ht with rfl | ht
    · exact id_of_mem_besideVariable hc
    rcases List.mem_cons.1 ht with rfl | ht
    · cases hc
    · cases List.mem_singleton.1 ht
      cases hc
  refine ⟨rfl, check_solved_ne_holds_of_fails rfl ?_ (fun t ht => ⟨?_, ?_⟩) ?_⟩
  · intro x set hget huniv
    rw [(get?_oneClassifier hget).1] at huniv
    cases huniv
  · intro x set _ _ hget huniv
    rw [(get?_oneClassifier hget).1] at huniv
    cases huniv
  · rintro c args hc a ⟨x, set, args', hget, ha⟩ hac
    obtain rfl : a = _ := (get?_oneClassifier hget).2 _ ha
    have hid : (1 : Int) = c.id := Classifier.beq_iff.1 hac
    rw [hconstant t ht c args hc] at hid
    cases hid
  · intro x hx y hy
    cases List.mem_singleton.1 hx
    cases List.mem_singleton.1 hy
    exact ⟨nofun, nofun⟩

/-- A covariant argument that is a variable. -/
def waitingArgument : Ty :=
  .errorConst (loneRecord "A" .covariant) [.errorVar ⟨"E", .unbounded, true⟩]

/-- The same with the classifier that the variable turns out to hold. -/
def solvedArgument : Ty :=
  .errorConst (loneRecord "A" .covariant) [.errorConst ⟨1, [], "B", [], none⟩ []]

/-- An argument that waits makes the comparison fail, and the failure is not final. -/
theorem waitingArgument_fails_then_holds :
    waitingArgument.projections = [] ∧ solvedArgument.projections = [] ∧
      ((Engine.plain .classes).check waitingArgument solvedArgument .unknown).1 = .ok .fails ∧
      ((Engine.mk .classes oneClassifier none none).check waitingArgument solvedArgument
        .unknown).1 = .ok .holds :=
  ⟨rfl, rfl, rfl, rfl⟩

end Fallible
