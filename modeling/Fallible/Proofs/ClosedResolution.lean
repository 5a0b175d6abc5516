import Fallible.Proofs.Applying
import Fallible.Proofs.Reopening
import Fallible.Proofs.SolvedSession

/-!
# What is left open in a resolved type

Resolving a type in a solved session leaves no projection in it: bound ones are
written out, and the rest become `Nothing`. It leaves no error variable that was
handed out, except where one stands in an argument of a solved set. Sets are put
in the place of variables once, and their arguments are taken as they are; so a
variable in an argument stays, though it may be solved itself.

If no argument of a solved set mentions a flexible variable, resolved types are
closed, and a closed type that is resolved already resolves to itself.
-/

namespace Fallible

namespace Ty

theorem closed_iff {t : Ty} :
    t.Closed ↔ t.projections = [] ∧ ∀ v ∈ t.mentions, v.flexible = false := by
  refine ⟨fun h => ⟨h.flat, fun v hv => ?_⟩, fun ⟨hproj, hvars⟩ x hx => ?_⟩
  · rcases mem_mentions_iff.1 hv with hx | ⟨name, flexible, hx, rfl⟩
    · exact h _ hx
    · exact h _ hx
  · have hnone : ∀ name, name ∉ t.projections := fun name => by rw [hproj]; exact List.not_mem_nil
    rcases unknown_cases hx with ⟨name, flexible, rfl⟩ | ⟨v, rfl⟩ | ⟨name, flexible, rfl⟩
    · cases flexible with
      | false => rfl
      | true => exact absurd (mem_projections_iff.2 (Or.inl hx)) (hnone name)
    · exact hvars v (mem_mentions_iff.2 (Or.inl hx))
    · cases flexible with
      | false => rfl
      | true => exact absurd (mem_projections_iff.2 (Or.inr hx)) (hnone name)

/-- Dropping what was never bound leaves no projection. -/
theorem unbindable_ground {known : ErrorVar → Prop} {t : Ty} (ht : t.Known known)
    (hsplit : t.Split) : ∀ x ∈ t.ground.unknowns, x.Unbindable known := by
  rw [ground_eq_graft]
  refine (stable_unbindable known).graft fun y hy x hx => ?_
  have hself := known_iff.1 ht y hy
  rcases unknown_cases hy with ⟨name, flexible, rfl⟩ | ⟨v, rfl⟩ | ⟨name, flexible, rfl⟩
  · cases flexible with
    | true => exact absurd hx List.not_mem_nil
    | false =>
        obtain rfl := List.mem_singleton.1 hx
        exact ⟨rfl, hself⟩
  · obtain rfl := List.mem_singleton.1 hx
    exact ⟨rfl, hself⟩
  · cases flexible with
    | true => exact absurd hy (hsplit name)
    | false =>
        obtain rfl := List.mem_singleton.1 hx
        exact ⟨rfl, hself⟩

theorem any_freeErrorVars (t : Ty) (vs : List ErrorVar) :
    t.freeErrorVars.any vs.contains = t.mentions.any vs.contains := by
  have hfind : t.freeErrorVars.find? vs.contains = t.mentions.find? vs.contains :=
    find?_distinct (fun _ _ hxy => List.contains_congr hxy) _
  rw [← List.isSome_find?, ← List.isSome_find?, hfind]

end Ty

/-! ## Putting sets in -/

namespace Solution

variable {s : Solution} (hs : s.Clean) (hd : s.sets.Distinct)

/-- Whether a variable stands in an argument of a solved set. -/
def Carries (s : Solution) (v : ErrorVar) : Prop := ∃ a ∈ s.arguments, v ∈ a.mentions

theorem mem_arguments_of_get? {v : ErrorVar} {set : ErrorSet} (h : s.get? v = some set)
    {e : Atom × List Ty} (he : e ∈ set.entries) {a : Ty} (ha : a ∈ e.2) : a ∈ s.arguments := by
  obtain ⟨w, hw, _⟩ := Table.mem_of_get? h
  refine List.mem_flatMap.2 ⟨set, List.mem_map.2 ⟨_, hw, rfl⟩, ?_⟩
  exact List.mem_flatMap.2 ⟨e, he, List.mem_append_left _ ha⟩

include hs in
/-- A set has flexible variables in its arguments only. -/
theorem known_image {v : ErrorVar} {set : ErrorSet} (h : s.get? v = some set) :
    (image set).Known s.Carries := by
  cases hu : set.universal with
  | true =>
      rw [image, hu, if_pos rfl]
      exact fun _ hv => absurd hv List.not_mem_nil
  | false =>
      intro x hx hflex
      rw [image, hu, if_neg Bool.false_ne_true, ErrorSet.members, hu, if_neg Bool.false_ne_true,
        List.append_nil] at hx
      obtain ⟨m, hm, hx⟩ := Ty.mem_mentionsAll.1 hx
      obtain ⟨⟨atom, args⟩, he, rfl⟩ := List.mem_map.1 hm
      cases atom with
      | classifier c =>
          obtain ⟨a, ha, hx⟩ := Ty.mem_mentionsAll.1 hx
          exact ⟨a, mem_arguments_of_get? h he ha, hx⟩
      | var w =>
          obtain rfl := List.mem_singleton.1 hx
          rw [hs.rigid v set h x (ErrorSet.contains_of_mem he)] at hflex
          cases hflex

include hs hd in
theorem known_apply {t : Ty} (ht : t.Known fun v => s.contains v = true) :
    (s.apply t).Known s.Carries := by
  have hcanon := Ty.stable_known.canonical (Ty.known_iff.1 ht)
  rw [apply_eq, Ty.known_iff]
  refine fun x hx => (Ty.stable_known.canonical (Ty.stable_known.graft fun y hy => ?_) x hx).1
  obtain ⟨hy', hsplit⟩ := hcanon y hy
  rcases Ty.unknown_cases hy with ⟨name, flexible, rfl⟩ | ⟨v, rfl⟩ | ⟨name, flexible, rfl⟩
  · rw [Ty.graft, leaf_valueProj]
    exact Ty.known_iff.1 fun _ hv => absurd hv List.not_mem_nil
  · rw [Ty.graft]
    refine Ty.known_iff.1 ?_
    cases hflex : v.flexible with
    | false =>
        rw [leaf_rigid hs hd hflex]
        intro w hw hw'
        rw [List.mem_singleton.1 hw, hflex] at hw'
        cases hw'
    | true =>
        obtain ⟨set, hset⟩ := Table.get?_of_contains (hy' v List.mem_cons_self hflex)
        rw [leaf_solved hd hset]
        exact known_image hs hset
  · exact absurd rfl (hsplit name flexible)

include hs hd in
/-- What is settled has no projections, and no flexible variables but those that
arguments of solved sets brought in. -/
theorem unbindable_settled {t : Ty} (ht : t.Known fun v => s.contains v = true) :
    (s.settled t).projections = [] ∧ (s.settled t).Known s.Carries := by
  have hground := Ty.unbindable_ground (known_apply hs hd ht) (Ty.split_canonical _)
  have hall : ∀ x ∈ (s.settled t).unknowns, x.Unbindable s.Carries :=
    fun x hx => ((Ty.stable_unbindable _).canonical hground x hx).1
  exact ⟨Ty.projections_eq_nil fun x hx => (hall x hx).1,
    Ty.known_iff.2 fun x hx => (hall x hx).2⟩

include hs hd in
/-- A closed type in normal form is settled. -/
theorem settled_of_closed {t : Ty} (ht : t.Closed) : s.settled t = t.canonical := by
  rw [settled, apply_eq, Ty.graft_of_closed ht.canonical (fun _ => leaf_valueProj _ _)
    (fun v hv => leaf_rigid hs hd hv), Ty.canonical_reopened, Ty.canonical_canonical,
    Ty.canonical_ground ht.canonical, Ty.canonical_canonical]

end Solution

/-! ## Resolving in a solved session -/

namespace Session

namespace Concluded

variable {s s' : Session} {solution : Solution} (h : Concluded s solution s')
  (hb : s.bindings.Acyclic)

include h hb

/-- A type resolves to what is left of it once bindings are written out and sets
put in. It fails if a variable in it is poisoned, or if what is left breaks the
grammar. -/
theorem resolve_eq (t : Ty) :
    s'.resolve t = .ok (if (s.bindings.written t.canonical).mentions.any s'.poisoned.contains ||
        (Grammar.violation? (resolved s.bindings solution t)).isSome then .erroneous
      else resolved s.bindings solution t) := by
  have happly : s'.bindings.apply t.canonical = .ok (s'.bindings.written t.canonical) := by
    rw [h.bindings]
    exact hb.apply _
  unfold resolve
  rw [resolution_eq happly h.closed, h.bindings, Ty.any_freeErrorVars]
  cases (s.bindings.written t.canonical).mentions.any s'.poisoned.contains with
  | true => rfl
  | false => rfl

/-- What a type over the session's variables resolves to is open only where
arguments of solved sets are. -/
theorem resolve_known {known : ErrorVar → Prop} (hs : Tidy known s)
    (hissued : ∀ v, known v → s.issued.contains v = true) {t : Ty} (ht : t.Known known) :
    ∃ u, s'.resolve t = .ok u ∧ u.projections = [] ∧ u.Known solution.Carries ∧
      u.canonical = u ∧ Grammar.violation? u = none := by
  refine ⟨_, h.resolve_eq hb t, ?_⟩
  split
  · exact ⟨rfl, fun _ hv => absurd hv List.not_mem_nil, rfl, rfl⟩
  · next hok =>
    rw [Bool.or_eq_true, not_or, Bool.not_eq_true, Bool.not_eq_true, Option.isSome_eq_false_iff,
      Option.isNone_iff_eq_none] at hok
    obtain ⟨hclean, hgrammar⟩ := hok
    have hwritten : (s.bindings.written t.canonical).Known known := by
      refine Bindings.apply_keeps Bindings.known_unfoldWith hs.bound (Ty.known_iff.2 fun x hx => ?_)
        (hb.apply _)
      exact (Ty.stable_known.canonical (Ty.known_iff.1 ht) x hx).1
    have hsolved : (s.bindings.written t.canonical).Known fun v => solution.contains v = true := by
      intro v hv hflex
      rcases h.settled v (hissued v (hwritten v hv hflex)) with hin | hpoison
      · exact hin
      · exact absurd hpoison (List.any_eq_false.1 hclean v hv)
    obtain ⟨hflat, hcarried⟩ := Solution.unbindable_settled h.clean h.distinct hsolved
    exact ⟨hflat, hcarried, Ty.canonical_canonical _, hgrammar⟩

/-- A closed type that is resolved already resolves to itself. -/
theorem resolve_of_closed {t : Ty} (ht : t.Closed) (hcanon : t.canonical = t)
    (hgrammar : Grammar.violation? t = none) : s'.resolve t = .ok t := by
  have hwritten : s.bindings.written t.canonical = t.reopened := by
    rw [hcanon]
    exact Except.ok.inj ((hb.apply t).symm.trans (Bindings.unfoldWith_of_flat _ ht.flat))
  have hresolved : resolved s.bindings solution t = t := by
    rw [resolved, hwritten, Solution.settled_of_closed h.clean h.distinct ht.reopened,
      Ty.canonical_reopened, hcanon]
  have hclean : t.reopened.mentions.any s'.poisoned.contains = false := by
    refine List.any_eq_false.2 fun v hv hin => ?_
    obtain ⟨w, hw, hvw⟩ := List.contains_iff_exists_mem_beq.1 hin
    have hrigid := (Ty.closed_iff.1 ht.reopened).2 v hv
    rw [ErrorVar.flexible_congr hvw, h.poisoned w hw] at hrigid
    cases hrigid
  rw [h.resolve_eq hb, hresolved, hwritten, hclean, hgrammar]
  rfl

end Concluded

/-- What a type over the session's variables resolves to once the session is solved:
it has no projections, and no flexible error variables but those that stand in
arguments of solved sets. Without such, it is closed, and resolves to itself. -/
theorem resolve_open_only_in_arguments (options : Options) (registry : Registry) (ops : List Op)
    (hknown : ∀ r ∈ (Session.new options registry).allRequests ops,
      (r.sup.Known fun v => ((Session.new options registry).run ops).issued.contains v = true) ∧
      r.sub.Known fun v => ((Session.new options registry).run ops).issued.contains v = true)
    (hacyclic : ((Session.new options registry).run ops).bindings.Acyclic)
    {report : SessionReport} {solved : Session}
    (hsolve : ((Session.new options registry).run ops).solve = (.ok report, solved)) {t : Ty}
    (ht : t.Known fun v => ((Session.new options registry).run ops).issued.contains v = true) :
    ∃ u, solved.resolve t = .ok u ∧ u.projections = [] ∧
      (∀ v ∈ u.mentions, v.flexible = true →
        ∃ a ∈ report.solution.arguments, v ∈ a.mentions) ∧
      ((∀ a ∈ report.solution.arguments, ∀ v ∈ a.mentions, v.flexible = false) → u.Closed) ∧
      (u.Closed → solved.resolve u = .ok u) := by
  have htidy := (Tidy.new options registry).run ops hknown
  have hconcluded := htidy.solve hsolve
  obtain ⟨u, hu, hflat, hcarried, hcanon, hgrammar⟩ :=
    hconcluded.resolve_known hacyclic htidy (fun _ hv => hv) ht
  refine ⟨u, hu, hflat, hcarried, fun hrigid => Ty.closed_iff.2 ⟨hflat, fun v hv => ?_⟩,
    fun hclosed => hconcluded.resolve_of_closed hacyclic hclosed hcanon hgrammar⟩
  refine Bool.eq_false_iff.2 fun hflex => ?_
  obtain ⟨a, ha, hva⟩ := hcarried v hv hflex
  rw [hrigid a ha v hva] at hflex
  cases hflex

/-! A type variable is bound to a container and gets an error that carries one; an
error variable gets an error that carries the type variable's value. -/

def crateFault (name : String) (id : Int) : Classifier := ⟨id, [], name, [.covariant], some 0⟩

def crateRegistry : Registry := .holding 0 [crateFault "A" 0, crateFault "B" 1]

def crateVar (name : String) : ErrorVar := ⟨name, .unbounded, true⟩

def crateOf (t : Ty) : Ty := .con (.named "crate") [t]

def crateOps : List Op :=
  [.freshErrorVar "E" .unbounded, .freshTyVar "T",
    .require (.var "T$1" true)
      (.union [crateOf .value, .errorConst (crateFault "A" 0) [crateOf .value]]) .unknown,
    .require (.errorVar (crateVar "E$0"))
      (.errorConst (crateFault "B" 1) [.valueProj "T$1" true]) .unknown]

def crateType : Ty := crateOf (.union [.var "T$1" true, .errorVar (crateVar "E$0")])

theorem resolve_closed_in_crate :
    ∃ report solved u,
      ((Session.new .default crateRegistry).run crateOps).solve = (.ok report, solved) ∧
      report.success = true ∧ solved.resolve crateType = .ok u ∧ u.Closed ∧
      solved.resolve u = .ok u := by
  have hpass : ((Session.new .default crateRegistry).run crateOps).solve.1.toOption.any
      (fun r => r.success && r.solution.arguments.all fun a => a.mentions.all fun v =>
        !v.flexible) = true := by decide +kernel
  cases hsolve : ((Session.new .default crateRegistry).run crateOps).solve with
  | mk answer solved =>
      rw [hsolve] at hpass
      cases answer with
      | error f => cases hpass
      | ok report =>
          simp only [Except.toOption, Option.any_some, Bool.and_eq_true, List.all_eq_true,
            Bool.not_eq_true'] at hpass
          obtain ⟨u, hu, -, -, hclosed, hagain⟩ := resolve_open_only_in_arguments .default
            crateRegistry crateOps (by decide +kernel) (by decide +kernel) hsolve
            (t := crateType) (by decide +kernel)
          exact ⟨report, solved, u, rfl, hpass.1, hu, hclosed hpass.2, hagain (hclosed hpass.2)⟩

/-- An error that carries a variable is put in the place of another. The carried
variable is solved too, but stays, and resolving once more replaces it. -/
def carryingOps : List Op :=
  [.freshErrorVar "E" .unbounded, .freshErrorVar "E" .unbounded,
    .require (.errorVar (crateVar "E$0"))
      (.errorConst (crateFault "A" 0) [.errorVar (crateVar "E$1")]) .unknown]

theorem resolve_can_stay_open :
    ∃ report solved,
      ((Session.new .default crateRegistry).run carryingOps).solve = (.ok report, solved) ∧
      report.success = true ∧
      ((Session.new .default crateRegistry).run carryingOps).bindings.Acyclic ∧
      (∀ v ∈ [crateVar "E$0", crateVar "E$1"],
        ((Session.new .default crateRegistry).run carryingOps).issued.contains v = true ∧
          report.solution.contains v = true) ∧
      solved.resolve (.errorVar (crateVar "E$0")) =
        .ok (.errorConst (crateFault "A" 0) [.errorVar (crateVar "E$1")]) ∧
      solved.resolve (.errorConst (crateFault "A" 0) [.errorVar (crateVar "E$1")]) =
        .ok (.errorConst (crateFault "A" 0) [.nothing]) := by
  refine ⟨_, _, rfl, rfl, by decide +kernel, by decide +kernel, rfl, rfl⟩

end Session

end Fallible
