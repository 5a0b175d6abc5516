import Fallible.Proofs.ClosedResolution
import Fallible.Proofs.GraftedForms

/-!
# Resolving what a variable stands for

A bound projection should resolve to what the type it is bound to resolves to,
and a solved variable to what the union of its set does. Both are so unless
something is left that the steps of a resolution reach in one order only.

Bindings are written out once, and type variables are split before that. A bound
type is kept as it was written, so a type variable that stands unsplit in it is
passed by when its turn comes, and then counts as never bound. Sets are put in
after bindings are written out, and once; so what is bound or solved in an
argument of a set stays there.

If the type variables that stand unsplit in the bound type are not bound, and
nothing in the arguments of the set is bound or solved, the two agree.
-/

namespace Fallible

/-! ## Bound projections -/

theorem Solution.settled_congr {s : Solution} {x y : Ty} (h : x.canonical = y.canonical) :
    s.settled x = s.settled y := by
  rw [settled, settled, apply, apply, h]

/-- A bound projection resolves as the type that it is bound to, if what stands
unsplit in that type is not bound. -/
theorem resolved_bound {b : Bindings} (hb : b.Acyclic) (hv : b.ValuesOnly) (s : Solution)
    {n : String} {t : Ty} (hn : b.table.get? n = some t)
    (hfree : ∀ m, .var m true ∈ t.unknowns → b.contains m = false) :
    resolved b s (.valueProj n true) = resolved b s t := by
  have hspared : t.Spared (Bindings.leafOf (b.imageWithin b.table.size)) := fun m hm =>
    ⟨Bindings.written_free (hfree m hm), rfl⟩
  have hform : (b.written t.canonical).canonical = (b.written t).canonical :=
    Ty.canonical_graft (Bindings.harmless_written hb hv) (fun _ => rfl) hspared
  rw [resolved, resolved, Solution.settled_congr hform]
  exact congrArg s.settled (hb.written_bound hn)

/-! ## Solved variables -/

/-- Whether nothing in the type is bound or solved. -/
def Ty.Untouched (b : Bindings) (s : Solution) (t : Ty) : Prop :=
  (∀ n ∈ t.projections, b.contains n = false) ∧ ∀ v ∈ t.mentions, s.contains v = false

instance (b : Bindings) (s : Solution) (t : Ty) : Decidable (t.Untouched b s) :=
  inferInstanceAs (Decidable (_ ∧ _))

section Untouched

variable {b : Bindings} {s : Solution}

theorem Ty.stable_untouched : Stable (Untouched b s) := fun _ _ h =>
  ⟨⟨h.1, fun _ hv => absurd hv List.not_mem_nil⟩, fun _ hn => absurd hn List.not_mem_nil, h.2⟩

theorem Ty.Untouched.unknown {t x : Ty} (ht : t.Untouched b s) (hx : x ∈ t.unknowns) :
    x.Untouched b s :=
  ⟨fun n hn => ht.1 n (projections_of_mem_unknowns hx hn),
    fun v hv => ht.2 v (mentions_of_mem_unknowns hx hv)⟩

/-- Resolving a type in which nothing is bound or solved normalises it, and drops
what was never bound. -/
theorem resolved_of_untouched (hd : s.sets.Distinct) {t : Ty}
    (ht : ∀ x ∈ t.unknowns, x.Untouched b s) :
    resolved b s t = t.canonical.ground.canonical := by
  have hcanon : ∀ x ∈ t.canonical.unknowns, x.Untouched b s :=
    fun x hx => (Ty.stable_untouched.canonical ht x hx).1
  have hwritten : b.written t.canonical = t.canonical.reopened := by
    refine Ty.graft_congr fun x hx => ?_
    rcases Ty.unknown_cases hx with ⟨n, flexible, rfl⟩ | ⟨v, rfl⟩ | ⟨n, flexible, rfl⟩
    · cases flexible with
      | false => rfl
      | true => exact Bindings.written_free ((hcanon _ hx).1 n List.mem_cons_self)
    · rfl
    · rfl
  have hput : t.canonical.graft s.leaf = t.canonical.reopened := by
    refine Ty.graft_congr fun x hx => ?_
    rcases Ty.unknown_cases hx with ⟨n, flexible, rfl⟩ | ⟨v, rfl⟩ | ⟨n, flexible, rfl⟩
    · exact Solution.leaf_valueProj n flexible
    · exact Solution.leaf_waiting hd (Table.get?_eq_none.2 ((hcanon _ hx).2 v List.mem_cons_self))
    · rfl
  rw [resolved, hwritten, Solution.settled, Solution.apply_eq, Ty.canonical_reopened,
    Ty.canonical_canonical, hput, Ty.canonical_reopened, Ty.canonical_canonical]

/-- A solved variable resolves as the union of its set, if nothing in the arguments
of the set is bound or solved. -/
theorem resolved_solved (hs : s.Clean) (hd : s.sets.Distinct) {v : ErrorVar} {set : ErrorSet}
    (hset : s.get? v = some set) (hu : set.universal = false)
    (hargs : ∀ e ∈ set.entries, ∀ a ∈ e.2, a.Untouched b s) :
    resolved b s (.errorVar v) = resolved b s (.union set.members) := by
  have hmembers : ∀ x ∈ (Ty.union set.members).unknowns, x.Untouched b s := by
    intro x hx
    obtain ⟨m, hm, hx⟩ := Ty.mem_unknownsAll.1 hx
    rw [ErrorSet.members, hu, if_neg Bool.false_ne_true, List.append_nil] at hm
    obtain ⟨⟨atom, args⟩, he, rfl⟩ := List.mem_map.1 hm
    cases atom with
    | classifier c =>
        obtain ⟨a, ha, hx⟩ := Ty.mem_unknownsAll.1 hx
        exact (hargs _ he a ha).unknown hx
    | var w =>
        obtain rfl := List.mem_singleton.1 hx
        refine ⟨fun _ hn => absurd hn List.not_mem_nil, fun x hx => ?_⟩
        obtain rfl := List.mem_singleton.1 hx
        refine Bool.eq_false_iff.2 fun hin => ?_
        have hrigid := hs.rigid v set hset x (ErrorSet.contains_of_mem he)
        rw [hs.keys x hin] at hrigid
        cases hrigid
  have himage : s.leaf (.errorVar v) = .union set.members := by
    rw [Solution.leaf_solved hd hset, Solution.image, hu, if_neg Bool.false_ne_true]
  rw [resolved_of_untouched hd hmembers, ← himage, resolved, Solution.settled, Solution.apply_eq]
  rfl

end Untouched

/-! ## Resolving in a solved session -/

namespace Session

theorem Concluded.resolve_congr {s s' : Session} {solution : Solution}
    (h : Concluded s solution s') (hb : s.bindings.Acyclic) (hp : s'.poisoned = []) {t u : Ty}
    (htu : resolved s.bindings solution t = resolved s.bindings solution u) :
    ∃ w, s'.resolve t = .ok w ∧ s'.resolve u = .ok w := by
  have hclean : ∀ vs : List ErrorVar, vs.any s'.poisoned.contains = false := by
    intro vs
    rw [hp]
    exact List.any_eq_false.2 fun _ _ => Bool.false_ne_true
  refine ⟨_, h.resolve_eq hb t, ?_⟩
  rw [h.resolve_eq hb u, hclean, hclean, htu]

/-- Where the constraints of a session have a solution, a bound projection resolves
as what it is bound to, and a solved variable as the union of its set, as long as
the steps of a resolution reach all that is bound or solved in them. -/
theorem resolve_follows_bindings_and_sets (options : Options) (registry : Registry)
    (ops : List Op) (hacyclic : ((Session.new options registry).run ops).bindings.Acyclic)
    {outcome : Fixpoint.Outcome}
    (houtcome : ((Session.new options registry).run ops).outcome = .ok outcome)
    (hok : outcome.success = true) {report : SessionReport} {solved : Session}
    (hsolve : ((Session.new options registry).run ops).solve = (.ok report, solved)) :
    (∀ n t, solved.bindings.table.get? n = some t →
      (∀ m, .var m true ∈ t.unknowns → solved.bindings.contains m = false) →
      ∃ u, solved.resolve (.valueProj n true) = .ok u ∧ solved.resolve t = .ok u) ∧
    ∀ v set, report.solution.get? v = some set → set.universal = false →
      (∀ e ∈ set.entries, ∀ a ∈ e.2, a.Untouched solved.bindings report.solution) →
      ∃ u, solved.resolve (.errorVar v) = .ok u ∧ solved.resolve (.union set.members) = .ok u := by
  have htidy : Tidy (fun _ => True) ((Session.new options registry).run ops) :=
    (Tidy.new options registry).run ops
      fun _ _ => ⟨fun _ _ _ => trivial, fun _ _ _ => trivial⟩
  have hconcluded := htidy.solve hsolve
  have hpoisoned := htidy.poisoned_solve houtcome hok hsolve
  rw [hconcluded.bindings]
  refine ⟨fun n t hn hfree => ?_, fun v set hset hu hargs => ?_⟩
  · exact hconcluded.resolve_congr hacyclic hpoisoned
      (resolved_bound hacyclic htidy.values _ hn hfree)
  · exact hconcluded.resolve_congr hacyclic hpoisoned
      (resolved_solved hconcluded.clean hconcluded.distinct hset hu hargs)

/-! A projection is bound to a container of another, which is bound to a value; an
error variable gets an error that carries a container. -/

def linkInt : Ty := .con (.named "int") []

def linkOps : List Op :=
  [.freshTyVar "T", .freshTyVar "U", .freshErrorVar "E" .unbounded,
    .require (.var "T$0" true) (crateOf (.valueProj "U$1" true)) .unknown,
    .require (.var "U$1" true) linkInt .unknown,
    .require (.errorVar (crateVar "E$2")) (.errorConst (crateFault "A" 0) [crateOf linkInt])
      .unknown]

theorem resolve_follows_links :
    ∃ report solved set,
      ((Session.new .default crateRegistry).run linkOps).solve = (.ok report, solved) ∧
      solved.bindings.table.get? "T$0" = some (crateOf (.valueProj "U$1" true)) ∧
      (∃ u, solved.resolve (.valueProj "T$0" true) = .ok u ∧
        solved.resolve (crateOf (.valueProj "U$1" true)) = .ok u) ∧
      report.solution.get? (crateVar "E$2") = some set ∧ set.universal = false ∧
      set.entries = [(.classifier (crateFault "A" 0), [crateOf linkInt])] ∧
      ∃ u, solved.resolve (.errorVar (crateVar "E$2")) = .ok u ∧
        solved.resolve (.union set.members) = .ok u := by
  have hfollows := resolve_follows_bindings_and_sets .default crateRegistry linkOps
    (by decide +kernel) rfl rfl rfl
  refine ⟨_, _, _, rfl, rfl, hfollows.1 _ _ rfl ?_, rfl, rfl, rfl, hfollows.2 _ _ rfl rfl ?_⟩
  · intro m hm
    simp [crateOf, Ty.unknowns, Ty.unknownsAll] at hm
  · decide +kernel

/-- A projection is bound to a container of a type variable, and an error variable
gets an error that carries the value of that variable, before that is bound. -/
def lateOps : List Op :=
  [.freshTyVar "T", .freshTyVar "U", .freshErrorVar "E" .unbounded,
    .require (.var "T$0" true) (crateOf (.var "U$1" true)) .unknown,
    .require (.errorVar (crateVar "E$2"))
      (.errorConst (crateFault "A" 0) [.valueProj "U$1" true]) .unknown,
    .require (.var "U$1" true) linkInt .unknown]

theorem resolve_need_not_follow :
    ∃ report solved set,
      ((Session.new .default crateRegistry).run lateOps).solve = (.ok report, solved) ∧
      report.success = true ∧
      ((Session.new .default crateRegistry).run lateOps).bindings.Acyclic ∧
      solved.bindings.table.get? "T$0" = some (crateOf (.var "U$1" true)) ∧
      solved.resolve (.valueProj "T$0" true) = .ok (crateOf .nothing) ∧
      solved.resolve (crateOf (.var "U$1" true)) = .ok (crateOf linkInt) ∧
      report.solution.get? (crateVar "E$2") = some set ∧ set.universal = false ∧
      solved.resolve (.errorVar (crateVar "E$2")) =
        .ok (.errorConst (crateFault "A" 0) [.nothing]) ∧
      solved.resolve (.union set.members) = .ok (.errorConst (crateFault "A" 0) [linkInt]) :=
  ⟨_, _, _, rfl, rfl, by decide +kernel, rfl, rfl, rfl, rfl, rfl, rfl, rfl⟩

end Session

end Fallible
