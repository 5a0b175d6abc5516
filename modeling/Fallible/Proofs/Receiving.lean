import Fallible.Proofs.LeastFixpoint
import Fallible.Proofs.Reassembly
import Fallible.Proofs.Restart

/-!
# A type variable that takes a type

A flexible type variable that is compared with a type takes all of it. Its value
projection is bound to the value part. Its error variable has no bound, so it is
asked to receive whatever errors there are, in one constraint, and solving gives
it exactly that set. Made again under the solution the comparison holds, and the
variable resolves to the type put together again.

The type must not hold flexible variables of its own. What it holds besides,
payloads and rigid variables included, is taken as it is.
-/

namespace Fallible

/-! ## The comparison -/

/-- What a comparison of a type variable with a type asks for: the errors of the
type, if there are any. -/
def asked (name : String) (t : Ty) (location : Location) : List Constraint :=
  if t.received.isEmpty then []
  else [⟨.unionSubset (.ofTyVar name true) .empty t.received, location,
    Obligation.reason (.var name true) t⟩]

/-- What a comparison of a type variable with a type answers. -/
def answered (t : Ty) : Verdict := if t.received.isEmpty then .holds else .pending

theorem View.interpretWith_var (name : String) :
    interpretWith .empty (.var name true) = ⟨.empty, [.ofTyVar name true]⟩ := rfl

theorem Ty.missingOf_known (t : Ty) : View.missingOf .empty (View.interpretWith .empty t).known =
    ⟨t.received.entries, false, t.received.sorted⟩ := by
  show ErrorSet.ofTable (.ofList t.received.entries) false = _
  rw [Table.ofList_of_distinct t.distinct_received]
  exact t.received.ofTable_entries false

section Compared

variable {t : Ty} (hc : t.Closed) (name : String)

include hc in
theorem View.errorVerdict_var :
    errorVerdict (interpretWith .empty (.var name true)) (interpretWith .empty t) =
      Fallible.answered t := by
  have huniversal : (interpretWith .empty t).known.universal = t.received.universal := rfl
  rw [errorVerdict, interpretWith_var, hc.flexible_interpretWith, Ty.missingOf_known, huniversal,
    Fallible.answered, ErrorSet.isEmpty, ErrorSet.isEmpty]
  cases t.received.universal <;> cases t.received.entries.isEmpty <;> rfl

theorem route_ofTyVar (a : Atom) : route a [.ofTyVar name true] = .ok (.ofTyVar name true) := rfl

namespace Obligation

/-- All atoms go to the only variable there is. -/
theorem routeAll_ofTyVar (es : List (Atom × List Ty)) (before : Instantiations) :
    routeAll [.ofTyVar name true] es ⟨[(.ofTyVar name true, before)]⟩ =
      .ok ⟨[(.ofTyVar name true, before.insertAll es)]⟩ := by
  induction es generalizing before with
  | nil => rfl
  | cons e es ih =>
      rw [routeAll, route_ofTyVar]
      simp only [bind, Except.bind, Table.get?, Table.find, Table.insert, Table.put, BEq.rfl,
        if_true, Option.getD_some]
      exact ih _

theorem received_ofTyVar {s : ErrorSet} (hd : s.Distinct) (h : s.isEmpty = false) :
    received ⟨.empty, [.ofTyVar name true]⟩
        (if s.universal then some (.ofTyVar name true) else none) ⟨s.entries, false, s.sorted⟩ =
      .ok [.unionSubset (.ofTyVar name true) .empty s] := by
  have hrouted : routeAll [.ofTyVar name true] s.entries .empty =
      .ok (if s.entries.isEmpty then .empty else ⟨[(.ofTyVar name true, ⟨s.entries⟩)]⟩) := by
    rw [← Table.ofList_of_distinct hd]
    cases s.entries with
    | nil => rfl
    | cons e es => exact routeAll_ofTyVar name es (Table.empty.insert e.1 e.2)
  have hplaced : withPlace (if s.universal then some (.ofTyVar name true) else none)
      (if s.entries.isEmpty then .empty else ⟨[(.ofTyVar name true, ⟨s.entries⟩)]⟩) =
        ⟨[(.ofTyVar name true, ⟨s.entries⟩)]⟩ := by
    rw [ErrorSet.isEmpty] at h
    cases hu : s.universal with
    | false =>
        rw [hu, Bool.not_false, Bool.and_true] at h
        rw [h]
        rfl
    | true =>
        cases hes : s.entries with
        | nil => rfl
        | cons e es => simp [withPlace, Table.insertNew, Table.contains]
  have htaken : ((if s.universal then some (ErrorVar.ofTyVar name true) else none).any
      fun v => .ofTyVar name true == v) = s.universal := by
    cases s.universal
    · rfl
    · exact BEq.rfl
  rw [received_eq, routing, List.isEmpty_cons, if_neg Bool.false_ne_true, hrouted]
  show Except.ok (List.map _ (Table.entries (withPlace _ _))) = _
  rw [hplaced, List.map_singleton, htaken, s.ofTable_entries]

include hc in
theorem demands_var {view : View} (hs : view.solution = .empty) (h : t.received.isEmpty = false) :
    demands view (.var name true) t =
      .ok [.unionSubset (.ofTyVar name true) .empty t.received] := by
  have habsorber : absorber? (View.interpretWith .empty (.var name true))
      (View.interpretWith .empty t) =
        if t.received.universal then some (.ofTyVar name true) else none := by
    change (if (t.received.universal && true) = true then _ else _) = _
    cases t.received.universal <;> rfl
  have hresidual : view.residual (View.interpretWith .empty (.var name true)).known
      (View.interpretWith .empty t).known =
        .ok ⟨⟨t.received.entries, false, t.received.sorted⟩, .ofTable .empty false⟩ := by
    rw [View.residual, View.interpretWith_var, View.residualWith_of_payloadFree _
      (fun _ he => absurd he List.not_mem_nil), t.missingOf_known]
  rw [demands, View.interpret, View.interpret, hs, hresidual, habsorber, hc.flexible_interpretWith,
    View.interpretWith_var]
  show (received _ _ _ >>= fun ds => _) = _
  rw [received_ofTyVar name t.distinct_received h]
  rfl

end Obligation

namespace Engine

variable {order : ValueOrder} {b : Bindings} {cs : List Constraint}

include hc in
/-- The value projection is bound to the value part. -/
theorem compareValues_var (hfree : b.contains name = false) (hf : t.failed = false) :
    (Engine.mk order .empty (some b) (some cs)).compareValues (.valueProj name true) t.valuePart =
      (.ok true, ⟨order, .empty, some (b.bind name t.valuePart), some cs⟩) := by
  have hother : t.valuePart ≠ .valueProj name true := by
    intro h
    have hv := hc.valuePart
    rw [h] at hv
    exact Bool.noConfusion (hv _ List.mem_cons_self)
  have hvalue : t.valuePart.isErroneous = false := by
    rcases Ty.constituents_valuePart hf with ⟨h, -⟩ | ⟨h, -⟩
    · rw [h]; rfl
    · exact Ty.not_isErroneous_of_isValue h
  have hstep : View.valueStep (Engine.mk order .empty (some b) (some cs)).isFree
      (.valueProj name true) t.valuePart = .bind name t.valuePart :=
    View.valueStep_eq_bind_iff.2 ⟨by simp [isFree, hfree], hother, hvalue, Or.inl ⟨rfl, rfl⟩⟩
  have hproj : ∀ n ∈ (Ty.valueProj name true).projections, b.contains n = false := by
    intro n hn
    obtain rfl := List.mem_singleton.1 hn
    exact hfree
  have hspared : ∀ n ∈ t.valuePart.projections, b.contains n = false := by
    rw [hc.valuePart.flat]
    exact fun _ hn => absurd hn List.not_mem_nil
  rw [compareValues, View.follow_of_spared hproj, View.follow_of_spared hspared]
  simp only [hstep]
  rfl

include hc in
theorem compareErrors_var (location : Location) :
    (Engine.mk order .empty (some b) (some cs)).compareErrors (.var name true) t location =
      (.ok (answered t), ⟨order, .empty, some b, some (cs ++ asked name t location)⟩) := by
  have hverdict : ∀ holds, View.compareErrors holds (View.interpretWith .empty (.var name true))
      (View.interpretWith .empty t) = .ok (answered t) := by
    intro holds
    rw [View.compareErrors_of_payloadFree holds fun _ he => absurd he List.not_mem_nil,
      View.errorVerdict_var hc]
  have hview : ∀ u, (Engine.mk order .empty (some b) (some cs)).view.interpret u =
      View.interpretWith .empty u := fun _ => rfl
  rw [compareErrors, hview, hview, hverdict, answered, asked]
  cases h : t.received.isEmpty with
  | true =>
      rw [if_pos rfl, if_pos rfl, List.append_nil]
  | false =>
      have hasked : Obligation.demands (Engine.mk order .empty (some b) (some cs)).view
          (.var name true) t = .ok [.unionSubset (.ofTyVar name true) .empty t.received] :=
        Obligation.demands_var hc name rfl h
      rw [if_neg Bool.false_ne_true, if_neg Bool.false_ne_true]
      simp only [Option.isSome_some, if_true, generate, Obligation.constraints, hasked]
      rfl

include hc in
/-- A type variable that is compared with a type takes its value at once, and is
asked to take its errors. -/
theorem check_var (hfree : b.contains name = false) (hf : t.failed = false) (location : Location) :
    (Engine.mk order .empty (some b) (some cs)).check (.var name true) t location =
      (.ok (answered t),
        ⟨order, .empty, some (b.bind name t.valuePart), some (cs ++ asked name t location)⟩) := by
  have hfailed : (Ty.var name true).failed = false := rfl
  have hvalue : (Ty.var name true).valuePart = .valueProj name true := rfl
  rw [check, hfailed, hf, Bool.or_false, if_neg Bool.false_ne_true, hvalue,
    compareValues_var hc name hfree hf]
  exact compareErrors_var hc name location

end Engine

end Compared

/-! ## The solution -/

/-- Atoms that are new are taken with the arguments they come with. -/
theorem Holding.absorbEntries_of_new (p : Policy) (holds : Comparison) {universal : Bool}
    (es before : List (Atom × List Ty)) (grew : Bool)
    (h : (Table.mk (before ++ es)).Distinct) :
    absorbEntries p holds es ⟨⟨before⟩, universal⟩ grew =
      .ok (.done ⟨⟨before ++ es⟩, universal⟩ (grew || !es.isEmpty)) := by
  induction es generalizing before grew with
  | nil => rw [absorbEntries, List.append_nil, List.isEmpty_nil, Bool.not_true, Bool.or_false]; rfl
  | cons e es ih =>
      have hnew := h.not_contains
      rw [absorbEntries, Table.get?_eq_none.2 hnew]
      simp only [Table.insert_of_not_contains _ hnew]
      have happ : before ++ e :: es = (before ++ [e]) ++ es := by simp
      rw [happ] at h ⊢
      rw [ih _ true h, List.isEmpty_cons, Bool.true_or, Bool.not_false, Bool.or_true]

theorem Holding.absorb_ofSet (p : Policy) (holds : Comparison) {s : ErrorSet} (hd : s.Distinct) :
    absorb p holds .empty ((ofSet s).beyond .empty) = .ok (.done (ofSet s) (!s.isEmpty)) := by
  have hindex : s.index = ⟨s.entries⟩ := Table.ofList_of_distinct hd
  have hbeyond : (ofSet s).beyond .empty = ⟨⟨s.entries⟩, s.universal⟩ := by
    have hall : s.entries.filter (fun e => !ErrorSet.empty.contains e.1) = s.entries :=
      List.filter_eq_self.2 fun _ _ => rfl
    rw [beyond, ofSet, hindex, Table.filterKeys, hall]
    exact congrArg (Holding.mk _) (Bool.and_true _)
  rw [absorb, hbeyond, ofSet, hindex, ErrorSet.isEmpty]
  show absorbEntries p holds s.entries ⟨⟨[]⟩, s.universal⟩ (s.universal && true) = _
  rw [absorbEntries_of_new p holds s.entries [] _ hd]
  cases s.universal <;> cases s.entries.isEmpty <;> rfl

namespace Fixpoint

section Single

variable {c : Constraint} {v : ErrorVar} {s : ErrorSet}
  (hdemand : c.demand = .unionSubset v .empty s) (hv : v.flexible = true) (hd : s.Distinct)

include hdemand hv hd in
/-- A set that is required outright is received in one step. -/
theorem run_single {p : Problem} (hp : p.constraints = [c]) :
    ∃ growth, p.run (stepBound .empty [c]) (State.start .empty [c]) =
      .ok (.next ⟨⟨[(v, .ofSet s)]⟩, [], 1, growth⟩) := by
  have hstart : State.start .empty [c] = ⟨⟨[(v, .empty)]⟩, [0], 0, []⟩ := by
    simp only [State.start, Holdings.start, List.flatMap_cons, List.flatMap_nil, List.append_nil,
      Constraint.vars, hdemand, List.filter_cons, hv, if_true, List.filter_nil]
    rfl
  have hrequeue : p.requeue [] v = [] := by
    simp [Problem.requeue, Problem.readers, hp, Constraint.source?, hdemand]
  have hheld : Holdings.of ⟨[(v, .empty)]⟩ v = .empty := by
    simp [Holdings.of, Table.get?, Table.find]
  have hstep : p.step ⟨⟨[(v, .empty)]⟩, [0], 0, []⟩ 0 [] =
      .ok (.next (State.written p ⟨⟨[(v, .empty)]⟩, [0], 0, []⟩ [] v (.ofSet s) !s.isEmpty)) :=
    Problem.step_of_done (c := c) (by rw [hp]; rfl) (by rw [Constraint.contribution?, hdemand])
      (by rw [hheld]; exact Holding.absorb_ofSet p.policy p.holds hd)
  -- Nothing reads the variable, so the queue is empty after one step.
  obtain ⟨n, hn⟩ := Nat.exists_eq_add_of_le' (le_stepBound .empty [c])
  rw [hstart, hn, List.length_singleton, Problem.run]
  simp only [hstep, bind, Except.bind]
  rw [State.written, hrequeue, ite_self, Table.insert, Table.put, BEq.rfl, if_pos rfl,
    Problem.run.eq_def]
  exact ⟨_, rfl⟩

include hdemand hv hd in
theorem solveBy_single (hbound : v.bound = .unbounded) {r : Registry}
    (hr : ∀ k ∈ s.classifiers, r.contains k = true) (policy : Policy) (view : View) :
    ∃ o, solveBy policy r view [c] .empty = .ok o ∧ o.violation = none ∧
      o.solution = ⟨⟨[(v, s)]⟩⟩ := by
  obtain ⟨growth, hrun⟩ := run_single hdemand hv hd (p := ⟨[c], policy, view.holds⟩) rfl
  have hunknown : unknown? r [c] = none := by
    have hnamed : namedClassifiers c = s.classifiers := by
      simp only [namedClassifiers, Constraint.errorSets, Constraint.vars, hdemand, hbound,
        List.flatMap_cons, List.flatMap_nil, List.append_nil]
      rfl
    have hnone : (namedClassifiers c).find? (fun k => !r.contains k) = none := by
      rw [hnamed, List.find?_eq_none]
      intro k hk
      rw [hr k hk]
      exact Bool.false_ne_true
    rw [unknown?, List.findSome?_cons, unknownIn?, hnone]
    rfl
  have hviolation : ∀ solution, violation? view.covers solution [c] = .ok none := by
    intro solution
    have hfirst : firstMentions [] c.vars = [v] := by
      simp [Constraint.vars, hdemand, firstMentions, hv]
    have halias : [v].findSome? (aliasViolation solution c) = none := by
      rw [List.findSome?_cons, aliasViolation, hbound]
      rfl
    rw [violation?, violationFrom, boundViolation, hdemand, hfirst]
    simp only [bind, Except.bind, pure, Except.pure, halias]
    rfl
  refine ⟨_, solveBy_of_run hunknown hrun (hviolation _), rfl, ?_⟩
  show Solution.mk ⟨[(v, (Holding.ofSet s).toSet)]⟩ = _
  rw [Holding.toSet_ofSet hd]

end Single

end Fixpoint

/-- The solution in which a type variable has taken the errors of a type. -/
def Ty.receipt (t : Ty) (name : String) : Solution := ⟨⟨[(.ofTyVar name true, t.received)]⟩⟩

theorem Ty.get?_receipt (t : Ty) (name : String) (v : ErrorVar) : (t.receipt name).get? v =
    if .ofTyVar name true == v then some t.received else none := rfl

theorem Ty.distinct_receipt (t : Ty) (name : String) : (t.receipt name).sets.Distinct :=
  List.pairwise_singleton _ _

theorem ErrorSet.eq_empty_of_isEmpty {s : ErrorSet} (h : s.isEmpty = true) : s = .empty := by
  obtain ⟨entries, universal, sorted⟩ := s
  rw [isEmpty, Bool.and_eq_true, List.isEmpty_iff, Bool.not_eq_true'] at h
  obtain ⟨rfl, rfl⟩ := h
  rfl

section Solved

variable {t : Ty} (name : String)

theorem classifier_received (hn : t.Unrepeated) {c : Classifier} (h : c ∈ t.received.classifiers) :
    ∃ args, .errorConst c args ∈ t.constituents := by
  obtain ⟨args, hargs⟩ := ErrorSet.mem_of_mem_classifiers h
  exact ⟨args, hn.mem_known.1 (Ty.mem_received.1 hargs).1⟩

/-- What is asked for is received. -/
theorem Fixpoint.solveBy_asked (hn : t.Unrepeated) {r : Registry}
    (hr : ∀ c args, .errorConst c args ∈ t.constituents → r.contains c = true)
    (location : Location) (policy : Policy) (view : View) :
    ∃ o, solveBy policy r view (asked name t location) .empty = .ok o ∧ o.violation = none ∧
      o.solution.extend (.ofList [(.ofTyVar name true, .empty)]) = t.receipt name := by
  rw [asked]
  cases h : t.received.isEmpty with
  | true =>
      refine ⟨⟨⟨.empty⟩, none, 0, []⟩, rfl, rfl, ?_⟩
      rw [Ty.receipt, ErrorSet.eq_empty_of_isEmpty h]
      rfl
  | false =>
      have hissued : ∀ k ∈ t.received.classifiers, r.contains k = true := by
        intro k hk
        obtain ⟨args, hargs⟩ := classifier_received hn hk
        exact hr k args hargs
      obtain ⟨o, ho, hviolation, hsolution⟩ := solveBy_single
        (c := ⟨.unionSubset (.ofTyVar name true) .empty t.received, location,
          Obligation.reason (.var name true) t⟩) rfl rfl t.distinct_received rfl hissued policy view
      refine ⟨o, ho, hviolation, ?_⟩
      rw [hsolution, Ty.receipt, Solution.extend]
      simp only [Table.overlay, Table.ofList, Table.insertAll, List.foldl_cons, List.foldl_nil,
        Table.insert, Table.entries_empty, Table.put, BEq.rfl, if_true]

end Solved

/-! ## The comparison made again -/

section Revalidated

variable {t : Ty} (hc : t.Closed) (name : String)

theorem View.interpretWith_receipt :
    interpretWith (t.receipt name) (.var name true) = ⟨t.received, []⟩ := by
  have hget : (t.receipt name).get? (.ofTyVar name true) = some t.received := by
    rw [t.get?_receipt, BEq.rfl, if_pos rfl]
  have hpart : (Ty.var name true).errorPart = [.errorVar (.ofTyVar name true)] := rfl
  rw [interpretWith, hpart, List.foldl_cons, List.foldl_nil, add_solved rfl hget]
  show Interpretation.mk (.ofTable (t.received.entries.foldl _ .empty) t.received.universal) [] = _
  rw [Table.insertNew_of_distinct t.distinct_received, ErrorSet.ofTable_entries]

include hc in
/-- A type that has received the errors of another covers them. -/
theorem errorsHold_received (R : Ty → Ty → Prop) :
    ErrorsHold R ⟨t.received, []⟩ (View.interpretWith .empty t) := by
  cases hu : t.received.universal with
  | true => exact Or.inl hu
  | false =>
      refine Or.inr ⟨hu, fun e he => ?_, fun x hx => ?_⟩
      · rw [EntryCovered]
        cases hl : View.leaves .empty e.1 with
        | true =>
            rw [t.distinct_received.get?_of_mem (Ty.mem_received.2 ⟨he, hl⟩)]
            exact Or.inr (Or.inr (Or.inl BEq.rfl))
        | false =>
            rcases View.stemsFrom_interpretWith e he with ⟨x, rfl⟩ | ⟨c, -, -, hatom, -, -, -⟩
            · cases t.received.get? (.var x) with
              | some args => exact Or.inr (Or.inl rfl)
              | none =>
                  have hcovered := (View.leaves_eq_false.1 hl).resolve_left Bool.false_ne_true
                  exact View.coveredByAlias_mono (fun _ h => Bool.noConfusion h) hcovered
            · rw [hatom] at hl
              cases hl
      · rw [hc.flexible_interpretWith] at hx
        cases hx

include hc in
theorem Bindings.imageWithin_taken : (Bindings.empty.bind name t.valuePart).imageWithin 1 name =
    some (.ok t.valuePart.reopened) := by
  rw [imageWithin, get?_bind, if_pos rfl, Option.map_some, unfoldWith_of_flat _ hc.valuePart.flat]

include hc in
/-- The comparison holds once the variable has taken the type. -/
theorem View.holds_var (hn : t.NamesOnce) :
    (View.mk .classes (t.receipt name) (Bindings.empty.bind name t.valuePart)).holds
      (.var name true) t = .ok true := by
  generalize hv : View.mk .classes (t.receipt name) (Bindings.empty.bind name t.valuePart) = v
  have ho : v.order = .classes := by rw [← hv]
  have hs : v.solution = t.receipt name := by rw [← hv]
  have hspared : ∀ {x : Ty}, x.Closed → ∀ n ∈ x.projections, v.bindings.contains n = false := by
    intro x hx n hn
    rw [hx.flat] at hn
    cases hn
  -- The projection stands for the value part as it is written out.
  have hfollow : v.follow (.valueProj name true) = v.follow t.valuePart.reopened := by
    rw [follow_of_spared (hspared hc.valuePart.reopened), ← hv]
    show ((Bindings.empty.bind name t.valuePart).imageWithin 1 name).getD _ = _
    rw [Bindings.imageWithin_taken hc]
    rfl
  obtain ⟨m, hm, hdepth⟩ : ∃ m, t.size ≤ m ∧ v.depth (.var name true) t = m + 1 :=
    ⟨_, by omega, rfl⟩
  have hsmaller : ∀ a : Ty, a.size < t.size → a.Closed → a.NamesOnce →
      v.holdsWithin m a.reopened a = .ok true ∧ v.holdsWithin m a a.reopened = .ok true :=
    fun a ha => holdsWithin_reopened ho m a (by omega)
  have hvalue : (Ty.var name true).valuePart = .valueProj name true := rfl
  rw [holds, hdepth, holdsWithin_succ, compareWith_holds_iff, hvalue]
  refine Or.inr (Or.inr ⟨?_, ?_⟩)
  · rw [compareValues, hfollow, ← compareValues, compareValues_iff ho _
      (hspared hc.valuePart.reopened) (hspared hc.valuePart)]
    exact (Alike.valueCovers (R := fun a b => v.holdsWithin m a b = .ok true)
      fun c args => Alike.of_valuePart hc hn hsmaller).1
  · rw [interpret, interpret, hs, interpretWith_receipt, hc.interpretWith_eq]
    exact errorsHold_received hc _

end Revalidated

/-! ## What the variable resolves to -/

section Resolved

variable {t : Ty} (name : String)

theorem leaf_receipt : (t.receipt name).leaf (.errorVar (.ofTyVar name true)) =
    Solution.image t.received := by
  refine Solution.leaf_solved (t.distinct_receipt name) ?_
  rw [t.get?_receipt, BEq.rfl, if_pos rfl]

theorem graft_receipt {x : Ty} (hx : x.Closed) : x.graft (t.receipt name).leaf = x.reopened := by
  refine Ty.graft_of_closed hx (fun n => Solution.leaf_valueProj n false) fun v hv => ?_
  refine Solution.leaf_waiting (t.distinct_receipt name) ?_
  have hother : (ErrorVar.ofTyVar name true == v) = false := by
    refine Bool.eq_false_iff.2 fun h => ?_
    rw [← ErrorVar.flexible_congr h] at hv
    cases hv
  rw [t.get?_receipt, hother, if_neg Bool.false_ne_true]

variable (hc : t.Closed) (hp : Grammar.Proper t.constituents) (hf : t.failed = false)

include hc hf in
theorem apply_receipt : (t.receipt name).apply
    (Ty.unionOf [t.valuePart.reopened, .errorVar (.ofTyVar name true)]) =
      t.reassembled.canonical := by
  have hreassembled : t.reassembled.canonical = Ty.ofConstituents (t.valuePart.constituents.map
      Ty.canonical ++ (Solution.image t.received).constituents.map Ty.canonical) := by
    rw [← List.map_append, ← Ty.constituents_reassembled]
    exact Ty.canonical_union _
  have hcanonical : (Ty.unionOf [t.valuePart.reopened, .errorVar (.ofTyVar name true)]).canonical =
      Ty.ofConstituents (t.valuePart.constituents.map Ty.canonical ++
        [Ty.errorVar (.ofTyVar name true)]) := by
    rw [Ty.canonical_unionOf, Ty.constituentsAll, Ty.constituents_reopened, List.map_append,
      List.map_map]
    exact congrArg (fun ms => Ty.ofConstituents (ms ++ _))
      (List.map_congr_left fun m _ => m.canonical_reopened)
  rw [Solution.apply_eq, hcanonical, hreassembled]
  -- Normalised first, the variable stands alone or behind the value.
  rcases Ty.constituents_valuePart hf with ⟨-, hnil, -⟩ | ⟨hv, hmem, hsingle⟩
  · rw [hnil, List.map_nil, List.nil_append, List.nil_append]
    show ((t.receipt name).leaf (.errorVar (.ofTyVar name true))).canonical = _
    rw [leaf_receipt]
    refine Ty.canonical_eq_ofConstituents ?_
    rw [Solution.image]
    split <;> exact Ty.noConfusion
  · rw [hsingle, List.map_singleton, List.singleton_append, List.singleton_append]
    have hvc : t.valuePart.canonical.isValue = true := by
      rw [Grammar.isValue_canonical hmem]
      exact hv
    have hlisted : Ty.ofConstituents [t.valuePart.canonical, .errorVar (.ofTyVar name true)] =
        .union [t.valuePart.canonical, .errorVar (.ofTyVar name true)] := by
      cases hw : t.valuePart.canonical <;> rw [hw] at hvc <;> first | rfl | cases hvc
    have hopened : t.valuePart.canonical.reopened.constituents =
        [t.valuePart.canonical.reopened] := by
      rw [Ty.constituents_reopened, Ty.constituents_of_isValue hvc, List.map_singleton]
    rw [hlisted, Ty.graft, Ty.graftAll, Ty.graftAll, Ty.graftAll, Ty.graft, leaf_receipt,
      graft_receipt name hc.valuePart.canonical, Ty.canonical_unionOf, Ty.constituentsAll,
      Ty.constituentsAll, Ty.constituentsAll, List.append_nil, hopened, List.map_append,
      List.map_singleton, Ty.canonical_reopened, Ty.canonical_canonical, List.singleton_append]

include hc hp hf in
/-- The variable resolves to the type put together again. -/
theorem settled_receipt : (t.receipt name).settled
    (Ty.unionOf [t.valuePart.reopened, .errorVar (.ofTyVar name true)]) =
      t.reassembled.canonical := by
  rw [Solution.settled, apply_receipt name hc hf,
    Ty.canonical_ground (Ty.closed_reassembled hc hp hf).canonical, Ty.canonical_canonical]

end Resolved

end Fallible
