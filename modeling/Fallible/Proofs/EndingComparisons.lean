import Fallible.Proofs.Adequacy
import Fallible.Proofs.DirectBindings
import Mathlib.Data.Fintype.Card
import Mathlib.Data.Set.Finite.Basic

/-!
# Comparisons that end

One level of a comparison asks about parts of the two types: their own arguments,
those of the constructors that projections are written out to, and those in the
sets of solved variables. It is enough that one of the two types cannot be taken
apart forever, because each question goes to a part of it and a part of the
other.

Where bindings are direct and the solution is founded, no type can. A type that
mentions no projection leads to smaller ones and to the arguments in solved sets,
which mention none either and only variables further down. A projection leads to a
type that mentions none.
-/

namespace Fallible

/-! ## Relations with finitely many ends -/

/-- A relation without cycles, in which finitely many things are related to by
others, has no endless chain. -/
theorem wellFounded_of_acyclic {α : Type} {r : α → α → Prop} {l : List α}
    (hl : ∀ x y, r x y → y ∈ l) (h : ∀ x, ¬ Relation.TransGen r x x) :
    WellFounded fun y x => r x y := by
  let down : {x // x ∈ l} → {x // x ∈ l} → Prop := fun y x => Relation.TransGen r x.1 y.1
  have hfinite : Finite {x // x ∈ l} := l.finite_toSet.to_subtype
  have htrans : IsTrans {x // x ∈ l} down := ⟨fun _ _ _ hxy hyz => hyz.trans hxy⟩
  have hirrefl : Std.Irrefl down := ⟨fun x hx => h x.1 hx⟩
  have hdown : WellFounded down := Finite.wellFounded_of_trans_of_irrefl down
  have hacc : ∀ x : {x // x ∈ l}, Acc (fun y x => r x y) x.1 := by
    intro x
    induction x using hdown.induction with
    | _ x ih => exact ⟨_, fun y hy => ih ⟨y, hl x.1 y hy⟩ (.single hy)⟩
  exact ⟨fun x => ⟨_, fun y hy => hacc ⟨y, hl x y hy⟩⟩⟩

/-! ## Types that cannot be taken apart forever -/

/-- Whether a comparison that meets one variable goes on to meet another. -/
def Solution.Feeds (s : Solution) (x y : ErrorVar) : Prop :=
  y.flexible = true ∧ ∃ set, s.get? x = some set ∧ ∃ e ∈ set.entries, ∃ a ∈ e.2, y ∈ a.mentions

/-- Whether arguments in solved sets mention no flexible projection, and no variable
leads back to itself. -/
structure Solution.Founded (s : Solution) : Prop where
  flat : ∀ x set, s.get? x = some set → ∀ e ∈ set.entries, ∀ a ∈ e.2, a.projections = []
  acyclic : ∀ x, ¬ Relation.TransGen s.Feeds x x

theorem Solution.Founded.wellFounded {s : Solution} (hs : s.Founded) :
    WellFounded fun y x => s.Feeds x y := by
  refine wellFounded_of_acyclic (l := s.sets.entries.flatMap fun d =>
    d.2.entries.flatMap fun e => e.2.flatMap Ty.mentions) (fun x y hxy => ?_) hs.acyclic
  obtain ⟨_, set, hset, e, he, a, ha, hy⟩ := hxy
  obtain ⟨k, hk, _⟩ := Table.mem_of_get? hset
  exact List.mem_flatMap.2 ⟨_, hk, List.mem_flatMap.2 ⟨e, he, List.mem_flatMap.2 ⟨a, ha, hy⟩⟩⟩

/-- Ranks that fall from each variable to those that its arguments mention show a
solution to be founded. -/
theorem Solution.Founded.of_rank {s : Solution} (rank : ErrorVar → Nat)
    (hrank : ∀ x y : ErrorVar, (x == y) = true → rank x = rank y)
    (h : ∀ d ∈ s.sets.entries, ∀ e ∈ d.2.entries, ∀ a ∈ e.2,
      a.projections = [] ∧ ∀ y ∈ a.mentions, rank y < rank d.1) : s.Founded := by
  constructor
  · intro x set hset e he a ha
    obtain ⟨k, hk, _⟩ := Table.mem_of_get? hset
    exact (h _ hk e he a ha).1
  · have hfall : ∀ {x y : ErrorVar}, Relation.TransGen s.Feeds x y → rank y < rank x := by
      intro x y hxy
      induction hxy with
      | single hxy | tail _ hxy ih =>
          obtain ⟨_, set, hset, e, he, a, ha, hy⟩ := hxy
          obtain ⟨k, hk, hkx⟩ := Table.mem_of_get? hset
          have hlt := (h _ hk e he a ha).2 _ hy
          have heq := hrank k _ hkx
          dsimp only at hlt
          omega
    exact fun x hx => Nat.lt_irrefl _ (hfall hx)

namespace View

/-- Whether comparing a type may ask about another. -/
def Part (v : View) (a t : Ty) : Prop := a ∈ v.parts t

variable {v : View}

/-- The arguments in the set of a variable, if it is solved, cannot be taken apart
forever. -/
def Settled (v : View) (x : ErrorVar) : Prop :=
  ∀ set, v.solution.get? x = some set → ∀ e ∈ set.entries, ∀ a ∈ e.2, Acc v.Part a

theorem acc_of_settled : ∀ (n : Nat) {t : Ty}, t.size ≤ n → t.projections = [] →
    (∀ x ∈ t.mentions, x.flexible = true → v.Settled x) → Acc v.Part t := by
  intro n
  induction n with
  | zero => intro t hn; have := t.one_le_size; omega
  | succ n ih =>
      intro t hn hflat hvars
      refine ⟨t, fun a ha => ?_⟩
      rcases part_cases ha with harg | ⟨name, flexible, c, args, hv, hf, _⟩ |
        ⟨x, set, e, hx, hflex, hset, he, hae⟩
      · have hlt := Ty.size_lt_of_mem_arguments harg
        refine ih (by omega) (List.eq_nil_iff_forall_not_mem.2 fun m hm => ?_) fun x hx =>
          hvars x (Ty.mentions_of_arguments harg hx)
        rw [← List.mem_nil_iff m, ← hflat]
        exact Ty.projections_of_arguments harg hm
      · -- The projection is rigid, so it is not written out.
        cases flexible with
        | false => cases hf
        | true =>
            have hn : name ∈ t.projections :=
              Ty.projections_valuePart (by rw [hv]; exact List.mem_cons_self)
            rw [hflat] at hn
            cases hn
      · refine hvars x ?_ hflex set hset e he a hae
        exact Ty.mentions_of_mem_constituents (List.mem_filter.1 hx).1 List.mem_cons_self

theorem settled_of_founded (hs : v.solution.Founded) (x : ErrorVar) : v.Settled x := by
  induction x using hs.wellFounded.induction with
  | _ x ih =>
      intro set hset e he a ha
      exact acc_of_settled a.size (Nat.le_refl _) (hs.flat x set hset e he a ha)
        fun y hy hflex => ih y ⟨hflex, set, hset, e, he, a, ha, hy⟩

theorem acc_part (hb : v.bindings.Direct) (hs : v.solution.Founded) :
    ∀ (n : Nat) {t : Ty}, t.size ≤ n → Acc v.Part t := by
  have hflat : ∀ {t : Ty}, t.projections = [] → Acc v.Part t := fun ht =>
    acc_of_settled _ (Nat.le_refl _) ht fun x _ _ => settled_of_founded hs x
  intro n
  induction n with
  | zero => intro t hn; have := t.one_le_size; omega
  | succ n ih =>
      intro t hn
      refine ⟨t, fun a ha => ?_⟩
      rcases part_cases ha with harg | ⟨name, flexible, c, args, _, hf, hargs⟩ |
        ⟨x, set, e, _, _, hset, he, hae⟩
      · have hlt := Ty.size_lt_of_mem_arguments harg
        exact ih (by omega)
      · cases flexible with
        | false => cases hf
        | true =>
            rw [hb.acyclic.apply] at hf
            have hdirect := hb.written name
            rw [Except.ok.inj hf] at hdirect
            rcases hdirect with ⟨_, h⟩ | h
            · cases h
            · refine hflat (List.eq_nil_iff_forall_not_mem.2 fun m hm => ?_)
              rw [← List.mem_nil_iff m, ← h]
              exact Ty.mem_projectionsAll.2 ⟨a, hargs, hm⟩
      · exact settled_of_founded hs x set hset e he a hae

/-! ## Comparisons have answers -/

/-- A type that cannot be taken apart forever can be compared with any other. -/
theorem holds_answers_of_acc (hfollow : ∀ t, ∃ u, v.follow t = .ok u) {x : Ty}
    (hx : Acc v.Part x) (y : Ty) : (∃ r, v.holds x y = .ok r) ∧ ∃ r, v.holds y x = .ok r := by
  induction hx generalizing y with
  | intro x _ ih =>
      have hon : v.holds.AnswersOn (v.parts x) (v.parts y) := fun a ha b _ => ih a ha b
      have hno : v.holds.AnswersOn (v.parts y) (v.parts x) := fun b hb a ha =>
        ⟨(hon a ha b hb).2, (hon a ha b hb).1⟩
      obtain ⟨a, ha⟩ := hfollow x.valuePart
      obtain ⟨b, hb⟩ := hfollow y.valuePart
      obtain ⟨r, hr⟩ := compareWith_answers_on ha hb hon
      obtain ⟨r', hr'⟩ := compareWith_answers_on hb ha hno
      exact ⟨⟨_, (holds_ok_iff v).2 ⟨r, hr, rfl⟩⟩, ⟨_, (holds_ok_iff v).2 ⟨r', hr', rfl⟩⟩⟩

theorem holds_answers_of_direct (hb : v.bindings.Direct) (hs : v.solution.Founded) (x y : Ty) :
    ∃ r, v.holds x y = .ok r :=
  (holds_answers_of_acc (fun t => ⟨_, hb.acyclic.follow t⟩) (acc_part hb hs _ (Nat.le_refl _)) y).1

end View

/-! ## Obligations can be written down -/

namespace Obligation

theorem route_answers (atom : Atom) {targets : List ErrorVar} (h : targets.isEmpty = false) :
    ∃ t, route atom targets = .ok t := by
  unfold route
  split
  · exact ⟨_, rfl⟩
  · split
    · exact ⟨_, rfl⟩
    · cases targets with
      | nil => cases h
      | cons t ts => exact ⟨t, rfl⟩

theorem routeAll_answers {targets : List ErrorVar} (h : targets.isEmpty = false)
    (es : List (Atom × List Ty)) (r : Routing) : ∃ r', routeAll targets es r = .ok r' := by
  induction es generalizing r with
  | nil => exact ⟨r, rfl⟩
  | cons e es ih =>
      obtain ⟨t, ht⟩ := route_answers e.1 h
      rw [routeAll, ht]
      exact ih _

theorem received_answers (sup : Interpretation) (absorber : Option ErrorVar)
    (missing : ErrorSet) : ∃ ds, received sup absorber missing = .ok ds := by
  unfold received
  cases h : sup.flexible.isEmpty with
  | true => exact ⟨_, rfl⟩
  | false =>
      obtain ⟨r, hr⟩ := routeAll_answers h missing.entries .empty
      rw [if_neg Bool.false_ne_true, hr]
      exact ⟨_, rfl⟩

theorem flows_answers (sup : Interpretation) (vs : List ErrorVar) :
    ∃ ds, flows sup vs = .ok ds := by
  have hflow : ∀ v, ∃ d, flow sup v = .ok d := by
    intro v
    unfold flow
    cases h : sup.flexible.isEmpty with
    | true => exact ⟨_, rfl⟩
    | false =>
        obtain ⟨t, ht⟩ := route_answers (.var v) h
        rw [if_neg Bool.false_ne_true, ht]
        exact ⟨_, rfl⟩
  induction vs with
  | nil => exact ⟨_, rfl⟩
  | cons v vs ih =>
      obtain ⟨ds, hds⟩ := ih
      obtain ⟨d, hd⟩ := hflow v
      rw [flows, hds, hd]
      split
      · exact ⟨_, rfl⟩
      · exact ⟨_, rfl⟩

theorem constraints_answers {view : View} (h : ∀ x y, ∃ r, view.holds x y = .ok r) (sup sub : Ty)
    (location : Location) : ∃ cs, constraints view sup sub location = .ok cs := by
  obtain ⟨r, hr⟩ := View.uncovered_answers
    (fun a _ b _ => ⟨h a b, h b a⟩ : view.holds.AnswersOn
      ((view.interpret sup).known.entries.flatMap Prod.snd)
      ((view.interpret sub).known.entries.flatMap Prod.snd)) .empty .empty
  have hres : ∃ residual, view.residual (view.interpret sup).known (view.interpret sub).known =
      .ok residual := by
    unfold View.residual View.residualWith
    rw [hr]
    exact ⟨_, rfl⟩
  obtain ⟨residual, hresidual⟩ := hres
  obtain ⟨rs, hrs⟩ := received_answers (view.interpret sup)
    (absorber? (view.interpret sup) (view.interpret sub)) residual.missing
  obtain ⟨fs, hfs⟩ := flows_answers (view.interpret sup) (view.interpret sub).flexible
  have hdemands : demands view sup sub = .ok (rs ++ fs) := by
    unfold demands
    simp only [hresidual, hrs, hfs, bind, Except.bind, pure, Except.pure]
  unfold constraints
  rw [hdemands]
  exact ⟨_, rfl⟩

end Obligation

/-! ## The engine -/

namespace Engine

theorem compareValues_answers {e : Engine} (hfollow : ∀ t, ∃ u, e.view.follow t = .ok u)
    (h : ∀ x y, ∃ r, e.view.holds x y = .ok r) (x y : Ty) :
    ∃ r, (e.compareValues x y).1 = .ok r := by
  obtain ⟨above, hx⟩ := hfollow x
  obtain ⟨below, hy⟩ := hfollow y
  unfold compareValues
  rw [hx, hy]
  dsimp only
  cases View.valueStep e.isFree above below with
  | decided answer => exact ⟨_, rfl⟩
  | bind name t => exact ⟨_, rfl⟩
  | constructors c as d bs =>
      exact View.consRelate_answers _ c d fun a _ b _ => ⟨h a b, h b a⟩

theorem compareErrors_answers {e : Engine} (h : ∀ x y, ∃ r, e.view.holds x y = .ok r)
    (sup sub : Ty) (location : Location) : ∃ r, (e.compareErrors sup sub location).1 = .ok r := by
  obtain ⟨r, hr⟩ := View.compareErrors_answers
    (fun a _ b _ => ⟨h a b, h b a⟩ : e.view.holds.AnswersOn
      ((e.view.interpret sup).known.entries.flatMap Prod.snd)
      ((e.view.interpret sub).known.entries.flatMap Prod.snd))
  obtain ⟨cs, hcs⟩ := Obligation.constraints_answers h sup sub location
  unfold compareErrors generate
  rw [hr, hcs]
  cases r with
  | holds => exact ⟨_, rfl⟩
  | fails => exact ⟨_, rfl⟩
  | pending =>
      dsimp only
      split
      · exact ⟨_, rfl⟩
      · exact ⟨_, rfl⟩

/-- A comparison of shielded types ends where bindings are direct and the solution
is founded. -/
theorem ask_answers {order : ValueOrder} {s : Solution} {b : Bindings}
    {obligations : Option (List Constraint)} (hb : b.Direct) (hs : s.Founded) {q : Query}
    (hsup : q.sup.Shielded) (hsub : q.sub.Shielded) :
    ∃ verdict, ((Engine.mk order s (some b) obligations).ask q).1 = .ok verdict := by
  have hholds : ∀ b : Bindings, b.Direct → ∀ x y, ∃ r, (View.mk order s b).holds x y = .ok r :=
    fun b hb => View.holds_answers_of_direct (v := ⟨order, s, b⟩) hb hs
  unfold ask check
  split
  · exact ⟨_, rfl⟩
  · next hf =>
      obtain ⟨r, hr⟩ := compareValues_answers (e := ⟨order, s, some b, obligations⟩)
        (fun t => ⟨_, Bindings.Acyclic.follow hb.acyclic t⟩) (hholds b hb) q.sup.valuePart
        q.sub.valuePart
      cases hv : (Engine.mk order s (some b) obligations).compareValues q.sup.valuePart
          q.sub.valuePart with
      | mk answer e =>
          rw [hv] at hr
          cases hr
          cases r with
          | false => exact ⟨_, rfl⟩
          | true =>
              rcases compareValues_cases hv with ⟨rfl, _⟩ | ⟨name, t, htie, _, rfl⟩
              · exact compareErrors_answers (e := ⟨order, s, some b, obligations⟩) (hholds b hb) _ _ _
              · have hleaves : (View.mk order s b).Leaves q.sup q.sub (b.bind name t) :=
                  Or.inr ⟨Bool.eq_false_iff.2 hf, name, t, htie, rfl⟩
                exact compareErrors_answers (e := ⟨order, s, some (b.bind name t), obligations⟩)
                  (hholds _ (hb.leaves hsup hsub hleaves)) _ _ _

end Engine

/-- Comparisons of shielded types, made from no bindings on, never close a cycle of
bindings, so writing out ends on every type; and each of them ends, if the solution
that the engine was given is founded. -/
theorem shielded_comparisons_end {order : ValueOrder} {s : Solution}
    {obligations : Option (List Constraint)} {qs : List Query}
    (hqs : ∀ q ∈ qs, q.sup.Shielded ∧ q.sub.Shielded) :
    (∀ before rest, qs = before ++ rest →
      (∀ n, ¬ Relation.TransGen ((Engine.mk order s (some .empty) obligations).askAll
        before).view.bindings.Mentions n n) ∧
      ∀ t, ∃ u, ((Engine.mk order s (some .empty) obligations).askAll
        before).view.bindings.apply t = .ok u) ∧
    (s.Founded → ∀ before q rest, qs = before ++ q :: rest → ∃ verdict,
      (((Engine.mk order s (some .empty) obligations).askAll before).ask q).1 = .ok verdict) := by
  have hdirect : ∀ before, (∀ q ∈ before, q ∈ qs) → ∃ b made,
      (Engine.mk order s (some .empty) obligations).askAll before = ⟨order, s, some b, made⟩ ∧
        b.Direct := fun before hbefore =>
    Engine.askAll_keeps (fun q hq _ _ hb => hb.leaves (hqs q (hbefore q hq)).1
      (hqs q (hbefore q hq)).2) .empty
  refine ⟨fun before rest hsplit => ?_, fun hs before q rest hsplit => ?_⟩
  · obtain ⟨b, made, he, hb⟩ := hdirect before fun q hq => hsplit ▸ List.mem_append_left _ hq
    rw [he]
    exact ⟨hb.not_mentions_cycle, Bindings.acyclic_iff_apply.1 hb.acyclic⟩
  · obtain ⟨b, made, he, hb⟩ := hdirect before fun q hq => hsplit ▸ List.mem_append_left _ hq
    have hq := hqs q (hsplit ▸ List.mem_append_right _ List.mem_cons_self)
    rw [he]
    exact Engine.ask_answers hb hs hq.1 hq.2

/-! A chain of projections, tied one to the next and at last to a list, and errors
whose argument is solved in two steps. -/

def nestFault (name : String) (id : Int) : Classifier := ⟨id, [], name, [.covariant], none⟩

def nestVar (name : String) : ErrorVar := ⟨name, .unbounded, true⟩

/-- A solution for two variables, the first by an error that carries the second. -/
def nestSolution : Solution :=
  ⟨⟨[(nestVar "E", .ofEntries [(.classifier (nestFault "A" 0), [.errorVar (nestVar "F")])] false),
    (nestVar "F", .ofEntries [(.classifier (nestFault "B" 1), [.value])] false)]⟩⟩

theorem nestSolution_founded : nestSolution.Founded := by
  refine .of_rank (fun x => if x.name == "E" then 1 else 0) (fun x y hxy => ?_) (by decide)
  have hname : (x.name == y.name) = true := by
    simp only [BEq.beq, Bool.and_eq_true] at hxy ⊢
    exact hxy.1.1
  rw [beq_iff_eq.1 hname]

/-- A rule by which a container covers another of its kind if its first argument does. -/
def nestRule : ValueRule where
  inquire sup _ sub _ := if sup == sub then .ask false 0 0 .answer else .answer false
  congr _ _ := rfl

def nestQueries : List Query :=
  [⟨.valueProj "T" true, .valueProj "U" true, .unknown⟩,
    ⟨.valueProj "U" true, .valueProj "V" true, .unknown⟩,
    ⟨.valueProj "T" true, .con (.named "pile") [.errorVar (nestVar "E")], .unknown⟩,
    ⟨.union [.valueProj "V" true, .errorConst (nestFault "A" 0) [.valueProj "U" true]],
      .union [.con (.named "pile") [.errorVar (nestVar "E")], .errorVar (nestVar "E")], .unknown⟩,
    ⟨.valueProj "V" true,
      .con (.named "pile") [.errorConst (nestFault "A" 0) [.errorVar (nestVar "F")]], .unknown⟩]

theorem shielded_comparisons_end_in_nest :
    (∀ q ∈ nestQueries, q.sup.Shielded ∧ q.sub.Shielded) ∧ nestSolution.Founded ∧
      (∃ verdict, (((Engine.mk .classes nestSolution (some .empty) none).askAll
        (nestQueries.take 3)).ask (nestQueries[3])).1 = .ok verdict) ∧
      ∃ verdict, (((Engine.mk (.custom nestRule) nestSolution (some .empty) none).askAll
        (nestQueries.take 4)).ask (nestQueries[4])).1 = .ok verdict := by
  have hqs : ∀ q ∈ nestQueries, q.sup.Shielded ∧ q.sub.Shielded := by decide
  exact ⟨hqs, nestSolution_founded,
    (shielded_comparisons_end hqs).2 nestSolution_founded (nestQueries.take 3) _
      (nestQueries.drop 4) rfl,
    (shielded_comparisons_end hqs).2 nestSolution_founded (nestQueries.take 4) _ [] rfl⟩

/-! What is asked of a solution is needed. -/

/-- Two variables, each solved by an error that carries the variable itself. -/
def loopSolution : Solution :=
  ⟨⟨[(nestVar "E", .ofEntries [(.classifier (nestFault "A" 0), [.errorVar (nestVar "E")])] false),
    (nestVar "F",
      .ofEntries [(.classifier (nestFault "A" 0), [.errorVar (nestVar "F")])] false)]⟩⟩

/-- Two variables, each solved by an error that carries a projection. -/
def looseSolution : Solution :=
  ⟨⟨[(nestVar "E", .ofEntries [(.classifier (nestFault "A" 0), [.valueProj "T" true])] false),
    (nestVar "F", .ofEntries [(.classifier (nestFault "A" 0), [.valueProj "U" true])] false)]⟩⟩

def looseQueries : List Query :=
  [⟨.valueProj "T" true, .con (.named "pile") [.errorVar (nestVar "E")], .unknown⟩,
    ⟨.valueProj "U" true, .con (.named "pile") [.errorVar (nestVar "F")], .unknown⟩]

set_option maxRecDepth 1024 in
/-- Comparisons of shielded types need not end under a solution that is not founded,
be it that a variable leads back to itself or that an argument mentions a projection. -/
theorem shielded_comparisons_need_not_end :
    (Ty.errorVar (nestVar "E")).Shielded ∧ (Ty.errorVar (nestVar "F")).Shielded ∧
    (∀ q ∈ looseQueries, q.sup.Shielded ∧ q.sub.Shielded) ∧
    ((Engine.mk .classes loopSolution (some .empty) none).check (.errorVar (nestVar "E"))
      (.errorVar (nestVar "F")) .unknown).1 = .error .endless ∧
    (((Engine.mk .classes looseSolution (some .empty) none).askAll looseQueries).check
      (.errorVar (nestVar "E")) (.errorVar (nestVar "F")) .unknown).1 = .error .endless := by
  exact ⟨by decide, by decide, by decide, rfl, rfl⟩

end Fallible
