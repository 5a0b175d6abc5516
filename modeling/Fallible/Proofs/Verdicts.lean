import Fallible.Proofs.Generation
import Fallible.Proofs.Preorder

/-!
# What decides a verdict

A comparison that does not hold either fails or has to wait, and which of the
two matters to whoever asked. Arguments of classifiers are compared by yes or
no. So on errors there are two ways to a verdict. Either a classifier stands on
both sides with arguments that do not cover, which is a clash, and the answer is
that the comparison fails. Or there is none, and then the verdict is the one
that two sets without arguments would get.

It follows that a step which rewrites types keeps all verdicts if it keeps the
value part, the errors as a set, and the arguments of each classifier up to the
step itself. The comparison of arguments is then the same by induction, and so
are the clashes.
-/

namespace Fallible

/-! ## Clashes -/

/-- Whether a classifier is on both sides with arguments that do not cover. A
universal set covers them all. -/
def Clash (R : Ty → Ty → Prop) (sup sub : Interpretation) : Prop :=
  sup.known.universal = false ∧ ∃ a xs b ys, (a, xs) ∈ sup.known.entries ∧
    (b, ys) ∈ sub.known.entries ∧ (a == b) = true ∧ ¬ ArgsCover R b xs ys

namespace View

variable {h : Comparison}

/-- All that a comparison of errors can answer. -/
theorem compareErrors_answer {sup sub : Interpretation} (hsup : sup.known.Distinct) {r : Verdict}
    (hr : compareErrors h sup sub = .ok r) :
    (Clash (fun x y => h x y = .ok true) sup sub → r = .fails) ∧
      (¬ Clash (fun x y => h x y = .ok true) sup sub → r = errorVerdict sup sub) := by
  have hclash : sup.known.universal = false →
      (Clash (fun x y => h x y = .ok true) sup sub ↔
        ¬ ∀ e ∈ sub.known.entries, ∀ args, sup.known.get? e.1 = some args →
          ArgsCover (fun x y => h x y = .ok true) e.1 args e.2) := by
    intro hu
    constructor
    · rintro ⟨-, a, xs, b, ys, ha, hb, hab, hcov⟩ hall
      exact hcov (hall (b, ys) hb xs (ErrorSet.get?_congr _ hab ▸ hsup.get?_of_mem ha))
    · intro hno
      by_contra hclash
      refine hno fun e he args hget => ?_
      by_contra hcov
      obtain ⟨a, ha, hae⟩ := hsup.mem_of_get? hget
      exact hclash ⟨hu, a, args, e.1, e.2, ha, he, hae, hcov⟩
  rw [compareErrors] at hr
  rw [errorVerdict]
  cases hu : sup.known.universal with
  | true =>
      rw [hu] at hr
      cases hr
      exact ⟨fun hc => absurd hc.1 (by simp [hu]), fun _ => rfl⟩
  | false =>
      rw [hclash hu, not_not]
      simp only [hu, Bool.false_eq_true, if_false] at hr ⊢
      split at hr
      · next hopen =>
          cases hr
          rw [if_pos hopen]
          exact ⟨fun _ => rfl, fun _ => rfl⟩
      · next hopen =>
          rw [if_neg hopen]
          cases hres : residualWith h sup.known sub.known with
          | error f => rw [hres] at hr; cases hr
          | ok res =>
              obtain ⟨hmissing, hiff⟩ := residualWith_ok hres
              rw [hres] at hr
              simp only [bind, Except.bind, hmissing] at hr
              rw [← hiff]
              cases hm : res.mismatched.isEmpty with
              | false =>
                  simp only [hm, Bool.not_false, if_true] at hr
                  cases hr
                  exact ⟨fun _ => rfl, fun hno => absurd hno (by simp)⟩
              | true =>
                  simp only [hm, Bool.not_true, Bool.false_eq_true, if_false] at hr
                  refine ⟨fun hno => absurd rfl hno, fun _ => ?_⟩
                  split at hr
                  · next hh => cases hr; rw [if_pos hh]
                  · next hh =>
                      rw [if_neg hh]
                      split at hr
                      · next hf => cases hr; rw [if_pos hf]
                      · next hf => cases hr; rw [if_neg hf]

/-- All that one level of a comparison can answer. -/
theorem compareWith_answer {v : View} {sup sub : Ty} {r : Verdict}
    (hr : v.compareWith h sup sub = .ok r) :
    ((sup.failed || sub.failed) = true ∧ r = .holds) ∨
    ((sup.failed || sub.failed) = false ∧
      v.compareValues h sup.valuePart sub.valuePart = .ok false ∧ r = .fails) ∨
    ((sup.failed || sub.failed) = false ∧
      v.compareValues h sup.valuePart sub.valuePart = .ok true ∧
      compareErrors h (v.interpret sup) (v.interpret sub) = .ok r) := by
  rw [compareWith] at hr
  cases hf : sup.failed || sub.failed with
  | true => rw [hf] at hr; cases hr; exact Or.inl ⟨rfl, rfl⟩
  | false =>
      rw [hf, if_neg Bool.false_ne_true] at hr
      cases hc : v.compareValues h sup.valuePart sub.valuePart with
      | error f => rw [hc] at hr; cases hr
      | ok value =>
          rw [hc] at hr
          cases value with
          | false => cases hr; exact Or.inr (Or.inl ⟨rfl, rfl, rfl⟩)
          | true => exact Or.inr (Or.inr ⟨rfl, rfl, hr⟩)

/-! ## Sets that read the same get the same verdict -/

theorem isEmpty_filter {α : Type} (p : α → Bool) (l : List α) :
    (l.filter p).isEmpty = !l.any p := by
  rw [Bool.eq_iff_iff, List.isEmpty_iff, List.filter_eq_nil_iff]
  simp

theorem any_of_contains {l l' : List ErrorVar} (h : ∀ x, l.contains x = l'.contains x)
    {p : ErrorVar → Bool} (hp : ∀ x y, (x == y) = true → p x = p y) : l.any p = l'.any p := by
  have hto : ∀ {l l' : List ErrorVar}, (∀ x, l.contains x = l'.contains x) →
      l.any p = true → l'.any p = true := by
    intro l l' h hl
    obtain ⟨x, hx, hpx⟩ := List.any_eq_true.1 hl
    have hin : l'.contains x = true := by
      rw [← h]
      exact List.contains_iff_exists_mem_beq.2 ⟨x, hx, BEq.rfl⟩
    obtain ⟨y, hy, hxy⟩ := List.contains_iff_exists_mem_beq.1 hin
    exact List.any_eq_true.2 ⟨y, hy, hp x y hxy ▸ hpx⟩
  rw [Bool.eq_iff_iff]
  exact ⟨hto h, hto fun x => (h x).symm⟩

theorem isUnbounded_congr {x y : ErrorVar} (h : (x == y) = true) :
    x.bound.isUnbounded = y.bound.isUnbounded := by
  obtain ⟨_, bound, _⟩ := x
  obtain ⟨_, bound', _⟩ := y
  rw [ErrorVar.beq_iff_bare] at h
  cases bound <;> cases bound' <;> first | rfl | simp [ErrorVar.bare, Universe.bare] at h

/-- `Error` can only wait for a variable without bound. -/
theorem errorVerdict_of_universal {sup sub : Interpretation} (hsup : sup.known.universal = false)
    (hsub : sub.known.universal = true) : errorVerdict sup sub =
      if sup.flexible.any (fun x => x.bound.isUnbounded) then .pending else .fails := by
  rw [errorVerdict]
  cases hany : sup.flexible.any fun x => x.bound.isUnbounded with
  | false => simp [hsup, hsub]
  | true =>
      have hsome : sup.flexible.isEmpty = false := by
        cases hl : sup.flexible with
        | nil => rw [hl] at hany; cases hany
        | cons => rfl
      simp [hsup, hsub, hsome]

theorem errorVerdict_congr {sup sub sup' sub' : Interpretation} (hsup : SameErrors sup sup')
    (hsub : SameErrors sub sub') : errorVerdict sup sub = errorVerdict sup' sub' := by
  cases hu : sup.known.universal with
  | true =>
      have hu' : sup'.known.universal = true := hsup.universal ▸ hu
      rw [errorVerdict, errorVerdict, if_pos hu, if_pos hu']
  | false =>
      have hu' : sup'.known.universal = false := hsup.universal ▸ hu
      have hopen : sup.flexible.any (fun x => x.bound.isUnbounded) =
          sup'.flexible.any fun x => x.bound.isUnbounded :=
        any_of_contains (hsup.waiting hu) fun _ _ => isUnbounded_congr
      cases hv : sub.known.universal with
      | true =>
          have hv' : sub'.known.universal = true := hsub.universal ▸ hv
          rw [errorVerdict_of_universal hu hv, errorVerdict_of_universal hu' hv', hopen]
      | false =>
          have hv' : sub'.known.universal = false := hsub.universal ▸ hv
          have hmissing : (missingOf sup.known sub.known).isEmpty =
              (missingOf sup'.known sub'.known).isEmpty := by
            rw [Bool.eq_iff_iff, isEmpty_missingOf, isEmpty_missingOf]
            have hleaves : ∀ a, leaves sup.known a = leaves sup'.known a := by
              intro a
              rw [Bool.eq_iff_iff, ← not_iff_not, Bool.not_eq_true, Bool.not_eq_true]
              exact ⟨leaves_mono fun b hb => (hsup.atoms hu b).symm.trans hb,
                leaves_mono fun b hb => (hsup.atoms hu b).trans hb⟩
            simp only [hsub.atoms hv, hleaves]
          have hnone : sup.flexible.isEmpty = sup'.flexible.isEmpty := by
            have hany := any_of_contains (p := fun _ => true) (hsup.waiting hu) fun _ _ _ => rfl
            cases hl : sup.flexible <;> cases hl' : sup'.flexible <;> simp_all
          have hflow : (sub.flexible.filter fun x => !sup.flexible.contains x).isEmpty =
              (sub'.flexible.filter fun x => !sup'.flexible.contains x).isEmpty := by
            have hany := any_of_contains (p := fun x => !sup'.flexible.contains x)
              (hsub.waiting hv) fun x y hxy => by
                rw [List.contains_eq_any_beq, List.contains_eq_any_beq,
                  any_congr_mem fun z _ => BEq.congr_left hxy]
            simp only [hsup.waiting hu, isEmpty_filter, hany]
          simp only [errorVerdict, hu, hu', hv, hv', hopen, hmissing, hnone, hflow]

end View

/-! ## Arguments that are rewritten -/

section Map

variable {R R' : Ty → Ty → Prop} {g : Ty → Ty}

/-- Whether a rewriting keeps which types of one list cover which of another. -/
def KeepsCovering (R R' : Ty → Ty → Prop) (g : Ty → Ty) (xs ys : List Ty) : Prop :=
  ∀ x ∈ xs, ∀ y ∈ ys, (R x y ↔ R' (g x) (g y)) ∧ (R y x ↔ R' (g y) (g x))

theorem argsCover_iff (hbeq : ∀ x y : Ty, (x == y) = true → R x y) {a : Atom} {xs ys : List Ty} :
    ArgsCover R a xs ys ↔ xs = [] ∨ ys = [] ∨ ArgsMatch R a xs ys := by
  constructor
  · intro h
    by_cases hlen : xs.length = ys.length
    · exact Or.inr (Or.inr (h.matches hbeq hlen))
    · rcases h with h | h | h | h
      · exact Or.inl h
      · exact Or.inr (Or.inl h)
      · have := congrArg List.length (Ty.list_beq_iff_respell.1 h)
        simp only [List.length_map] at this
        exact absurd this hlen
      · exact Or.inr (Or.inr h)
  · rintro (h | h | h)
    · exact Or.inl h
    · exact Or.inr (Or.inl h)
    · exact Or.inr (Or.inr (Or.inr h))

theorem ArgCovers.map_iff {v : Variance} {x y : Ty} (hxy : R x y ↔ R' (g x) (g y))
    (hyx : R y x ↔ R' (g y) (g x)) : ArgCovers R v x y ↔ ArgCovers R' v (g x) (g y) := by
  cases v with
  | covariant => exact hxy
  | contravariant => exact hyx
  | invariant => exact and_congr hxy hyx

theorem argsMatch_map_iff {a : Atom} {xs ys : List Ty} (hg : KeepsCovering R R' g xs ys) :
    ArgsMatch R a xs ys ↔ ArgsMatch R' a (xs.map g) (ys.map g) := by
  simp only [ArgsMatch, List.length_map, List.getElem?_map, Option.map_eq_some_iff]
  refine and_congr_right fun _ => ⟨?_, fun h i x y hx hy => ?_⟩
  · rintro h i _ _ ⟨x, hx, rfl⟩ ⟨y, hy, rfl⟩
    obtain ⟨hxy, hyx⟩ := hg x (List.mem_of_getElem? hx) y (List.mem_of_getElem? hy)
    exact (ArgCovers.map_iff hxy hyx).1 (h i x y hx hy)
  · obtain ⟨hxy, hyx⟩ := hg x (List.mem_of_getElem? hx) y (List.mem_of_getElem? hy)
    exact (ArgCovers.map_iff hxy hyx).2 (h i _ _ ⟨x, hx, rfl⟩ ⟨y, hy, rfl⟩)

theorem argsCover_map_iff (hbeq : ∀ x y : Ty, (x == y) = true → R x y)
    (hbeq' : ∀ x y : Ty, (x == y) = true → R' x y) {a : Atom} {xs ys : List Ty}
    (hg : KeepsCovering R R' g xs ys) :
    ArgsCover R a xs ys ↔ ArgsCover R' a (xs.map g) (ys.map g) := by
  rw [argsCover_iff hbeq, argsCover_iff hbeq', argsMatch_map_iff hg, List.map_eq_nil_iff,
    List.map_eq_nil_iff]

/-! ## Values that are rewritten -/

theorem valueCovers_con_iff (hbeq : ∀ x y : Ty, (x == y) = true → R x y) {c d : Con}
    {as bs : List Ty} : ValueCovers R (.con c as) (.con d bs) ↔
      (c = d ∧ as.length = bs.length ∧ ∀ e ∈ as.zip bs, R e.1 e.2 ∧ R e.2 e.1) ∨
        (as = [] ∧ bs = [] ∧ View.classAbove c d = true) := by
  constructor
  · intro h
    rcases h.of_con_right hbeq with h | h | ⟨as', h, hall⟩ | ⟨c', h, hbs, habove⟩ <;> cases h
    · exact Or.inl ⟨rfl, hall⟩
    · exact Or.inr ⟨rfl, hbs, habove⟩
  · rintro (⟨rfl, hlen, hall⟩ | ⟨rfl, rfl, habove⟩)
    · exact .con hlen hall
    · exact .subclass habove

theorem valueCovers_map_iff (hbeq : ∀ x y : Ty, (x == y) = true → R x y)
    (hbeq' : ∀ x y : Ty, (x == y) = true → R' x y)
    (hcon : ∀ c args, g (.con c args) = .con c (args.map g)) {x y : Ty}
    (hx : (∀ c as, x ≠ .con c as) → g x = x) (hy : (∀ c as, y ≠ .con c as) → g y = y)
    (hg : ∀ c as d bs, x = .con c as → y = .con d bs → KeepsCovering R R' g as bs) :
    ValueCovers R x y ↔ ValueCovers R' (g x) (g y) := by
  by_cases hxc : ∃ c as, x = .con c as
  · obtain ⟨c, as, rfl⟩ := hxc
    by_cases hyc : ∃ d bs, y = .con d bs
    · obtain ⟨d, bs, rfl⟩ := hyc
      have hkeep := hg c as d bs rfl rfl
      rw [hcon, hcon, valueCovers_con_iff hbeq, valueCovers_con_iff hbeq', List.map_eq_nil_iff,
        List.map_eq_nil_iff, List.length_map, List.length_map, List.zip_map]
      refine or_congr_left (and_congr_right fun _ => and_congr_right fun _ => ?_)
      simp only [List.mem_map, forall_exists_index, and_imp, forall_apply_eq_imp_iff₂, Prod.map]
      refine forall₂_congr fun e he => ?_
      obtain ⟨ha, hb⟩ := List.of_mem_zip he
      obtain ⟨hab, hba⟩ := hkeep e.1 ha e.2 hb
      exact and_congr hab hba
    · -- A constructor covers only constructors, `Nothing` and what failed.
      push Not at hyc
      rw [hcon, hy hyc]
      constructor
      all_goals
        intro h
        rcases h.of_con_left (by assumption) with rfl | rfl | ⟨cs, rfl, _⟩ | ⟨d, rfl, _⟩
        · exact .failedSub
        · exact .nothing
        · exact absurd rfl (hyc _ cs)
        · exact absurd rfl (hyc d [])
  · push Not at hxc
    by_cases hyc : ∃ d bs, y = .con d bs
    · obtain ⟨d, bs, rfl⟩ := hyc
      rw [hcon, hx hxc]
      constructor
      all_goals
        intro h
        rcases h.of_con_right (by assumption) with rfl | rfl | ⟨cs, rfl, _⟩ | ⟨c, rfl, _⟩
        · exact .failedSup
        · exact .value
        · exact absurd rfl (hxc _ cs)
        · exact absurd rfl (hxc c [])
    · push Not at hyc
      rw [hx hxc, hy hyc]
      constructor
      all_goals exact fun h => h.imp fun c as _ _ he => absurd he (hxc c as)

/-! ## Errors that are rewritten -/

/-- Whether one set has the arguments of another, rewritten, and no others. -/
structure Carried (g : Ty → Ty) (K K' : ErrorSet) : Prop where
  kept : ∀ a xs, (a, xs) ∈ K.entries → xs ≠ [] → (a, xs.map g) ∈ K'.entries
  made : ∀ a ys, (a, ys) ∈ K'.entries → ys ≠ [] → ∃ xs, (a, xs) ∈ K.entries ∧ ys = xs.map g

theorem clash_map_iff (hbeq : ∀ x y : Ty, (x == y) = true → R x y)
    (hbeq' : ∀ x y : Ty, (x == y) = true → R' x y) {sup sub sup' sub' : Interpretation}
    (huniv : sup.known.universal = sup'.known.universal)
    (hsup : Carried g sup.known sup'.known) (hsub : Carried g sub.known sub'.known)
    (hg : ∀ a xs b ys, (a, xs) ∈ sup.known.entries → (b, ys) ∈ sub.known.entries →
      KeepsCovering R R' g xs ys) : Clash R sup sub ↔ Clash R' sup' sub' := by
  rw [Clash, Clash, huniv]
  refine and_congr_right fun _ => ⟨?_, ?_⟩
  · rintro ⟨a, xs, b, ys, ha, hb, hab, hno⟩
    have hxs : xs ≠ [] := fun h => hno (Or.inl h)
    have hys : ys ≠ [] := fun h => hno (Or.inr (Or.inl h))
    rw [argsCover_map_iff hbeq hbeq' (hg a xs b ys ha hb)] at hno
    exact ⟨a, _, b, _, hsup.kept a xs ha hxs, hsub.kept b ys hb hys, hab, hno⟩
  · rintro ⟨a, xs', b, ys', ha', hb', hab, hno⟩
    obtain ⟨xs, ha, rfl⟩ := hsup.made a xs' ha' fun h => hno (Or.inl h)
    obtain ⟨ys, hb, rfl⟩ := hsub.made b ys' hb' fun h => hno (Or.inr (Or.inl h))
    rw [← argsCover_map_iff hbeq hbeq' (hg a xs b ys ha hb)] at hno
    exact ⟨a, xs, b, ys, ha, hb, hab, hno⟩

end Map

/-! ## Rewritings that keep all verdicts -/

/-- A step that keeps all that decides a verdict, from types read in one view to
types read in another. -/
structure Faithful (Q : Ty → Prop) (v v' : View) (g : Ty → Ty) : Prop where
  failed : ∀ {t}, Q t → (g t).failed = t.failed
  value : ∀ {t}, Q t → t.failed = false → (g t).valuePart = g t.valuePart
  con : ∀ c args, g (.con c args) = .con c (args.map g)
  other : ∀ t : Ty, (∀ c args, t.valuePart ≠ .con c args) → g t.valuePart = t.valuePart
  errors : ∀ {t}, Q t → t.failed = false → SameErrors (v.interpret t) (v'.interpret (g t))
  carried : ∀ {t}, Q t → t.failed = false →
    Carried g (v.interpret t).known (v'.interpret (g t)).known
  arg : ∀ {t c args}, Q t → t.valuePart = .con c args → ∀ a ∈ args, Q a
  payload : ∀ {t a args}, Q t → (a, args) ∈ (v.interpret t).known.entries → ∀ x ∈ args, Q x

section Verdict

variable {Q : Ty → Prop} {v v' : View} {g : Ty → Ty}

theorem View.Shallow.compareValues_iff (hv : v.Shallow) (ho : v.order = .classes) (x y : Ty) :
    v.compareValues v.holds x y = .ok true ↔
      ValueCovers (fun a b => v.holds a b = .ok true) x y := by
  have hspared : ∀ t : Ty, ∀ name ∈ t.projections, v.bindings.contains name = false := by
    intro t name _
    rw [hv.unbound]
    rfl
  exact View.compareValues_iff ho v.holds (hspared x) (hspared y)

/-- One level of the comparison gives one verdict before and after the step, if
smaller types compare the same. -/
theorem Faithful.level (hg : Faithful Q v v' g) (hv : v.Shallow) (hv' : v'.Shallow)
    (ho : v.order = .classes) (ho' : v'.order = .classes) {x y : Ty} (hx : Q x) (hy : Q y)
    (hkeep : ∀ {a b}, a.size < x.size → b.size < y.size → Q a → Q b →
      (v.holds a b = .ok true ↔ v'.holds (g a) (g b) = .ok true) ∧
        (v.holds b a = .ok true ↔ v'.holds (g b) (g a) = .ok true)) :
    v.compareWith v.holds x y = v'.compareWith v'.holds (g x) (g y) := by
  have hbeq := fun a b : Ty => View.holds_of_beq hv ho (a := a) (b := b)
  have hbeq' := fun a b : Ty => View.holds_of_beq hv' ho' (a := a) (b := b)
  obtain ⟨r, hr⟩ := View.compareWith_holds_answers hv x y
  obtain ⟨r', hr'⟩ := View.compareWith_holds_answers hv' (g x) (g y)
  have hfailed : ((g x).failed || (g y).failed) = (x.failed || y.failed) := by
    rw [hg.failed hx, hg.failed hy]
  rw [hr, hr', Except.ok.injEq]
  rcases View.compareWith_answer hr with ⟨hf, rfl⟩ | hcase
  · rcases View.compareWith_answer hr' with ⟨-, rfl⟩ | ⟨hf', -⟩ | ⟨hf', -⟩
    · rfl
    all_goals rw [hfailed, hf] at hf'; cases hf'
  have hf : (x.failed || y.failed) = false := hcase.elim And.left And.left
  obtain ⟨hfx, hfy⟩ := Bool.or_eq_false_iff.1 hf
  have hvalue : v.compareValues v.holds x.valuePart y.valuePart = .ok true ↔
      v'.compareValues v'.holds (g x).valuePart (g y).valuePart = .ok true := by
    rw [hv.compareValues_iff ho, hv'.compareValues_iff ho', hg.value hx hfx, hg.value hy hfy]
    refine valueCovers_map_iff hbeq hbeq' hg.con (hg.other x) (hg.other y) ?_
    intro c as d bs hc hd a ha b hb
    exact hkeep (View.size_arg_lt hc ha) (View.size_arg_lt hd hb) (hg.arg hx hc a ha)
      (hg.arg hy hd b hb)
  have hclash : Clash (fun a b => v.holds a b = .ok true) (v.interpret x) (v.interpret y) ↔
      Clash (fun a b => v'.holds a b = .ok true) (v'.interpret (g x)) (v'.interpret (g y)) := by
    refine clash_map_iff hbeq hbeq' (hg.errors hx hfx).universal (hg.carried hx hfx)
      (hg.carried hy hfy) ?_
    intro a xs b ys ha hb p hp q hq
    exact hkeep (hv.below x _ ha p hp) (hv.below y _ hb q hq) (hg.payload hx ha p hp)
      (hg.payload hy hb q hq)
  rcases hcase with ⟨-, hno, rfl⟩ | ⟨-, hyes, herrors⟩
  · rcases View.compareWith_answer hr' with ⟨hf', -⟩ | ⟨-, -, rfl⟩ | ⟨-, hyes', -⟩
    · rw [hfailed, hf] at hf'; cases hf'
    · rfl
    · rw [hvalue.2 hyes'] at hno; cases hno
  · rcases View.compareWith_answer hr' with ⟨hf', -⟩ | ⟨-, hno', -⟩ | ⟨-, -, herrors'⟩
    · rw [hfailed, hf] at hf'; cases hf'
    · rw [hvalue.1 hyes] at hno'; cases hno'
    · obtain ⟨hyesClash, hnoClash⟩ :=
        View.compareErrors_answer (View.distinct_interpretWith _ x) herrors
      obtain ⟨hyesClash', hnoClash'⟩ :=
        View.compareErrors_answer (View.distinct_interpretWith _ (g x)) herrors'
      by_cases hc : Clash (fun a b => v.holds a b = .ok true) (v.interpret x) (v.interpret y)
      · rw [hyesClash hc, hyesClash' (hclash.1 hc)]
      · rw [hnoClash hc, hnoClash' fun hc' => hc (hclash.2 hc')]
        exact View.errorVerdict_congr (hg.errors hx hfx) (hg.errors hy hfy)

/-- A faithful step keeps every verdict. -/
theorem Faithful.compareWith_eq (hg : Faithful Q v v' g) (hv : v.Shallow) (hv' : v'.Shallow)
    (ho : v.order = .classes) (ho' : v'.order = .classes) {x y : Ty} (hx : Q x) (hy : Q y) :
    v.compareWith v.holds x y = v'.compareWith v'.holds (g x) (g y) := by
  -- Arguments turn round under a contravariant parameter, so the induction is on both sizes.
  suffices hall : ∀ n, ∀ {x y : Ty}, x.size + y.size < n → Q x → Q y →
      v.compareWith v.holds x y = v'.compareWith v'.holds (g x) (g y) from
    hall _ (Nat.lt_succ_self _) hx hy
  intro n
  induction n with
  | zero => intro x y hn; omega
  | succ n ih =>
      intro x y hn hx hy
      have hholds : ∀ {a b : Ty}, a.size + b.size < n → Q a → Q b →
          v.holds a b = v'.holds (g a) (g b) := by
        intro a b hab ha hb
        rw [View.holds_eq hv, View.holds_eq hv', ih hab ha hb]
      refine hg.level hv hv' ho ho' hx hy fun hax hby ha hb => ?_
      rw [hholds (by omega) ha hb, hholds (by omega) hb ha]
      exact ⟨Iff.rfl, Iff.rfl⟩

end Verdict

/-! ## The engine -/

/-- An engine that leaves no traces answers what its view does. -/
theorem Engine.check_unbound {e : Engine} (hb : e.bindings = none) (ho : e.obligations = none)
    (sup sub : Ty) (location : Location) :
    (e.check sup sub location).1 = e.view.compareWith e.view.holds sup sub := by
  rw [check, View.compareWith]
  split
  · rfl
  · rw [compareValues_unbound hb]
    cases e.view.compareValues e.view.holds sup.valuePart sub.valuePart with
    | error f => rfl
    | ok value =>
        cases value with
        | false => rfl
        | true =>
            show (e.compareErrors sup sub location).1 = View.compareErrors e.view.holds _ _
            rw [compareErrors, ho]
            split <;> simp_all

end Fallible
