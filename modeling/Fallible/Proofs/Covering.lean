import Fallible.Proofs.Errors
import Fallible.Subtyping.Answer

/-!
# What it means that a type covers another

For types whose classifiers have no arguments, and none of whose projections is
bound, a comparison can be read as a relation. Either type failed to check; or
the value part covers the value part, and the errors are included. Value parts
are related by a handful of rules, the only recursive one being that for the
same constructor: its arguments must cover each other both ways.

The depth to which the comparison is made does not show in this reading, because
arguments are smaller than the types they stand in. So `Covers` satisfies its
own unfolding, `covers_iff`, and what is to be proved of it follows by induction
on sizes. The first result of that kind is that a comparison which holds while
nothing is solved holds under every solution.
-/

namespace Fallible

/-! ## Types that bindings leave alone -/

namespace Ty

/-- Whether the type has no arguments on classifiers and no bound projection. -/
structure Tame (b : Bindings) (t : Ty) : Prop where
  free : t.payloadFree = true
  spared : ∀ name ∈ t.projections, b.contains name = false

theorem Tame.valuePart {b : Bindings} {t : Ty} (h : t.Tame b) : t.valuePart.Tame b :=
  ⟨payloadFree_valuePart h.free, fun _ hn => h.spared _ (projections_valuePart hn)⟩

theorem Tame.arg {b : Bindings} {c : Con} {args : List Ty} (h : (Ty.con c args).Tame b)
    {a : Ty} (ha : a ∈ args) : a.Tame b := by
  refine ⟨payloadFreeAll_iff.1 h.free a ha, fun name hn => h.spared name ?_⟩
  exact mem_projectionsAll.2 ⟨a, ha, hn⟩

end Ty

/-! ## Values -/

/-- Whether a value covers another, given which types cover which. -/
inductive ValueCovers (R : Ty → Ty → Prop) : Ty → Ty → Prop
  | same {x y : Ty} : (x == y) = true → ValueCovers R x y
  | failedSup {y : Ty} : ValueCovers R .erroneous y
  | failedSub {x : Ty} : ValueCovers R x .erroneous
  | nothing {x : Ty} : ValueCovers R x .nothing
  | value {y : Ty} : ValueCovers R .value y
  | con {c : Con} {as bs : List Ty} : as.length = bs.length →
      (∀ e ∈ as.zip bs, R e.1 e.2 ∧ R e.2 e.1) → ValueCovers R (.con c as) (.con c bs)
  | subclass {c d : Con} : View.classAbove c d = true → ValueCovers R (.con c []) (.con d [])

/-- A relation may be exchanged for another that holds of the arguments. -/
theorem ValueCovers.imp {R S : Ty → Ty → Prop} {x y : Ty} (h : ValueCovers R x y)
    (himp : ∀ c as d bs, x = .con c as → y = .con d bs → ∀ a ∈ as, ∀ b ∈ bs,
      (R a b → S a b) ∧ (R b a → S b a)) : ValueCovers S x y := by
  cases h with
  | same h => exact .same h
  | failedSup => exact .failedSup
  | failedSub => exact .failedSub
  | nothing => exact .nothing
  | value => exact .value
  | subclass h => exact .subclass h
  | con hlen hargs =>
      refine .con hlen fun e he => ?_
      obtain ⟨ha, hb⟩ := List.of_mem_zip he
      obtain ⟨h₁, h₂⟩ := himp _ _ _ _ rfl rfl e.1 ha e.2 hb
      exact ⟨h₁ (hargs e he).1, h₂ (hargs e he).2⟩

theorem ValueCovers.congr {R S : Ty → Ty → Prop} {x y : Ty}
    (h : ∀ c as d bs, x = .con c as → y = .con d bs → ∀ a ∈ as, ∀ b ∈ bs,
      (R a b ↔ S a b) ∧ (R b a ↔ S b a)) : ValueCovers R x y ↔ ValueCovers S x y := by
  constructor
  · intro hc
    exact hc.imp fun c as d bs hx hy a ha b hb =>
      ⟨(h c as d bs hx hy a ha b hb).1.1, (h c as d bs hx hy a ha b hb).2.1⟩
  · intro hc
    exact hc.imp fun c as d bs hx hy a ha b hb =>
      ⟨(h c as d bs hx hy a ha b hb).1.2, (h c as d bs hx hy a ha b hb).2.2⟩

namespace View

theorem argsAgree_iff (h : Comparison) (as bs : List Ty) :
    argsAgree h as bs = .ok true ↔
      as.length = bs.length ∧ ∀ e ∈ as.zip bs, h e.1 e.2 = .ok true ∧ h e.2 e.1 = .ok true := by
  induction as generalizing bs with
  | nil => cases bs <;> simp [argsAgree, pure, Except.pure]
  | cons a as ih =>
      cases bs with
      | nil => simp [argsAgree, pure, Except.pure]
      | cons b bs =>
          have hstep : argsAgree h (a :: as) (b :: bs) = .ok true ↔
              h a b = .ok true ∧ h b a = .ok true ∧ argsAgree h as bs = .ok true := by
            rw [argsAgree, Payload.coversArg]
            cases h₁ : h a b with
            | error f => simp [bind, Except.bind]
            | ok b₁ =>
                cases b₁ with
                | false => simp [bind, Except.bind, pure, Except.pure]
                | true =>
                    cases h₂ : h b a with
                    | error f => simp [bind, Except.bind]
                    | ok b₂ => cases b₂ <;> simp [bind, Except.bind, pure, Except.pure]
          rw [hstep, ih]
          simp only [List.length_cons, Nat.add_right_cancel_iff, List.zip_cons_cons,
            List.mem_cons, forall_eq_or_imp]
          constructor
          · rintro ⟨h₁, h₂, hlen, hall⟩; exact ⟨hlen, ⟨h₁, h₂⟩, hall⟩
          · rintro ⟨hlen, ⟨h₁, h₂⟩, hall⟩; exact ⟨h₁, h₂, hlen, hall⟩

theorem classesRelate_iff (h : Comparison) (c d : Con) (as bs : List Ty) :
    classesRelate h c as d bs = .ok true ↔
      (c = d ∧ as.length = bs.length ∧
        ∀ e ∈ as.zip bs, h e.1 e.2 = .ok true ∧ h e.2 e.1 = .ok true) ∨
      (c ≠ d ∧ classAbove c d = true ∧ as = [] ∧ bs = []) := by
  unfold classesRelate
  by_cases hcd : c = d
  · rw [if_pos (by simp [hcd])]
    by_cases hlen : as.length = bs.length
    · rw [if_neg (by simp [hlen]), argsAgree_iff]
      simp [hcd]
    · rw [if_pos (by simp [hlen])]
      simp [hcd, hlen, pure, Except.pure]
  · rw [if_neg (by simp [hcd])]
    simp [hcd, pure, Except.pure, Bool.and_eq_true, and_assoc]

theorem bindable?_nothing_free (t : Ty) : bindable? (fun _ => false) t = none := by
  cases t with
  | valueProj name flexible => cases flexible <;> rfl
  | _ => rfl

theorem valueStep_nothing_free (x y : Ty) :
    valueStep (fun _ => false) x y =
      if x == y || x.isErroneous || y.isErroneous then .decided true
      else latticeStep x y := by
  unfold valueStep
  rw [bindable?_nothing_free, bindable?_nothing_free]

theorem valueStep_ne_bind (x y : Ty) (name : String) (t : Ty) :
    valueStep (fun _ => false) x y ≠ .bind name t := by
  intro hs
  rw [valueStep_nothing_free] at hs
  unfold latticeStep at hs
  split at hs
  · cases hs
  · split at hs <;> cases hs

/-- What the rules for values come down to, once constructors are compared. -/
def decide (h : Comparison) : ValueStep → Except Fault Bool
  | .decided answer => .ok answer
  | .bind _ _ => .ok true
  | .constructors c as d bs => classesRelate h c as d bs

theorem valueCovers_of_latticeStep {h : Comparison} {x y : Ty}
    (hd : decide h (latticeStep x y) = .ok true) :
    ValueCovers (fun a b => h a b = .ok true) x y := by
  unfold latticeStep at hd
  split at hd
  · exact .nothing
  · exact .value
  · cases hd
  · cases hd
  · next c as d bs =>
      rcases (classesRelate_iff h c d as bs).1 hd with ⟨rfl, hlen, hargs⟩ |
        ⟨_, habove, rfl, rfl⟩
      · exact .con hlen hargs
      · exact .subclass habove
  · cases hd

theorem latticeStep_of_valueCovers {h : Comparison} {x y : Ty}
    (hc : ValueCovers (fun a b => h a b = .ok true) x y)
    (hno : (x == y || x.isErroneous || y.isErroneous) = false) :
    decide h (latticeStep x y) = .ok true := by
  rw [Bool.or_eq_false_iff, Bool.or_eq_false_iff] at hno
  cases hc with
  | same he => rw [he] at hno; cases hno.1.1
  | failedSup => cases hno.1.2
  | failedSub => cases hno.2
  | nothing => cases x <;> rfl
  | value => cases y <;> rfl
  | con hlen hargs => exact (classesRelate_iff h _ _ _ _).2 (Or.inl ⟨rfl, hlen, hargs⟩)
  | @subclass c d habove =>
      refine (classesRelate_iff h _ _ _ _).2 ?_
      by_cases hcd : c = d
      · exact Or.inl ⟨hcd, rfl, fun e he => absurd he List.not_mem_nil⟩
      · exact Or.inr ⟨hcd, habove, rfl, rfl⟩

/-- Where nothing may be bound, comparing values is the relation. -/
theorem decide_valueStep_iff (h : Comparison) (x y : Ty) :
    decide h (valueStep (fun _ => false) x y) = .ok true ↔
      ValueCovers (fun a b => h a b = .ok true) x y := by
  rw [valueStep_nothing_free]
  cases he : x == y || x.isErroneous || y.isErroneous with
  | true =>
      rw [if_pos rfl]
      refine ⟨fun _ => ?_, fun _ => rfl⟩
      rw [Bool.or_eq_true, Bool.or_eq_true] at he
      rcases he with (he | he) | he
      · exact .same he
      · cases x <;> first | exact .failedSup | cases he
      · cases y <;> first | exact .failedSub | cases he
  | false =>
      rw [if_neg Bool.false_ne_true]
      exact ⟨valueCovers_of_latticeStep, fun hc => latticeStep_of_valueCovers hc he⟩

/-- A projection that is not bound stands for itself. -/
theorem follow_of_spared {v : View} {t : Ty}
    (h : ∀ name ∈ t.projections, v.bindings.contains name = false) : v.follow t = .ok t := by
  cases t with
  | valueProj name flexible =>
      cases flexible with
      | false => rfl
      | true =>
          have hfree : v.bindings.table.get? name = none :=
            Table.get?_eq_none.2 (h name (by simp [Ty.projections]))
          show Bindings.unfoldWith _ (.valueProj name true) = _
          have himage : v.bindings.imageWithin v.bindings.table.size name = none := by
            cases v.bindings.table.size <;> simp [Bindings.imageWithin, hfree]
          simp [Bindings.unfoldWith, himage]
  | _ => rfl

/-- Comparing values is the relation between what they stand for. -/
theorem compareValues_iff_of_follow {v : View} (hv : v.order = .classes) (h : Comparison)
    {x y above below : Ty} (hx : v.follow x = .ok above) (hy : v.follow y = .ok below) :
    v.compareValues h x y = .ok true ↔
      ValueCovers (fun a b => h a b = .ok true) above below := by
  rw [← decide_valueStep_iff]
  unfold compareValues
  rw [hx, hy, hv]
  simp only [bind, Except.bind]
  cases hs : valueStep (fun _ => false) above below with
  | decided answer => rfl
  | constructors c as d bs => rfl
  | bind name t => exact absurd hs (valueStep_ne_bind above below name t)

theorem compareValues_iff {v : View} (hv : v.order = .classes) (h : Comparison) {x y : Ty}
    (hx : ∀ name ∈ x.projections, v.bindings.contains name = false)
    (hy : ∀ name ∈ y.projections, v.bindings.contains name = false) :
    v.compareValues h x y = .ok true ↔ ValueCovers (fun a b => h a b = .ok true) x y :=
  compareValues_iff_of_follow hv h (follow_of_spared hx) (follow_of_spared hy)

end View

/-! ## Types -/

/-- Whether `sup` covers `sub` by the classes of the host, under a solution and
with some projections bound. -/
def Covers (s : Solution) (b : Bindings) (sup sub : Ty) : Prop :=
  (View.mk .classes s b).holds sup sub = .ok true

/-- Whether the errors of `sup` cover those of `sub` under a solution. -/
def ErrorsCover (s : Solution) (sup sub : Ty) : Prop :=
  View.errorVerdict (View.interpretWith s sup) (View.interpretWith s sub) = .holds

namespace View

variable {s : Solution} {b : Bindings}

/-- All that one level of a comparison can answer. -/
theorem compareWith_ok (hs : s.PayloadFree) {h : Comparison} {sup sub : Ty}
    (hsup : sup.payloadFree = true) {r : Verdict}
    (hr : (View.mk .classes s b).compareWith h sup sub = .ok r) :
    ((sup.failed || sub.failed) = true ∧ r = .holds) ∨
    ((sup.failed || sub.failed) = false ∧
      (View.mk .classes s b).compareValues h sup.valuePart sub.valuePart = .ok true ∧
      r = errorVerdict (interpretWith s sup) (interpretWith s sub)) ∨
    ((sup.failed || sub.failed) = false ∧
      (View.mk .classes s b).compareValues h sup.valuePart sub.valuePart = .ok false ∧
      r = .fails) := by
  unfold compareWith at hr
  cases hf : sup.failed || sub.failed with
  | true =>
      rw [hf] at hr
      cases hr
      exact Or.inl ⟨rfl, rfl⟩
  | false =>
      rw [hf, if_neg Bool.false_ne_true] at hr
      cases hc : (View.mk .classes s b).compareValues h sup.valuePart sub.valuePart with
      | error f => rw [hc] at hr; cases hr
      | ok value =>
          rw [hc] at hr
          cases value with
          | false => cases hr; exact Or.inr (Or.inr ⟨rfl, rfl, rfl⟩)
          | true =>
              change compareErrors h (interpretWith s sup) (interpretWith s sub) = _ at hr
              rw [compareErrors_of_payloadFree h (payloadFree_interpretWith hs hsup)] at hr
              exact Or.inr (Or.inl ⟨rfl, rfl, (Except.ok.inj hr).symm⟩)

theorem compareWith_of_values (hs : s.PayloadFree) {h : Comparison} {sup sub : Ty}
    (hsup : sup.payloadFree = true) (hf : (sup.failed || sub.failed) = false)
    (hv : (View.mk .classes s b).compareValues h sup.valuePart sub.valuePart = .ok true) :
    (View.mk .classes s b).compareWith h sup sub =
      .ok (errorVerdict (interpretWith s sup) (interpretWith s sub)) := by
  unfold compareWith
  rw [hf, if_neg Bool.false_ne_true, hv]
  exact compareErrors_of_payloadFree h (payloadFree_interpretWith hs hsup) _

/-- One level of a comparison holds. -/
theorem compareWith_iff (hs : s.PayloadFree) (h : Comparison) {sup sub : Ty}
    (hsup : sup.Tame b) (hsub : sub.Tame b) :
    (View.mk .classes s b).compareWith h sup sub = .ok .holds ↔
      sup.failed = true ∨ sub.failed = true ∨
        ValueCovers (fun x y => h x y = .ok true) sup.valuePart sub.valuePart ∧
          ErrorsCover s sup sub := by
  rw [← compareValues_iff (v := View.mk .classes s b) rfl h hsup.valuePart.spared
    hsub.valuePart.spared, ← or_assoc, ← Bool.or_eq_true]
  constructor
  · intro hr
    rcases compareWith_ok hs hsup.free hr with ⟨hf, _⟩ | ⟨_, hv, he⟩ | ⟨_, _, he⟩
    · exact Or.inl hf
    · exact Or.inr ⟨hv, he.symm⟩
    · cases he
  · intro hr
    cases hf : sup.failed || sub.failed with
    | true => unfold compareWith; rw [hf]; rfl
    | false =>
        rw [hf] at hr
        obtain ⟨hv, he⟩ := hr.resolve_left Bool.false_ne_true
        rw [compareWith_of_values hs hsup.free hf hv, he]

theorem holdsWithin_succ_iff (hs : s.PayloadFree) (n : Nat) {sup sub : Ty}
    (hsup : sup.Tame b) (hsub : sub.Tame b) :
    (View.mk .classes s b).holdsWithin (n + 1) sup sub = .ok true ↔
      sup.failed = true ∨ sub.failed = true ∨
        ValueCovers (fun x y => (View.mk .classes s b).holdsWithin n x y = .ok true)
          sup.valuePart sub.valuePart ∧ ErrorsCover s sup sub := by
  rw [← compareWith_iff hs _ hsup hsub, holdsWithin]
  cases (View.mk .classes s b).compareWith ((View.mk .classes s b).holdsWithin n) sup sub with
  | error f => simp [bind, Except.bind]
  | ok r => cases r <;> simp [bind, Except.bind, pure, Except.pure]

/-- Arguments are smaller than the types whose value part they stand in. -/
theorem size_arg_lt {t : Ty} {c : Con} {args : List Ty} (h : t.valuePart = .con c args)
    {a : Ty} (ha : a ∈ args) : a.size < t.size := by
  have h₁ := t.size_valuePart_le
  have h₂ := Ty.size_le_sizeAll ha
  rw [h, Ty.size] at h₁
  omega

/-- The depth does not show once it exceeds the sizes. -/
theorem holdsWithin_congr (hs : s.PayloadFree) :
    ∀ (n m : Nat) {sup sub : Ty}, sup.Tame b → sub.Tame b → sup.size + sub.size < n →
      sup.size + sub.size < m →
      ((View.mk .classes s b).holdsWithin n sup sub = .ok true ↔
        (View.mk .classes s b).holdsWithin m sup sub = .ok true) := by
  intro n
  induction n with
  | zero => intro m sup sub _ _ hn; omega
  | succ n ih =>
      intro m sup sub hsup hsub hn hm
      obtain ⟨m, rfl⟩ : ∃ k, m = k + 1 := ⟨m - 1, by omega⟩
      rw [holdsWithin_succ_iff hs n hsup hsub, holdsWithin_succ_iff hs m hsup hsub]
      rw [ValueCovers.congr]
      intro c as d bs hc hd x hx y hy
      have h₁ := size_arg_lt hc hx
      have h₂ := size_arg_lt hd hy
      have hxt : x.Tame b := (hc ▸ hsup.valuePart).arg hx
      have hyt : y.Tame b := (hd ▸ hsub.valuePart).arg hy
      exact ⟨ih m hxt hyt (by omega) (by omega), ih m hyt hxt (by omega) (by omega)⟩

end View

/-- What it means that a type covers another. -/
theorem covers_iff {s : Solution} {b : Bindings} (hs : s.PayloadFree) {sup sub : Ty}
    (hsup : sup.Tame b) (hsub : sub.Tame b) :
    Covers s b sup sub ↔
      sup.failed = true ∨ sub.failed = true ∨
        ValueCovers (Covers s b) sup.valuePart sub.valuePart ∧ ErrorsCover s sup sub := by
  have hdepth : ∀ x y : Ty, x.size + y.size < (View.mk .classes s b).depth x y := by
    intro x y
    unfold View.depth
    omega
  unfold Covers View.holds
  obtain ⟨n, hn⟩ : ∃ n, (View.mk .classes s b).depth sup sub = n + 1 :=
    ⟨_, rfl⟩
  have hlt := hdepth sup sub
  rw [hn] at hlt ⊢
  rw [View.holdsWithin_succ_iff hs n hsup hsub]
  rw [ValueCovers.congr (S := Covers s b)]
  · rfl
  · intro c as d bs hc hd x hx y hy
    have h₁ := View.size_arg_lt hc hx
    have h₂ := View.size_arg_lt hd hy
    have hxt : x.Tame b := (hc ▸ hsup.valuePart).arg hx
    have hyt : y.Tame b := (hd ▸ hsub.valuePart).arg hy
    exact ⟨View.holdsWithin_congr hs _ _ hxt hyt (by omega) (hdepth x y),
      View.holdsWithin_congr hs _ _ hyt hxt (by omega) (hdepth y x)⟩

/-- What is compared of two types matters only if neither has failed. -/
theorem Ty.failed_or_imp {sup sub : Ty} {P P' : Prop}
    (h : sup.failed = true ∨ sub.failed = true ∨ P)
    (himp : sup.failed = false → sub.failed = false → P → P') :
    sup.failed = true ∨ sub.failed = true ∨ P' := by
  by_cases hsup : sup.failed = true
  · exact Or.inl hsup
  by_cases hsub : sub.failed = true
  · exact Or.inr (Or.inl hsub)
  have hp := (h.resolve_left hsup).resolve_left hsub
  rw [Bool.not_eq_true] at hsup hsub
  exact Or.inr (Or.inr (himp hsup hsub hp))

/-! ## Solving keeps what holds -/

/-- Errors that are covered while nothing is solved are covered under every
solution. -/
theorem ErrorsCover.solved {sup sub : Ty} (h : ErrorsCover .empty sup sub) (s : Solution) :
    ErrorsCover s sup sub := by
  unfold ErrorsCover at h ⊢
  rw [View.errorVerdict_holds_iff] at h ⊢
  have hmore : ∀ a, (View.interpretWith .empty sup).known.contains a = true →
      (View.interpretWith s sup).known.contains a = true := by
    intro a ha
    rw [View.contains_interpretWith_solved, ha, Bool.true_or]
  rw [View.universal_interpretWith_solved s sup, View.universal_interpretWith_solved s sub]
  rcases h with hall | ⟨⟨hnot, hatoms⟩, hflow⟩
  · rw [hall]
    exact Or.inl rfl
  · -- What waits on the right waits on the left, and brings there what it brings here.
    have hany : ∀ f : ErrorSet → Bool,
        ((View.interpretWith .empty sub).flexible.any fun x => (s.get? x).any f) = true →
        ((View.interpretWith .empty sup).flexible.any fun x => (s.get? x).any f) = true := by
      intro f hx
      obtain ⟨x, hx, hfx⟩ := List.any_eq_true.1 hx
      obtain ⟨y, hy, hxy⟩ := List.contains_iff_exists_mem_beq.1 (hflow x hx)
      rw [s.get?_congr hxy] at hfx
      exact List.any_eq_true.2 ⟨y, hy, hfx⟩
    rw [hnot, Bool.false_or]
    by_cases hall : ((View.interpretWith .empty sup).known.universal ||
        (View.interpretWith .empty sup).flexible.any
          fun x => (s.get? x).any fun set => set.universal) = true
    · exact Or.inl hall
    · refine Or.inr ⟨⟨?_, fun a ha => ?_⟩, fun x hx => ?_⟩
      · rw [Bool.or_eq_true, not_or] at hall
        exact Bool.eq_false_iff.2 fun hsub => hall.2 (hany _ hsub)
      · rw [View.contains_interpretWith_solved, Bool.or_eq_true] at ha
        rcases ha with ha | ha
        · exact View.leaves_mono hmore (hatoms a ha)
        · refine View.leaves_eq_false.2 (Or.inl ?_)
          rw [View.contains_interpretWith_solved, hany _ ha, Bool.or_true]
      · obtain ⟨hmem, hflex, hnone⟩ := View.mem_flexible_interpretWith.1 hx
        obtain ⟨y, hy, hxy⟩ := List.contains_iff_exists_mem_beq.1
          (hflow x (View.mem_flexible_interpretWith.2 ⟨hmem, hflex, rfl⟩))
        obtain ⟨hmem', hflex', _⟩ := View.mem_flexible_interpretWith.1 hy
        rw [s.get?_congr hxy] at hnone
        exact List.contains_iff_exists_mem_beq.2
          ⟨y, View.mem_flexible_interpretWith.2 ⟨hmem', hflex', hnone⟩, hxy⟩

theorem Solution.payloadFree_empty : Solution.empty.PayloadFree :=
  fun _ _ h => absurd h (by simp [Solution.get?, Solution.empty])

/-- A comparison that holds while nothing is solved holds under every solution
without arguments. -/
theorem Covers.solved {s : Solution} {b : Bindings} (hs : s.PayloadFree) :
    ∀ (n : Nat) {sup sub : Ty}, sup.size + sub.size < n → sup.Tame b → sub.Tame b →
      Covers .empty b sup sub → Covers s b sup sub := by
  intro n
  induction n with
  | zero => intro sup sub hn; omega
  | succ n ih =>
      intro sup sub hn hsup hsub h
      rw [covers_iff Solution.payloadFree_empty hsup hsub] at h
      rw [covers_iff hs hsup hsub]
      rcases h with h | h | ⟨hvalue, herrors⟩
      · exact Or.inl h
      · exact Or.inr (Or.inl h)
      · refine Or.inr (Or.inr ⟨hvalue.imp ?_, herrors.solved s⟩)
        intro c as d bs hc hd x hx y hy
        have h₁ := View.size_arg_lt hc hx
        have h₂ := View.size_arg_lt hd hy
        have hxt : x.Tame b := (hc ▸ hsup.valuePart).arg hx
        have hyt : y.Tame b := (hd ▸ hsub.valuePart).arg hy
        exact ⟨ih (by omega) hxt hyt, ih (by omega) hyt hxt⟩

end Fallible
