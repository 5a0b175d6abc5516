import Fallible.Proofs.Unfolding

/-!
# Comparisons that bind

A comparison of values looks at what the two come down to. If one of them is a
projection that is not bound, it is bound to the other, and from then on the two
cover each other. What is bound later does not spoil a comparison that holds:
where a value came down to the projection now bound, it was compared with
`Value` or `Nothing` or with itself, and in all other cases nothing changes but
the bindings under which arguments are compared, which have no part in it.
-/

namespace Fallible

/-! ## Comparisons of values keep holding -/

section Values

variable {known : ErrorVar → Prop} {b : Bindings}

/-- Arguments are compared through any rereading of them, whatever is bound. -/
theorem Covers.reread_args {s s' : Solution} (hs : s.PayloadFree) (hs' : s'.PayloadFree)
    {b b' : Bindings} {g g' : Ty → Ty}
    (hg : Rereads (Ty.Within (Ty.Unbindable known)) (Ty.Tame b') s s' g)
    (hg' : Rereads (Ty.Within (Ty.Unbindable known)) (Ty.Tame b') s s' g') {x y : Ty}
    (hx : x.Within (Ty.Unbindable known)) (hy : y.Within (Ty.Unbindable known))
    (h : Covers s b x y) : Covers s' b' (g x) (g' y) := by
  refine Covers.reread hs hs' (fun ht => ht.tame b) (fun ht => ht.flat) ?_ _ hg hg'
    (Nat.lt_succ_self _) hx hy h
  intro t c args ht hc a ha
  have hv := ht.valuePart (Ty.stable_unbindable known)
  rw [hc] at hv
  exact hv.arg ha

/-- Whether a value covers another, once bindings are followed. -/
def ValuesCover (b : Bindings) (x y : Ty) : Prop :=
  ValueCovers (Covers .empty b) (b.followed x) (b.followed y)

theorem Ty.eq_of_beq_valueProj {x : Ty} {name : String} {flexible : Bool}
    (h : (x == .valueProj name flexible) = true) : x = .valueProj name flexible := by
  rw [Ty.beq_iff] at h
  cases x with
  | valueProj => exact h
  | _ => cases h

theorem Bindings.Root.not_erroneous {x : Ty} (h : Bindings.Root known b x) : x ≠ .erroneous := by
  rintro rfl
  cases h.stem

theorem Bindings.Stem.args {c : Con} {args : List Ty} (h : Bindings.Stem known (.con c args)) :
    ∀ a ∈ args, a.Within (Ty.Unbindable known) := by
  cases h with
  | con _ hargs => exact hargs

/-- Leaving arguments as they are is a rereading. -/
theorem rereads_args (known : ErrorVar → Prop) (s : Solution) (b : Bindings) :
    Rereads (Ty.Within (Ty.Unbindable known)) (Ty.Tame b) s s fun t => t :=
  .id fun ht => ht.tame b

/-- Rereading the arguments of a constructor gives a value that covers the old
one and is covered by it. -/
theorem ValueCovers.con_map {c : Con} {args : List Ty} {g g' : Ty → Ty}
    (hargs : ∀ a ∈ args, a.Within (Ty.Unbindable known))
    (hg : Rereads (Ty.Within (Ty.Unbindable known)) (Ty.Tame b) .empty .empty g)
    (hg' : Rereads (Ty.Within (Ty.Unbindable known)) (Ty.Tame b) .empty .empty g') :
    ValueCovers (Covers .empty b) (.con c (args.map g)) (.con c (args.map g')) := by
  have hfree := Solution.payloadFree_empty
  refine ValueCovers.renders (R := Covers .empty b) (.same BEq.rfl) (.con c args) (.con c args) ?_
  intro _ _ _ _ hc hd a ha a' ha'
  cases hc
  cases hd
  exact ⟨Covers.reread_args hfree hfree hg hg' (hargs a ha) (hargs a' ha'),
    Covers.reread_args hfree hfree hg' hg (hargs a' ha') (hargs a ha),
    Covers.of_beq hfree ((hargs a ha).tame b) ((hargs a' ha').tame b)⟩

/-- A value covers what is left of it once its unions are opened up, and the
other way round. -/
theorem ValueCovers.reopened {x : Ty} (hx : Bindings.Stem known x) (b : Bindings) :
    ValueCovers (Covers .empty b) x.reopened x ∧ ValueCovers (Covers .empty b) x x.reopened := by
  cases hx with
  | value => exact ⟨.value, .value⟩
  | nothing => exact ⟨.nothing, .nothing⟩
  | proj name flexible => exact ⟨.same BEq.rfl, .same BEq.rfl⟩
  | @con c args hargs =>
      have hopen : Rereads (Ty.Within (Ty.Unbindable known)) (Ty.Tame b) .empty .empty
        Ty.reopened := Ty.rereads_reopened .empty fun ht => ht.tame b
      have hplain := rereads_args known .empty b
      have h₁ := ValueCovers.con_map (c := c) hargs hopen hplain
      have h₂ := ValueCovers.con_map (c := c) hargs hplain hopen
      rw [List.map_id'] at h₁ h₂
      rw [Ty.reopened, Ty.graft, Ty.graftAll_eq_map]
      exact ⟨h₁, h₂⟩

/-- A comparison of values that holds keeps holding when a projection is bound. -/
theorem ValuesCover.bind {name : String} {t : Ty} (hb : b.Grown known)
    (hnew : b.Binds known name t) {x y : Ty} (hx : Bindings.Stem known x)
    (hy : Bindings.Stem known y) (h : ValuesCover b x y) : ValuesCover (b.bind name t) x y := by
  have hrx := hb.followed hx
  have hry := hb.followed hy
  unfold ValuesCover at h ⊢
  rw [hb.followed_bind hnew hx, hb.followed_bind hnew hy]
  by_cases hxn : b.followed x = .valueProj name true
  · rw [hxn] at h ⊢
    rw [Bindings.swap_self]
    generalize b.followed y = z at h hry ⊢
    cases h with
    | same he =>
        rw [Ty.eq_of_beq_valueProj (BEq.symm he), Bindings.swap_self]
        exact .same BEq.rfl
    | failedSub => exact absurd rfl hry.not_erroneous
    | nothing => exact .nothing
  · rw [Bindings.swap_of_ne hxn]
    by_cases hyn : b.followed y = .valueProj name true
    · rw [hyn] at h ⊢
      generalize b.followed x = z at h hrx hxn ⊢
      cases h with
      | same he => exact absurd (Ty.eq_of_beq_valueProj he) hxn
      | failedSup => exact absurd rfl hrx.not_erroneous
      | value => exact .value
    · rw [Bindings.swap_of_ne hyn]
      refine h.imp fun c as d bs hc hd a ha a' ha' => ?_
      have hid := rereads_args known .empty (b.bind name t)
      have hqa := Bindings.Stem.args (hc ▸ hrx.stem) a ha
      have hqa' := Bindings.Stem.args (hd ▸ hry.stem) a' ha'
      exact ⟨Covers.reread_args Solution.payloadFree_empty Solution.payloadFree_empty hid hid
          hqa hqa',
        Covers.reread_args Solution.payloadFree_empty Solution.payloadFree_empty hid hid
          hqa' hqa⟩

end Values

/-! ## What a comparison of values binds -/

namespace View

theorem bindable?_eq_some {free : String → Bool} {x : Ty} {name : String}
    (h : bindable? free x = some name) : x = .valueProj name true ∧ free name = true := by
  unfold bindable? at h
  split at h
  · next n =>
      split at h
      · next hn => cases h; exact ⟨rfl, hn⟩
      · cases h
  · cases h

section Binds

variable {free : String → Bool} {x y t : Ty} {name : String}

theorem bindable?_valueProj (h : free name = true) :
    bindable? free (.valueProj name true) = some name := by
  rw [bindable?, if_pos h]

theorem bindable?_eq_none_iff :
    bindable? free x = none ↔ ∀ name, x = .valueProj name true → free name = false := by
  constructor
  · rintro h name rfl
    rw [bindable?] at h
    split at h
    · cases h
    · next hfree => exact Bool.eq_false_iff.2 hfree
  · intro h
    cases hb : bindable? free x with
    | none => rfl
    | some name =>
        obtain ⟨rfl, hfree⟩ := bindable?_eq_some hb
        rw [h name rfl] at hfree
        cases hfree

/-- When a step binds a projection. Of two that are free it is the one above. -/
theorem valueStep_eq_bind_iff : valueStep free x y = .bind name t ↔
    free name = true ∧ t ≠ .valueProj name true ∧ t.isErroneous = false ∧
      (x = .valueProj name true ∧ y = t ∨
        y = .valueProj name true ∧ x = t ∧
          ∀ above, t = .valueProj above true → free above = false) := by
  constructor
  · intro h
    unfold valueStep at h
    split at h
    · cases h
    · next hno =>
        rw [Bool.not_eq_true, Bool.or_eq_false_iff, Bool.or_eq_false_iff] at hno
        obtain ⟨⟨hne, hx⟩, hy⟩ := hno
        split at h
        · next n hb =>
            cases h
            obtain ⟨rfl, hfree⟩ := bindable?_eq_some hb
            refine ⟨hfree, ?_, hy, Or.inl ⟨rfl, rfl⟩⟩
            rintro rfl
            exact absurd BEq.rfl (Bool.eq_false_iff.1 hne)
        · next hnone =>
            split at h
            · next n hb =>
                cases h
                obtain ⟨rfl, hfree⟩ := bindable?_eq_some hb
                refine ⟨hfree, ?_, hx, Or.inr ⟨rfl, rfl, bindable?_eq_none_iff.1 hnone⟩⟩
                rintro rfl
                exact absurd BEq.rfl (Bool.eq_false_iff.1 hne)
            · unfold latticeStep at h
              split at h <;> cases h
  · rintro ⟨hfree, hother, hsound, ⟨rfl, rfl⟩ | ⟨rfl, rfl, hfirst⟩⟩
    · have hne : (Ty.valueProj name true == y) = false :=
        Bool.eq_false_iff.2 fun h => hother (Ty.eq_of_beq_valueProj (BEq.symm h))
      rw [valueStep, hne, hsound, if_neg (by simp [Ty.isErroneous]), bindable?_valueProj hfree]
    · have hne : (x == Ty.valueProj name true) = false :=
        Bool.eq_false_iff.2 fun h => hother (Ty.eq_of_beq_valueProj h)
      rw [valueStep, hne, hsound, if_neg (by simp [Ty.isErroneous]),
        bindable?_eq_none_iff.2 hfirst, bindable?_valueProj hfree]

/-- A step binds a projection to the other value, and to no value that is the
same. -/
theorem valueStep_bind (h : valueStep free x y = .bind name t) :
    free name = true ∧ t ≠ .valueProj name true ∧
      (x = .valueProj name true ∧ t = y ∨ y = .valueProj name true ∧ t = x) := by
  obtain ⟨hfree, hother, _, ⟨hx, hy⟩ | ⟨hy, hx, _⟩⟩ := valueStep_eq_bind_iff.1 h
  · exact ⟨hfree, hother, Or.inl ⟨hx, hy.symm⟩⟩
  · exact ⟨hfree, hother, Or.inr ⟨hy, hx.symm⟩⟩

end Binds

theorem valueStep_decided {free : String → Bool} {x y : Ty}
    (h : valueStep free x y = .decided true) (R : Ty → Ty → Prop) : ValueCovers R x y := by
  unfold valueStep at h
  split at h
  · next heq =>
      rw [Bool.or_eq_true, Bool.or_eq_true] at heq
      rcases heq with (heq | heq) | heq
      · exact .same heq
      · cases x <;> first | exact .failedSup | cases heq
      · cases y <;> first | exact .failedSub | cases heq
  · split at h
    · cases h
    · split at h
      · cases h
      · unfold latticeStep at h
        split at h
        · exact .nothing
        · exact .value
        · cases h
        · cases h
        · cases h
        · cases h

end View

/-- Whether a comparison of values may leave `b'` where it found `b`. -/
def Bindings.Step (known : ErrorVar → Prop) (b b' : Bindings) : Prop :=
  b' = b ∨ ∃ name t, b.Binds known name t ∧ b' = b.bind name t

section Step

variable {known : ErrorVar → Prop} {b b' : Bindings}

theorem Bindings.Grown.step (hb : b.Grown known) (h : b.Step known b') : b'.Grown known := by
  rcases h with rfl | ⟨name, t, hnew, rfl⟩
  · exact hb
  · exact hb.bind hnew

theorem ValuesCover.step (hb : b.Grown known) (hstep : b.Step known b') {x y : Ty}
    (hx : Bindings.Stem known x) (hy : Bindings.Stem known y) (h : ValuesCover b x y) :
    ValuesCover b' x y := by
  rcases hstep with rfl | ⟨name, t, hnew, rfl⟩
  · exact h
  · exact h.bind hb hnew hx hy

/-- Binding a projection to a value makes the two cover each other. -/
theorem ValuesCover.of_bind {name : String} {t : Ty} (hb : b.Grown known)
    (hnew : b.Binds known name t) {x y : Ty} (hx : Bindings.Stem known x)
    (hy : Bindings.Stem known y)
    (h : b.followed x = .valueProj name true ∧ t = b.followed y ∨
      b.followed y = .valueProj name true ∧ t = b.followed x) :
    ValuesCover (b.bind name t) x y := by
  have hopen := ValueCovers.reopened hnew.root.stem (b.bind name t)
  unfold ValuesCover
  rw [hb.followed_bind hnew hx, hb.followed_bind hnew hy]
  rcases h with ⟨hxn, ht⟩ | ⟨hyn, ht⟩
  · rw [hxn, Bindings.swap_self, ← ht, Bindings.swap_of_ne hnew.other]
    exact hopen.1
  · rw [hyn, Bindings.swap_self, ← ht, Bindings.swap_of_ne hnew.other]
    exact hopen.2

/-- All that a comparison of values can do. -/
theorem Engine.compareValues_grown {obligations : Option (List Constraint)}
    (hb : b.Grown known) {x y : Ty} (hx : Bindings.Stem known x) (hy : Bindings.Stem known y)
    {r : Except Fault Bool} {e : Engine}
    (h : (Engine.mk .classes .empty (some b) obligations).compareValues x y = (r, e)) :
    ∃ b', e = Engine.mk .classes .empty (some b') obligations ∧ b.Step known b' ∧
      (r = .ok true → ValuesCover b' x y) := by
  unfold Engine.compareValues at h
  have hfollow : ∀ t, (Engine.mk .classes .empty (some b) obligations).view.follow t =
      .ok (b.followed t) := fun t => Bindings.Grown.follow hb t
  rw [hfollow, hfollow] at h
  cases hs : View.valueStep (Engine.mk .classes .empty (some b) obligations).isFree
      (b.followed x) (b.followed y) with
  | decided answer =>
      simp only [hs] at h
      cases h
      refine ⟨b, rfl, Or.inl rfl, fun hr => ?_⟩
      cases hr
      exact View.valueStep_decided hs _
  | bind name t =>
      simp only [hs] at h
      cases h
      obtain ⟨hfree, hother, hsides⟩ := View.valueStep_bind hs
      have hnew : b.Binds known name t := by
        refine ⟨by simpa [Engine.isFree] using hfree, ?_, hother⟩
        rcases hsides with ⟨_, rfl⟩ | ⟨_, rfl⟩
        · exact hb.followed hy
        · exact hb.followed hx
      exact ⟨b.bind name t, rfl, Or.inr ⟨name, t, hnew, rfl⟩,
        fun _ => .of_bind hb hnew hx hy hsides⟩
  | constructors c as d bs =>
      simp only [hs] at h
      cases h
      obtain ⟨hc, hd⟩ := View.valueStep_constructors hs
      refine ⟨b, rfl, Or.inl rfl, fun hr => ?_⟩
      unfold ValuesCover
      rw [hc, hd]
      rcases (View.classesRelate_iff _ c d as bs).1 hr with ⟨rfl, hlen, hargs⟩ |
        ⟨_, habove, rfl, rfl⟩
      · exact .con hlen hargs
      · exact .subclass habove

end Step

end Fallible
