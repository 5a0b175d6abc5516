import Fallible.Subtyping.Depth

/-!
# Shallow comparisons have an answer

Where nothing is bound and no solved set has arguments, the depth that
`View.holds` takes is always enough. Every argument that a level of the
comparison asks about is a proper part of one of the two types, so their sizes
bound the number of levels. Such a view is called shallow; the plain view, in
which nothing is solved either, is one.

Main statements: in a shallow view every two types can be compared, and `holds`
says what one level over `holds` says, so no statement about shallow comparisons
has to speak of depth. In the plain view the answer is `isSubtype`.
-/

namespace Fallible

/-- The comparison has an answer for types of a total size below `n`. -/
def Comparison.AnswersBelow (h : Comparison) (n : Nat) : Prop :=
  ∀ a b, a.size + b.size < n → ∃ r, h a b = .ok r

/-- The comparison has an answer for any two types of the lists, either way
round. -/
def Comparison.AnswersOn (h : Comparison) (as bs : List Ty) : Prop :=
  ∀ a ∈ as, ∀ b ∈ bs, (∃ r, h a b = .ok r) ∧ ∃ r, h b a = .ok r

theorem Comparison.AnswersOn.mono {h : Comparison} {as bs as' bs' : List Ty}
    (hab : h.AnswersOn as bs) (has : as' ⊆ as) (hbs : bs' ⊆ bs) : h.AnswersOn as' bs' :=
  fun a ha b hb => hab a (has ha) b (hbs hb)

theorem Comparison.AnswersBelow.on {h : Comparison} {n : Nat} (hn : h.AnswersBelow n)
    {as bs : List Ty} (hab : ∀ a ∈ as, ∀ b ∈ bs, a.size + b.size < n) : h.AnswersOn as bs := by
  intro a ha b hb
  have := hab a ha b hb
  exact ⟨hn a b this, hn b a (by omega)⟩

/-! ## Sizes -/

theorem Ty.size_le_sizeAll {a : Ty} {as : List Ty} (h : a ∈ as) : a.size ≤ sizeAll as := by
  induction as with
  | nil => cases h
  | cons x xs ih =>
      rw [sizeAll]
      cases List.mem_cons.1 h with
      | inl e => subst e; omega
      | inr hx => have := ih hx; omega

theorem Ty.size_le_of_mem_constituents {m : Ty} (t : Ty) (h : m ∈ t.constituents) :
    m.size ≤ t.size := by
  induction t with
  | union ms ih =>
      rw [constituents, constituentsAll_eq_flatMap, List.mem_flatMap] at h
      obtain ⟨x, hx, hm⟩ := h
      have hle := ih x hx hm
      have hall := size_le_sizeAll hx
      rw [size]
      omega
  | nothing => simp [constituents] at h
  | any | var name flexible =>
      simp only [constituents, List.mem_cons, List.not_mem_nil, or_false] at h
      rcases h with rfl | rfl <;> simp [size]
  | _ =>
      simp only [constituents, List.mem_singleton] at h
      exact Nat.le_of_eq (congrArg size h)

theorem Ty.one_le_size (t : Ty) : 1 ≤ t.size := by
  cases t <;> simp [size]

theorem Ty.size_valuePart_le (t : Ty) : t.valuePart.size ≤ t.size := by
  unfold valuePart
  cases h : t.constituents.find? fun m => m.isValue || m.isErroneous with
  | none => exact t.one_le_size
  | some m => exact size_le_of_mem_constituents t (List.mem_of_find?_eq_some h)

/-! ## One level

As long as the comparison of arguments has answers, so has everything that is
built on it. -/

theorem Payload.coversArg_answers {h : Comparison} (v : Variance) {a b : Ty}
    (hab : (∃ r, h a b = .ok r) ∧ ∃ r, h b a = .ok r) : ∃ r, coversArg h v a b = .ok r := by
  obtain ⟨⟨r, hr⟩, q, hq⟩ := hab
  cases v with
  | covariant => exact ⟨r, hr⟩
  | contravariant => exact ⟨q, hq⟩
  | invariant =>
      rw [coversArg, hr]
      cases r with
      | false => exact ⟨false, rfl⟩
      | true => exact ⟨q, hq⟩

theorem Payload.coversFrom_answers {h : Comparison} (atom : Atom) (i : Nat) {as bs : List Ty}
    (hab : h.AnswersOn as bs) : ∃ r, coversFrom h atom i as bs = .ok r := by
  induction as generalizing i bs with
  | nil => exact ⟨true, by simp only [coversFrom]; rfl⟩
  | cons a as ih =>
      cases bs with
      | nil => exact ⟨true, by simp only [coversFrom]; rfl⟩
      | cons b bs =>
          obtain ⟨r, hr⟩ := coversArg_answers (atom.variance i)
            (hab a List.mem_cons_self b List.mem_cons_self)
          rw [coversFrom, hr]
          cases r with
          | false => exact ⟨false, rfl⟩
          | true =>
              exact ih (i + 1)
                (hab.mono (List.subset_cons_self a as) (List.subset_cons_self b bs))

theorem Payload.covers_answers {h : Comparison} (atom : Atom) {sup sub : List Ty}
    (hab : h.AnswersOn sup sub) : ∃ r, covers h atom sup sub = .ok r := by
  unfold covers
  split
  · exact ⟨true, rfl⟩
  · split
    · exact ⟨false, rfl⟩
    · exact coversFrom_answers atom 0 hab

theorem Inquiry.reply_answers {h : Comparison} {as bs : List Ty} (hab : h.AnswersOn as bs)
    (turned : Bool) (i j : Nat) : ∃ r, reply h as bs turned i j = .ok r := by
  unfold reply
  split
  · next a b ha hb =>
      have hpair := hab a (List.mem_of_getElem? ha) b (List.mem_of_getElem? hb)
      cases turned with
      | false => exact hpair.1
      | true => exact hpair.2
  · exact ⟨false, rfl⟩

theorem Inquiry.run_answers {h : Comparison} {as bs : List Ty} (hab : h.AnswersOn as bs)
    (q : Inquiry) : ∃ r, q.run h as bs = .ok r := by
  induction q with
  | answer related => exact ⟨related, rfl⟩
  | ask turned i j next ih =>
      obtain ⟨x, hx⟩ := reply_answers hab turned i j
      rw [run, hx]
      exact ih x

namespace View

theorem argsAgree_answers {h : Comparison} {as bs : List Ty} (hab : h.AnswersOn as bs) :
    ∃ r, argsAgree h as bs = .ok r := by
  induction as generalizing bs with
  | nil => cases bs <;> exact ⟨_, by simp only [argsAgree]; rfl⟩
  | cons a as ih =>
      cases bs with
      | nil => exact ⟨false, by simp only [argsAgree]; rfl⟩
      | cons b bs =>
          obtain ⟨r, hr⟩ := Payload.coversArg_answers .invariant
            (hab a List.mem_cons_self b List.mem_cons_self)
          rw [argsAgree, hr]
          cases r with
          | false => exact ⟨false, rfl⟩
          | true =>
              exact ih (hab.mono (List.subset_cons_self a as) (List.subset_cons_self b bs))

theorem consRelate_answers {h : Comparison} (o : ValueOrder) (c d : Con) {as bs : List Ty}
    (hab : h.AnswersOn as bs) : ∃ r, consRelate o h c as d bs = .ok r := by
  cases o with
  | custom rule => exact Inquiry.run_answers hab _
  | classes =>
      unfold consRelate classesRelate
      dsimp only
      split
      · split
        · exact ⟨false, rfl⟩
        · exact argsAgree_answers hab
      · exact ⟨_, rfl⟩

theorem compareValues_answers {v : View} {h : Comparison} {sup sub a b : Ty}
    (hsup : v.follow sup = .ok a) (hsub : v.follow sub = .ok b)
    (hab : h.AnswersOn (v.valueArgs sup) (v.valueArgs sub)) :
    ∃ r, v.compareValues h sup sub = .ok r := by
  unfold compareValues
  rw [hsup, hsub]
  simp only [bind, Except.bind]
  cases hs : valueStep (fun _ => false) a b with
  | decided answer => exact ⟨answer, rfl⟩
  | bind name t => exact ⟨false, rfl⟩
  | constructors c as d bs =>
      obtain ⟨rfl, rfl⟩ := valueStep_constructors hs
      rw [valueArgs_of_follow hsup, valueArgs_of_follow hsub] at hab
      exact consRelate_answers _ c d hab

theorem uncovered_answers {h : Comparison} {sup : ErrorSet} {es : List (Atom × List Ty)}
    (hab : h.AnswersOn (sup.entries.flatMap Prod.snd) (es.flatMap Prod.snd))
    (missing mismatched : Instantiations) :
    ∃ r, uncovered h sup es missing mismatched = .ok r := by
  induction es generalizing missing mismatched with
  | nil => exact ⟨_, rfl⟩
  | cons e rest ih =>
      obtain ⟨atom, args⟩ := e
      rw [List.flatMap_cons] at hab
      have hrest := hab.mono (List.Subset.refl _) (List.subset_append_right _ _)
      unfold uncovered
      cases hg : sup.get? atom with
      | none =>
          dsimp only
          split
          · exact ih hrest _ _
          · exact ih hrest _ _
      | some supArgs =>
          obtain ⟨r, hr⟩ := Payload.covers_answers atom
            (hab.mono (subset_of_get? hg) (List.subset_append_left _ _))
          dsimp only
          rw [hr]
          cases r with
          | false => exact ih hrest _ _
          | true => exact ih hrest _ _

theorem compareErrors_answers {h : Comparison} {sup sub : Interpretation}
    (hab : h.AnswersOn (sup.known.entries.flatMap Prod.snd)
      (sub.known.entries.flatMap Prod.snd)) : ∃ r, compareErrors h sup sub = .ok r := by
  unfold compareErrors
  split
  · exact ⟨_, rfl⟩
  · split
    · exact ⟨_, rfl⟩
    · obtain ⟨r, hr⟩ := uncovered_answers hab .empty .empty
      unfold residualWith
      rw [hr]
      simp only [bind, Except.bind, pure, Except.pure]
      repeat' split
      all_goals exact ⟨_, rfl⟩

/-- One level of the comparison has an answer if the values can be written out
and the comparison of the parts has answers. -/
theorem compareWith_answers_on {v : View} {h : Comparison} {sup sub a b : Ty}
    (hsup : v.follow sup.valuePart = .ok a) (hsub : v.follow sub.valuePart = .ok b)
    (hab : h.AnswersOn (v.parts sup) (v.parts sub)) : ∃ r, v.compareWith h sup sub = .ok r := by
  unfold compareWith
  split
  · exact ⟨_, rfl⟩
  · obtain ⟨r, hr⟩ := compareValues_answers hsup hsub
      (hab.mono (List.subset_append_left _ _) (List.subset_append_left _ _))
    rw [hr]
    cases r with
    | false => exact ⟨_, rfl⟩
    | true =>
        exact compareErrors_answers
          (hab.mono (List.subset_append_right _ _) (List.subset_append_right _ _))

/-! ## Sizes of parts -/

theorem follow_unbound {v : View} (hv : v.bindings = .empty) (t : Ty) : v.follow t = .ok t := by
  cases t with
  | valueProj name flexible =>
      rw [follow, hv]
      cases flexible <;> rfl
  | _ => rfl

/-- All argument lists of a set consist of types below a size. -/
def ArgsBelow (n : Nat) (es : List (Atom × List Ty)) : Prop :=
  ∀ e ∈ es, ∀ a ∈ e.2, a.size < n

theorem ArgsBelow.put {n : Nat} {es : List (Atom × List Ty)} (h : ArgsBelow n es) (atom : Atom)
    {args : List Ty} (hargs : ∀ a ∈ args, a.size < n) : ArgsBelow n (Table.put atom args es) :=
  fun e he => (Table.mem_put he).elim (fun hv => hv ▸ hargs) (h e)

theorem ArgsBelow.insertNew {n : Nat} (es : List (Atom × List Ty)) (hes : ∀ e ∈ es, e.2 = [])
    {t : Instantiations} (ht : ArgsBelow n t.entries) :
    ArgsBelow n (es.foldl (fun t e => t.insertNew e.1 e.2) t).entries := by
  induction es generalizing t with
  | nil => exact ht
  | cons e rest ih =>
      refine ih (fun d hd => hes d (List.mem_cons_of_mem e hd)) ?_
      dsimp only
      rw [hes e (List.mem_cons_self ..), Table.insertNew]
      split
      · exact ht
      · intro d hd a ha
        rcases List.mem_append.1 hd with hd | hd
        · exact ht d hd a ha
        · rw [List.mem_singleton.1 hd] at ha; cases ha

/-- If no solved set has arguments, those in a type's errors are smaller than
the type. -/
theorem argsBelow_interpretWith {s : Solution}
    (hs : ∀ x set, s.get? x = some set → ∀ e ∈ set.entries, e.2 = []) (t : Ty) :
    ArgsBelow t.size (interpretWith s t).known.entries := by
  suffices hfold : ∀ (ms : List Ty) (r : Reading), (∀ m ∈ ms, m.size ≤ t.size) →
      ArgsBelow t.size r.known.entries →
      ArgsBelow t.size (ms.foldl (Reading.add s) r).known.entries by
    have hms : ∀ m ∈ t.errorPart, m.size ≤ t.size := fun m hm =>
      Ty.size_le_of_mem_constituents t (List.mem_filter.1 hm).1
    intro e he
    exact hfold _ _ hms (by intro e he; cases he) e ((sortOn_perm _ _).mem_iff.1 he)
  intro ms
  induction ms with
  | nil => intro r _ hr; exact hr
  | cons m ms ih =>
      intro r hms hr
      refine ih _ (fun x hx => hms x (List.mem_cons_of_mem _ hx)) ?_
      have hm := hms m (List.mem_cons_self ..)
      cases m with
      | errorConst c args =>
          refine hr.put _ fun a ha => ?_
          have := Ty.size_le_sizeAll ha
          rw [Ty.size] at hm
          omega
      | errorVar x =>
          unfold Reading.add
          dsimp only
          split
          · split
            · next set hset => exact hr.insertNew _ (hs x set hset)
            · exact hr
          · exact hr.put _ fun a ha => by cases ha
      | _ => exact hr

/-- Whether comparisons ask about proper parts of the two types only: nothing is
bound, and the arguments in a type's errors are smaller than the type. -/
structure Shallow (v : View) : Prop where
  unbound : v.bindings = .empty
  below : ∀ t, ArgsBelow t.size (v.interpret t).known.entries

theorem shallow_plain (o : ValueOrder) : (plain o).Shallow :=
  ⟨rfl, argsBelow_interpretWith fun _ _ h => by cases h⟩

section Shallow

variable {v : View} (hv : v.Shallow)

include hv

/-- The parts of a type are smaller than the type. -/
theorem size_lt_of_mem_parts {t a : Ty} (h : a ∈ v.parts t) : a.size < t.size := by
  rcases List.mem_append.1 h with h | h
  · unfold valueArgs at h
    rw [follow_unbound hv.unbound] at h
    split at h
    · next c args hvalue =>
        have h₁ := t.size_valuePart_le
        have h₂ := Ty.size_le_sizeAll h
        rw [Except.ok.inj hvalue, Ty.size] at h₁
        omega
    · cases h
  · obtain ⟨e, he, ha⟩ := List.mem_flatMap.1 h
    exact hv.below t e he a ha

/-- One level of a shallow comparison has an answer as soon as the comparison of
smaller types has. -/
theorem compareWith_answers {h : Comparison} {n : Nat} (hn : h.AnswersBelow n)
    {sup sub : Ty} (hab : sup.size + sub.size ≤ n) : ∃ r, v.compareWith h sup sub = .ok r := by
  refine compareWith_answers_on (follow_unbound hv.unbound _) (follow_unbound hv.unbound _)
    (hn.on fun a ha b hb => ?_)
  have h₁ := size_lt_of_mem_parts hv ha
  have h₂ := size_lt_of_mem_parts hv hb
  omega

/-! ## All levels -/

/-- Shallow comparisons to a depth have an answer for all types below it. -/
theorem holdsWithin_answersBelow (n : Nat) : (v.holdsWithin n).AnswersBelow n := by
  induction n with
  | zero => intro a b hab; omega
  | succ n ih =>
      intro a b hab
      obtain ⟨r, hr⟩ := compareWith_answers hv ih (show a.size + b.size ≤ n by omega)
      exact ⟨_, by rw [holdsWithin, hr]; rfl⟩

/-- In a shallow view every two types can be compared. -/
theorem holds_answers (sup sub : Ty) : ∃ r, v.holds sup sub = .ok r :=
  holdsWithin_answersBelow hv _ sup sub (by unfold depth; omega)

theorem compareWith_holds_answers (sup sub : Ty) : ∃ r, v.compareWith v.holds sup sub = .ok r :=
  compareWith_answers hv (fun a b _ => holds_answers hv a b) (Nat.le_refl (sup.size + sub.size))

/-! ## The depth does not show -/

/-- Every answer of a shallow comparison to some depth is the answer of `holds`. -/
theorem holdsWithin_below_holds (n : Nat) : (v.holdsWithin n).Below v.holds := by
  intro a b r hr
  obtain ⟨q, hq⟩ := holds_answers hv a b
  have h1 := holdsWithin_mono v (Nat.le_max_left n (v.depth a b)) a b r hr
  have h2 := holdsWithin_mono v (Nat.le_max_right n (v.depth a b)) a b q hq
  rw [hq, Except.ok.inj (h2.symm.trans h1)]

/-- In a shallow view the depth does not show: `holds` says what one level over
`holds` says. -/
theorem holds_eq (sup sub : Ty) :
    v.holds sup sub = v.compareWith v.holds sup sub >>= fun r => .ok (r == .holds) := by
  obtain ⟨r, hr⟩ := compareWith_answers hv (holdsWithin_answersBelow hv (sup.size + sub.size))
    (Nat.le_refl _)
  have hd : v.holdsWithin (sup.size + sub.size + 1) sup sub = .ok (r == .holds) := by
    rw [holdsWithin, hr]
    rfl
  rw [holdsWithin_below_holds hv _ _ _ _ hd, compareWith_mono (holdsWithin_below_holds hv _) hr]
  rfl

end Shallow

/-- Where nothing is solved or bound, every two types can be compared. -/
theorem holds_plain_answers (o : ValueOrder) (sup sub : Ty) :
    ∃ r, (plain o).holds sup sub = .ok r :=
  holds_answers (shallow_plain o) sup sub

end View

/-- Whether `sup` covers `sub` is what `View.holds` answers in the plain view. -/
theorem holds_plain_eq_isSubtype (o : ValueOrder) (sup sub : Ty) :
    (View.plain o).holds sup sub = .ok (isSubtype o sup sub) := by
  rw [View.holds_eq (View.shallow_plain o), isSubtype]
  obtain ⟨r, hr⟩ := View.compareWith_holds_answers (View.shallow_plain o) sup sub
  rw [hr]
  cases r <;> rfl

end Fallible
