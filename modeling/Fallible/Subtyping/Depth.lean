import Fallible.Subtyping.View

/-!
# The depth of a comparison is bookkeeping

Comparisons are stacked to a depth, but the depth is no part of the answer: a
comparison that was answered at some depth is answered the same at every larger
depth.

One level of the comparison only asks for the comparison of arguments, each time
of an argument of one type with an argument of the other. These are the parts of
the two types in the view. So give it a second comparison that has every answer
of the first to such questions, and it gives every answer it gave before. The
lemmas say this for each definition in turn, from single arguments up to whole
types, and the result is an induction on the depth.
-/

namespace Fallible

/-- Every answer of `h` is an answer of `k`. -/
def Comparison.Below (h k : Comparison) : Prop :=
  ∀ a b r, h a b = .ok r → k a b = .ok r

/-- Every answer of `h` about two types of the lists, either way round, is an
answer of `k`. -/
def Comparison.BelowOn (h k : Comparison) (as bs : List Ty) : Prop :=
  ∀ a ∈ as, ∀ b ∈ bs, ∀ r, (h a b = .ok r → k a b = .ok r) ∧ (h b a = .ok r → k b a = .ok r)

theorem Comparison.Below.on {h k : Comparison} (hk : h.Below k) (as bs : List Ty) :
    h.BelowOn k as bs :=
  fun a _ b _ r => ⟨hk a b r, hk b a r⟩

theorem Comparison.BelowOn.mono {h k : Comparison} {as bs as' bs' : List Ty}
    (hk : h.BelowOn k as bs) (has : as' ⊆ as) (hbs : bs' ⊆ bs) : h.BelowOn k as' bs' :=
  fun a ha b hb => hk a (has ha) b (hbs hb)

theorem Payload.coversArg_mono {h k : Comparison} {v : Variance} {a b : Ty}
    (hk : ∀ r, (h a b = .ok r → k a b = .ok r) ∧ (h b a = .ok r → k b a = .ok r)) {r : Bool}
    (hr : coversArg h v a b = .ok r) : coversArg k v a b = .ok r := by
  cases v with
  | covariant => exact (hk r).1 hr
  | contravariant => exact (hk r).2 hr
  | invariant =>
      simp only [coversArg] at hr ⊢
      cases h1 : h a b with
      | error f => rw [h1] at hr; exact absurd hr (by simp [bind, Except.bind])
      | ok x =>
          rw [h1] at hr
          rw [(hk x).1 h1]
          cases x with
          | false => exact hr
          | true => exact (hk r).2 hr

theorem Payload.coversFrom_mono {h k : Comparison} {atom : Atom} :
    ∀ {i : Nat} {as bs : List Ty} {r : Bool}, h.BelowOn k as bs →
      coversFrom h atom i as bs = .ok r → coversFrom k atom i as bs = .ok r := by
  intro i as
  induction as generalizing i with
  | nil => intro bs r _ hr; simpa only [coversFrom] using hr
  | cons a as ih =>
      intro bs r hk hr
      cases bs with
      | nil => simpa only [coversFrom] using hr
      | cons b bs =>
          simp only [coversFrom] at hr ⊢
          cases h1 : coversArg h (atom.variance i) a b with
          | error f => rw [h1] at hr; exact absurd hr (by simp [bind, Except.bind])
          | ok x =>
              rw [h1] at hr
              rw [coversArg_mono (hk a List.mem_cons_self b List.mem_cons_self) h1]
              cases x with
              | false => exact hr
              | true =>
                  exact ih (hk.mono (List.subset_cons_self a as) (List.subset_cons_self b bs)) hr

theorem Payload.covers_mono {h k : Comparison} {atom : Atom} {sup sub : List Ty}
    (hk : h.BelowOn k sup sub) {r : Bool} (hr : covers h atom sup sub = .ok r) :
    covers k atom sup sub = .ok r := by
  unfold covers at hr ⊢
  split
  · rename_i hc; rw [if_pos hc] at hr; exact hr
  · rename_i hc
    rw [if_neg hc] at hr
    split
    · rename_i hl; rw [if_pos hl] at hr; exact hr
    · rename_i hl; rw [if_neg hl] at hr; exact coversFrom_mono hk hr

theorem Inquiry.reply_mono {h k : Comparison} {as bs : List Ty} (hk : h.BelowOn k as bs)
    {turned : Bool} {i j : Nat} {r : Bool} (hr : reply h as bs turned i j = .ok r) :
    reply k as bs turned i j = .ok r := by
  unfold reply at hr ⊢
  split at hr
  · next a b ha hb =>
      have hab := hk a (List.mem_of_getElem? ha) b (List.mem_of_getElem? hb) r
      cases turned with
      | false => exact hab.1 hr
      | true => exact hab.2 hr
  · exact hr

theorem Inquiry.run_mono {h k : Comparison} {as bs : List Ty} (hk : h.BelowOn k as bs)
    {q : Inquiry} {r : Bool} (hr : q.run h as bs = .ok r) : q.run k as bs = .ok r := by
  induction q with
  | answer related => exact hr
  | ask turned i j next ih =>
      rw [run] at hr ⊢
      cases hx : reply h as bs turned i j with
      | error f => rw [hx] at hr; cases hr
      | ok x =>
          rw [hx] at hr
          rw [reply_mono hk hx]
          exact ih x hr

namespace View

theorem argsAgree_mono {h k : Comparison} :
    ∀ {as bs : List Ty} {r : Bool}, h.BelowOn k as bs → argsAgree h as bs = .ok r →
      argsAgree k as bs = .ok r := by
  intro as
  induction as with
  | nil => intro bs r _ hr; cases bs <;> simpa only [argsAgree] using hr
  | cons a as ih =>
      intro bs r hk hr
      cases bs with
      | nil => simpa only [argsAgree] using hr
      | cons b bs =>
          simp only [argsAgree] at hr ⊢
          cases h1 : Payload.coversArg h .invariant a b with
          | error f => rw [h1] at hr; exact absurd hr (by simp [bind, Except.bind])
          | ok x =>
              rw [h1] at hr
              rw [Payload.coversArg_mono (hk a List.mem_cons_self b List.mem_cons_self) h1]
              cases x with
              | false => exact hr
              | true =>
                  exact ih (hk.mono (List.subset_cons_self a as) (List.subset_cons_self b bs)) hr

theorem classesRelate_mono {h k : Comparison} {c d : Con} {as bs : List Ty}
    (hk : h.BelowOn k as bs) {r : Bool} (hr : classesRelate h c as d bs = .ok r) :
    classesRelate k c as d bs = .ok r := by
  unfold classesRelate at hr ⊢
  split
  · rename_i hc
    rw [if_pos hc] at hr
    split
    · rename_i hl; rw [if_pos hl] at hr; exact hr
    · rename_i hl; rw [if_neg hl] at hr; exact argsAgree_mono hk hr
  · rename_i hc; rw [if_neg hc] at hr; exact hr

theorem consRelate_mono {h k : Comparison} {o : ValueOrder} {c d : Con} {as bs : List Ty}
    (hk : h.BelowOn k as bs) {r : Bool} (hr : consRelate o h c as d bs = .ok r) :
    consRelate o k c as d bs = .ok r := by
  cases o with
  | classes => exact classesRelate_mono hk hr
  | custom rule => exact Inquiry.run_mono hk hr

/-- Only two constructors are compared as constructors. -/
theorem valueStep_constructors {free : String → Bool} {sup sub : Ty} {c d : Con}
    {as bs : List Ty} (h : valueStep free sup sub = .constructors c as d bs) :
    sup = .con c as ∧ sub = .con d bs := by
  unfold valueStep at h
  split at h
  · cases h
  · split at h
    · cases h
    · split at h
      · cases h
      · unfold latticeStep at h
        split at h <;> simp_all

/-- The arguments of the constructor that a value stands for, if it is one. -/
def valueArgs (v : View) (t : Ty) : List Ty :=
  match v.follow t with
  | .ok (.con _ args) => args
  | _ => []

/-- The arguments that one level of a comparison may ask about. -/
def parts (v : View) (t : Ty) : List Ty :=
  v.valueArgs t.valuePart ++ (v.interpret t).known.entries.flatMap Prod.snd

theorem valueArgs_of_follow {v : View} {t : Ty} {c : Con} {args : List Ty}
    (h : v.follow t = .ok (.con c args)) : v.valueArgs t = args := by
  rw [valueArgs, h]

theorem compareValues_mono {h k : Comparison} {v : View} {sup sub : Ty}
    (hk : h.BelowOn k (v.valueArgs sup) (v.valueArgs sub)) {r : Bool}
    (hr : v.compareValues h sup sub = .ok r) : v.compareValues k sup sub = .ok r := by
  unfold compareValues at hr ⊢
  cases h1 : v.follow sup with
  | error f => rw [h1] at hr; exact absurd hr (by simp [bind, Except.bind])
  | ok a =>
      cases h2 : v.follow sub with
      | error f => rw [h1, h2] at hr; exact absurd hr (by simp [bind, Except.bind])
      | ok b =>
          rw [h1, h2] at hr
          simp only [bind, Except.bind] at hr ⊢
          cases h3 : valueStep (fun _ => false) a b with
          | decided answer => rw [h3] at hr; exact hr
          | bind name t => rw [h3] at hr; exact hr
          | constructors c as d bs =>
              rw [h3] at hr
              obtain ⟨rfl, rfl⟩ := valueStep_constructors h3
              rw [valueArgs_of_follow h1, valueArgs_of_follow h2] at hk
              exact consRelate_mono hk hr

/-- The arguments that are looked up in a set are among those it lists. -/
theorem subset_of_get? {s : ErrorSet} {atom : Atom} {args : List Ty}
    (h : s.get? atom = some args) : args ⊆ s.entries.flatMap Prod.snd := by
  obtain ⟨k, hk⟩ := Table.mem_of_find h
  intro a ha
  rcases Table.mem_insertAll hk with he | ⟨k', hk'⟩
  · cases he
  · exact List.mem_flatMap.2 ⟨(k', args), hk', ha⟩

theorem uncovered_mono {h k : Comparison} {sup : ErrorSet} :
    ∀ {es : List (Atom × List Ty)} {m n : Instantiations}
      {r : Instantiations × Instantiations},
      h.BelowOn k (sup.entries.flatMap Prod.snd) (es.flatMap Prod.snd) →
      uncovered h sup es m n = .ok r → uncovered k sup es m n = .ok r := by
  intro es
  induction es with
  | nil => intro m n r _ hr; exact hr
  | cons e rest ih =>
      intro m n r hk hr
      obtain ⟨atom, args⟩ := e
      rw [List.flatMap_cons] at hk
      have hrest := hk.mono (List.Subset.refl _) (List.subset_append_right _ _)
      unfold uncovered at hr ⊢
      cases h1 : sup.get? atom with
      | none =>
          rw [h1] at hr
          dsimp only at hr ⊢
          split
          · rename_i hc; rw [if_pos hc] at hr; exact ih hrest hr
          · rename_i hc; rw [if_neg hc] at hr; exact ih hrest hr
      | some supArgs =>
          rw [h1] at hr
          dsimp only at hr ⊢
          cases h2 : Payload.covers h atom supArgs args with
          | error f => rw [h2] at hr; exact absurd hr (by simp [bind, Except.bind])
          | ok x =>
              rw [h2] at hr
              rw [Payload.covers_mono
                (hk.mono (subset_of_get? h1) (List.subset_append_left _ _)) h2]
              cases x with
              | false => exact ih hrest hr
              | true => exact ih hrest hr

theorem residualWith_mono {h k : Comparison} {sup sub : ErrorSet}
    (hk : h.BelowOn k (sup.entries.flatMap Prod.snd) (sub.entries.flatMap Prod.snd))
    {r : Residual} (hr : residualWith h sup sub = .ok r) : residualWith k sup sub = .ok r := by
  unfold residualWith at hr ⊢
  cases h1 : uncovered h sup sub.entries .empty .empty with
  | error f => rw [h1] at hr; exact absurd hr (by simp [bind, Except.bind])
  | ok x => rw [h1] at hr; rw [uncovered_mono hk h1]; exact hr

theorem compareErrors_mono {h k : Comparison} {sup sub : Interpretation}
    (hk : h.BelowOn k (sup.known.entries.flatMap Prod.snd) (sub.known.entries.flatMap Prod.snd))
    {r : Verdict} (hr : compareErrors h sup sub = .ok r) : compareErrors k sup sub = .ok r := by
  unfold compareErrors at hr ⊢
  split
  · rename_i hc; rw [if_pos hc] at hr; exact hr
  · rename_i hc
    rw [if_neg hc] at hr
    split
    · rename_i hu; rw [if_pos hu] at hr; exact hr
    · rename_i hu
      rw [if_neg hu] at hr
      cases h1 : residualWith h sup.known sub.known with
      | error f => rw [h1] at hr; exact absurd hr (by simp [bind, Except.bind])
      | ok x => rw [h1] at hr; rw [residualWith_mono hk h1]; exact hr

/-- One level of the comparison gives the same answer when it is given a
comparison with more answers about the parts of the two types. -/
theorem compareWith_mono_on {h k : Comparison} {v : View} {sup sub : Ty}
    (hk : h.BelowOn k (v.parts sup) (v.parts sub)) {r : Verdict}
    (hr : v.compareWith h sup sub = .ok r) : v.compareWith k sup sub = .ok r := by
  unfold compareWith at hr ⊢
  split
  · rename_i hc; rw [if_pos hc] at hr; exact hr
  · rename_i hc
    rw [if_neg hc] at hr
    cases h1 : v.compareValues h sup.valuePart sub.valuePart with
    | error f => rw [h1] at hr; exact absurd hr (by simp [bind, Except.bind])
    | ok x =>
        rw [h1] at hr
        rw [compareValues_mono
          (hk.mono (List.subset_append_left _ _) (List.subset_append_left _ _)) h1]
        cases x with
        | false => exact hr
        | true =>
            exact compareErrors_mono
              (hk.mono (List.subset_append_right _ _) (List.subset_append_right _ _)) hr

theorem compareWith_mono {h k : Comparison} (hk : h.Below k) {v : View} {sup sub : Ty}
    {r : Verdict} (hr : v.compareWith h sup sub = .ok r) : v.compareWith k sup sub = .ok r :=
  compareWith_mono_on (hk.on _ _) hr

theorem holdsWithin_below_succ (v : View) (n : Nat) :
    (v.holdsWithin n).Below (v.holdsWithin (n + 1)) := by
  induction n with
  | zero => intro a b r hr; exact absurd hr (by simp [holdsWithin])
  | succ n ih =>
      intro a b r hr
      rw [holdsWithin] at hr ⊢
      cases h1 : v.compareWith (v.holdsWithin n) a b with
      | error f => rw [h1] at hr; exact absurd hr (by simp [bind, Except.bind])
      | ok x => rw [h1] at hr; rw [compareWith_mono ih h1]; exact hr

/-- A comparison answered at some depth is answered the same at every larger
depth. -/
theorem holdsWithin_mono (v : View) {n m : Nat} (hle : n ≤ m) :
    (v.holdsWithin n).Below (v.holdsWithin m) := by
  induction hle with
  | refl => exact fun _ _ _ h => h
  | step _ ih => exact fun a b r h => holdsWithin_below_succ v _ a b r (ih a b r h)

end View

end Fallible
