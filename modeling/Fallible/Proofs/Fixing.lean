import Fallible.Proofs.Offers
import Fallible.Proofs.Spelling
import Mathlib.Order.Bounds.Basic

/-!
# The strict policy joins

Under the strict policy two argument lists of a classifier without contravariant
parameters merge only if they are the same, or one of them is still open. So the
lists are ordered: the open list lies below every other, and nothing else lies
below anything but itself. Merging is the join in this order, where there is one.

The order carries over to what a variable holds, atom by atom, and absorbing a
contribution is the join there. In particular a contribution is absorbed without
a conflict exactly if something lies above both it and what is held already, and
one that lies below what is held changes nothing.
-/

namespace Fallible

/-! ## Argument lists -/

theorem Atom.variance_ne_contravariant {a : Atom}
    (h : ∀ c ∈ a.classifier?, .contravariant ∉ c.variances) (i : Nat) :
    a.variance i ≠ .contravariant := by
  cases a with
  | var v => exact fun hv => by cases hv
  | classifier c =>
      intro hv
      change c.variances[i]?.getD .invariant = .contravariant at hv
      cases hget : c.variances[i]? with
      | none => rw [hget] at hv; cases hv
      | some v =>
          rw [hget, Option.getD_some] at hv
          exact h c rfl (hv ▸ List.mem_of_getElem? hget)

namespace Payload

/-- Whether a list of arguments is another, or still open. -/
def UpTo (xs ys : List Ty) : Prop := xs = [] ∨ (xs == ys) = true

theorem UpTo.refl (xs : List Ty) : UpTo xs xs := Or.inr BEq.rfl

theorem UpTo.trans {xs ys zs : List Ty} (h : UpTo xs ys) (k : UpTo ys zs) : UpTo xs zs := by
  rcases h with rfl | h
  · exact Or.inl rfl
  · rcases k with rfl | k
    · cases xs with
      | nil => exact Or.inl rfl
      | cons x xs => cases h
    · exact Or.inr (BEq.trans h k)

theorem UpTo.antisymm {xs ys : List Ty} (h : UpTo xs ys) (k : UpTo ys xs) :
    (xs == ys) = true := by
  rcases h with rfl | h
  · rcases k with rfl | k
    · rfl
    · exact BEq.symm k
  · exact h

/-- Lists below one list are the same unless one of them is open. -/
theorem UpTo.beq {xs ys zs : List Ty} (hx : UpTo xs zs) (hy : UpTo ys zs) (hxs : xs ≠ [])
    (hys : ys ≠ []) : (xs == ys) = true :=
  BEq.trans (hx.resolve_left hxs) (BEq.symm (hy.resolve_left hys))

section Strict

variable {holds : Comparison} {a : Atom}

theorem mergeFrom_strict_eq (hvar : ∀ i, a.variance i ≠ .contravariant) :
    ∀ {i : Nat} {as bs : List Ty}, as.length = bs.length →
      mergeFrom .strict holds a i as bs = .ok (if as == bs then some as else none) := by
  intro i as
  induction as generalizing i with
  | nil =>
      intro bs hlen
      obtain rfl := List.eq_nil_of_length_eq_zero hlen.symm
      rfl
  | cons x as ih =>
      intro bs hlen
      cases bs with
      | nil => cases hlen
      | cons y bs =>
          have harg : mergeArg .strict holds (a.variance i) x y = .ok (agreed x y) := by
            cases hv : a.variance i with
            | covariant => rfl
            | invariant => rfl
            | contravariant => exact absurd hv (hvar i)
          rw [mergeFrom, harg, ih (by simpa using hlen), agreed]
          by_cases hxy : (x == y) = true
          · by_cases hrest : (as == bs) = true
            · simp [hxy, hrest, bind, Except.bind, pure, Except.pure]
            · simp [hxy, hrest, bind, Except.bind, pure, Except.pure]
          · simp [hxy, bind, Except.bind, pure, Except.pure]

theorem merge_strict (hvar : ∀ i, a.variance i ≠ .contravariant) (cur inc : List Ty) :
    merge .strict holds a cur inc =
      .ok (if cur == inc || inc.isEmpty then some cur
        else if cur.isEmpty then some inc else none) := by
  rw [merge]
  by_cases hsame : (cur == inc || inc.isEmpty) = true
  · rw [if_pos hsame, if_pos hsame]
    rfl
  rw [if_neg hsame, if_neg hsame]
  by_cases hopen : cur.isEmpty = true
  · rw [if_pos hopen, if_pos hopen]
    rfl
  rw [if_neg hopen, if_neg hopen]
  split
  · rfl
  · next hlen =>
      rw [mergeFrom_strict_eq hvar (by simpa using hlen), if_neg]
      intro h
      simp [h] at hsame

/-- A merged list is one of the two and lies above both. -/
theorem merge_strict_some (hvar : ∀ i, a.variance i ≠ .contravariant) {cur inc m : List Ty}
    (h : merge .strict holds a cur inc = .ok (some m)) :
    UpTo cur m ∧ UpTo inc m ∧ (m = cur ∨ m = inc) := by
  rw [merge_strict hvar, Except.ok.injEq] at h
  split at h
  · next hsame =>
      cases h
      refine ⟨.refl _, ?_, Or.inl rfl⟩
      rw [Bool.or_eq_true, List.isEmpty_iff] at hsame
      exact hsame.symm.imp_right BEq.symm
  · split at h
    · next hopen =>
        cases h
        exact ⟨Or.inl (List.isEmpty_iff.1 hopen), .refl _, Or.inr rfl⟩
    · cases h

/-- Lists that do not merge are both fixed, and differ. -/
theorem merge_strict_none (hvar : ∀ i, a.variance i ≠ .contravariant) {cur inc : List Ty}
    (h : merge .strict holds a cur inc = .ok none) :
    cur ≠ [] ∧ inc ≠ [] ∧ (cur == inc) = false := by
  rw [merge_strict hvar, Except.ok.injEq] at h
  split at h
  · cases h
  · next hsame =>
      split at h
      · cases h
      · next hopen =>
          rw [Bool.not_eq_true, Bool.or_eq_false_iff] at hsame
          refine ⟨?_, ?_, hsame.1⟩
          · rintro rfl
            exact hopen rfl
          · rintro rfl
            exact Bool.noConfusion hsame.2

end Strict

/-- What is there already merges without a change, under any policy. -/
theorem merge_of_upTo {p : Policy} {holds : Comparison} {a : Atom} {cur inc : List Ty}
    (h : UpTo inc cur) : merge p holds a cur inc = .ok (some cur) := by
  have hsame : (cur == inc || inc.isEmpty) = true := by
    rw [Bool.or_eq_true, List.isEmpty_iff]
    exact h.symm.imp_left BEq.symm
  rw [merge, if_pos hsame]
  rfl

end Payload

/-! ## Holdings -/

/-- Whether each atom of a table is in another, with arguments up to those. -/
def Instantiations.Below (t u : Instantiations) : Prop :=
  ∀ a args, t.get? a = some args → ∃ args', u.get? a = some args' ∧ Payload.UpTo args args'

namespace Instantiations.Below

theorem refl (t : Instantiations) : Below t t := fun _ args h => ⟨args, h, .refl args⟩

theorem trans {t u w : Instantiations} (h : Below t u) (k : Below u w) : Below t w := by
  intro a args hget
  obtain ⟨args', hget', hup⟩ := h a args hget
  obtain ⟨args'', hget'', hup'⟩ := k a args' hget'
  exact ⟨args'', hget'', hup.trans hup'⟩

theorem insert {t u : Instantiations} (h : Below t u) {a : Atom} {args : List Ty}
    (hargs : ∃ args', u.get? a = some args' ∧ Payload.UpTo args args') :
    Below (t.insert a args) u := by
  intro b bs hb
  rw [Table.get?_insert] at hb
  split at hb
  · next hab =>
      cases hb
      exact Table.get?_congr u hab ▸ hargs
  · exact h b bs hb

theorem merge {t u : Instantiations} (h : Below t u) {holds : Comparison} {a : Atom}
    {old new m : List Ty} (hvar : ∀ i, a.variance i ≠ .contravariant)
    (hold : t.get? a = some old) (hnew : ∃ args, u.get? a = some args ∧ Payload.UpTo new args)
    (hm : Payload.merge .strict holds a old new = .ok (some m)) : Below (t.insert a m) u := by
  rcases (Payload.merge_strict_some hvar hm).2.2 with rfl | rfl
  · exact h.insert (h a _ hold)
  · exact h.insert hnew

theorem insert_right {t u : Instantiations} (h : Below t u) {a : Atom} {args : List Ty}
    (hup : ∀ old, u.get? a = some old → Payload.UpTo old args) : Below t (u.insert a args) := by
  intro b bs hb
  obtain ⟨bs', hb', hup'⟩ := h b bs hb
  rw [Table.get?_insert]
  split
  · next hab =>
      rw [← Table.get?_congr u hab] at hb'
      exact ⟨args, rfl, hup'.trans (hup bs' hb')⟩
  · exact ⟨bs', hb', hup'⟩

end Instantiations.Below

/-- Holdings are compared atom by atom and flag for flag. -/
instance : Preorder Holding where
  le h k := (h.universal = true → k.universal = true) ∧ Instantiations.Below h.atoms k.atoms
  le_refl h := ⟨id, .refl h.atoms⟩
  le_trans _ _ _ h k := ⟨fun hu => k.1 (h.1 hu), h.2.trans k.2⟩

instance : Preorder Holdings where
  le hs ks := ∀ v, hs.of v ≤ ks.of v
  le_refl _ _ := le_refl _
  le_trans _ _ _ h k v := (h v).trans (k v)

namespace Holding

theorem get?_beq_of_le {h k : Holding} (hle : h ≤ k) (hge : k ≤ h) (a : Atom) :
    (h.atoms.get? a == k.atoms.get? a) = true := by
  cases hget : h.atoms.get? a with
  | some args =>
      obtain ⟨args', hget', hup⟩ := hle.2 a args hget
      obtain ⟨args'', hget'', hup'⟩ := hge.2 a args' hget'
      cases hget.symm.trans hget''
      rw [hget']
      exact hup.antisymm hup'
  | none =>
      cases hget' : k.atoms.get? a with
      | none => rfl
      | some args =>
          obtain ⟨args', hget'', _⟩ := hge.2 a args hget'
          rw [hget] at hget''
          cases hget''

theorem universal_eq_of_le {h k : Holding} (hle : h ≤ k) (hge : k ≤ h) :
    h.universal = k.universal :=
  Bool.eq_iff_iff.2 ⟨hle.1, hge.1⟩

theorem get?_beyond (h : Holding) (known : ErrorSet) (a : Atom) :
    (h.beyond known).atoms.get? a = if known.contains a then none else h.atoms.get? a := by
  rw [beyond, Table.get?_filterKeys fun _ _ hab => congrArg not (ErrorSet.contains_congr known hab)]
  cases known.contains a <;> rfl

theorem beyond_mono {h k : Holding} (hle : h ≤ k) (known : ErrorSet) :
    h.beyond known ≤ k.beyond known := by
  refine ⟨fun hu => ?_, fun a args hget => ?_⟩
  · rw [beyond, Bool.and_eq_true] at hu ⊢
    exact ⟨hle.1 hu.1, hu.2⟩
  · rw [get?_beyond] at hget ⊢
    split at hget
    · cases hget
    · next ha => rw [if_neg ha]; exact hle.2 a args hget

/-! ### Absorbing what is held -/

theorem absorbEntries_of_upTo {p : Policy} {holds : Comparison} {h : Holding} {grew : Bool} :
    ∀ {es : List (Atom × List Ty)},
      (∀ e ∈ es, ∃ args, h.atoms.get? e.1 = some args ∧ Payload.UpTo e.2 args) →
      absorbEntries p holds es h grew = .ok (.done h grew) := by
  intro es
  induction es with
  | nil => intro _; rfl
  | cons e rest ih =>
      intro hes
      obtain ⟨args, hget, hup⟩ := hes e (by simp)
      rw [absorbEntries, hget]
      simp only [Payload.merge_of_upTo hup, bind, Except.bind, BEq.rfl, if_true]
      exact ih fun d hd => hes d (by simp [hd])

theorem absorb_of_le {p : Policy} {holds : Comparison} {h inc : Holding}
    (hinc : inc.atoms.Distinct) (hle : inc ≤ h) : h.absorb p holds inc = .ok (.done h false) := by
  have hflag : (h.universal || inc.universal) = h.universal ∧
      (inc.universal && !h.universal) = false := by
    have hu := hle.1
    cases hi : inc.universal with
    | false => simp
    | true => simp [hu hi]
  rw [absorb, hflag.1, hflag.2]
  exact absorbEntries_of_upTo fun e he => hle.2 e.1 e.2 (hinc.get?_of_mem he)

/-! ### Absorbing under the strict policy -/

section Strict

variable {holds : Comparison}

theorem absorbEntries_below {es : List (Atom × List Ty)} {h h' : Holding} {grew grew' : Bool}
    (hvar : ∀ e ∈ es, ∀ i, e.1.variance i ≠ .contravariant)
    (hd : absorbEntries .strict holds es h grew = .ok (.done h' grew')) :
    Instantiations.Below h.atoms h'.atoms := by
  refine absorbEntries_invariant (I := Instantiations.Below h.atoms) ?_ ?_ (.refl _) hd
  · intro e _ t hnone ht
    refine ht.insert_right fun old hold => ?_
    rw [hnone] at hold
    cases hold
  · intro e he t old m hget hm _ ht
    refine ht.insert_right fun old' hold => ?_
    cases hget.symm.trans hold
    exact (Payload.merge_strict_some (hvar e he) hm).1

theorem absorbEntries_upTo : ∀ {es : List (Atom × List Ty)} {h h' : Holding} {grew grew' : Bool},
    (∀ e ∈ es, ∀ i, e.1.variance i ≠ .contravariant) →
    absorbEntries .strict holds es h grew = .ok (.done h' grew') →
    ∀ e ∈ es, ∃ args, h'.atoms.get? e.1 = some args ∧ Payload.UpTo e.2 args := by
  intro es
  induction es with
  | nil => intro h h' grew grew' _ _ e he; cases he
  | cons d rest ih =>
      intro h h' grew grew' hvar hd e he
      obtain ⟨atom, args⟩ := d
      have hrest : ∀ e ∈ rest, ∀ i, e.1.variance i ≠ .contravariant :=
        fun e he => hvar e (by simp [he])
      -- What the first entry leaves behind, the others keep.
      have hkeep : ∀ {k : Holding} {g : Bool} {args' : List Ty},
          absorbEntries .strict holds rest k g = .ok (.done h' grew') →
          k.atoms.get? atom = some args' → Payload.UpTo args args' →
          ∃ args', h'.atoms.get? atom = some args' ∧ Payload.UpTo args args' := by
        intro k g args' hk hget hup
        obtain ⟨args'', hget', hup'⟩ := absorbEntries_below hrest hk atom args' hget
        exact ⟨args'', hget', hup.trans hup'⟩
      rcases absorbEntries_cons hd with ⟨hget, hr⟩ | ⟨old, m, hget, hm, hcase⟩
      · rcases List.mem_cons.1 he with rfl | he
        · exact hkeep hr (Table.get?_insert_self ..) (.refl _)
        · exact ih hrest hr e he
      · obtain ⟨_, hup, _⟩ := Payload.merge_strict_some (hvar (atom, args) (by simp)) hm
        rcases hcase with ⟨hsame, hr⟩ | ⟨_, hr⟩
        · rcases List.mem_cons.1 he with rfl | he
          · exact hkeep hr hget (hup.trans (Or.inr hsame))
          · exact ih hrest hr e he
        · rcases List.mem_cons.1 he with rfl | he
          · exact hkeep hr (Table.get?_insert_self ..) hup
          · exact ih hrest hr e he

/-- Absorbing joins. -/
theorem absorb_isLUB {h inc h' : Holding} {grew : Bool}
    (hvar : ∀ e ∈ inc.atoms.entries, ∀ i, e.1.variance i ≠ .contravariant)
    (hinc : inc.atoms.Distinct) (hd : h.absorb .strict holds inc = .ok (.done h' grew)) :
    IsLUB {h, inc} h' := by
  obtain ⟨hu, -, -⟩ := absorb_done hd
  have hes := hd
  rw [absorb] at hes
  have hbelow := absorbEntries_below hvar hes
  refine ⟨?_, fun k hk => ?_⟩
  · rintro x (rfl | rfl)
    · exact ⟨fun hx => by rw [hu, hx, Bool.true_or], hbelow⟩
    · refine ⟨fun hx => by rw [hu, hx, Bool.or_true], fun a args hget => ?_⟩
      obtain ⟨b, hb, hba⟩ := Table.mem_of_get? hget
      obtain ⟨args', hget', hup⟩ := absorbEntries_upTo hvar hes _ hb
      exact ⟨args', Table.get?_congr h'.atoms hba ▸ hget', hup⟩
  · have hhk : h ≤ k := hk (by simp)
    have hik : inc ≤ k := hk (by simp)
    have hentry : ∀ e ∈ inc.atoms.entries,
        ∃ args, k.atoms.get? e.1 = some args ∧ Payload.UpTo e.2 args :=
      fun e he => hik.2 e.1 e.2 (hinc.get?_of_mem he)
    refine ⟨fun hx => ?_, ?_⟩
    · rw [hu, Bool.or_eq_true] at hx
      exact hx.elim hhk.1 hik.1
    · exact absorb_invariant (I := fun t => Instantiations.Below t k.atoms)
        (fun e he t _ ht => ht.insert (hentry e he))
        (fun e he t old m hold hm _ ht => ht.merge (hvar e he) hold (hentry e he) hm) hhk.2 hd

/-- What becomes of two lists of an atom that do not merge. -/
def refuse (a : Atom) (old new : List Ty) : Except Fault Absorbed :=
  match a with
  | .classifier c => .ok (.clash c old new)
  | .var v => .error (.argumentsOnVariable v)

/-- Absorbing ends with all entries taken in, or with one that does not merge
into what was held when its turn came. An invariant holds up to there. -/
theorem absorbEntries_cases {I : Instantiations → Prop} {es : List (Atom × List Ty)}
    (hvar : ∀ e ∈ es, ∀ i, e.1.variance i ≠ .contravariant)
    (hnew : ∀ e ∈ es, ∀ t : Instantiations, t.get? e.1 = none → I t → I (t.insert e.1 e.2))
    (hmerge : ∀ e ∈ es, ∀ (t : Instantiations) (old m : List Ty), t.get? e.1 = some old →
      Payload.merge .strict holds e.1 old e.2 = .ok (some m) → I t → I (t.insert e.1 m)) :
    ∀ {h : Holding} {grew : Bool}, I h.atoms →
      (∃ h' grew', absorbEntries .strict holds es h grew = .ok (.done h' grew')) ∨
      ∃ e ∈ es, ∃ t old, I t ∧ t.get? e.1 = some old ∧
        Payload.merge .strict holds e.1 old e.2 = .ok none ∧
        absorbEntries .strict holds es h grew = refuse e.1 old e.2 := by
  induction es with
  | nil => intro h grew _; exact Or.inl ⟨h, grew, rfl⟩
  | cons e rest ih =>
      intro h grew hi
      obtain ⟨atom, args⟩ := e
      replace ih := @ih (fun d hd => hvar d (by simp [hd])) (fun d hd => hnew d (by simp [hd]))
        (fun d hd => hmerge d (by simp [hd]))
      have hrest : ∀ (k : Holding) (g : Bool), I k.atoms →
          absorbEntries .strict holds ((atom, args) :: rest) h grew =
            absorbEntries .strict holds rest k g →
          (∃ h' grew', absorbEntries .strict holds ((atom, args) :: rest) h grew =
            .ok (.done h' grew')) ∨
          ∃ e ∈ (atom, args) :: rest, ∃ t old, I t ∧ t.get? e.1 = some old ∧
            Payload.merge .strict holds e.1 old e.2 = .ok none ∧
            absorbEntries .strict holds ((atom, args) :: rest) h grew = refuse e.1 old e.2 := by
        intro k g hk heq
        rw [heq]
        refine (ih hk).imp_right ?_
        rintro ⟨e, he, hstuck⟩
        exact ⟨e, by simp [he], hstuck⟩
      cases hget : h.atoms.get? atom with
      | none =>
          refine hrest { h with atoms := h.atoms.insert atom args } true
            (hnew (atom, args) (by simp) _ hget hi) ?_
          rw [absorbEntries, hget]
      | some old =>
          cases hm : Payload.merge .strict holds atom old args with
          | error f => rw [Payload.merge_strict (hvar (atom, args) (by simp))] at hm; cases hm
          | ok merged =>
              cases merged with
              | none =>
                  refine Or.inr ⟨(atom, args), by simp, h.atoms, old, hi, hget, hm, ?_⟩
                  rw [absorbEntries, hget]
                  simp only [hm, bind, Except.bind]
                  cases atom <;> rfl
              | some m =>
                  cases hsame : m == old with
                  | true =>
                      refine hrest h grew hi ?_
                      rw [absorbEntries, hget]
                      simp only [hm, bind, Except.bind, hsame, if_true]
                  | false =>
                      refine hrest { h with atoms := h.atoms.insert atom m } true
                        (hmerge (atom, args) (by simp) _ old m hget hm hi) ?_
                      rw [absorbEntries, hget]
                      simp only [hm, bind, Except.bind, hsame, Bool.false_eq_true, if_false]

/-- What lies below something together with what is held is absorbed. -/
theorem absorb_of_bounded {h inc k : Holding}
    (hvar : ∀ e ∈ inc.atoms.entries, ∀ i, e.1.variance i ≠ .contravariant)
    (hinc : inc.atoms.Distinct) (hhk : h ≤ k) (hik : inc ≤ k) :
    ∃ h' grew, h.absorb .strict holds inc = .ok (.done h' grew) := by
  have hentry : ∀ e ∈ inc.atoms.entries,
      ∃ args, k.atoms.get? e.1 = some args ∧ Payload.UpTo e.2 args :=
    fun e he => hik.2 e.1 e.2 (hinc.get?_of_mem he)
  rw [absorb]
  refine (absorbEntries_cases (I := fun t => Instantiations.Below t k.atoms) hvar
    (fun e he t _ ht => ht.insert (hentry e he))
    (fun e he t old m hold hm ht => ht.merge (hvar e he) hold (hentry e he) hm)
    (h := ⟨h.atoms, h.universal || inc.universal⟩) hhk.2).resolve_right ?_
  rintro ⟨e, he, t, old, ht, hold, hm, -⟩
  obtain ⟨args, hget, hup⟩ := hentry e he
  obtain ⟨args', hget', hup'⟩ := ht e.1 old hold
  cases hget.symm.trans hget'
  obtain ⟨hold, hinc, hne⟩ := Payload.merge_strict_none (hvar e he) hm
  rw [hup'.beq hup hold hinc] at hne
  cases hne

end Strict

end Holding

end Fallible
