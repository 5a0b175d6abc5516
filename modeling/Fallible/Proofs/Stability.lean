import Fallible.Proofs.LaterBindings
import Fallible.Proofs.Queries

/-!
# Answers that stay

An engine without a solution compares types one after another, and each
comparison may bind a projection. Once it has answered that one type covers
another it could answer so again, now and after any further comparison. Binding a
projection makes it interchangeable with what it is bound to, so the comparison
that bound it holds by what it bound; and later bindings keep what holds.

Bindings stay simple: projections are bound to values, in which no union has two
values.
-/

namespace Fallible

/-! ## Bindings stay simple -/

/-- Whether projections are bound to values in which no union has two values. -/
structure Bindings.Simple (b : Bindings) : Prop where
  values : b.ValuesOnly
  oneValued : b.OneValued

namespace Bindings.Simple

variable {b b' : Bindings}

theorem oneValued_written (h : b.Simple) (hb : b.Acyclic) (n : String) :
    (b.written (.valueProj n true)).OneValued := by
  refine hb.induct (P := fun n => (b.written (.valueProj n true)).OneValued) (fun n ih => ?_) n
  cases hn : b.contains n with
  | false =>
      rw [written_free hn]
      exact fun u hu => by rw [List.mem_singleton.1 hu]; exact Nat.le_refl _
  | true =>
      obtain ⟨t, ht⟩ := Table.get?_of_contains hn
      rw [hb.written_bound ht]
      exact (h.oneValued n t ht).graft (harmless_written hb h.values) (fun _ => rfl)
        fun m hm => ih m ⟨t, ht, hm⟩

theorem oneValued_followed (h : b.Simple) (hb : b.Acyclic) {x : Ty} (hx : x.OneValued) :
    (b.followed x).OneValued := by
  cases x with
  | valueProj n flexible =>
      cases flexible with
      | true => exact h.oneValued_written hb n
      | false => exact hx
  | _ => exact hx

theorem bind (h : b.Simple) (name : String) {t : Ty} (hv : t.ValueOnly) (hone : t.OneValued) :
    (b.bind name t).Simple := by
  constructor
  all_goals
    intro n u hu
    rw [get?_bind] at hu
    split at hu
  · cases hu; exact hv
  · exact h.values n u hu
  · cases hu; exact hone
  · exact h.oneValued n u hu

/-- A comparison leaves simple bindings simple. -/
theorem leaves (h : b.Simple) (hb : b.Acyclic) {order : ValueOrder} {s : Solution} {sup sub : Ty}
    (hsup : sup.OneValued) (hsub : sub.OneValued)
    (hleaves : (View.mk order s b).Leaves sup sub b') : b'.Simple := by
  rcases hleaves with rfl | ⟨hf, name, t, htie, rfl⟩
  · exact h
  · rw [Bool.or_eq_false_iff] at hf
    have hside : ∀ {u : Ty}, u.failed = false → u.OneValued →
        (View.mk order s b).follow u.valuePart = .ok t → (b.bind name t).Simple := by
      intro u hfu hone hfollow
      rw [Acyclic.follow (v := ⟨order, s, b⟩) hb] at hfollow
      cases hfollow
      exact h.bind name (valueOnly_followed hb h.values (Ty.valueOnly_valuePart hfu))
        (h.oneValued_followed hb hone.valuePart)
    rcases htie.sides with ⟨_, ht⟩ | ⟨_, ht⟩
    · exact hside hf.2 hsub ht
    · exact hside hf.1 hsup ht

end Bindings.Simple

/-! ## An answer is true when it is given -/

section Given

variable {b b' : Bindings} {name : String} {t : Ty}

/-- Binding a projection makes the two values that were compared cover each other. -/
theorem covers_of_ties (hb' : (b.bind name t).Acyclic) (hs' : (b.bind name t).Simple) {x y : Ty}
    (h : (View.mk .classes .empty b).Ties x y name t) : Covers .empty (b.bind name t) x y := by
  have hext := Bindings.extends_bind t h.free
  have hfollow : ∀ {z w : Ty}, (View.mk .classes .empty b).follow z = .ok w →
      Interchangeable (Covers .empty (b.bind name t)) z w := by
    intro z w hzw
    rw [Bindings.Acyclic.follow (v := ⟨.classes, .empty, b⟩) (hb'.of_extends hext)] at hzw
    cases hzw
    exact interchangeable_followed_earlier hb' hs'.values hs'.oneValued hext z
  have hbound : Interchangeable (Covers .empty (b.bind name t)) (.valueProj name true) t :=
    interchangeable_bound hb' hs'.values hs'.oneValued (by rw [Bindings.get?_bind, if_pos rfl])
  have hxy : Interchangeable (Covers .empty (b.bind name t)) x y := by
    rcases h.sides with ⟨hx, hy⟩ | ⟨hy, hx⟩
    · exact ((hfollow hx).trans hbound).trans (hfollow hy).symm
    · exact ((hfollow hx).trans hbound.symm).trans (hfollow hy).symm
  exact (hxy y).1.2 (covers_of_beq hb' BEq.rfl)

/-- What an engine has just said to hold does hold. -/
theorem Engine.covers_of_check {obligations made : Option (List Constraint)} {sup sub : Ty}
    {location : Location} (hb' : b'.Acyclic) (hs' : b'.Simple)
    (h : (Engine.mk .classes .empty (some b) obligations).check sup sub location =
      (.ok .holds, ⟨.classes, .empty, some b', made⟩)) : Covers .empty b' sup sub := by
  rcases Engine.check_ok h with ⟨hf, _, _⟩ | ⟨_, _, hr⟩ | ⟨hf, e, hv, he⟩
  · rw [covers_bound_iff hb', ← or_assoc, ← Bool.or_eq_true]
    exact Or.inl hf
  · cases hr
  · obtain ⟨hc, hleft⟩ := Engine.compareErrors_ok he
    obtain rfl : ⟨.classes, .empty, some b', made⟩ = e := by
      rcases hleft with ⟨_, h⟩ | ⟨h, _⟩ | ⟨h, _⟩
      · exact h
      · cases h
      · cases h
    rw [Bool.or_eq_false_iff] at hf
    refine (covers_bound_iff hb').2 (Or.inr (Or.inr ⟨?_, (View.compareErrors_iff _ _).1 hc⟩))
    have hsup := Ty.valueOnly_valuePart hf.1
    have hsub := Ty.valueOnly_valuePart hf.2
    rcases Engine.compareValues_cases hv with ⟨he, hvalue⟩ | ⟨name, t, htie, _, he⟩
    · cases he
      exact (View.compareValues_iff_of_follow (v := ⟨.classes, .empty, b⟩) rfl _
        (Bindings.Acyclic.follow hb' _) (Bindings.Acyclic.follow hb' _)).1 (hvalue rfl rfl)
    · cases he
      exact (covers_values_iff hb' hsup hsub).1 (covers_of_ties hb' hs' htie)

end Given

/-! ## Runs -/

/-- Whether all unions in a type, at any depth, keep to the grammar. -/
def Ty.WellFormed (t : Ty) : Prop := ∀ u ∈ t.subterms, Grammar.violation? u = none

instance (t : Ty) : Decidable t.WellFormed :=
  inferInstanceAs (Decidable (∀ u ∈ t.subterms, Grammar.violation? u = none))

/-- Comparisons of types with one value each keep bindings simple, as long as
there is no cycle. -/
theorem Engine.askAll_simple {b b' : Bindings} {obligations made : Option (List Constraint)}
    {qs : List Query} (hqs : ∀ q ∈ qs, q.sup.OneValued ∧ q.sub.OneValued) (hs : b.Simple)
    (hrun : (Engine.mk .classes .empty (some b) obligations).askAll qs =
      ⟨.classes, .empty, some b', made⟩) (hb' : b'.Acyclic) : b'.Simple := by
  induction qs generalizing b obligations with
  | nil => cases hrun; exact hs
  | cons q qs ih =>
      obtain ⟨b₁, made₁, he₁, hleaves⟩ :=
        Engine.check_leaves .classes .empty b obligations q.sup q.sub q.location
      rw [askAll, ask, he₁] at hrun
      -- The bindings after the first comparison are among those at the end.
      obtain ⟨b₂, made₂, he₂, hext⟩ := Engine.askAll_extends .classes .empty b₁ made₁ qs
      rw [hrun] at he₂
      cases he₂
      have hb : b.Acyclic := (hb'.of_extends hext).of_extends hleaves.extends
      have hq := hqs q List.mem_cons_self
      exact ih (fun r hr => hqs r (List.mem_cons_of_mem _ hr)) (hs.leaves hb hq.1 hq.2 hleaves) hrun

/-- What an engine says to hold still holds after further comparisons. -/
theorem Engine.covers_of_ask {b b' : Bindings} {obligations made : Option (List Constraint)}
    {q : Query} {later : List Query}
    (hqs : ∀ r ∈ q :: later, r.sup.OneValued ∧ r.sub.OneValued) (hs : b.Simple)
    (hrun : (Engine.mk .classes .empty (some b) obligations).askAll (q :: later) =
      ⟨.classes, .empty, some b', made⟩) (hb' : b'.Acyclic)
    (hanswer : ((Engine.mk .classes .empty (some b) obligations).ask q).1 = .ok .holds) :
    Covers .empty b' q.sup q.sub := by
  have hs' := askAll_simple hqs hs hrun hb'
  obtain ⟨b₁, made₁, he₁, hleaves⟩ :=
    Engine.check_leaves .classes .empty b obligations q.sup q.sub q.location
  rw [askAll, ask, he₁] at hrun
  obtain ⟨b₂, made₂, he₂, hext⟩ := Engine.askAll_extends .classes .empty b₁ made₁ later
  rw [hrun] at he₂
  cases he₂
  have hb₁ := hb'.of_extends hext
  have hq := hqs q List.mem_cons_self
  have hs₁ := hs.leaves (hb₁.of_extends hleaves.extends) hq.1 hq.2 hleaves
  exact covers_of_extends hb' hs'.values hs'.oneValued hext _
    (Engine.covers_of_check hb₁ hs₁ (Prod.ext hanswer he₁))

/-- Once an engine has said that one type covers another it could say so again, then
and after any further comparison, and what it has bound stays bound to the same. -/
theorem holding_answers_stay {b : Bindings} {obligations : Option (List Constraint)}
    {qs : List Query} (hb : ∀ n t, b.table.get? n = some t → t.ValueOnly ∧ t.WellFormed)
    (hqs : ∀ q ∈ qs, q.sup.WellFormed ∧ q.sub.WellFormed)
    (hacyclic : ((Engine.mk .classes .empty (some b) obligations).askAll qs).view.bindings.Acyclic) :
    (∀ before later rest, qs = before ++ later ++ rest →
      ((Engine.mk .classes .empty (some b) obligations).askAll before).view.bindings.Extends
        ((Engine.mk .classes .empty (some b) obligations).askAll
          (before ++ later)).view.bindings) ∧
    ∀ before q later rest, qs = before ++ q :: later ++ rest →
      (((Engine.mk .classes .empty (some b) obligations).askAll before).ask q).1 = .ok .holds →
      ((Engine.mk .classes .empty (some b) obligations).askAll
        (before ++ q :: later)).view.holds q.sup q.sub = .ok true := by
  refine ⟨fun before later rest _ => ?_, fun before q later rest hsplit hanswer => ?_⟩
  · obtain ⟨b₁, made₁, he₁, _⟩ := Engine.askAll_extends .classes .empty b obligations before
    obtain ⟨b₂, made₂, he₂, hext⟩ := Engine.askAll_extends .classes .empty b₁ made₁ later
    rw [Engine.askAll_append, he₁, he₂]
    exact hext
  · -- The bindings before the comparison, at the later moment, and at the end.
    obtain ⟨b₁, made₁, he₁, _⟩ := Engine.askAll_extends .classes .empty b obligations before
    obtain ⟨b₂, made₂, he₂, hext₁⟩ :=
      Engine.askAll_extends .classes .empty b₁ made₁ (q :: later)
    obtain ⟨b₃, made₃, he₃, hext₂⟩ := Engine.askAll_extends .classes .empty b₂ made₂ rest
    rw [hsplit, Engine.askAll_append, Engine.askAll_append, he₁, he₂, he₃] at hacyclic
    have hb₂ : b₂.Acyclic := hacyclic.of_extends hext₂
    have hone : ∀ r ∈ qs, r.sup.OneValued ∧ r.sub.OneValued := fun r hr =>
      ⟨Ty.oneValued_of_wellFormed (hqs r hr).1, Ty.oneValued_of_wellFormed (hqs r hr).2⟩
    have hs : b.Simple :=
      ⟨fun n t ht => (hb n t ht).1, fun n t ht => Ty.oneValued_of_wellFormed (hb n t ht).2⟩
    rw [hsplit] at hone
    have hs₁ := Engine.askAll_simple (fun r hr => hone r (by simp [hr])) hs he₁
      (hb₂.of_extends hext₁)
    rw [he₁] at hanswer
    rw [Engine.askAll_append, he₁, he₂]
    exact Engine.covers_of_ask
      (fun r hr => hone r (List.mem_append_left _ (List.mem_append_right _ hr))) hs₁ he₂ hb₂
      hanswer

/-! A list is compared with a projection, then twice as a list with an error, and the
projection of its elements is bound in between. -/

def pileFault : Classifier := ⟨0, [], "A", [.covariant], none⟩

def pileOf (element : Ty) : Ty := .con (.named "pile") [element]

def pileQueries : List Query :=
  [⟨.valueProj "T" true, pileOf (.valueProj "U" true), .unknown⟩,
    ⟨.union [.valueProj "T" true, .errorConst pileFault [.valueProj "T" true]],
      .union [pileOf (.valueProj "U" true), .errorConst pileFault [pileOf (.valueProj "U" true)]],
      .unknown⟩,
    ⟨.valueProj "U" true, .con (.named "grain") [], .unknown⟩]

theorem holding_answers_stay_for_piles :
    (∀ q ∈ pileQueries, q.sup.WellFormed ∧ q.sub.WellFormed) ∧
    ((Engine.mk .classes .empty (some .empty) none).askAll pileQueries).view.bindings.Acyclic ∧
    ((Engine.mk .classes .empty (some .empty) none).askAll pileQueries).view.holds
      (.union [.valueProj "T" true, .errorConst pileFault [.valueProj "T" true]])
      (.union [pileOf (.valueProj "U" true), .errorConst pileFault [pileOf (.valueProj "U" true)]]) =
        .ok true := by
  have hqs : ∀ q ∈ pileQueries, q.sup.WellFormed ∧ q.sub.WellFormed := by decide
  have hacyclic : ((Engine.mk .classes .empty (some .empty) none).askAll
      pileQueries).view.bindings.Acyclic := by decide
  have hstay := holding_answers_stay (b := .empty) (fun n t h => by cases h) hqs hacyclic
  exact ⟨hqs, hacyclic, hstay.2 (pileQueries.take 1) _ (pileQueries.drop 2) [] rfl rfl⟩

end Fallible
