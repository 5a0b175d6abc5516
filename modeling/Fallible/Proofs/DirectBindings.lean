import Fallible.Proofs.Interchange
import Fallible.Proofs.Queries

/-!
# Bindings without cycles

No comparison asks whether a projection occurs in the type that it is about to be
bound to. There is no need to, as long as no projection stands inside the
arguments of a constructor. Before a projection is bound both values are followed
to their ends. At its end a value is a projection that is not bound, and another
one, or it mentions no projection at all. So no chain of bindings ever closes.
-/

namespace Fallible

/-! ## One more binding -/

namespace Bindings

variable {b : Bindings}

/-- Binding a projection to a type that mentions only others, none of them bound,
closes no cycle. -/
theorem Acyclic.bind (hb : b.Acyclic) {name : String} {t : Ty}
    (ht : ∀ m, .valueProj m true ∈ t.unknowns → m ≠ name ∧ b.contains m = false) :
    (b.bind name t).Acyclic := by
  -- A step to a projection that leads on is not the new one.
  have hold : ∀ {n m : String}, (b.bind name t).Leads n m →
      (∃ k, (b.bind name t).Leads m k) → b.Leads n m := by
    rintro n m ⟨u, hu, hm⟩ ⟨k, w, hw, _⟩
    rw [get?_bind] at hu hw
    split at hu
    · cases hu
      obtain ⟨hne, hmfree⟩ := ht m hm
      rw [if_neg (Ne.symm hne), Table.get?_eq_none.2 hmfree] at hw
      cases hw
    · exact ⟨u, hu, hm⟩
  have hpath : ∀ {n m : String}, Relation.TransGen (b.bind name t).Leads n m →
      (∃ k, (b.bind name t).Leads m k) → Relation.TransGen b.Leads n m := by
    intro n m h
    induction h with
    | single h => exact fun hon => .single (hold h hon)
    | tail _ h ih => exact fun hon => (ih ⟨_, h⟩).tail (hold h hon)
  intro n hn
  obtain ⟨m, hm, _⟩ := Relation.TransGen.head'_iff.1 hn
  exact hb n (hpath hn ⟨m, hm⟩)

end Bindings

/-! ## Types that mention no projection -/

namespace Ty

theorem projections_reopened {t : Ty} (h : t.projections = []) : t.reopened.projections = [] := by
  refine List.eq_nil_iff_forall_not_mem.2 fun name hn => ?_
  obtain ⟨x, hx, hn⟩ := mem_projections_graft.1 hn
  have hself : x.graft (fun y => y) = x := by
    rcases unknown_cases hx with ⟨_, _, rfl⟩ | ⟨_, rfl⟩ | ⟨_, _, rfl⟩ <;> rfl
  rw [hself] at hn
  have hmem := projections_of_mem_unknowns hx hn
  rw [h] at hmem
  cases hmem

/-- Whether the type is a flexible projection or mentions none. -/
def Direct (t : Ty) : Prop := (∃ name, t = .valueProj name true) ∨ t.projections = []

/-- Whether the type is no constructor with a flexible projection in its arguments. -/
def sheltered : Ty → Bool
  | .con _ args => (projectionsAll args).isEmpty
  | _ => true

/-- Whether no flexible projection stands inside the arguments of a constructor,
at any depth. -/
def Shielded (t : Ty) : Prop := ∀ u ∈ t.subterms, u.sheltered = true

instance (t : Ty) : Decidable t.Shielded :=
  inferInstanceAs (Decidable (∀ u ∈ t.subterms, u.sheltered = true))

theorem Shielded.direct {t : Ty} (h : t.Shielded) (hf : t.failed = false) : t.valuePart.Direct := by
  have hv := valueOnly_valuePart hf
  cases hval : t.valuePart with
  | con c args => exact Or.inr (List.isEmpty_iff.1 (h _ (con_mem_subterms hval)))
  | valueProj name flexible =>
      cases flexible with
      | true => exact Or.inl ⟨name, rfl⟩
      | false => exact Or.inr rfl
  | value | nothing => exact Or.inr rfl
  | _ => rcases hv with hv | hv <;> rw [hval] at hv <;> cases hv

end Ty

/-! ## Direct bindings -/

namespace Bindings

/-- Whether no projection leads back to itself and each is bound to a projection
or to a type that mentions none. -/
structure Direct (b : Bindings) : Prop where
  acyclic : b.Acyclic
  bound : ∀ n t, b.table.get? n = some t → t.Direct

/-- Whether the type that a projection is bound to mentions another, split or not. -/
def Mentions (b : Bindings) (n m : String) : Prop :=
  ∃ t, b.table.get? n = some t ∧ m ∈ t.projections

namespace Direct

variable {b b' : Bindings}

theorem empty : Direct .empty where
  acyclic := by decide
  bound _ _ h := by cases h

/-- Type variables that have not been split close no cycle either. -/
theorem not_mentions_cycle (h : b.Direct) (n : String) : ¬ Relation.TransGen b.Mentions n n := by
  intro hn
  refine h.acyclic n (hn.lift id fun x y hxy => ?_)
  obtain ⟨t, ht, hy⟩ := hxy
  rcases h.bound x t ht with ⟨m, rfl⟩ | hflat
  · exact ⟨_, ht, by rw [List.mem_singleton.1 hy]; exact List.mem_cons_self⟩
  · rw [hflat] at hy; cases hy

theorem written (h : b.Direct) (n : String) : (b.written (.valueProj n true)).Direct := by
  refine h.acyclic.induct (P := fun n => (b.written (.valueProj n true)).Direct)
    (fun n ih => ?_) n
  cases hn : b.contains n with
  | false => rw [written_free hn]; exact Or.inl ⟨n, rfl⟩
  | true =>
      obtain ⟨t, ht⟩ := Table.get?_of_contains hn
      rw [h.acyclic.written_bound ht]
      rcases h.bound n t ht with ⟨m, rfl⟩ | hflat
      · exact ih m ⟨_, ht, List.mem_cons_self⟩
      · have happly : b.apply t = .ok t.reopened := unfoldWith_of_flat _ hflat
        rw [h.acyclic.apply] at happly
        rw [Except.ok.inj happly]
        exact Or.inr (Ty.projections_reopened hflat)

theorem followed (h : b.Direct) {x : Ty} (hx : x.Direct) : (b.followed x).Direct := by
  cases x with
  | valueProj n flexible =>
      cases flexible with
      | true => exact h.written n
      | false => exact hx
  | _ => exact hx

/-- A comparison of shielded types leaves direct bindings direct. -/
theorem leaves (h : b.Direct) {order : ValueOrder} {s : Solution} {sup sub : Ty}
    (hsup : sup.Shielded) (hsub : sub.Shielded)
    (hleaves : (View.mk order s b).Leaves sup sub b') : b'.Direct := by
  rcases hleaves with rfl | ⟨hf, name, t, htie, rfl⟩
  · exact h
  · rw [Bool.or_eq_false_iff] at hf
    have hfollow : ∀ u, (View.mk order s b).follow u = .ok (b.followed u) :=
      Acyclic.follow (v := ⟨order, s, b⟩) h.acyclic
    obtain ⟨x, hx, rfl⟩ : ∃ x : Ty, x.Direct ∧ t = b.followed x := by
      rcases htie.sides with ⟨_, ht⟩ | ⟨_, ht⟩
      · rw [hfollow] at ht
        exact ⟨_, hsub.direct hf.2, (Except.ok.inj ht).symm⟩
      · rw [hfollow] at ht
        exact ⟨_, hsup.direct hf.1, (Except.ok.inj ht).symm⟩
    have hdirect := h.followed hx
    refine ⟨h.acyclic.bind fun m hm => ?_, fun n u hu => ?_⟩
    · rcases hdirect with ⟨k, hk⟩ | hflat
      · -- The value ends at another projection, which is not bound.
        rw [hk, Ty.unknowns, List.mem_singleton] at hm
        cases hm
        refine ⟨fun heq => htie.other (by rw [hk, heq]), ?_⟩
        have hend := h.acyclic.followed_followed x
        rw [hk] at hend
        exact h.acyclic.free_of_written hend
      · have hn := Ty.mem_projections_iff.2 (Or.inl hm)
        rw [hflat] at hn
        cases hn
    · rw [get?_bind] at hu
      split at hu
      · cases hu; exact hdirect
      · exact h.bound n u hu

end Direct

end Bindings

end Fallible
