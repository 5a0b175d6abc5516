import Fallible.Proofs.Unfolding
import Mathlib.Data.List.Chain
import Mathlib.Data.List.Nodup
import Mathlib.Logic.Relation

/-!
# When writing out ends

Writing a type out follows chains of bindings, each no longer than the number of
bindings. This file says when that is enough. A projection leads to those that
the type it is bound to mentions. If no projection leads back to itself, a chain
has no projection twice, so writing out ends on every type; and if it ends on
every type, no projection leads back to itself.

Type variables that have not been split do not count. Writing out passes them by,
so a projection may be bound to a type that mentions its own type variable.

Where writing out ends, its result no longer speaks of depth: a bound projection
is written out as what it is bound to, and what a value comes down to is not
bound itself.
-/

namespace Fallible

namespace Bindings

/-! ## Writing out to a larger depth -/

theorem unfoldAllWith_ok {image : String → Option (Except Fault Ty)} {ts us : List Ty}
    (h : unfoldAllWith image ts = .ok us) :
    ∃ g : Ty → Ty, (∀ t ∈ ts, unfoldWith image t = .ok (g t)) ∧ us = ts.map g := by
  refine ⟨fun t => (unfoldWith image t).toOption.getD t, ?_⟩
  induction ts generalizing us with
  | nil => cases h; exact ⟨fun _ ht => absurd ht List.not_mem_nil, rfl⟩
  | cons t ts ih =>
      rw [unfoldAllWith] at h
      cases ht : unfoldWith image t with
      | error f => rw [ht] at h; cases h
      | ok u =>
          rw [ht] at h
          cases hts : unfoldAllWith image ts with
          | error f => rw [hts] at h; cases h
          | ok us' =>
              rw [hts] at h
              cases h
              obtain ⟨hall, rfl⟩ := ih hts
              refine ⟨fun x hx => ?_, ?_⟩
              · rcases List.mem_cons.1 hx with rfl | hx
                · simp [ht, Except.toOption]
                · exact hall x hx
              · rw [List.map_cons, ht]; rfl

/-- Whether an image writes out the same projections as another, and whatever
the other writes out it writes out the same. -/
def ImageBelow (image other : String → Option (Except Fault Ty)) : Prop :=
  ∀ name, (image name = none → other name = none) ∧
    ∀ t, image name = some (.ok t) → other name = some (.ok t)

theorem unfoldWith_mono {image other : String → Option (Except Fault Ty)}
    (h : ImageBelow image other) {t u : Ty} (ht : unfoldWith image t = .ok u) :
    unfoldWith other t = .ok u := by
  induction t generalizing u with
  | union ms ih | con c ms ih | errorConst c ms ih =>
      rw [unfoldWith] at ht ⊢
      cases hms : unfoldAllWith image ms with
      | error f => rw [hms] at ht; cases ht
      | ok us =>
          rw [hms] at ht
          obtain ⟨g, hg, rfl⟩ := unfoldAllWith_ok hms
          rw [unfoldAllWith_of_forall fun m hm => ih m hm (hg m hm)]
          exact ht
  | valueProj name flexible =>
      cases flexible with
      | false => exact ht
      | true =>
          rw [unfoldWith, if_pos rfl] at ht ⊢
          cases hi : image name with
          | none => rw [hi] at ht; rw [(h name).1 hi]; exact ht
          | some r =>
              rw [hi, Option.getD_some] at ht
              rw [ht] at hi
              rw [(h name).2 u hi, Option.getD_some]
  | _ => exact ht

theorem imageWithin_mono (b : Bindings) {j k : Nat} (hjk : j ≤ k) :
    ImageBelow (b.imageWithin j) (b.imageWithin k) := by
  refine fun name => ⟨fun h => imageWithin_eq_none.2 (imageWithin_eq_none.1 h), ?_⟩
  induction j generalizing k name with
  | zero =>
      intro t h
      rw [imageWithin] at h
      cases hg : b.table.get? name <;> rw [hg] at h <;> cases h
  | succ j ih =>
      intro t h
      obtain ⟨k, rfl⟩ : ∃ i, k = i + 1 := ⟨k - 1, by omega⟩
      rw [imageWithin] at h ⊢
      cases hg : b.table.get? name with
      | none => rw [hg] at h; cases h
      | some u =>
          rw [hg, Option.map_some, Option.some.injEq] at h
          have hbelow : ImageBelow (b.imageWithin j) (b.imageWithin k) := fun n =>
            ⟨fun h => imageWithin_eq_none.2 (imageWithin_eq_none.1 h), ih (by omega) n⟩
          rw [Option.map_some, unfoldWith_mono hbelow h]

/-! ## The arguments of what is written out -/

/-- An argument of what is written out is an argument written out, or comes from
what a projection is written out to. -/
theorem mem_arguments_unfoldWith {image : String → Option (Except Fault Ty)} {t u a : Ty}
    (h : unfoldWith image t = .ok u) (ha : a ∈ u.arguments) :
    (∃ x ∈ t.arguments, unfoldWith image x = .ok a) ∨
      ∃ name x, image name = some (.ok x) ∧ a ∈ x.arguments := by
  induction t generalizing u with
  | union ms ih =>
      rw [unfoldWith] at h
      cases hms : unfoldAllWith image ms with
      | error f => rw [hms] at h; cases h
      | ok us =>
          rw [hms] at h
          cases h
          obtain ⟨g, hg, rfl⟩ := unfoldAllWith_ok hms
          obtain ⟨_, hgm, ha⟩ := Ty.mem_arguments_unionOf ha
          obtain ⟨m, hm, rfl⟩ := List.mem_map.1 hgm
          refine (ih m hm (hg m hm) ha).imp_left ?_
          rintro ⟨x, hx, hxa⟩
          exact ⟨x, Ty.mem_argumentsAll.2 ⟨m, hm, hx⟩, hxa⟩
  | con c ms ih | errorConst c ms ih =>
      rw [unfoldWith] at h
      cases hms : unfoldAllWith image ms with
      | error f => rw [hms] at h; cases h
      | ok us =>
          rw [hms] at h
          cases h
          obtain ⟨g, hg, rfl⟩ := unfoldAllWith_ok hms
          rw [Ty.arguments, List.mem_append] at ha
          rcases ha with ha | ha
          · obtain ⟨m, hm, rfl⟩ := List.mem_map.1 ha
            exact Or.inl ⟨m, List.mem_append_left _ hm, hg m hm⟩
          · obtain ⟨_, hgm, ha⟩ := Ty.mem_argumentsAll.1 ha
            obtain ⟨m, hm, rfl⟩ := List.mem_map.1 hgm
            refine (ih m hm (hg m hm) ha).imp_left ?_
            rintro ⟨x, hx, hxa⟩
            exact ⟨x, List.mem_append_right _ (Ty.mem_argumentsAll.2 ⟨m, hm, hx⟩), hxa⟩
  | valueProj name flexible =>
      cases flexible with
      | false => cases h; exact absurd ha List.not_mem_nil
      | true =>
          rw [unfoldWith, if_pos rfl] at h
          cases hi : image name with
          | none => rw [hi] at h; cases h; exact absurd ha List.not_mem_nil
          | some r =>
              rw [hi, Option.getD_some] at h
              exact Or.inr ⟨name, u, by rw [hi, h], ha⟩
  | _ => cases h; exact absurd ha List.not_mem_nil

theorem mem_arguments_of_get? {b : Bindings} {name : String} {t a : Ty}
    (h : b.table.get? name = some t) (ha : a ∈ t.arguments) : a ∈ b.arguments := by
  obtain ⟨k, hk, _⟩ := Table.mem_of_get? h
  exact Ty.mem_argumentsAll.2 ⟨t, List.mem_map.2 ⟨_, hk, rfl⟩, ha⟩

/-- An argument of what a projection stands for is an argument of a bound type,
written out. -/
theorem mem_arguments_imageWithin {b : Bindings} {k : Nat} {name : String} {u a : Ty}
    (h : b.imageWithin k name = some (.ok u)) (ha : a ∈ u.arguments) :
    ∃ x ∈ b.arguments, unfoldWith (b.imageWithin k) x = .ok a := by
  induction k generalizing name u with
  | zero =>
      rw [imageWithin] at h
      cases hg : b.table.get? name <;> rw [hg] at h <;> cases h
  | succ k ih =>
      have hup : ∀ {x : Ty}, unfoldWith (b.imageWithin k) x = .ok a →
          unfoldWith (b.imageWithin (k + 1)) x = .ok a :=
        fun hx => unfoldWith_mono (b.imageWithin_mono (Nat.le_succ k)) hx
      rw [imageWithin] at h
      cases hg : b.table.get? name with
      | none => rw [hg] at h; cases h
      | some t =>
          rw [hg, Option.map_some, Option.some.injEq] at h
          rcases mem_arguments_unfoldWith h ha with ⟨x, hx, hxa⟩ | ⟨n, x, hn, hxa⟩
          · exact ⟨x, mem_arguments_of_get? hg hx, hup hxa⟩
          · obtain ⟨y, hy, hya⟩ := ih hn hxa
            exact ⟨y, hy, hup hya⟩

/-! ## Chains of bindings -/

/-- Whether what a projection is bound to mentions another projection. -/
def Leads (b : Bindings) (n m : String) : Prop :=
  ∃ t, b.table.get? n = some t ∧ .valueProj m true ∈ t.unknowns

/-- Whether no projection leads back to itself. -/
def Acyclic (b : Bindings) : Prop := ∀ n, ¬ Relation.TransGen b.Leads n n

/-- Writing out fails only at a projection that cannot be written out. -/
theorem unfoldWith_ok_iff {image : String → Option (Except Fault Ty)} {t : Ty} :
    (∃ u, unfoldWith image t = .ok u) ↔
      ∀ name, .valueProj name true ∈ t.unknowns → ∀ f, image name ≠ some (.error f) := by
  refine ⟨fun ⟨u, hu⟩ => ?_, fun h => ⟨_, unfoldWith_eq_graft h⟩⟩
  induction t generalizing u with
  | union ms ih | con c ms ih | errorConst c ms ih =>
      intro name hn
      obtain ⟨m, hm, hn⟩ := Ty.mem_unknownsAll.1 hn
      rw [unfoldWith] at hu
      cases hms : unfoldAllWith image ms with
      | error f => rw [hms] at hu; cases hu
      | ok us =>
          obtain ⟨g, hg, rfl⟩ := unfoldAllWith_ok hms
          exact ih m hm ⟨g m, hg m hm⟩ (g m) (hg m hm) name hn
  | valueProj n flexible =>
      intro name hn f hf
      cases List.mem_singleton.1 hn
      rw [unfoldWith, if_pos rfl, hf] at hu
      cases hu
  | _ =>
      intro name hn
      simp [Ty.unknowns] at hn

theorem not_leads_of_free {b : Bindings} {n m : String} (h : b.contains n = false) :
    ¬ b.Leads n m := by
  rintro ⟨t, ht, _⟩
  rw [Table.get?_eq_none.2 h] at ht
  cases ht

theorem contains_of_image {b : Bindings} {k : Nat} {n : String} {r : Except Fault Ty}
    (h : b.imageWithin k n = some r) : b.contains n = true := by
  rw [← Bool.not_eq_false]
  intro hfree
  rw [imageWithin_eq_none.2 hfree] at h
  cases h

/-- A projection that is not written out in chains of some length begins a chain
that is longer. -/
theorem chain_of_endless {b : Bindings} {k : Nat} {n : String} {f : Fault}
    (h : b.imageWithin k n = some (.error f)) :
    ∃ l, (n :: l).IsChain b.Leads ∧ l.length = k ∧ ∀ m ∈ n :: l, b.contains m = true := by
  have hbound := contains_of_image h
  induction k generalizing n f with
  | zero => exact ⟨[], .singleton n, rfl, by simpa using hbound⟩
  | succ k ih =>
      rw [imageWithin] at h
      obtain ⟨t, ht⟩ := Table.get?_of_contains hbound
      rw [ht, Option.map_some, Option.some.injEq] at h
      have hnot : ¬ ∃ u, unfoldWith (b.imageWithin k) t = .ok u := by
        rintro ⟨u, hu⟩
        rw [hu] at h
        cases h
      rw [unfoldWith_ok_iff] at hnot
      push Not at hnot
      obtain ⟨m, hm, g, hg⟩ := hnot
      obtain ⟨l, hchain, hlen, hall⟩ := ih hg (contains_of_image hg)
      refine ⟨m :: l, .cons_cons ⟨t, ht, hm⟩ hchain, by rw [List.length_cons, hlen], ?_⟩
      exact List.forall_mem_cons.2 ⟨hbound, hall⟩

/-- Along a chain without return every projection stands once, so the chain has no
more of them than are bound. -/
theorem Acyclic.image {b : Bindings} (hb : b.Acyclic) (n : String) (f : Fault) :
    b.imageWithin b.table.size n ≠ some (.error f) := by
  intro h
  obtain ⟨l, hchain, hlen, hall⟩ := chain_of_endless h
  have hpair : (n :: l).Pairwise (Relation.TransGen b.Leads) :=
    List.isChain_iff_pairwise.1 (hchain.imp fun _ _ => .single)
  have hnodup : (n :: l).Nodup := by
    refine hpair.imp fun {x y} hxy => ?_
    rintro rfl
    exact hb x hxy
  have hkeys : n :: l ⊆ b.table.keys := by
    intro m hm
    have hc := hall m hm
    rw [contains, Table.contains_eq_any_keys] at hc
    obtain ⟨k, hk, hkm⟩ := List.any_eq_true.1 hc
    rwa [← beq_iff_eq.1 hkm]
  have hle := (List.subperm_of_subset hnodup hkeys).length_le
  rw [List.length_cons, hlen, Table.keys, List.length_map] at hle
  exact absurd hle (Nat.not_succ_le_self _)

/-- Writing out ends on every type. -/
theorem Acyclic.apply {b : Bindings} (hb : b.Acyclic) (t : Ty) : b.apply t = .ok (b.written t) :=
  unfoldWith_eq_graft fun name _ f => hb.image name f

theorem Acyclic.follow {v : View} (hb : v.bindings.Acyclic) (t : Ty) :
    v.follow t = .ok (v.bindings.followed t) := by
  cases t with
  | valueProj name flexible => exact hb.apply _
  | _ => rfl

/-- What holds of a projection as soon as it holds of all that it leads to holds of
every projection that can be written out. -/
theorem induct_of_image {b : Bindings} {P : String → Prop}
    (h : ∀ n, (∀ m, b.Leads n m → P m) → P n) :
    ∀ (k : Nat) (n : String), (∀ f, b.imageWithin k n ≠ some (.error f)) → P n := by
  intro k
  induction k with
  | zero =>
      intro n hn
      refine h n fun m hm => absurd hm (not_leads_of_free ?_)
      rw [← imageWithin_eq_none (k := 0)]
      cases hi : b.imageWithin 0 n with
      | none => rfl
      | some r =>
          obtain ⟨t, ht⟩ := Table.get?_of_contains (contains_of_image hi)
          exact absurd (by rw [imageWithin, ht]; rfl) (hn .endless)
  | succ k ih =>
      intro n hn
      refine h n fun m hm => ih m ?_
      obtain ⟨t, ht, hm⟩ := hm
      have hok : ∃ u, unfoldWith (b.imageWithin k) t = .ok u := by
        cases hu : unfoldWith (b.imageWithin k) t with
        | ok u => exact ⟨u, rfl⟩
        | error f => exact absurd (by rw [imageWithin, ht, Option.map_some, hu]) (hn f)
      exact unfoldWith_ok_iff.1 hok m hm

/-- Induction along the bindings. -/
theorem Acyclic.induct {b : Bindings} (hb : b.Acyclic) {P : String → Prop}
    (h : ∀ n, (∀ m, b.Leads n m → P m) → P n) (n : String) : P n :=
  induct_of_image h b.table.size n (hb.image n)

theorem acyclic_of_image {b : Bindings}
    (h : ∀ n f, b.imageWithin b.table.size n ≠ some (.error f)) : b.Acyclic := by
  intro n
  refine induct_of_image (b := b) (P := fun n => ¬ Relation.TransGen b.Leads n n) ?_
    b.table.size n (h n)
  -- A projection on a cycle leads to one that is on it too.
  intro n ih hn
  obtain ⟨m, hm, hmn⟩ := Relation.TransGen.head'_iff.1 hn
  exact ih m hm (Relation.TransGen.tail' hmn hm)

/-- Writing out ends on every type exactly if no projection leads back to itself. -/
theorem acyclic_iff_apply {b : Bindings} : b.Acyclic ↔ ∀ t, ∃ u, b.apply t = .ok u := by
  refine ⟨fun hb t => ⟨_, hb.apply t⟩, fun h => acyclic_of_image fun n => ?_⟩
  exact unfoldWith_ok_iff.1 (h (.valueProj n true)) n List.mem_cons_self

/-- It is enough to write out the projections that are bound. -/
theorem acyclic_iff_keys {b : Bindings} :
    b.Acyclic ↔ ∀ n ∈ b.table.keys, (b.apply (.valueProj n true)).toBool = true := by
  refine ⟨fun hb n _ => by rw [hb.apply]; rfl, fun h => acyclic_of_image fun n f hf => ?_⟩
  have hn := contains_of_image hf
  rw [contains, Table.contains_eq_any_keys] at hn
  obtain ⟨k, hk, hkn⟩ := List.any_eq_true.1 hn
  have hok := h k hk
  rw [beq_iff_eq.1 hkn, Bindings.apply, unfoldWith, if_pos rfl, hf] at hok
  cases hok

instance (b : Bindings) : Decidable b.Acyclic := decidable_of_iff _ acyclic_iff_keys.symm

/-! ## What is written out -/

section Acyclic

variable {b : Bindings} (hb : b.Acyclic)

include hb

/-- A bound projection is written out as what it is bound to. -/
theorem Acyclic.written_bound {n : String} {t : Ty} (h : b.table.get? n = some t) :
    b.written (.valueProj n true) = b.written t := by
  obtain ⟨k, hk⟩ : ∃ k, b.table.size = k + 1 := by
    obtain ⟨key, hmem, _⟩ := Table.mem_of_get? h
    have := List.length_pos_of_mem hmem
    exact ⟨b.table.size - 1, by unfold Table.size; omega⟩
  have himage : b.imageWithin b.table.size n = some (unfoldWith (b.imageWithin k) t) := by
    rw [hk, imageWithin, h, Option.map_some]
  cases hu : unfoldWith (b.imageWithin k) t with
  | error f => rw [hu] at himage; exact absurd himage (hb.image n f)
  | ok u =>
      rw [hu] at himage
      have happly : b.apply t = .ok u := by
        rw [Bindings.apply, hk]
        exact unfoldWith_mono (b.imageWithin_mono (Nat.le_succ k)) hu
      rw [hb.apply t] at happly
      rw [written, Ty.graft, leafOf, himage, Except.ok.inj happly]

omit hb in
theorem written_free {n : String} (h : b.contains n = false) :
    b.written (.valueProj n true) = .valueProj n true := by
  rw [written, Ty.graft, leafOf, imageWithin_eq_none.2 h]

/-- A projection that is written out as a projection is written out as one that is
not bound. -/
theorem Acyclic.free_of_written {n m : String}
    (h : b.written (.valueProj n true) = .valueProj m true) : b.contains m = false := by
  refine hb.induct (P := fun n => ∀ m, b.written (.valueProj n true) = .valueProj m true →
    b.contains m = false) ?_ n m h
  intro n ih m hm
  cases hn : b.contains n with
  | false =>
      rw [written_free hn] at hm
      cases hm
      exact hn
  | true =>
      obtain ⟨t, ht⟩ := Table.get?_of_contains hn
      rw [hb.written_bound ht] at hm
      cases t with
      | valueProj k flexible =>
          cases flexible with
          | true => exact ih k ⟨_, ht, List.mem_cons_self⟩ m hm
          | false => cases hm
      | _ => cases hm

/-- What a value comes down to comes down to itself. -/
theorem Acyclic.followed_followed (x : Ty) : b.followed (b.followed x) = b.followed x := by
  cases x with
  | valueProj n flexible =>
      cases flexible with
      | false => rfl
      | true =>
          cases hw : b.followed (.valueProj n true) with
          | valueProj m flexible =>
              cases flexible with
              | false => rfl
              | true => exact written_free (hb.free_of_written hw)
          | _ => rfl
  | _ => rfl

end Acyclic

/-! ## More bindings -/

/-- Whether all that is bound stays bound to the same. -/
def Extends (b b' : Bindings) : Prop :=
  ∀ n t, b.table.get? n = some t → b'.table.get? n = some t

theorem Extends.refl (b : Bindings) : b.Extends b := fun _ _ h => h

theorem Extends.trans {a b c : Bindings} (h : a.Extends b) (k : b.Extends c) : a.Extends c :=
  fun n t hn => k n t (h n t hn)

theorem extends_bind {b : Bindings} {name : String} (t : Ty) (h : b.contains name = false) :
    b.Extends (b.bind name t) := by
  intro n u hn
  rw [get?_bind, if_neg, hn]
  rintro rfl
  rw [Table.get?_eq_none.2 h] at hn
  cases hn

theorem Acyclic.of_extends {b b' : Bindings} (hb : b'.Acyclic) (h : b.Extends b') : b.Acyclic :=
  fun n hn => hb n (hn.lift id fun _ _ ⟨t, ht, hm⟩ => ⟨t, h _ t ht, hm⟩)

end Bindings

end Fallible
