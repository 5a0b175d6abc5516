import Fallible.Proofs.Grafting
import Fallible.Subtyping.Engine

/-!
# Bindings that can be written out

Nothing in the program keeps a projection from being bound to a type that
mentions it. Comparisons of types whose constructor arguments have no flexible
projections never do that. A projection is bound only when it is what a value
comes down to, and so not bound yet; and what it is bound to is another such
value. The bindings grown in this way have three properties that a session rests
on: writing out ends, what it ends in is not bound itself, and a later binding
changes it only where it ended in the projection that is now bound.
-/

namespace Fallible

namespace Ty

/-- Whether the flexible error variables of a type are among the known ones. -/
def Known (known : ErrorVar → Prop) (t : Ty) : Prop :=
  ∀ v ∈ t.mentions, v.flexible = true → known v

instance (known : ErrorVar → Prop) [DecidablePred known] (t : Ty) : Decidable (t.Known known) :=
  inferInstanceAs (Decidable (∀ v ∈ t.mentions, v.flexible = true → known v))

theorem stable_known {known : ErrorVar → Prop} : Stable (Known known) :=
  fun _ _ h => ⟨fun _ hv => absurd hv List.not_mem_nil, h⟩

/-- An unknown as it may stand in the argument of a constructor. -/
def Unbindable (known : ErrorVar → Prop) (x : Ty) : Prop :=
  x.projections = [] ∧ x.Known known

theorem stable_unbindable (known : ErrorVar → Prop) : Stable (Unbindable known) := by
  intro name flexible ⟨hproj, hknown⟩
  refine ⟨⟨hproj, fun v hv => absurd hv List.not_mem_nil⟩, rfl, hknown⟩

theorem projections_eq_nil {t : Ty} (h : ∀ x ∈ t.unknowns, x.projections = []) :
    t.projections = [] := by
  refine List.eq_nil_iff_forall_not_mem.2 fun name hn => ?_
  rcases mem_projections_iff.1 hn with hx | hx
  · cases h _ hx
  · cases h _ hx

theorem Within.flat {known : ErrorVar → Prop} {t : Ty} (h : t.Within (Unbindable known)) :
    t.projections = [] :=
  projections_eq_nil fun x hx => (h.unknowns x hx).1

theorem Within.tame {known : ErrorVar → Prop} {t : Ty} (h : t.Within (Unbindable known))
    (b : Bindings) : t.Tame b :=
  ⟨h.free, fun name hn => by rw [h.flat] at hn; exact absurd hn List.not_mem_nil⟩

/-- The type with its unions opened up. -/
def reopened (t : Ty) : Ty := t.graft fun x => x

theorem harmless_id : Harmless fun x => x where
  rigidProj _ := rfl
  rigidVar _ _ := rfl
  value _ := Or.inr rfl
  error v m hm := by obtain rfl := List.mem_singleton.1 hm; rfl

theorem Within.reopened {known : ErrorVar → Prop} {t : Ty} (h : t.Within (Unbindable known)) :
    t.reopened.Within (Unbindable known) :=
  h.graft (stable_unbindable known)
    (fun name flexible hx => .of_unknown (Or.inl ⟨name, flexible, rfl⟩) (h.unknowns _ hx))
    (fun v hx => .of_unknown (Or.inr (Or.inl ⟨v, rfl⟩)) (h.unknowns _ hx))
    (fun _ _ hx => h.unknowns _ hx)

theorem Within.split {known : ErrorVar → Prop} {t : Ty} (h : t.Within (Unbindable known)) :
    t.Split := by
  intro name hv
  have hn : name ∈ t.projections := mem_projections_iff.2 (Or.inr hv)
  rw [h.flat] at hn
  exact absurd hn List.not_mem_nil

/-- Opening unions up is a rereading. -/
theorem rereads_reopened {known : ErrorVar → Prop} (s : Solution) {Q : Ty → Prop}
    (hQ : ∀ {t : Ty}, t.Within (Unbindable known) → Q t) :
    Rereads (Within (Unbindable known)) Q s s reopened :=
  rereads_graft harmless_id Within.split (fun h => Or.inr h.flat) (fun _ _ _ => .refl _)
    fun h => hQ h.reopened

end Ty

namespace Bindings

/-! ## Writing out -/

/-- What takes the place of a projection. -/
def leafOf (image : String → Option (Except Fault Ty)) : Ty → Ty
  | .valueProj name true =>
      match image name with
      | some (.ok t) => t
      | _ => .valueProj name true
  | t => t

theorem unfoldAllWith_of_forall {image : String → Option (Except Fault Ty)} {g : Ty → Ty}
    {ts : List Ty} (h : ∀ t ∈ ts, unfoldWith image t = .ok (g t)) :
    unfoldAllWith image ts = .ok (ts.map g) := by
  induction ts with
  | nil => rfl
  | cons t ts ih =>
      rw [unfoldAllWith, h t List.mem_cons_self,
        ih fun x hx => h x (List.mem_cons_of_mem t hx)]
      rfl

/-- Where no projection is endless, writing out replaces projections. -/
theorem unfoldWith_eq_graft {image : String → Option (Except Fault Ty)} {t : Ty}
    (h : ∀ name, .valueProj name true ∈ t.unknowns → ∀ f, image name ≠ some (.error f)) :
    unfoldWith image t = .ok (t.graft (leafOf image)) := by
  induction t with
  | union ms ih | con c ms ih | errorConst c ms ih =>
      have hms : ∀ m ∈ ms, unfoldWith image m = .ok (m.graft (leafOf image)) :=
        fun m hm => ih m hm fun name hn => h name (Ty.mem_unknownsAll.2 ⟨m, hm, hn⟩)
      rw [unfoldWith, unfoldAllWith_of_forall hms, Ty.graft, Ty.graftAll_eq_map]
      rfl
  | valueProj name flexible =>
      cases flexible with
      | false => rfl
      | true =>
          rw [Ty.graft, leafOf, unfoldWith, if_pos rfl]
          cases hi : image name with
          | none => rfl
          | some r =>
              cases r with
              | ok u => rfl
              | error f => exact absurd hi (h name List.mem_cons_self f)
  | _ => rfl

theorem unfoldWith_of_flat (image : String → Option (Except Fault Ty)) {t : Ty}
    (h : t.projections = []) : unfoldWith image t = .ok t.reopened := by
  have hno : ∀ name, .valueProj name true ∉ t.unknowns := by
    intro name hv
    have hn : name ∈ t.projections := Ty.mem_projections_iff.2 (Or.inl hv)
    rw [h] at hn
    exact absurd hn List.not_mem_nil
  rw [unfoldWith_eq_graft fun name hv => absurd hv (hno name)]
  refine congrArg Except.ok (Ty.graft_congr fun x hx => ?_)
  rcases Ty.unknown_cases hx with ⟨name, flexible, rfl⟩ | ⟨v, rfl⟩ | ⟨name, flexible, rfl⟩
  · cases flexible with
    | true => exact absurd hx (hno name)
    | false => rfl
  · rfl
  · rfl

/-! ## Bindings grown by comparisons -/

section Grown

variable {known : ErrorVar → Prop}

/-- What the value part of a type can be. -/
inductive Stem (known : ErrorVar → Prop) : Ty → Prop
  | value : Stem known .value
  | nothing : Stem known .nothing
  | proj (name : String) (flexible : Bool) : Stem known (.valueProj name flexible)
  | con (c : Con) {args : List Ty} : (∀ a ∈ args, a.Within (Ty.Unbindable known)) →
      Stem known (.con c args)

/-- What a value can come down to: it is not bound. -/
structure Root (known : ErrorVar → Prop) (b : Bindings) (t : Ty) : Prop where
  stem : Stem known t
  free : ∀ name, t = .valueProj name true → b.contains name = false

/-- Whether a comparison may bind `name` to `t`. -/
structure Binds (known : ErrorVar → Prop) (b : Bindings) (name : String) (t : Ty) : Prop where
  free : b.contains name = false
  root : Root known b t
  other : t ≠ .valueProj name true

/-- Bindings that were made one by one, each of a projection that was not bound
to something that was not bound. -/
inductive Grown (known : ErrorVar → Prop) : Bindings → Prop
  | empty : Grown known .empty
  | bind {b : Bindings} {name : String} {t : Ty} : Grown known b → Binds known b name t →
      Grown known (b.bind name t)

theorem get?_bind (b : Bindings) (name n : String) (t : Ty) :
    (b.bind name t).table.get? n = if name = n then some t else b.table.get? n := by
  show (b.table.insert name t).get? n = _
  rw [Table.get?_insert]
  simp only [beq_iff_eq]

theorem contains_bind (b : Bindings) (name n : String) (t : Ty) :
    (b.bind name t).contains n = (name == n || b.contains n) :=
  Table.contains_insert b.table name n t

theorem Grown.stem {b : Bindings} (hb : Grown known b) {n : String} {u : Ty}
    (h : b.table.get? n = some u) : Stem known u := by
  induction hb with
  | empty => cases h
  | bind hb hnew ih =>
      rw [get?_bind] at h
      split at h
      · cases h; exact hnew.root.stem
      · exact ih h

theorem Stem.reopened {t : Ty} (h : Stem known t) : Stem known t.reopened := by
  cases h with
  | value => exact .value
  | nothing => exact .nothing
  | proj name flexible => exact .proj name flexible
  | con c hargs =>
      rw [Ty.reopened, Ty.graft, Ty.graftAll_eq_map]
      refine .con c fun a ha => ?_
      obtain ⟨x, hx, rfl⟩ := List.mem_map.1 ha
      exact (hargs x hx).reopened

/-- A stem that is not bound is written out as it stands. -/
theorem Stem.unfoldWith {t : Ty} (h : Stem known t) {image : String → Option (Except Fault Ty)}
    (hfree : ∀ name, t = .valueProj name true → image name = none) :
    unfoldWith image t = .ok t.reopened := by
  cases h with
  | value => rfl
  | nothing => rfl
  | proj name flexible =>
      cases flexible with
      | false => rfl
      | true =>
          rw [Bindings.unfoldWith, if_pos rfl, hfree name rfl]
          rfl
  | con c hargs =>
      refine unfoldWith_of_flat image (List.eq_nil_iff_forall_not_mem.2 fun name hn => ?_)
      obtain ⟨a, ha, hn⟩ := Ty.mem_projectionsAll.1 hn
      rw [(hargs a ha).flat] at hn
      exact absurd hn List.not_mem_nil

theorem imageWithin_eq_none {b : Bindings} {n : String} {k : Nat} :
    b.imageWithin k n = none ↔ b.contains n = false := by
  refine Iff.trans ?_ (Table.get?_eq_none (t := b.table) (k := n))
  cases k <;> simp [imageWithin]

/-- What a value has come down to, once `name` is bound to `t`. -/
def swap (name : String) (t : Ty) : Ty → Ty
  | .valueProj n true => if n = name then t else .valueProj n true
  | x => x

section Bind

variable {b : Bindings} {name : String} {t : Ty}

theorem Root.bind {x : Ty} (hx : Root known b x) (hxn : x ≠ .valueProj name true) :
    Root known (b.bind name t) x := by
  refine ⟨hx.stem, fun n hn => ?_⟩
  rw [contains_bind, hx.free n hn, Bool.or_false, beq_eq_false_iff_ne]
  rintro rfl
  exact hxn hn

theorem Root.reopened {x : Ty} (hx : Root known b x) : Root known b x.reopened := by
  refine ⟨hx.stem.reopened, fun n hn => hx.free n ?_⟩
  cases hx.stem with
  | proj m flexible => exact hn
  | _ => cases hn

theorem imageWithin_bind_self (h : Binds known b name t) (k : Nat) :
    (b.bind name t).imageWithin (k + 1) name = some (.ok t.reopened) := by
  have hfree : ∀ n, t = .valueProj n true → (b.bind name t).imageWithin k n = none :=
    fun n hn => imageWithin_eq_none.2 ((h.root.bind h.other).free n hn)
  rw [imageWithin, get?_bind, if_pos rfl, Option.map_some, h.root.stem.unfoldWith hfree]

/-- A chain of replacements goes on where it ended in the projection that is
now bound. -/
theorem imageWithin_bind (hb : Grown known b) (h : Binds known b name t) :
    ∀ (k : Nat) {n : String} {x : Ty}, b.imageWithin k n = some (.ok x) →
      (b.bind name t).imageWithin (k + 1) n = some (.ok (swap name t.reopened x)) := by
  intro k
  induction k with
  | zero =>
      intro n x hx
      rw [imageWithin] at hx
      cases hg : b.table.get? n <;> rw [hg] at hx <;> cases hx
  | succ k ih =>
      intro n x hx
      rw [imageWithin] at hx
      cases hg : b.table.get? n with
      | none => rw [hg] at hx; cases hx
      | some u =>
          rw [hg, Option.map_some, Option.some.injEq] at hx
          have hn : name ≠ n := by
            rintro rfl
            rw [Table.get?_eq_none.2 h.free] at hg
            cases hg
          rw [imageWithin, get?_bind, if_neg hn, hg, Option.map_some]
          refine congrArg some ?_
          have hstem := hb.stem hg
          cases hstem with
          | value => cases hx; rfl
          | nothing => cases hx; rfl
          | con c hargs =>
              have hstem : Stem known (.con c _) := .con c hargs
              rw [hstem.unfoldWith fun _ he => Ty.noConfusion he] at hx ⊢
              cases hx
              rfl
          | proj m flexible =>
              cases flexible with
              | false => cases hx; rfl
              | true =>
                  rw [unfoldWith, if_pos rfl] at hx ⊢
                  cases hm : b.imageWithin k m with
                  | some r =>
                      rw [hm, Option.getD_some] at hx
                      rw [hx] at hm
                      rw [ih hm, Option.getD_some]
                  | none =>
                      rw [hm] at hx
                      cases hx
                      by_cases hmn : m = name
                      · subst hmn
                        rw [imageWithin_bind_self h k, Option.getD_some, swap, if_pos rfl]
                      · have hfree : (b.bind name t).contains m = false := by
                          rw [contains_bind, imageWithin_eq_none.1 hm, Bool.or_false,
                            beq_eq_false_iff_ne]
                          exact fun he => hmn he.symm
                        rw [imageWithin_eq_none.2 hfree, swap, if_neg hmn]
                        rfl

end Bind

theorem size_bind {b : Bindings} {name : String} (t : Ty) (h : b.contains name = false) :
    (b.bind name t).table.size = b.table.size + 1 := by
  have hkeys := congrArg List.length (Table.keys_insert_of_not_contains t h)
  rw [List.length_append, Table.keys, Table.keys, List.length_map, List.length_map] at hkeys
  exact hkeys

theorem swap_of_ne {name : String} {t x : Ty} (h : x ≠ .valueProj name true) :
    swap name t x = x := by
  unfold swap
  split
  · next n => exact if_neg fun hn => h (by rw [hn])
  · rfl

theorem swap_self (name : String) (t : Ty) : swap name t (.valueProj name true) = t :=
  if_pos rfl

theorem Root.swap {b : Bindings} {name : String} {t x : Ty} (h : Binds known b name t)
    (hx : Root known b x) : Root known (b.bind name t) (swap name t.reopened x) := by
  by_cases hxn : x = .valueProj name true
  · rw [hxn, swap_self]
    exact (h.root.bind h.other).reopened
  · rw [swap_of_ne hxn]
    exact hx.bind hxn

/-- Writing a projection out ends, in something that is not bound. -/
theorem Grown.image {b : Bindings} (hb : Grown known b) {n : String}
    (hn : b.contains n = true) :
    ∃ x, b.imageWithin b.table.size n = some (.ok x) ∧ Root known b x := by
  induction hb with
  | empty => cases hn
  | @bind b name t hb h ih =>
      rw [size_bind t h.free]
      by_cases hname : name = n
      · subst hname
        exact ⟨_, imageWithin_bind_self h _, (h.root.bind h.other).reopened⟩
      · rw [contains_bind, beq_false_of_ne hname, Bool.false_or] at hn
        obtain ⟨x, hx, hroot⟩ := ih hn
        exact ⟨_, imageWithin_bind hb h _ hx, hroot.swap h⟩

/-- A type with its bindings written out. -/
def written (b : Bindings) (t : Ty) : Ty := t.graft (leafOf (b.imageWithin b.table.size))

/-- Writing out ends on every type. -/
theorem Grown.apply {b : Bindings} (hb : Grown known b) (t : Ty) :
    b.apply t = .ok (b.written t) := by
  refine unfoldWith_eq_graft fun name _ f hf => ?_
  cases hn : b.contains name with
  | false => rw [imageWithin_eq_none.2 hn] at hf; cases hf
  | true =>
      obtain ⟨x, hx, _⟩ := hb.image hn
      rw [hx] at hf
      cases hf

/-- What a value comes down to. -/
def followed (b : Bindings) : Ty → Ty
  | .valueProj name flexible => b.written (.valueProj name flexible)
  | t => t

theorem Grown.follow {v : View} (hb : Grown known v.bindings) (t : Ty) :
    v.follow t = .ok (v.bindings.followed t) := by
  cases t with
  | valueProj name flexible => exact hb.apply _
  | _ => rfl

theorem followed_free {b : Bindings} {n : String} (h : b.contains n = false) :
    b.followed (.valueProj n true) = .valueProj n true := by
  rw [followed, written, Ty.graft, leafOf, imageWithin_eq_none.2 h]

theorem Grown.followed {b : Bindings} (hb : Grown known b) {x : Ty} (hx : Stem known x) :
    Root known b (b.followed x) := by
  cases hx with
  | value => exact ⟨.value, fun _ h => Ty.noConfusion h⟩
  | nothing => exact ⟨.nothing, fun _ h => Ty.noConfusion h⟩
  | con c hargs => exact ⟨.con c hargs, fun _ h => Ty.noConfusion h⟩
  | proj n flexible =>
      cases flexible with
      | false => exact ⟨.proj n false, fun _ h => by cases h⟩
      | true =>
          cases hn : b.contains n with
          | false =>
              rw [followed_free hn]
              exact ⟨.proj n true, fun _ h => by cases h; exact hn⟩
          | true =>
              obtain ⟨x, hx, hroot⟩ := hb.image hn
              rw [Bindings.followed, written, Ty.graft, leafOf, hx]
              exact hroot

/-- A new binding changes what a value comes down to only where that was the
projection now bound. -/
theorem Grown.followed_bind {b : Bindings} {name : String} {t : Ty} (hb : Grown known b)
    (h : Binds known b name t) {x : Ty} (hx : Stem known x) :
    (b.bind name t).followed x = swap name t.reopened (b.followed x) := by
  cases hx with
  | value | nothing | con => rfl
  | proj n flexible =>
      cases flexible with
      | false => rfl
      | true =>
          cases hn : b.contains n with
          | false =>
              rw [followed_free hn]
              by_cases hname : n = name
              · subst hname
                rw [swap_self, Bindings.followed, written, Ty.graft, leafOf, size_bind t h.free,
                  imageWithin_bind_self h]
              · rw [swap_of_ne fun he => hname (by cases he; rfl), followed_free]
                rw [contains_bind, hn, Bool.or_false, beq_eq_false_iff_ne]
                exact fun he => hname he.symm
          | true =>
              obtain ⟨y, hy, _⟩ := hb.image hn
              rw [Bindings.followed, Bindings.followed, written, written, Ty.graft, Ty.graft,
                leafOf, leafOf, size_bind t h.free, hy, imageWithin_bind hb h _ hy]

end Grown

end Bindings

end Fallible
