import Fallible.Proofs.Binding
import Fallible.Proofs.Generation
import Fallible.Proofs.WritingOut

/-!
# Sequences of comparisons

An engine that is asked again and again keeps what it has bound. This file says
all that one comparison can do to the bindings, for any types and any bindings:
nothing, or bind one projection that was free to what the other value came down
to. Whatever a comparison keeps of the bindings is then kept by any sequence of
comparisons. One thing always is. What is bound stays bound to the same type.
-/

namespace Fallible

/-! ## One comparison -/

/-- A binding that a comparison of two values may make. -/
structure View.Ties (v : View) (x y : Ty) (name : String) (t : Ty) : Prop where
  free : v.bindings.contains name = false
  other : t ≠ .valueProj name true
  sides : v.follow x = .ok (.valueProj name true) ∧ v.follow y = .ok t ∨
    v.follow y = .ok (.valueProj name true) ∧ v.follow x = .ok t

/-- What a comparison of two types may leave of the bindings in view. -/
def View.Leaves (v : View) (sup sub : Ty) (b : Bindings) : Prop :=
  b = v.bindings ∨ (sup.failed || sub.failed) = false ∧
    ∃ name t, v.Ties sup.valuePart sub.valuePart name t ∧ b = v.bindings.bind name t

theorem View.Leaves.extends {v : View} {sup sub : Ty} {b : Bindings} (h : v.Leaves sup sub b) :
    v.bindings.Extends b := by
  rcases h with rfl | ⟨_, name, t, htie, rfl⟩
  · exact .refl _
  · exact Bindings.extends_bind t htie.free

namespace Engine

variable {order : ValueOrder} {s : Solution} {b : Bindings}
  {obligations : Option (List Constraint)}

/-- All that a comparison of values can do. -/
theorem compareValues_cases {x y : Ty} {r : Except Fault Bool} {e : Engine}
    (h : (Engine.mk order s (some b) obligations).compareValues x y = (r, e)) :
    e = ⟨order, s, some b, obligations⟩ ∧
        (order = .classes → r = .ok true →
          (View.mk order s b).compareValues (View.mk order s b).holds x y = .ok true) ∨
      ∃ name t, (View.mk order s b).Ties x y name t ∧ r = .ok true ∧
        e = ⟨order, s, some (b.bind name t), obligations⟩ := by
  have hview : (Engine.mk order s (some b) obligations).view = View.mk order s b := rfl
  unfold compareValues at h
  rw [hview] at h
  cases hx : (View.mk order s b).follow x with
  | error f =>
      rw [hx] at h
      cases h
      exact Or.inl ⟨rfl, fun _ hr => by cases hr⟩
  | ok above =>
      cases hy : (View.mk order s b).follow y with
      | error f =>
          rw [hx, hy] at h
          cases h
          exact Or.inl ⟨rfl, fun _ hr => by cases hr⟩
      | ok below =>
          rw [hx, hy] at h
          cases hs : View.valueStep (Engine.mk order s (some b) obligations).isFree above below with
          | decided answer =>
              simp only [hs] at h
              cases h
              refine Or.inl ⟨rfl, fun ho hr => ?_⟩
              cases hr
              exact (View.compareValues_iff_of_follow ho _ hx hy).2 (View.valueStep_decided hs _)
          | constructors c as d bs =>
              simp only [hs] at h
              cases h
              refine Or.inl ⟨rfl, fun ho hr => ?_⟩
              obtain ⟨hc, hd⟩ := View.valueStep_constructors hs
              rw [View.compareValues_iff_of_follow ho _ hx hy, hc, hd]
              subst ho
              rcases (View.classesRelate_iff _ c d as bs).1 hr with ⟨rfl, hlen, hargs⟩ |
                ⟨_, habove, rfl, rfl⟩
              · exact .con hlen hargs
              · exact .subclass habove
          | bind name t =>
              simp only [hs] at h
              cases h
              obtain ⟨hfree, hother, hsides⟩ := View.valueStep_bind hs
              refine Or.inr ⟨name, t, ⟨by simpa [isFree] using hfree, hother, ?_⟩, rfl, rfl⟩
              rcases hsides with ⟨rfl, rfl⟩ | ⟨rfl, rfl⟩
              · exact Or.inl ⟨hx, hy⟩
              · exact Or.inr ⟨hy, hx⟩

theorem compareErrors_leaves (e : Engine) (sup sub : Ty) (location : Location) :
    ∃ made, (e.compareErrors sup sub location).2 = { e with obligations := made } := by
  unfold compareErrors
  split
  · split
    · unfold generate
      cases Obligation.constraints e.view sup sub location with
      | error f => exact ⟨_, rfl⟩
      | ok cs => exact ⟨_, rfl⟩
    · exact ⟨_, rfl⟩
  · exact ⟨_, rfl⟩

/-- All that a comparison of types can do to the bindings. -/
theorem check_leaves (order : ValueOrder) (s : Solution) (b : Bindings)
    (obligations : Option (List Constraint)) (sup sub : Ty) (location : Location) :
    ∃ b' made, ((Engine.mk order s (some b) obligations).check sup sub location).2 =
        ⟨order, s, some b', made⟩ ∧ (View.mk order s b).Leaves sup sub b' := by
  unfold check
  split
  · exact ⟨b, _, rfl, Or.inl rfl⟩
  · next hf =>
      cases hv : (Engine.mk order s (some b) obligations).compareValues sup.valuePart
          sub.valuePart with
      | mk r e =>
          have hleaves : ∃ b', e = ⟨order, s, some b', obligations⟩ ∧
              (View.mk order s b).Leaves sup sub b' := by
            rcases compareValues_cases hv with ⟨rfl, _⟩ | ⟨name, t, htie, _, rfl⟩
            · exact ⟨b, rfl, Or.inl rfl⟩
            · exact ⟨_, rfl, Or.inr ⟨Bool.eq_false_iff.2 hf, name, t, htie, rfl⟩⟩
          obtain ⟨b', rfl, hb'⟩ := hleaves
          cases r with
          | error f => exact ⟨b', _, rfl, hb'⟩
          | ok answer =>
              cases answer with
              | false => exact ⟨b', _, rfl, hb'⟩
              | true =>
                  obtain ⟨made, hmade⟩ := compareErrors_leaves
                    ⟨order, s, some b', obligations⟩ sup sub location
                  exact ⟨b', made, hmade, hb'⟩

end Engine

/-! ## Many comparisons -/

/-- A comparison to make. -/
structure Query where
  sup : Ty
  sub : Ty
  location : Location

namespace Engine

/-- Makes a comparison. -/
def ask (e : Engine) (q : Query) : Except Fault Verdict × Engine := e.check q.sup q.sub q.location

/-- The engine after several comparisons. -/
def askAll (e : Engine) : List Query → Engine
  | [] => e
  | q :: qs => (e.ask q).2.askAll qs

theorem askAll_append (e : Engine) (qs rs : List Query) :
    e.askAll (qs ++ rs) = (e.askAll qs).askAll rs := by
  induction qs generalizing e with
  | nil => rfl
  | cons q qs ih => exact ih (e.ask q).2

variable {order : ValueOrder} {s : Solution} {b : Bindings}
  {obligations : Option (List Constraint)}

/-- What each comparison keeps of the bindings, all of them keep. -/
theorem askAll_keeps {P : Bindings → Prop} {qs : List Query}
    (hstep : ∀ q ∈ qs, ∀ b b', P b → (View.mk order s b).Leaves q.sup q.sub b' → P b') (hb : P b) :
    ∃ b' made, (Engine.mk order s (some b) obligations).askAll qs = ⟨order, s, some b', made⟩ ∧
      P b' := by
  induction qs generalizing b obligations with
  | nil => exact ⟨b, obligations, rfl, hb⟩
  | cons q qs ih =>
      obtain ⟨b₁, made₁, he₁, hleaves⟩ := check_leaves order s b obligations q.sup q.sub q.location
      rw [askAll, ask, he₁]
      exact ih (fun r hr => hstep r (List.mem_cons_of_mem _ hr))
        (hstep q List.mem_cons_self b b₁ hb hleaves)

/-- What is bound stays bound to the same. -/
theorem askAll_extends (order : ValueOrder) (s : Solution) (b : Bindings)
    (obligations : Option (List Constraint)) (qs : List Query) :
    ∃ b' made, (Engine.mk order s (some b) obligations).askAll qs = ⟨order, s, some b', made⟩ ∧
      b.Extends b' :=
  askAll_keeps (fun _ _ _ _ hext hleaves => hext.trans hleaves.extends) (.refl b)

end Engine

end Fallible
