import Fallible.Ty.Parts

/-!
# The shape of types

Unions can be opened up to their constituents, which open up no further, so most
facts about a type are facts about its constituents.

Two such facts matter later: which variables a type has, at any depth, and that
none of its classifiers has arguments.
-/

namespace Fallible

/-- Members that are tested alike are found alike. -/
theorem any_congr_mem {α : Type} {l : List α} {p q : α → Bool} (h : ∀ a ∈ l, p a = q a) :
    l.any p = l.any q := by
  induction l with
  | nil => rfl
  | cons a l ih =>
      rw [List.any_cons, List.any_cons, h a List.mem_cons_self,
        ih fun x hx => h x (List.mem_cons_of_mem a hx)]

namespace Ty

/-! ## Constituents -/

theorem mem_constituents_union {ms : List Ty} {m : Ty} :
    m ∈ (Ty.union ms).constituents ↔ ∃ x ∈ ms, m ∈ x.constituents := by
  rw [constituents, constituentsAll_eq_flatMap, List.mem_flatMap]

/-- A constituent opens up no further. -/
theorem constituents_of_mem {m t : Ty} (h : m ∈ t.constituents) : m.constituents = [m] := by
  induction t with
  | union ms ih =>
      obtain ⟨x, hx, hm⟩ := mem_constituents_union.1 h
      exact ih x hx hm
  | nothing => simp [constituents] at h
  | any | var =>
      simp only [constituents, List.mem_cons, List.not_mem_nil, or_false] at h
      rcases h with rfl | rfl <;> rfl
  | _ =>
      simp only [constituents, List.mem_singleton] at h
      rw [h]; rfl

/-- A list of constituents is its own opening. -/
theorem constituentsAll_of_listed {ms : List Ty} (h : ∀ m ∈ ms, m.constituents = [m]) :
    constituentsAll ms = ms := by
  induction ms with
  | nil => rfl
  | cons m ms ih =>
      rw [constituentsAll, h m List.mem_cons_self,
        ih fun x hx => h x (List.mem_cons_of_mem m hx), List.singleton_append]

theorem constituents_unionOf (ms : List Ty) :
    (unionOf ms).constituents = constituentsAll ms := by
  refine constituentsAll_of_listed fun m hm => ?_
  rw [constituentsAll_eq_flatMap] at hm
  obtain ⟨x, _, hm⟩ := List.mem_flatMap.1 hm
  exact constituents_of_mem hm

theorem constituents_ofListed {ms : List Ty} (h : ∀ m ∈ ms, m.constituents = [m]) :
    (ofListed ms).constituents = ms := by
  unfold ofListed
  split
  · rfl
  · exact h _ List.mem_cons_self
  · exact constituentsAll_of_listed h

/-- What holds of the members of a union holds of its constituents, if it goes
from a type to its constituents. -/
theorem forall_constituents {P : Ty → Prop} (hvalue : P .value) (herror : P .error)
    (hvar : ∀ name flexible, P (.var name flexible) →
      P (.valueProj name flexible) ∧ P (.errorVar (.ofTyVar name flexible)))
    (hunion : ∀ ms, P (.union ms) → ∀ m ∈ ms, P m) {t : Ty} (ht : P t) :
    ∀ m ∈ t.constituents, P m := by
  intro m hm
  induction t with
  | union ms ih =>
      obtain ⟨x, hx, hm⟩ := mem_constituents_union.1 hm
      exact ih x hx (hunion ms ht x hx) hm
  | nothing => simp [constituents] at hm
  | any =>
      simp only [constituents, List.mem_cons, List.not_mem_nil, or_false] at hm
      rcases hm with rfl | rfl
      · exact hvalue
      · exact herror
  | var name flexible =>
      simp only [constituents, List.mem_cons, List.not_mem_nil, or_false] at hm
      rcases hm with rfl | rfl
      · exact (hvar name flexible ht).1
      · exact (hvar name flexible ht).2
  | _ =>
      simp only [constituents, List.mem_singleton] at hm
      rw [hm]; exact ht

/-- What holds of a type holds of one of its constituents, if it goes from a union to
one of its members and from a type variable to one of its projections. -/
theorem exists_constituent {P : Ty → Prop} (hany : ¬ P .any) (hnothing : ¬ P .nothing)
    (hvar : ∀ name flexible, P (.var name flexible) →
      P (.valueProj name flexible) ∨ P (.errorVar (.ofTyVar name flexible)))
    (hunion : ∀ ms, P (.union ms) → ∃ m ∈ ms, P m) {t : Ty} (ht : P t) :
    ∃ m ∈ t.constituents, P m := by
  induction t with
  | union ms ih =>
      obtain ⟨x, hx, hxp⟩ := hunion ms ht
      obtain ⟨m, hm, hmp⟩ := ih x hx hxp
      exact ⟨m, mem_constituents_union.2 ⟨x, hx, hm⟩, hmp⟩
  | nothing => exact absurd ht hnothing
  | any => exact absurd ht hany
  | var name flexible =>
      rcases hvar name flexible ht with h | h
      · exact ⟨_, List.mem_cons_self, h⟩
      · exact ⟨_, List.mem_cons_of_mem _ List.mem_cons_self, h⟩
  | _ => exact ⟨_, List.mem_cons_self, ht⟩

theorem valuePart_mem {t : Ty} : t.valuePart = .nothing ∨ t.valuePart ∈ t.constituents := by
  unfold valuePart
  cases hf : t.constituents.find? fun m => m.isValue || m.isErroneous with
  | none => exact Or.inl rfl
  | some m => exact Or.inr (List.mem_of_find?_eq_some hf)

/-! ## Classifiers without arguments -/

mutual

/-- Whether no classifier in the type, at any depth, has arguments. -/
def payloadFree : Ty → Bool
  | .errorConst _ args => args.isEmpty
  | .con _ args => payloadFreeAll args
  | .union ms => payloadFreeAll ms
  | _ => true

def payloadFreeAll : List Ty → Bool
  | [] => true
  | m :: ms => payloadFree m && payloadFreeAll ms

end

theorem payloadFreeAll_iff {ms : List Ty} :
    payloadFreeAll ms = true ↔ ∀ m ∈ ms, m.payloadFree = true := by
  induction ms with
  | nil => simp [payloadFreeAll]
  | cons m ms ih => simp [payloadFreeAll, ih]

theorem payloadFree_of_mem_constituents {m t : Ty} (ht : t.payloadFree = true)
    (h : m ∈ t.constituents) : m.payloadFree = true :=
  forall_constituents (P := fun t => t.payloadFree = true) rfl rfl
    (fun _ _ _ => ⟨rfl, rfl⟩) (fun _ h => payloadFreeAll_iff.1 h) ht m h

theorem payloadFree_valuePart {t : Ty} (h : t.payloadFree = true) :
    t.valuePart.payloadFree = true := by
  rcases valuePart_mem (t := t) with hv | hv
  · rw [hv]; rfl
  · exact payloadFree_of_mem_constituents h hv

theorem payloadFree_constituentsAll {ms : List Ty} (h : ∀ m ∈ ms, m.payloadFree = true) :
    payloadFreeAll (constituentsAll ms) = true := by
  refine payloadFreeAll_iff.2 fun m hm => ?_
  rw [constituentsAll_eq_flatMap] at hm
  obtain ⟨x, hx, hm⟩ := List.mem_flatMap.1 hm
  exact payloadFree_of_mem_constituents (h x hx) hm

/-! ## Variables -/

mutual

/-- The variables in a type at any depth: projections, error variables, and
type variables that have not been split. -/
def unknowns : Ty → List Ty
  | .valueProj name flexible => [.valueProj name flexible]
  | .errorVar v => [.errorVar v]
  | .var name flexible => [.var name flexible]
  | .union ms => unknownsAll ms
  | .con _ args => unknownsAll args
  | .errorConst _ args => unknownsAll args
  | _ => []

def unknownsAll : List Ty → List Ty
  | [] => []
  | m :: ms => unknowns m ++ unknownsAll ms

end

theorem mem_unknownsAll {ms : List Ty} {x : Ty} :
    x ∈ unknownsAll ms ↔ ∃ m ∈ ms, x ∈ m.unknowns := by
  induction ms with
  | nil => simp [unknownsAll]
  | cons m ms ih => simp [unknownsAll, ih]

theorem unknown_cases {t x : Ty} (h : x ∈ t.unknowns) :
    (∃ name flexible, x = .valueProj name flexible) ∨ (∃ v, x = .errorVar v) ∨
      ∃ name flexible, x = .var name flexible := by
  induction t with
  | union ms ih | con c ms ih | errorConst c ms ih =>
      obtain ⟨m, hm, hx⟩ := mem_unknownsAll.1 h
      exact ih m hm hx
  | valueProj name flexible => exact Or.inl ⟨name, flexible, List.mem_singleton.1 h⟩
  | errorVar v => exact Or.inr (Or.inl ⟨v, List.mem_singleton.1 h⟩)
  | var name flexible => exact Or.inr (Or.inr ⟨name, flexible, List.mem_singleton.1 h⟩)
  | _ => exact absurd h List.not_mem_nil

/-- Whether what holds of a type variable holds of its two projections. -/
def Stable (R : Ty → Prop) : Prop :=
  ∀ name flexible, R (.var name flexible) →
    R (.valueProj name flexible) ∧ R (.errorVar (.ofTyVar name flexible))

/-- What holds of the unknowns of a type holds of those of its constituents. -/
theorem Stable.constituents {R : Ty → Prop} (hR : Stable R) {t : Ty}
    (ht : ∀ x ∈ t.unknowns, R x) : ∀ m ∈ t.constituents, ∀ x ∈ m.unknowns, R x := by
  refine forall_constituents (P := fun t => ∀ x ∈ t.unknowns, R x)
    (fun _ h => absurd h List.not_mem_nil) (fun _ h => absurd h List.not_mem_nil) ?_ ?_ ht
  · intro name flexible hv
    have hboth := hR name flexible (hv _ List.mem_cons_self)
    constructor
    · intro x hx; obtain rfl := List.mem_singleton.1 hx; exact hboth.1
    · intro x hx; obtain rfl := List.mem_singleton.1 hx; exact hboth.2
  · intro ms hms m hm x hx
    exact hms x (mem_unknownsAll.2 ⟨m, hm, hx⟩)

mutual

/-- The flexible projections in a type at any depth. -/
def projections : Ty → List String
  | .valueProj name flexible => if flexible then [name] else []
  | .var name flexible => if flexible then [name] else []
  | .union ms => projectionsAll ms
  | .con _ args => projectionsAll args
  | .errorConst _ args => projectionsAll args
  | _ => []

def projectionsAll : List Ty → List String
  | [] => []
  | m :: ms => projections m ++ projectionsAll ms

end

theorem mem_projectionsAll {ms : List Ty} {name : String} :
    name ∈ projectionsAll ms ↔ ∃ m ∈ ms, name ∈ m.projections := by
  induction ms with
  | nil => simp [projectionsAll]
  | cons m ms ih => simp [projectionsAll, ih]

theorem mem_mentionsAll {ms : List Ty} {v : ErrorVar} :
    v ∈ mentionsAll ms ↔ ∃ m ∈ ms, v ∈ m.mentions := by
  induction ms with
  | nil => simp [mentionsAll]
  | cons m ms ih => simp [mentionsAll, ih]

theorem mem_argumentsAll {ms : List Ty} {a : Ty} :
    a ∈ argumentsAll ms ↔ ∃ m ∈ ms, a ∈ m.arguments := by
  induction ms with
  | nil => simp [argumentsAll]
  | cons m ms ih => simp [argumentsAll, ih]

theorem arguments_of_mem {t m a : Ty} (hm : m ∈ t.constituents) (ha : a ∈ m.arguments) :
    a ∈ t.arguments := by
  refine forall_constituents (P := fun x => ∀ a ∈ x.arguments, a ∈ t.arguments)
    (fun _ h => absurd h List.not_mem_nil) (fun _ h => absurd h List.not_mem_nil)
    (fun _ _ _ => ⟨fun _ h => absurd h List.not_mem_nil, fun _ h => absurd h List.not_mem_nil⟩)
    ?_ (fun _ h => h) m hm a ha
  intro ms hms m hm a ha
  exact hms a (mem_argumentsAll.2 ⟨m, hm, ha⟩)

theorem mem_arguments_unionOf {ms : List Ty} {a : Ty} (h : a ∈ (unionOf ms).arguments) :
    ∃ m ∈ ms, a ∈ m.arguments := by
  obtain ⟨c, hc, ha⟩ := mem_argumentsAll.1 h
  rw [constituentsAll_eq_flatMap] at hc
  obtain ⟨m, hm, hc⟩ := List.mem_flatMap.1 hc
  exact ⟨m, hm, arguments_of_mem hc ha⟩

theorem mem_arguments_of_valuePart {t x : Ty} {c : Con} {args : List Ty}
    (h : t.valuePart = .con c args) (hx : x ∈ args) : x ∈ t.arguments := by
  rcases t.valuePart_mem with hv | hv
  · rw [h] at hv; cases hv
  · exact arguments_of_mem hv (by rw [h]; exact List.mem_append_left _ hx)

/-- The arguments of an argument are arguments. -/
theorem arguments_trans {t a b : Ty} (ha : a ∈ t.arguments) (hb : b ∈ a.arguments) :
    b ∈ t.arguments := by
  induction t with
  | con c args ih | errorConst c args ih =>
      rw [arguments, List.mem_append, mem_argumentsAll] at ha ⊢
      right
      rcases ha with ha | ⟨m, hm, ha⟩
      · exact ⟨a, ha, hb⟩
      · exact ⟨m, hm, ih m hm ha⟩
  | union ms ih =>
      rw [arguments, mem_argumentsAll] at ha ⊢
      obtain ⟨m, hm, ha⟩ := ha
      exact ⟨m, hm, ih m hm ha⟩
  | _ => exact absurd ha List.not_mem_nil

theorem unknowns_of_arguments {t a x : Ty} (ha : a ∈ t.arguments) (hx : x ∈ a.unknowns) :
    x ∈ t.unknowns := by
  induction t with
  | con c args ih | errorConst c args ih =>
      rw [arguments, List.mem_append, mem_argumentsAll] at ha
      rcases ha with ha | ⟨m, hm, ha⟩
      · exact mem_unknownsAll.2 ⟨a, ha, hx⟩
      · exact mem_unknownsAll.2 ⟨m, hm, ih m hm ha⟩
  | union ms ih =>
      obtain ⟨m, hm, ha⟩ := mem_argumentsAll.1 ha
      exact mem_unknownsAll.2 ⟨m, hm, ih m hm ha⟩
  | _ => exact absurd ha List.not_mem_nil

theorem mem_projections_iff {t : Ty} {name : String} :
    name ∈ t.projections ↔
      .valueProj name true ∈ t.unknowns ∨ .var name true ∈ t.unknowns := by
  induction t with
  | union ms ih | con c ms ih | errorConst c ms ih =>
      simp only [projections, unknowns, mem_projectionsAll, mem_unknownsAll]
      constructor
      · rintro ⟨m, hm, h⟩
        exact ((ih m hm).1 h).imp (fun h => ⟨m, hm, h⟩) fun h => ⟨m, hm, h⟩
      · rintro (⟨m, hm, h⟩ | ⟨m, hm, h⟩)
        · exact ⟨m, hm, (ih m hm).2 (Or.inl h)⟩
        · exact ⟨m, hm, (ih m hm).2 (Or.inr h)⟩
  | valueProj other flexible | var other flexible =>
      cases flexible <;> simp [projections, unknowns]
  | _ => simp [projections, unknowns]

theorem projections_of_mem_unknowns {t x : Ty} {name : String} (hx : x ∈ t.unknowns)
    (hn : name ∈ x.projections) : name ∈ t.projections := by
  have hself : x.unknowns = [x] := by
    rcases unknown_cases hx with ⟨_, _, rfl⟩ | ⟨_, rfl⟩ | ⟨_, _, rfl⟩ <;> rfl
  rw [mem_projections_iff, hself, List.mem_singleton, List.mem_singleton] at hn
  rcases hn with rfl | rfl
  · exact mem_projections_iff.2 (Or.inl hx)
  · exact mem_projections_iff.2 (Or.inr hx)

theorem mem_mentions_iff {t : Ty} {v : ErrorVar} :
    v ∈ t.mentions ↔ .errorVar v ∈ t.unknowns ∨
      ∃ name flexible, .var name flexible ∈ t.unknowns ∧ v = .ofTyVar name flexible := by
  induction t with
  | union ms ih | con c ms ih | errorConst c ms ih =>
      simp only [mentions, unknowns, mem_mentionsAll, mem_unknownsAll]
      constructor
      · rintro ⟨m, hm, h⟩
        rcases (ih m hm).1 h with h | ⟨name, flexible, h, hv⟩
        · exact Or.inl ⟨m, hm, h⟩
        · exact Or.inr ⟨name, flexible, ⟨m, hm, h⟩, hv⟩
      · rintro (⟨m, hm, h⟩ | ⟨name, flexible, ⟨m, hm, h⟩, hv⟩)
        · exact ⟨m, hm, (ih m hm).2 (Or.inl h)⟩
        · exact ⟨m, hm, (ih m hm).2 (Or.inr ⟨name, flexible, h, hv⟩)⟩
  | var other flexible =>
      simp only [mentions, unknowns, List.mem_singleton, reduceCtorEq, false_or, Ty.var.injEq]
      exact ⟨fun h => ⟨other, flexible, ⟨rfl, rfl⟩, h⟩, fun ⟨_, _, ⟨hn, hf⟩, h⟩ => hn ▸ hf ▸ h⟩
  | _ => simp [mentions, unknowns]

theorem mentions_of_mem_unknowns {t x : Ty} {v : ErrorVar} (hx : x ∈ t.unknowns)
    (hv : v ∈ x.mentions) : v ∈ t.mentions := by
  rcases unknown_cases hx with ⟨name, flexible, rfl⟩ | ⟨w, rfl⟩ | ⟨name, flexible, rfl⟩
  · exact absurd hv List.not_mem_nil
  · rw [List.mem_singleton.1 hv]
    exact mem_mentions_iff.2 (Or.inl hx)
  · exact mem_mentions_iff.2 (Or.inr ⟨name, flexible, hx, List.mem_singleton.1 hv⟩)

theorem projections_of_mem_constituents {m t : Ty} {name : String} (h : m ∈ t.constituents)
    (hn : name ∈ m.projections) : name ∈ t.projections :=
  forall_constituents (P := fun x => ∀ n ∈ x.projections, n ∈ t.projections)
    (fun _ h => absurd h List.not_mem_nil) (fun _ h => absurd h List.not_mem_nil)
    (fun _ _ hv => ⟨hv, fun _ h => absurd h List.not_mem_nil⟩)
    (fun _ hms x hx n hn => hms n (mem_projectionsAll.2 ⟨x, hx, hn⟩))
    (fun _ h => h) m h name hn

theorem mem_projections_unionOf {ms : List Ty} {name : String} :
    name ∈ (unionOf ms).projections ↔ ∃ m ∈ ms, name ∈ m.projections := by
  rw [unionOf, projections, mem_projectionsAll, constituentsAll_eq_flatMap]
  constructor
  · rintro ⟨c, hc, hn⟩
    obtain ⟨m, hm, hc⟩ := List.mem_flatMap.1 hc
    exact ⟨m, hm, projections_of_mem_constituents hc hn⟩
  · rintro ⟨m, hm, hn⟩
    obtain ⟨c, hc, hn⟩ := exists_constituent (P := fun t => name ∈ t.projections)
      List.not_mem_nil List.not_mem_nil (fun _ _ h => Or.inl h)
      (fun _ h => mem_projectionsAll.1 h) hn
    exact ⟨c, List.mem_flatMap.2 ⟨m, hm, hc⟩, hn⟩

theorem mentions_of_mem_constituents {m t : Ty} {v : ErrorVar} (h : m ∈ t.constituents)
    (hv : v ∈ m.mentions) : v ∈ t.mentions :=
  forall_constituents (P := fun x => ∀ v ∈ x.mentions, v ∈ t.mentions)
    (fun _ h => absurd h List.not_mem_nil) (fun _ h => absurd h List.not_mem_nil)
    (fun _ _ hv => ⟨fun _ h => absurd h List.not_mem_nil, hv⟩)
    (fun _ hms x hx v hv => hms v (mem_mentionsAll.2 ⟨x, hx, hv⟩))
    (fun _ h => h) m h v hv

theorem projections_of_arguments {t a : Ty} {name : String} (ha : a ∈ t.arguments)
    (hn : name ∈ a.projections) : name ∈ t.projections :=
  mem_projections_iff.2 ((mem_projections_iff.1 hn).imp (unknowns_of_arguments ha)
    (unknowns_of_arguments ha))

theorem mentions_of_arguments {t a : Ty} {v : ErrorVar} (ha : a ∈ t.arguments)
    (hv : v ∈ a.mentions) : v ∈ t.mentions := by
  refine mem_mentions_iff.2 ((mem_mentions_iff.1 hv).imp (unknowns_of_arguments ha) ?_)
  exact fun ⟨name, flexible, h, heq⟩ => ⟨name, flexible, unknowns_of_arguments ha h, heq⟩

theorem projections_valuePart {t : Ty} {name : String} (h : name ∈ t.valuePart.projections) :
    name ∈ t.projections := by
  rcases valuePart_mem (t := t) with hv | hv
  · rw [hv] at h; simp [projections] at h
  · exact projections_of_mem_constituents hv h

end Ty

end Fallible
