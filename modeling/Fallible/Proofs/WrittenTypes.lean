import Fallible.Proofs.Reopening
import Fallible.Proofs.WritingOut

/-!
# Types that are written out

Writing out goes on inside what it puts in the place of a projection, through
chains of bindings, unions, constructors and the arguments of classifiers. This
file says that it stops nowhere too early. Where no projection leads back to
itself, the result mentions no bound projection at any depth, and writing it out
again changes nothing.

There are two reasons why a type could change when it is written out: it mentions
a bound projection, or one of its unions is not opened up. The first is followed
along the bindings. The projections of the result are exactly those that are not
bound and that the projections of the type lead to. The second cannot arise, since
what takes the place of a projection has been written out before the union around
it is opened up.

Bare type variables are the exception. Opening up a union splits them, and the
projection that comes out of the split has not been looked at.
-/

namespace Fallible

namespace Ty

/-! ## Unions that are opened up -/

/-- Whether the unions in the type are opened up, at any depth. -/
def Opened (t : Ty) : Prop := t.reopened = t

namespace Opened

theorem map_reopened {ms : List Ty} (h : ∀ m ∈ ms, m.Opened) : ms.map reopened = ms :=
  (List.map_congr_left h).trans (List.map_id' ms)

theorem constituent {t m : Ty} (h : t.Opened) (hm : m ∈ t.constituents) : m.Opened := by
  have hmap : t.constituents.map reopened = t.constituents.map id := by
    rw [← constituents_reopened, h, List.map_id]
  exact List.map_inj_left.1 hmap m hm

theorem unionOf {ms : List Ty} (h : ∀ m ∈ ms, m.Opened) : (unionOf ms).Opened := by
  have hmem : ∀ c ∈ constituentsAll ms, c.Opened ∧ c.constituents = [c] := by
    intro c hc
    rw [constituentsAll_eq_flatMap] at hc
    obtain ⟨m, hm, hc⟩ := List.mem_flatMap.1 hc
    exact ⟨(h m hm).constituent hc, constituents_of_mem hc⟩
  rw [Opened, Ty.unionOf, reopened_union, map_reopened fun c hc => (hmem c hc).1,
    constituentsAll_of_listed fun c hc => (hmem c hc).2]

/-- A rebuilt type is opened up if what takes the place of its unknowns is. -/
theorem graft {h : Ty → Ty} {t : Ty} (hh : ∀ x ∈ t.unknowns, (x.graft h).Opened) :
    (t.graft h).Opened := by
  have hall : ∀ ms : List Ty, (∀ x ∈ unknownsAll ms, (x.graft h).Opened) →
      (∀ m ∈ ms, (∀ x ∈ m.unknowns, (x.graft h).Opened) → (m.graft h).Opened) →
      ∀ u ∈ ms.map (Ty.graft h), u.Opened := by
    intro ms hms ih u hu
    obtain ⟨m, hm, rfl⟩ := List.mem_map.1 hu
    exact ih m hm fun x hx => hms x (mem_unknownsAll.2 ⟨m, hm, hx⟩)
  induction t with
  | union ms ih =>
      rw [Ty.graft, graftAll_eq_map]
      exact unionOf (hall ms hh ih)
  | con c ms ih =>
      rw [Ty.graft, graftAll_eq_map, Opened, reopened_con, map_reopened (hall ms hh ih)]
  | errorConst c ms ih =>
      rw [Ty.graft, graftAll_eq_map, Opened, reopened_errorConst, map_reopened (hall ms hh ih)]
  | valueProj | errorVar => exact hh _ List.mem_cons_self
  | _ => rfl

end Opened

end Ty

namespace Bindings

variable {b : Bindings}

/-! ## What is left -/

/-- Writing out replaces flexible projections and no other unknowns. -/
theorem unknown_written_cases {t x : Ty} (hx : x ∈ t.unknowns) :
    (∃ n, x = .valueProj n true) ∨ b.written x = x ∧ x.Opened := by
  rcases Ty.unknown_cases hx with ⟨n, flexible, rfl⟩ | ⟨v, rfl⟩ | ⟨n, flexible, rfl⟩
  · cases flexible with
    | false => exact Or.inr ⟨rfl, rfl⟩
    | true => exact Or.inl ⟨n, rfl⟩
  · exact Or.inr ⟨rfl, rfl⟩
  · exact Or.inr ⟨rfl, rfl⟩

/-- A type without bound projections stays as it is once its unions are opened up. -/
theorem written_of_opened {t : Ty} (ht : t.Opened)
    (hfree : ∀ n ∈ t.projections, b.contains n = false) : b.written t = t := by
  refine Eq.trans (Ty.graft_congr fun x hx => ?_) ht
  rcases unknown_written_cases (b := b) hx with ⟨n, rfl⟩ | ⟨hwritten, hopened⟩
  · exact written_free (hfree n (Ty.mem_projections_iff.2 (Or.inl hx)))
  · exact hwritten.trans hopened.symm

/-- Writing out looks at the projections of a type one by one. -/
theorem mem_projections_written {t : Ty} (ht : t.Split) {n : String} :
    n ∈ (b.written t).projections ↔
      ∃ m ∈ t.projections, n ∈ (b.written (.valueProj m true)).projections := by
  rw [written, Ty.mem_projections_graft]
  constructor
  · rintro ⟨x, hx, hn⟩
    rcases Ty.unknown_cases hx with ⟨m, flexible, rfl⟩ | ⟨v, rfl⟩ | ⟨m, flexible, rfl⟩
    · cases flexible with
      | false => exact absurd hn List.not_mem_nil
      | true => exact ⟨m, ht.mem_projections_iff.2 hx, hn⟩
    · exact absurd hn List.not_mem_nil
    · cases flexible with
      | false => exact absurd hn List.not_mem_nil
      | true => exact absurd hx (ht m)
  · rintro ⟨m, hm, hn⟩
    exact ⟨_, ht.mem_projections_iff.1 hm, hn⟩

/-- A type is written out with all its unions opened up if its projections are. -/
theorem opened_written_of_projections {t : Ty}
    (h : ∀ n, .valueProj n true ∈ t.unknowns → (b.written (.valueProj n true)).Opened) :
    (b.written t).Opened := by
  refine Ty.Opened.graft fun x hx => ?_
  rcases unknown_written_cases (b := b) hx with ⟨n, rfl⟩ | ⟨hwritten, hopened⟩
  · exact h n hx
  · show (b.written x).Opened
    rwa [hwritten]

namespace Acyclic

variable (hb : b.Acyclic)

include hb

/-- Writing out opens all unions up, also those that bindings bring in. -/
theorem opened_written (t : Ty) : (b.written t).Opened := by
  refine opened_written_of_projections fun n _ => ?_
  refine hb.induct (P := fun n => (b.written (.valueProj n true)).Opened) (fun n ih => ?_) n
  cases hn : b.contains n with
  | false => rw [written_free hn]; rfl
  | true =>
      obtain ⟨u, hu⟩ := Table.get?_of_contains hn
      rw [hb.written_bound hu]
      exact opened_written_of_projections fun m hm => ih m ⟨u, hu, hm⟩

section Split

variable (hsplit : ∀ n t, b.table.get? n = some t → t.Split)

include hsplit

/-- A projection is written out to those that it leads to and that are not bound. -/
theorem mem_projections_written_proj (n m : String) :
    n ∈ (b.written (.valueProj m true)).projections ↔
      b.contains n = false ∧ Relation.ReflTransGen b.Leads m n := by
  refine hb.induct (P := fun m => n ∈ (b.written (.valueProj m true)).projections ↔
    b.contains n = false ∧ Relation.ReflTransGen b.Leads m n) (fun m ih => ?_) m
  cases hm : b.contains m with
  | false =>
      rw [written_free hm, show (Ty.valueProj m true).projections = [m] from rfl,
        List.mem_singleton]
      constructor
      · rintro rfl
        exact ⟨hm, .refl⟩
      · rintro ⟨-, hlead⟩
        rcases hlead.cases_head with he | ⟨k, hk, -⟩
        · exact he.symm
        · exact absurd hk (not_leads_of_free hm)
  | true =>
      obtain ⟨t, ht⟩ := Table.get?_of_contains hm
      have hstep : ∀ {k : String}, k ∈ t.projections ↔ b.Leads m k := by
        intro k
        rw [(hsplit m t ht).mem_projections_iff]
        refine ⟨fun hk => ⟨t, ht, hk⟩, ?_⟩
        rintro ⟨u, hu, hk⟩
        cases ht.symm.trans hu
        exact hk
      rw [hb.written_bound ht, mem_projections_written (hsplit m t ht)]
      constructor
      · rintro ⟨k, hk, hn⟩
        obtain ⟨hfree, hlead⟩ := (ih k (hstep.1 hk)).1 hn
        exact ⟨hfree, .head (hstep.1 hk) hlead⟩
      · rintro ⟨hfree, hlead⟩
        rcases hlead.cases_head with rfl | ⟨k, hk, hlead⟩
        · rw [hm] at hfree; cases hfree
        · exact ⟨k, hstep.2 hk, (ih k hk).2 ⟨hfree, hlead⟩⟩

/-- The projections that are left are those that are not bound and that the type
leads to. -/
theorem mem_projections_written_iff {t : Ty} (ht : t.Split) {n : String} :
    n ∈ (b.written t).projections ↔
      b.contains n = false ∧ ∃ m ∈ t.projections, Relation.ReflTransGen b.Leads m n := by
  simp only [mem_projections_written ht, hb.mem_projections_written_proj hsplit]
  constructor
  · rintro ⟨m, hm, hfree, hlead⟩
    exact ⟨hfree, m, hm, hlead⟩
  · rintro ⟨hfree, m, hm, hlead⟩
    exact ⟨m, hm, hfree, hlead⟩

end Split

end Acyclic

/-- Where no projection leads back to itself, writing out ends in a type without bound
projections, at any depth, which is written out as it stands. Nothing that is not bound
is lost on the way. -/
theorem writing_out_is_complete (hb : b.Acyclic)
    (hsplit : ∀ n t, b.table.get? n = some t → t.Split) {t : Ty} (ht : t.Split) :
    ∃ u, b.apply t = .ok u ∧ (∀ n ∈ u.projections, b.contains n = false) ∧
      b.apply u = .ok u ∧
      ∀ n, b.contains n = false →
        (n ∈ u.projections ↔ ∃ m ∈ t.projections, Relation.ReflTransGen b.Leads m n) := by
  have hleft : ∀ n, n ∈ (b.written t).projections ↔
      b.contains n = false ∧ ∃ m ∈ t.projections, Relation.ReflTransGen b.Leads m n :=
    fun n => hb.mem_projections_written_iff hsplit ht
  have hfree : ∀ n ∈ (b.written t).projections, b.contains n = false :=
    fun n hn => ((hleft n).1 hn).1
  refine ⟨b.written t, hb.apply t, hfree, ?_, fun n hn => ?_⟩
  · rw [hb.apply, written_of_opened (hb.opened_written t) hfree]
  · rw [hleft n, and_iff_right hn]

/-! `T` is bound to a union that mentions `U` and, in the argument of a classifier, `V`.
What these are bound to mentions further projections, and in the end `W`, which is not
bound. -/

def layerFault : Classifier := ⟨0, [], "A", [.covariant], none⟩

def layers : Bindings :=
  ⟨⟨[("T", .union [.valueProj "U" true, .errorConst layerFault [.valueProj "V" true]]),
    ("U", .con (.named "pile") [.union [.nothing, .valueProj "V" true]]),
    ("V", .con (.named "pair") [.valueProj "W" true, .valueProj "W" false])]⟩⟩

def layeredType : Ty :=
  .union [.union [.valueProj "T" true], .errorConst layerFault [.union [.any, .valueProj "T" true]]]

theorem split_layers {n : String} {t : Ty} (h : layers.table.get? n = some t) : t.Split := by
  obtain ⟨k, hk, -⟩ := Table.mem_of_get? h
  simp only [layers, List.mem_cons, Prod.mk.injEq, List.not_mem_nil, or_false] at hk
  rcases hk with ⟨-, rfl⟩ | ⟨-, rfl⟩ | ⟨-, rfl⟩
  all_goals
    intro name hv
    simp [Ty.unknowns, Ty.unknownsAll] at hv

theorem writing_layers_out :
    layers.Acyclic ∧ layeredType.Split ∧
      ∃ u, layers.apply layeredType = .ok u ∧ "W" ∈ u.projections ∧
        (∀ n ∈ u.projections, layers.contains n = false) ∧ layers.apply u = .ok u := by
  have hb : layers.Acyclic := by decide
  have ht : layeredType.Split := by
    intro name hv
    simp [layeredType, Ty.unknowns, Ty.unknownsAll] at hv
  obtain ⟨u, hu, hfree, hagain, hleft⟩ :=
    writing_out_is_complete hb (fun _ _ => split_layers) ht
  have hTU : layers.Leads "T" "U" := ⟨_, rfl, by simp [Ty.unknowns, Ty.unknownsAll]⟩
  have hUV : layers.Leads "U" "V" := ⟨_, rfl, by simp [Ty.unknowns, Ty.unknownsAll]⟩
  have hVW : layers.Leads "V" "W" := ⟨_, rfl, by simp [Ty.unknowns, Ty.unknownsAll]⟩
  refine ⟨hb, ht, u, hu, (hleft "W" rfl).2 ⟨"T", by decide, ?_⟩, hfree, hagain⟩
  exact ((Relation.ReflTransGen.single hTU).tail hUV).tail hVW

/-! A bare type variable is split after the bindings have been looked up, so its
projection stays although it is bound. -/

example : (empty.bind "T" .value).apply (.union [.var "T" true]) =
    .ok (.union [.valueProj "T" true, .errorVar (.ofTyVar "T" true)]) := rfl

end Bindings

end Fallible
