import Fallible.Proofs.Arguments
import Fallible.Proofs.Canonical

/-!
# Subtyping is a bounded preorder

`Any` covers every type, every type covers `Nothing`, and every type covers
itself and everything that is the same up to spelling. These hold whatever the
types are.

Transitivity asks for more. A mark of a failed check is compatible with
everything, and so is an argument list that was left open, so neither may stand
in the middle. The third condition is about records. An entry is compared in the
direction that its own record declares, and the entry is always the one of the
smaller set. With two records of one number the three comparisons may go by
different declarations, and then they need not compose. The fourth is for the
host to meet: its classes compose among themselves, as far as they occur. That a
class counts below itself is not asked, because a constructor is never compared
with itself by class.

A comparison of arguments goes down in all three types at once, and turns round
under a contravariant parameter. So the induction is on the sum of the three
sizes, which does not notice in which order the types stand.
-/

namespace Fallible

/-! ## Types that are the same -/

theorem Ty.valuePart_of_beq {a b : Ty} (h : (a == b) = true) :
    (a.valuePart == b.valuePart) = true := by
  rw [beq_iff_respell, ← valuePart_respell, beq_iff_respell.1 h, valuePart_respell]

/-- The errors of a type cover those of the same type, however arguments are
compared. -/
theorem View.errorsHold_of_beq (s : Solution) (R : Ty → Ty → Prop) {a b : Ty}
    (h : (a == b) = true) : ErrorsHold R (interpretWith s a) (interpretWith s b) := by
  have hbare : a.respell .bare = b.respell .bare := Ty.beq_iff_respell.1 h
  have huniv : (interpretWith s a).known.universal = (interpretWith s b).known.universal := by
    rw [← universal_respell .bare, hbare, universal_respell]
  cases hall : (interpretWith s a).known.universal with
  | true => exact Or.inl hall
  | false =>
      refine Or.inr ⟨huniv ▸ hall, fun e he => ?_, fun x hx => ?_⟩
      · obtain ⟨d, hd, hde⟩ := (sameEntries_interpretWith .bare s b).1 he
        rw [← hbare] at hd
        obtain ⟨d', hd', hdd⟩ := (sameEntries_interpretWith .bare s a).2 hd
        have hsame := hdd.trans hde
        have hget := (distinct_interpretWith s a).get?_of_mem hd'
        rw [ErrorSet.get?_congr _ (Atom.beq_of_respell (congrArg Prod.fst hsame))] at hget
        rw [EntryCovered, hget]
        exact Or.inr (Or.inr (Or.inl
          (Ty.list_beq_iff_respell.2 (congrArg Prod.snd hsame))))
      · rw [← flexible_respell .bare, hbare, flexible_respell]
        exact List.contains_iff_exists_mem_beq.2 ⟨x, hx, BEq.rfl⟩

theorem View.holds_of_beq {v : View} (hv : v.Shallow) (ho : v.order = .classes) {a b : Ty}
    (h : (a == b) = true) : v.holds a b = .ok true :=
  (holds_iff hv ho a b).2 (Or.inr (Or.inr ⟨.same (Ty.valuePart_of_beq h),
    errorsHold_of_beq v.solution _ h⟩))

theorem isSubtype_of_beq {a b : Ty} (h : (a == b) = true) : isSubtype .classes a b = true := by
  have hholds := View.holds_of_beq (View.shallow_plain .classes) rfl h
  rw [holds_plain_eq_isSubtype] at hholds
  exact Except.ok.inj hholds

theorem isSubtype_any (t : Ty) : isSubtype .classes .any t = true :=
  (isSubtype_iff _ _).2 (Or.inr (Or.inr ⟨.value, Or.inl rfl⟩))

theorem isSubtype_nothing (t : Ty) : isSubtype .classes t .nothing = true :=
  (isSubtype_iff _ _).2 (Or.inr (Or.inr ⟨.nothing, Or.inr ⟨rfl,
    fun _ he => absurd he List.not_mem_nil, fun _ hx => absurd hx List.not_mem_nil⟩⟩))

/-! ## Values -/

/-- Whether standing below carries over among some classes of the host. -/
def HostClass.Transitive (cs : List HostClass) : Prop :=
  ∀ a ∈ cs, ∀ b ∈ cs, ∀ c ∈ cs, a.isSubclass b = true → b.isSubclass c = true →
    a.isSubclass c = true

instance (cs : List HostClass) : Decidable (HostClass.Transitive cs) :=
  inferInstanceAs (Decidable (∀ a ∈ cs, ∀ b ∈ cs, ∀ c ∈ cs, a.isSubclass b = true →
    b.isSubclass c = true → a.isSubclass c = true))

/-- The classes of the host that occur in some types, at any depth. -/
def Ty.hostClasses (ts : List Ty) : List HostClass :=
  (subtermsAll ts).filterMap fun
    | .con (.host c) _ => some c
    | _ => none

theorem Ty.mem_hostClasses {ts : List Ty} {c : HostClass} {args : List Ty}
    (h : .con (.host c) args ∈ subtermsAll ts) : c ∈ hostClasses ts :=
  List.mem_filterMap.2 ⟨_, h, rfl⟩

theorem View.classAbove_trans {ts : List Ty} (hclasses : HostClass.Transitive (Ty.hostClasses ts))
    {c d e : Con} (hc : .con c [] ∈ Ty.subtermsAll ts) (hd : .con d [] ∈ Ty.subtermsAll ts)
    (he : .con e [] ∈ Ty.subtermsAll ts) (h : classAbove c d = true)
    (k : classAbove d e = true) : classAbove c e = true := by
  cases c with
  | named s => cases h
  | host c =>
      cases d with
      | named s => cases h
      | host d =>
          cases e with
          | named s => cases k
          | host e =>
              exact hclasses e (Ty.mem_hostClasses he) d (Ty.mem_hostClasses hd) c
                (Ty.mem_hostClasses hc) k h

theorem mem_zip_trans {as bs cs : List Ty} (P : Ty → Ty → Prop) (hab : as.length = bs.length)
    (hbc : bs.length = cs.length) (h₁ : ∀ e ∈ as.zip bs, P e.1 e.2)
    (h₂ : ∀ e ∈ bs.zip cs, P e.1 e.2) :
    ∀ e ∈ as.zip cs, ∃ b ∈ bs, P e.1 b ∧ P b e.2 := by
  intro e he
  obtain ⟨i, hi, rfl⟩ := List.mem_iff_getElem.1 he
  rw [List.length_zip] at hi
  rw [List.getElem_zip]
  have hbi : i < bs.length := by omega
  refine ⟨bs[i], List.getElem_mem hbi, ?_, ?_⟩
  · exact h₁ (as[i], bs[i]) (List.mem_iff_getElem.2 ⟨i, by simp; omega, by simp⟩)
  · exact h₂ (bs[i], cs[i]) (List.mem_iff_getElem.2 ⟨i, by simp; omega, by simp⟩)

section Values

variable {R : Ty → Ty → Prop}

theorem ValueCovers.of_con_right (hbeq : ∀ x y : Ty, (x == y) = true → R x y) {x : Ty} {d : Con}
    {bs : List Ty} (h : ValueCovers R x (.con d bs)) :
    x = .erroneous ∨ x = .value ∨
      (∃ as, x = .con d as ∧ as.length = bs.length ∧
        ∀ e ∈ as.zip bs, R e.1 e.2 ∧ R e.2 e.1) ∨
      ∃ c, x = .con c [] ∧ bs = [] ∧ View.classAbove c d = true := by
  cases h with
  | same he =>
      cases x with
      | con c as =>
          obtain ⟨rfl, hlen, hall⟩ := Ty.beq_con he
          exact Or.inr (Or.inr (Or.inl ⟨as, rfl, hlen, fun e hmem =>
            ⟨hbeq _ _ (hall e hmem), hbeq _ _ (BEq.symm (hall e hmem))⟩⟩))
      | _ => cases he
  | failedSup => exact Or.inl rfl
  | value => exact Or.inr (Or.inl rfl)
  | con hlen hall => exact Or.inr (Or.inr (Or.inl ⟨_, rfl, hlen, hall⟩))
  | subclass habove => exact Or.inr (Or.inr (Or.inr ⟨_, rfl, rfl, habove⟩))

theorem ValueCovers.of_con_left (hbeq : ∀ x y : Ty, (x == y) = true → R x y) {z : Ty} {d : Con}
    {bs : List Ty} (h : ValueCovers R (.con d bs) z) :
    z = .erroneous ∨ z = .nothing ∨
      (∃ cs, z = .con d cs ∧ bs.length = cs.length ∧
        ∀ e ∈ bs.zip cs, R e.1 e.2 ∧ R e.2 e.1) ∨
      ∃ c, z = .con c [] ∧ bs = [] ∧ View.classAbove d c = true := by
  cases h with
  | same he =>
      cases z with
      | con c cs =>
          obtain ⟨rfl, hlen, hall⟩ := Ty.beq_con he
          exact Or.inr (Or.inr (Or.inl ⟨cs, rfl, hlen, fun e hmem =>
            ⟨hbeq _ _ (hall e hmem), hbeq _ _ (BEq.symm (hall e hmem))⟩⟩))
      | _ => cases he
  | failedSub => exact Or.inl rfl
  | nothing => exact Or.inr (Or.inl rfl)
  | con hlen hall => exact Or.inr (Or.inr (Or.inl ⟨_, rfl, hlen, hall⟩))
  | subclass habove => exact Or.inr (Or.inr (Or.inr ⟨_, rfl, rfl, habove⟩))

/-- Coverings of values compose, if those of the constructors do, and those of the
arguments, both ways. -/
theorem ValueCovers.trans (hbeq : ∀ x y : Ty, (x == y) = true → R x y) {x y z : Ty}
    (hxy : ValueCovers R x y) (hyz : ValueCovers R y z) (hy : y ≠ .erroneous)
    (hcons : ∀ c d e, x = .con c [] → y = .con d [] → z = .con e [] →
      View.classAbove c d = true → View.classAbove d e = true → View.classAbove c e = true)
    (hargs : ∀ c as d bs e cs, x = .con c as → y = .con d bs → z = .con e cs →
      ∀ a ∈ as, ∀ b ∈ bs, ∀ c ∈ cs, (R a b → R b c → R a c) ∧ (R c b → R b a → R c a)) :
    ValueCovers R x z := by
  cases y with
  | con d bs =>
      rcases hxy.of_con_right hbeq with rfl | rfl | ⟨as, rfl, hab, hall⟩ | ⟨c, rfl, rfl, habove⟩
      · exact .failedSup
      · exact .value
      · rcases hyz.of_con_left hbeq with rfl | rfl | ⟨cs, rfl, hbc, hall'⟩ | ⟨e, rfl, rfl, hbelow⟩
        · exact .failedSub
        · exact .nothing
        · refine .con (hab.trans hbc) fun e he => ?_
          obtain ⟨b, hb, ⟨h₁, h₂⟩, h₃, h₄⟩ :=
            mem_zip_trans (fun a b => R a b ∧ R b a) hab hbc hall hall' e he
          obtain ⟨ha, hc⟩ := List.of_mem_zip he
          obtain ⟨hto, hfro⟩ := hargs d as d bs d cs rfl rfl rfl e.1 ha b hb e.2 hc
          exact ⟨hto h₁ h₃, hfro h₄ h₂⟩
        · obtain rfl := List.eq_nil_of_length_eq_zero hab
          exact .subclass hbelow
      · rcases hyz.of_con_left hbeq with rfl | rfl | ⟨cs, rfl, hbc, _⟩ | ⟨e, rfl, _, hbelow⟩
        · exact .failedSub
        · exact .nothing
        · obtain rfl := List.eq_nil_of_length_eq_zero hbc.symm
          exact .subclass habove
        · exact .subclass (hcons c d e rfl rfl rfl habove hbelow)
  | erroneous => exact absurd rfl hy
  | nothing =>
      cases hyz with
      | same he => cases z <;> first | exact .nothing | cases he
      | failedSub => exact .failedSub
      | nothing => exact .nothing
  | value =>
      cases hxy with
      | same he => cases x <;> first | exact .value | cases he
      | failedSup => exact .failedSup
      | value => exact .value
  | _ =>
      cases hxy with
      | failedSup => exact .failedSup
      | value => exact .value
      | same he =>
          cases hyz with
          | same he' => exact .same (BEq.trans he he')
          | failedSub => exact .failedSub
          | nothing => exact .nothing

end Values

/-! ## Arguments -/

section Arguments

variable {R : Ty → Ty → Prop}

theorem ArgCovers.trans {v : Variance} {x y z : Ty} (hxy : ArgCovers R v x y)
    (hyz : ArgCovers R v y z) (hto : R x y → R y z → R x z) (hfro : R z y → R y x → R z x) :
    ArgCovers R v x z := by
  cases v with
  | covariant => exact hto hxy hyz
  | contravariant => exact hfro hyz hxy
  | invariant => exact ⟨hto hxy.1 hyz.1, hfro hyz.2 hxy.2⟩

theorem ArgCovers.of_both {v : Variance} {x y : Ty} (hxy : R x y) (hyx : R y x) :
    ArgCovers R v x y := by
  cases v with
  | covariant => exact hxy
  | contravariant => exact hyx
  | invariant => exact ⟨hxy, hyx⟩

theorem ArgsCover.matches (hbeq : ∀ x y : Ty, (x == y) = true → R x y) {a : Atom}
    {xs ys : List Ty} (h : ArgsCover R a xs ys) (hlen : xs.length = ys.length) :
    ArgsMatch R a xs ys := by
  rcases h with rfl | rfl | hsame | hmatch
  · exact ⟨hlen, fun i x y hx => by simp at hx⟩
  · exact ⟨hlen, fun i x y _ hy => by simp at hy⟩
  · refine ⟨hlen, fun i x y hx hy => ?_⟩
    have hmap := congrArg (fun l => l[i]?) (Ty.list_beq_iff_respell.1 hsame)
    simp only [List.getElem?_map, hx, hy, Option.map_some, Option.some.injEq] at hmap
    have hxy : (x == y) = true := Ty.beq_iff_respell.2 hmap
    exact .of_both (hbeq x y hxy) (hbeq y x (BEq.symm hxy))
  · exact hmatch

theorem ArgsMatch.trans {a : Atom} {xs ys zs : List Ty} (hxy : ArgsMatch R a xs ys)
    (hyz : ArgsMatch R a ys zs)
    (hR : ∀ x ∈ xs, ∀ y ∈ ys, ∀ z ∈ zs, (R x y → R y z → R x z) ∧ (R z y → R y x → R z x)) :
    ArgsMatch R a xs zs := by
  obtain ⟨hlen, hxy⟩ := hxy
  obtain ⟨hlen', hyz⟩ := hyz
  refine ⟨hlen.trans hlen', fun i x z hx hz => ?_⟩
  have hi : i < ys.length := hlen ▸ (List.getElem?_eq_some_iff.1 hx).1
  have hy : ys[i]? = some ys[i] := List.getElem?_eq_getElem hi
  obtain ⟨hto, hfro⟩ := hR x (List.mem_of_getElem? hx) ys[i] (List.getElem_mem hi) z
    (List.mem_of_getElem? hz)
  exact (hxy i x _ hx hy).trans (hyz i _ z hy hz) hto hfro

theorem ArgsMatch.congr {a b : Atom} {xs ys : List Ty} (h : ArgsMatch R a xs ys)
    (hv : ∀ i, a.variance i = b.variance i) : ArgsMatch R b xs ys :=
  ⟨h.1, fun i x y hx hy => hv i ▸ h.2 i x y hx hy⟩

end Arguments

/-! ## Errors -/

namespace View

/-- Where a known error comes from, nothing being solved. The record of a
classifier is the first one named, its arguments are the last. -/
def StemsFrom (ms : List Ty) (e : Atom × List Ty) : Prop :=
  (∃ x, e = (.var x, [])) ∨ ∃ c args c', e.1 = .classifier c ∧ c.id = c'.id ∧
    .errorConst c args ∈ ms ∧ .errorConst c' e.2 ∈ ms

theorem stemsFrom_add {ms : List Ty} {r : Reading} {m : Ty} (hm : m ∈ ms)
    (hr : ∀ e ∈ r.known.entries, StemsFrom ms e) :
    ∀ e ∈ (r.add .empty m).known.entries, StemsFrom ms e := by
  intro e he
  cases m with
  | errorConst d args =>
      rcases Table.mem_insert he with ⟨hkey, hargs⟩ | hold
      · rcases Table.mem_keys_insert (List.mem_map_of_mem he) with hnew | hold
        · exact Or.inr ⟨d, args, d, hnew, rfl, hm, hargs ▸ hm⟩
        · obtain ⟨e', he', hfst⟩ := List.mem_map.1 hold
          rw [← hfst] at hkey
          rcases hr e' he' with ⟨x, rfl⟩ | ⟨c, args', c', hc, -, hmem, -⟩
          · cases hkey
          · rw [hc] at hkey
            exact Or.inr ⟨c, args', d, hfst ▸ hc, Classifier.beq_iff.1 hkey, hmem, hargs ▸ hm⟩
      · exact hr e hold
  | errorVar x =>
      cases hx : x.flexible with
      | false =>
          rw [add_rigid hx] at he
          rcases Table.mem_insert he with ⟨hkey, hargs⟩ | hold
          · obtain ⟨a, args⟩ := e
            cases hargs
            cases a with
            | classifier c => cases hkey
            | var y => exact Or.inl ⟨y, rfl⟩
          · exact hr e hold
      | true =>
          rw [add_waiting hx rfl] at he
          exact hr e he
  | _ => exact hr e he

theorem stemsFrom_interpretWith {t : Ty} :
    ∀ e ∈ (interpretWith .empty t).known.entries, StemsFrom t.errorPart e := by
  have hfold : ∀ (ms : List Ty) (r : Reading), (∀ m ∈ ms, m ∈ t.errorPart) →
      (∀ e ∈ r.known.entries, StemsFrom t.errorPart e) →
      ∀ e ∈ (ms.foldl (Reading.add .empty) r).known.entries, StemsFrom t.errorPart e := by
    intro ms
    induction ms with
    | nil => exact fun _ _ hr => hr
    | cons m ms ih =>
        intro r hms hr
        exact ih _ (fun x hx => hms x (by simp [hx])) (stemsFrom_add (hms m (by simp)) hr)
  intro e he
  refine hfold t.errorPart ⟨.empty, false, []⟩ (fun _ h => h) ?_ e
    (ErrorSet.mem_entries_ofEntries.1 he)
  exact fun _ h => absurd h List.not_mem_nil

end View

section Errors

variable {R : Ty → Ty → Prop}

/-- What a covered set lists is there, or all that it can stand for is. -/
theorem listed_of_covered {A B : ErrorSet} (hAB : ∀ d ∈ B.entries, EntryCovered R A d) {a : Atom}
    (ha : B.contains a = true) : A.contains a = true ∨ View.coveredByAlias A a = true := by
  obtain ⟨d, hd, hda⟩ := ErrorSet.contains_iff.1 ha
  have hcov := hAB d hd
  cases hget : A.get? d.1 with
  | none => exact Or.inr (View.coveredByAlias_congr A hda ▸ hcov.of_none hget)
  | some args =>
      left
      rw [← ErrorSet.contains_congr A hda, ← ErrorSet.isSome_get?, hget]
      rfl

theorem coveredByAlias_of_covered {A B : ErrorSet} (hAB : ∀ d ∈ B.entries, EntryCovered R A d)
    {a : Atom} (ha : View.coveredByAlias B a = true) : View.coveredByAlias A a = true := by
  cases a with
  | classifier c => cases ha
  | var x =>
      cases hb : x.bound with
      | unbounded => simp [View.coveredByAlias, hb] at ha
      | bounded al =>
          simp only [View.coveredByAlias, hb, List.all_eq_true] at ha ⊢
          intro c hc
          -- A classifier has no alias, so it is there itself.
          rcases listed_of_covered hAB (ha c hc) with h | h
          · exact h
          · cases h

/-- Coverings of entries compose, if those of the arguments of classifiers do. -/
theorem EntryCovered.trans {A B : ErrorSet} (hB : B.Distinct) {e : Atom × List Ty}
    (hAB : ∀ d ∈ B.entries, EntryCovered R A d) (hBe : EntryCovered R B e)
    (hvar : ∀ x args, A.get? (.var x) = some args → args = [])
    (hargs : ∀ c args, e.1 = .classifier c → A.get? e.1 = some args →
      ∀ d ∈ B.entries, (d.1 == e.1) = true →
        ArgsCover R d.1 args d.2 → ArgsCover R e.1 d.2 e.2 → ArgsCover R e.1 args e.2) :
    EntryCovered R A e := by
  cases hget : A.get? e.1 with
  | none =>
      rw [EntryCovered, hget]
      cases hgetB : B.get? e.1 with
      | none => exact coveredByAlias_of_covered hAB (hBe.of_none hgetB)
      | some args =>
          have hc : B.contains e.1 = true := by rw [← ErrorSet.isSome_get?, hgetB]; rfl
          rcases listed_of_covered hAB hc with h | h
          · rw [← ErrorSet.isSome_get?, hget] at h
            cases h
          · exact h
  | some args =>
      rw [EntryCovered, hget]
      cases he : e.1 with
      | var x =>
          rw [he] at hget
          exact Or.inl (hvar x args hget)
      | classifier c =>
          cases hgetB : B.get? e.1 with
          | none =>
              have h := hBe.of_none hgetB
              rw [he] at h
              cases h
          | some args' =>
              obtain ⟨b, hb, hbe⟩ := hB.mem_of_get? hgetB
              have hcov : ArgsCover R b args args' :=
                (hAB _ hb).of_some ((ErrorSet.get?_congr A hbe).trans hget)
              exact he ▸ hargs c args he hget _ hb hbe hcov (hBe.of_some hgetB)

theorem ErrorsHold.trans {A B C : Interpretation} (hAB : ErrorsHold R A B)
    (hBC : ErrorsHold R B C)
    (hentries : (∀ d ∈ B.known.entries, EntryCovered R A.known d) →
      ∀ e ∈ C.known.entries, EntryCovered R B.known e → EntryCovered R A.known e) :
    ErrorsHold R A C := by
  rcases hAB with hall | ⟨hB, hAB, hflow⟩
  · exact Or.inl hall
  · rcases hBC with hall | ⟨hC, hBC, hflow'⟩
    · rw [hB] at hall
      cases hall
    · refine Or.inr ⟨hC, fun e he => hentries hAB e he (hBC e he), fun x hx => ?_⟩
      obtain ⟨y, hy, hxy⟩ := List.contains_iff_exists_mem_beq.1 (hflow' x hx)
      obtain ⟨z, hz, hyz⟩ := List.contains_iff_exists_mem_beq.1 (hflow y hy)
      exact List.contains_iff_exists_mem_beq.2 ⟨z, hz, BEq.trans hxy hyz⟩

end Errors

/-! ## Types -/

namespace Ty

/-- Whether a classifier has as many arguments as it declares. -/
def isSaturated : Ty → Bool
  | .errorConst c args => args.length == c.arity
  | _ => true

theorem mem_subterms_of_mem_constituents {t m : Ty} (hm : m ∈ t.constituents) :
    m ∈ t.subterms ∨ m = .value ∨ m = .error ∨ (∃ name flexible, m = .valueProj name flexible) ∨
      ∃ x, m = .errorVar x := by
  induction t with
  | union ms ih =>
      obtain ⟨x, hx, hmx⟩ := mem_constituents_union.1 hm
      refine (ih x hx hmx).imp_left fun h => ?_
      rw [subterms]
      exact List.mem_cons_of_mem _ (mem_subtermsAll.2 ⟨x, hx, h⟩)
  | nothing => simp [constituents] at hm
  | any | var =>
      simp only [constituents, List.mem_cons, List.not_mem_nil, or_false] at hm
      rcases hm with rfl | rfl <;> simp
  | _ =>
      simp only [constituents, List.mem_singleton] at hm
      exact Or.inl (hm ▸ mem_subterms_self _)

theorem con_mem_subterms {t : Ty} {c : Con} {args : List Ty} (h : t.valuePart = .con c args) :
    .con c args ∈ t.subterms := by
  have hm : .con c args ∈ t.constituents := by
    rcases t.valuePart_mem with hv | hv
    · rw [h] at hv; cases hv
    · exact h ▸ hv
  simpa using mem_subterms_of_mem_constituents hm

theorem errorConst_mem_subterms {t : Ty} {c : Classifier} {args : List Ty}
    (h : .errorConst c args ∈ t.errorPart) : .errorConst c args ∈ t.subterms := by
  simpa using mem_subterms_of_mem_constituents (List.mem_filter.1 h).1

section Sound

variable {t : Ty} (h : ∀ s ∈ t.subterms, s.isErroneous = false)

include h in
theorem isErroneous_of_mem_constituents {m : Ty} (hm : m ∈ t.constituents) :
    m.isErroneous = false := by
  rcases mem_subterms_of_mem_constituents hm with hs | rfl | rfl | ⟨_, _, rfl⟩ | ⟨_, rfl⟩
  · exact h m hs
  all_goals rfl

include h in
theorem failed_of_sound : t.failed = false := by
  rw [failed_eq, List.any_eq_false]
  intro m hm
  rw [isErroneous_of_mem_constituents h hm]
  exact Bool.false_ne_true

include h in
theorem valuePart_ne_erroneous : t.valuePart ≠ .erroneous := by
  intro hv
  rcases t.valuePart_mem with hn | hm
  · rw [hn] at hv; cases hv
  · have := isErroneous_of_mem_constituents h hm
    rw [hv] at this
    cases this

end Sound

end Ty

section Types

variable {ts : List Ty}

/-- The arguments of a known classifier are as many as declared, and smaller. -/
theorem known_classifier (hsat : ∀ t ∈ Ty.subtermsAll ts, t.isSaturated = true)
    (hagree : Ty.Agree ts) {t : Ty} (ht : t ∈ Ty.subtermsAll ts) {c : Classifier} {args : List Ty}
    (he : (.classifier c, args) ∈ (View.interpretWith .empty t).known.entries) :
    c ∈ Ty.classifiersAll ts ∧ args.length = c.arity ∧
      ∀ x ∈ args, x ∈ Ty.subtermsAll ts ∧ x.size < t.size := by
  rcases View.stemsFrom_interpretWith _ he with ⟨x, hx⟩ | ⟨d, as, c', hd, hid, hc, hc'⟩
  · cases hx
  · cases hd
    have hmem : .errorConst c as ∈ Ty.subtermsAll ts :=
      Ty.subterms_of_mem ht (Ty.errorConst_mem_subterms hc)
    have hmem' : .errorConst c' args ∈ Ty.subtermsAll ts :=
      Ty.subterms_of_mem ht (Ty.errorConst_mem_subterms hc')
    refine ⟨Ty.mem_classifiersAll.2 ⟨as, hmem⟩, ?_, fun x hx => ⟨?_, ?_⟩⟩
    · rw [Classifier.arity, hagree.errorConst hmem hmem' hid]
      exact beq_iff_eq.1 (hsat _ hmem')
    · refine Ty.subterms_of_mem hmem' ?_
      rw [Ty.subterms]
      exact List.mem_cons_of_mem _ (Ty.arg_mem_subterms hx)
    · have h₁ : Ty.sizeAll args + 1 ≤ t.size :=
        Ty.size_le_of_mem_constituents t (List.mem_filter.1 hc').1
      have h₂ := Ty.size_le_sizeAll hx
      omega

theorem known_get? (hsat : ∀ t ∈ Ty.subtermsAll ts, t.isSaturated = true) (hagree : Ty.Agree ts)
    {t : Ty} (ht : t ∈ Ty.subtermsAll ts) {c : Classifier} (hc : c ∈ Ty.classifiersAll ts)
    {args : List Ty}
    (hget : (View.interpretWith .empty t).known.get? (.classifier c) = some args) :
    args.length = c.arity ∧ ∀ x ∈ args, x ∈ Ty.subtermsAll ts ∧ x.size < t.size := by
  obtain ⟨b, hb, hbc⟩ := (View.distinct_interpretWith .empty t).mem_of_get? hget
  cases b with
  | var x => cases hbc
  | classifier d =>
      obtain ⟨hd, hlen, hargs⟩ := known_classifier hsat hagree ht hb
      refine ⟨?_, hargs⟩
      rw [hlen, Classifier.arity, Classifier.arity, hagree d hd c hc (Classifier.beq_iff.1 hbc)]

theorem known_var {t : Ty} {x : ErrorVar} {args : List Ty}
    (hget : (View.interpretWith .empty t).known.get? (.var x) = some args) : args = [] := by
  obtain ⟨b, hb, hbx⟩ := (View.distinct_interpretWith .empty t).mem_of_get? hget
  rcases View.stemsFrom_interpretWith _ hb with ⟨y, hy⟩ | ⟨c, _, _, hc, _⟩
  · cases hy; rfl
  · cases hc; cases hbx

theorem con_of_valuePart {t : Ty} (ht : t ∈ Ty.subtermsAll ts) {k : Con} {as : List Ty}
    (hk : t.valuePart = .con k as) : .con k as ∈ Ty.subtermsAll ts :=
  Ty.subterms_of_mem ht (Ty.con_mem_subterms hk)

theorem arg_of_valuePart {t : Ty} (ht : t ∈ Ty.subtermsAll ts) {k : Con} {as : List Ty}
    (hk : t.valuePart = .con k as) {x : Ty} (hx : x ∈ as) : x ∈ Ty.subtermsAll ts := by
  refine Ty.subterms_of_mem (con_of_valuePart ht hk) ?_
  rw [Ty.subterms]
  exact List.mem_cons_of_mem _ (Ty.arg_mem_subterms hx)

/-- Whether coverings between parts of some types compose, for three types whose
sizes stay below a bound. -/
def Composes (ts : List Ty) (n : Nat) : Prop :=
  ∀ {a b c : Ty}, a.size + b.size + c.size < n → a ∈ Ty.subtermsAll ts →
    b ∈ Ty.subtermsAll ts → c ∈ Ty.subtermsAll ts → isSubtype .classes a b = true →
    isSubtype .classes b c = true → isSubtype .classes a c = true

/-- The arguments that three types have for one classifier compose. -/
theorem Composes.known {n : Nat} (hn : Composes ts n)
    (hsat : ∀ t ∈ Ty.subtermsAll ts, t.isSaturated = true) (hagree : Ty.Agree ts) {a b c : Ty}
    (hsize : a.size + b.size + c.size ≤ n) (ha : a ∈ Ty.subtermsAll ts)
    (hb : b ∈ Ty.subtermsAll ts) (hc : c ∈ Ty.subtermsAll ts) {k l : Classifier}
    {xs ys zs : List Ty}
    (hxs : (View.interpretWith .empty a).known.get? (.classifier k) = some xs)
    (hys : (.classifier l, ys) ∈ (View.interpretWith .empty b).known.entries)
    (hzs : (.classifier k, zs) ∈ (View.interpretWith .empty c).known.entries)
    (hlk : l.id = k.id)
    (hxy : ArgsCover (fun x y => isSubtype .classes x y = true) (.classifier l) xs ys)
    (hyz : ArgsCover (fun x y => isSubtype .classes x y = true) (.classifier k) ys zs) :
    ArgsCover (fun x y => isSubtype .classes x y = true) (.classifier k) xs zs := by
  obtain ⟨hk, hlen, hargs⟩ := known_classifier hsat hagree hc hzs
  obtain ⟨hl, hlen', hargs'⟩ := known_classifier hsat hagree hb hys
  obtain ⟨hlenA, hargsA⟩ := known_get? hsat hagree ha hk hxs
  have hvar : l.variances = k.variances := hagree l hl k hk hlk
  have harity : l.arity = k.arity := congrArg List.length hvar
  have hm₁ : ArgsMatch _ (.classifier l) xs ys :=
    hxy.matches (fun _ _ => isSubtype_of_beq) (by rw [hlenA, hlen', harity])
  have hm₂ : ArgsMatch _ (.classifier k) ys zs :=
    hyz.matches (fun _ _ => isSubtype_of_beq) (by rw [hlen, hlen', harity])
  refine Or.inr (Or.inr (Or.inr ((hm₁.congr fun i => ?_).trans hm₂ ?_)))
  · show l.variance i = k.variance i
    rw [Classifier.variance, Classifier.variance, hvar]
  · intro x hx y hy z hz
    have h₁ := hargsA x hx
    have h₂ := hargs' y hy
    have h₃ := hargs z hz
    exact ⟨hn (by omega) h₁.1 h₂.1 h₃.1, hn (by omega) h₃.1 h₂.1 h₁.1⟩

theorem composes (hsound : ∀ t ∈ Ty.subtermsAll ts, t.isErroneous = false)
    (hsat : ∀ t ∈ Ty.subtermsAll ts, t.isSaturated = true) (hagree : Ty.Agree ts)
    (hclasses : HostClass.Transitive (Ty.hostClasses ts)) (n : Nat) : Composes ts n := by
  induction n with
  | zero => intro a b c hn; omega
  | succ n ih =>
      intro a b c hn ha hb hc hab hbc
      have hsub : ∀ {t}, t ∈ Ty.subtermsAll ts → ∀ s ∈ t.subterms, s.isErroneous = false :=
        fun ht s hs => hsound s (Ty.subterms_of_mem ht hs)
      have hfa := Ty.failed_of_sound (hsub ha)
      have hfb := Ty.failed_of_sound (hsub hb)
      have hfc := Ty.failed_of_sound (hsub hc)
      rw [isSubtype_iff] at hab hbc ⊢
      simp only [hfa, hfb, hfc, Bool.false_eq_true, false_or] at hab hbc ⊢
      obtain ⟨hvab, heab⟩ := hab
      obtain ⟨hvbc, hebc⟩ := hbc
      refine ⟨hvab.trans (fun _ _ => isSubtype_of_beq) hvbc
        (Ty.valuePart_ne_erroneous (hsub hb)) ?_ ?_, heab.trans hebc ?_⟩
      · intro k d e hk hd he
        exact View.classAbove_trans hclasses (con_of_valuePart ha hk) (con_of_valuePart hb hd)
          (con_of_valuePart hc he)
      · intro k as d bs e cs hk hd he x hx y hy z hz
        have h₁ := View.size_arg_lt hk hx
        have h₂ := View.size_arg_lt hd hy
        have h₃ := View.size_arg_lt he hz
        have hx := arg_of_valuePart ha hk hx
        have hy := arg_of_valuePart hb hd hy
        have hz := arg_of_valuePart hc he hz
        exact ⟨ih (by omega) hx hy hz, ih (by omega) hz hy hx⟩
      · rintro hcov ⟨atom, zs⟩ he hBe
        refine EntryCovered.trans (View.distinct_interpretWith .empty b) hcov hBe
          (fun x args => known_var) ?_
        rintro k xs hk hxs ⟨datom, ys⟩ hd hde hxy hyz
        cases hk
        cases datom with
        | var x => cases hde
        | classifier l =>
            exact Composes.known ih hsat hagree (by omega) ha hb hc hxs hd he
              (Classifier.beq_iff.1 hde) hxy hyz

end Types

/-- Subtyping is a preorder between `Nothing` and `Any`. It is transitive where
no check failed, every classifier has the arguments it declares, records of one
number declare the same variances, and standing below carries over among the
host's classes. -/
theorem isSubtype_bounded_preorder :
    (∀ t, isSubtype .classes t t = true ∧ isSubtype .classes .any t = true ∧
      isSubtype .classes t .nothing = true) ∧
    ∀ a b c, (∀ t ∈ Ty.subtermsAll [a, b, c], t.isErroneous = false) →
      (∀ t ∈ Ty.subtermsAll [a, b, c], t.isSaturated = true) → Ty.Agree [a, b, c] →
      HostClass.Transitive (Ty.hostClasses [a, b, c]) →
      isSubtype .classes a b = true → isSubtype .classes b c = true →
      isSubtype .classes a c = true := by
  refine ⟨fun t => ⟨isSubtype_of_beq BEq.rfl, isSubtype_any t, isSubtype_nothing t⟩, ?_⟩
  intro a b c hsound hsat hagree hclasses
  have hmem : ∀ t ∈ [a, b, c], t ∈ Ty.subtermsAll [a, b, c] := fun t => Ty.arg_mem_subterms
  exact composes hsound hsat hagree hclasses _ (Nat.lt_succ_self _)
    (hmem a (by simp)) (hmem b (by simp)) (hmem c (by simp))

/-- A classifier of number zero with one parameter, under some name. -/
def loneRecord (name : String) (v : Variance) : Classifier := ⟨0, [], name, [v], none⟩

def loneError (v : Variance) (c : HostClass) : Ty :=
  .errorConst (loneRecord "A" v) [.con (.host c) []]

/-- Under a contravariant parameter the host's classes compose the other way. -/
theorem isSubtype_contravariant_chain :
    isSubtype .classes (loneError .contravariant .bool) (loneError .contravariant .object) =
      true :=
  isSubtype_bounded_preorder.2 _ (loneError .contravariant .int) _ (by decide) (by decide)
    (by decide) (by decide) (by decide) (by decide)

/-- Without agreement on variances subtyping is not transitive: one record says
that the argument of `A` may shrink, another that it may grow. -/
theorem not_isSubtype_trans_of_two_records :
    ¬ ∀ a b c, (∀ t ∈ Ty.subtermsAll [a, b, c], t.isErroneous = false) →
      (∀ t ∈ Ty.subtermsAll [a, b, c], t.isSaturated = true) →
      HostClass.Transitive (Ty.hostClasses [a, b, c]) →
      isSubtype .classes a b = true → isSubtype .classes b c = true →
      isSubtype .classes a c = true := by
  intro h
  have hac := h (loneError .covariant .int) (.errorConst (loneRecord "A" .covariant) [.nothing])
    (.errorConst (loneRecord "B" .contravariant) [.con (.host .str) []]) (by decide) (by decide)
    (by decide) (by decide) (by decide)
  exact absurd hac (by decide)

/-! Nor is it where the host counts a class below another but not below all that this one
is below. Subtyping follows the host. -/

example :
    isSubtype .classes (.con (.host .int) []) (.con (.host .bool) []) = true ∧
    isSubtype .classes (.con (.host .bool) [])
      (.con (.host ⟨25, "Adopted", none, [HostClass.bool.serial]⟩) []) = true ∧
    isSubtype .classes (.con (.host .int) [])
      (.con (.host ⟨25, "Adopted", none, [HostClass.bool.serial]⟩) []) = false := by
  decide

end Fallible
