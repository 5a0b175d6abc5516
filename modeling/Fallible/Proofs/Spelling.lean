import Fallible.Proofs.Errors

/-!
# Spelling classifiers another way

Two records of one classifier carry one number and may differ in everything
else. How much of the rest matters depends on who looks: `==` looks at numbers
alone, a comparison of arguments looks at the declared variances as well, and
nothing looks at scopes and names. A spelling is a way to write every classifier
that keeps its number. Types that come out the same under a spelling agree in
what it keeps.

Respelling a type respells its constituents one by one, so it commutes with
everything that is read off them. The errors of a respelled type are those of
the type, respelled; what a solution adds to them is not.
-/

namespace Fallible

/-- A way to write classifiers that keeps their numbers. -/
structure Spelling where
  of : Classifier → Classifier
  id_of : ∀ c, (of c).id = c.id
  of_of : ∀ c, of (of c) = of c

/-- Numbers alone. -/
def Spelling.bare : Spelling := ⟨Classifier.bare, fun _ => rfl, fun _ => rfl⟩

/-- Numbers and declared variances. -/
def Spelling.unnamed : Spelling :=
  ⟨fun c => ⟨c.id, [], "", c.variances, none⟩, fun _ => rfl, fun _ => rfl⟩

namespace Ty

mutual

/-- The type with its classifiers spelled another way. -/
def respell (f : Spelling) : Ty → Ty
  | .con c as => .con c (respellAll f as)
  | .errorConst c as => .errorConst (f.of c) (respellAll f as)
  | .errorVar v => .errorVar v.bare
  | .union as => .union (respellAll f as)
  | .any => .any
  | .value => .value
  | .error => .error
  | .nothing => .nothing
  | .erroneous => .erroneous
  | .var n b => .var n b
  | .valueProj n b => .valueProj n b

def respellAll (f : Spelling) : List Ty → List Ty
  | [] => []
  | a :: as => respell f a :: respellAll f as

end

variable (f : Spelling)

@[simp] theorem respellAll_eq_map (as : List Ty) : respellAll f as = as.map (respell f) := by
  induction as with
  | nil => rfl
  | cons a as ih => rw [respellAll, ih, List.map_cons]

theorem bare_eq_respell (t : Ty) : t.bare = t.respell .bare := by
  induction t with
  | con c as ih => simpa [bare, respell, bareAll_eq_map] using ih
  | errorConst c as ih => simpa [bare, respell, bareAll_eq_map, Spelling.bare] using ih
  | union ms ih => simpa [bare, respell, bareAll_eq_map] using ih
  | _ => rfl

theorem beq_iff_respell {a b : Ty} : (a == b) = true ↔ a.respell .bare = b.respell .bare := by
  rw [beq_iff, bare_eq_respell, bare_eq_respell]

theorem list_beq_iff_respell {as bs : List Ty} :
    (as == bs) = true ↔ as.map (respell .bare) = bs.map (respell .bare) := by
  induction as generalizing bs with
  | nil => cases bs <;> simp
  | cons a as ih =>
      cases bs with
      | nil => simp
      | cons b bs => simp [ih, beq_iff_respell]

instance : EquivBEq (List Ty) where
  symm h := list_beq_iff_respell.2 (list_beq_iff_respell.1 h).symm
  trans h k :=
    list_beq_iff_respell.2 ((list_beq_iff_respell.1 h).trans (list_beq_iff_respell.1 k))

end Ty

theorem ErrorVar.bare_bare (v : ErrorVar) : v.bare.bare = v.bare := by
  obtain ⟨name, bound, flexible⟩ := v
  cases bound with
  | unbounded => rfl
  | bounded a => simp [ErrorVar.bare, Universe.bare, Alias.bare, Classifier.bare]

theorem ErrorVar.bare_beq (v : ErrorVar) : (v.bare == v) = true :=
  beq_iff_bare.2 v.bare_bare

/-- The atom with its classifiers spelled another way. -/
def Atom.respell (f : Spelling) : Atom → Atom
  | .classifier c => .classifier (f.of c)
  | .var v => .var v.bare

theorem Atom.bare_respell (f : Spelling) (a : Atom) : (a.respell f).bare = a.bare := by
  cases a with
  | classifier c => simp [respell, bare, Classifier.bare, f.id_of]
  | var v => exact congrArg Atom.var v.bare_bare

theorem Atom.respell_beq (f : Spelling) (a b : Atom) : (a.respell f == b) = (a == b) := by
  rw [Bool.eq_iff_iff, beq_iff, beq_iff, bare_respell]

theorem Atom.respell_beq_respell (f : Spelling) (a b : Atom) :
    (a.respell f == b.respell f) = (a == b) := by
  rw [Bool.eq_iff_iff, beq_iff, beq_iff, bare_respell, bare_respell]

theorem Atom.beq_of_respell {f : Spelling} {a b : Atom} (h : a.respell f = b.respell f) :
    (a == b) = true := by
  rw [← respell_beq_respell f, h]
  exact BEq.rfl

theorem Atom.variance_respell_unnamed (a : Atom) (i : Nat) :
    (a.respell .unnamed).variance i = a.variance i := by
  cases a <;> rfl

namespace Ty

variable (f : Spelling)

theorem respell_respell (t : Ty) : (t.respell f).respell f = t.respell f := by
  induction t with
  | con c as ih => simpa [respell] using ih
  | errorConst c as ih => simpa [respell, f.of_of] using ih
  | union ms ih => simpa [respell] using ih
  | errorVar v => simp [respell, v.bare_bare]
  | _ => rfl

theorem respell_bare_respell (t : Ty) : (t.respell f).respell .bare = t.respell .bare := by
  induction t with
  | con c as ih => simpa [respell] using ih
  | errorConst c as ih => simpa [respell, Spelling.bare, Classifier.bare, f.id_of] using ih
  | union ms ih => simpa [respell] using ih
  | errorVar v => simp [respell, v.bare_bare]
  | _ => rfl

theorem respell_beq_respell (a b : Ty) : (a.respell f == b.respell f) = (a == b) := by
  rw [Bool.eq_iff_iff, beq_iff_respell, beq_iff_respell, respell_bare_respell,
    respell_bare_respell]

theorem map_respell_beq (as bs : List Ty) :
    (as.map (respell f) == bs.map (respell f)) = (as == bs) := by
  rw [Bool.eq_iff_iff, list_beq_iff_respell, list_beq_iff_respell]
  simp [Function.comp_def, respell_bare_respell]

theorem map_respell_respell (ts : List Ty) :
    (ts.map (respell f)).map (respell f) = ts.map (respell f) := by
  simp [respell_respell]

theorem size_respell (t : Ty) : (t.respell f).size = t.size := by
  have hall : ∀ as : List Ty, (∀ a ∈ as, (a.respell f).size = a.size) →
      sizeAll (as.map (respell f)) = sizeAll as := by
    intro as
    induction as with
    | nil => intro _; rfl
    | cons a as ih =>
        intro h
        rw [List.map_cons, sizeAll, sizeAll, h a (by simp), ih fun b hb => h b (by simp [hb])]
  induction t with
  | con c as ih => simp [respell, size, hall as ih]
  | errorConst c as ih => simp [respell, size, hall as ih]
  | union ms ih => simp [respell, size, hall ms ih]
  | _ => rfl

/-! ## Constituents -/

theorem constituents_respell (t : Ty) :
    (t.respell f).constituents = t.constituents.map (respell f) := by
  induction t with
  | union ms ih =>
      rw [respell, constituents, constituents, respellAll_eq_map, constituentsAll_eq_flatMap,
        constituentsAll_eq_flatMap, List.flatMap_map, List.map_flatMap, List.flatMap_def,
        List.flatMap_def, List.map_congr_left fun m hm => ih m hm]
  | con c as => simp [respell, constituents]
  | errorConst c as => simp [respell, constituents]
  | _ => rfl

theorem isError_respell (t : Ty) : (t.respell f).isError = t.isError := by cases t <;> rfl

theorem isValue_respell (t : Ty) : (t.respell f).isValue = t.isValue := by cases t <;> rfl

theorem isErroneous_respell (t : Ty) : (t.respell f).isErroneous = t.isErroneous := by
  cases t <;> rfl

theorem errorPart_respell (t : Ty) : (t.respell f).errorPart = t.errorPart.map (respell f) := by
  unfold errorPart
  rw [constituents_respell, List.filter_map]
  congr 1
  exact List.filter_congr fun m _ => isError_respell f m

theorem valuePart_respell (t : Ty) : (t.respell f).valuePart = t.valuePart.respell f := by
  unfold valuePart
  rw [constituents_respell, List.find?_map]
  have htest : (fun m => m.isValue || m.isErroneous) ∘ respell f =
      fun m => m.isValue || m.isErroneous := by
    funext m
    simp [isValue_respell, isErroneous_respell]
  rw [htest]
  cases t.constituents.find? fun m => m.isValue || m.isErroneous <;> rfl

theorem yieldsAll_respell (s : Solution) (m : Ty) :
    (m.respell f).yieldsAll s = m.yieldsAll s := by
  cases m with
  | errorVar x => simp only [respell, yieldsAll, s.get?_congr x.bare_beq]; rfl
  | _ => rfl

theorem waiting?_respell (s : Solution) (m : Ty) :
    (m.respell f).waiting? s = (m.waiting? s).map ErrorVar.bare := by
  cases m with
  | errorVar x =>
      simp only [respell, waiting?, s.get?_congr x.bare_beq]
      show (if (x.flexible && _) = true then _ else _) = _
      split <;> rfl
  | _ => rfl

end Ty

/-! ## Entries -/

/-- An entry with its classifiers spelled another way. -/
def respellEntry (f : Spelling) : Atom × List Ty → Atom × List Ty :=
  Prod.map (Atom.respell f) (List.map (Ty.respell f))

/-- Whether two lists of entries are the same under a spelling. -/
def SameEntries (f : Spelling) (es es' : List (Atom × List Ty)) : Prop :=
  es.map (respellEntry f) = es'.map (respellEntry f)

namespace SameEntries

variable {f : Spelling} {es es' : List (Atom × List Ty)}

theorem put (h : SameEntries f es es') {a a' : Atom} {args args' : List Ty}
    (ha : a.respell f = a'.respell f)
    (hargs : args.map (Ty.respell f) = args'.map (Ty.respell f)) :
    SameEntries f (Table.put a args es) (Table.put a' args' es') := by
  have hmap : ∀ (a : Atom) (args : List Ty) (es : List (Atom × List Ty)),
      (Table.put a args es).map (respellEntry f) =
        Table.put (a.respell f) (args.map (Ty.respell f)) (es.map (respellEntry f)) := by
    intro a args es
    induction es with
    | nil => rfl
    | cons e rest ih =>
        rw [Table.put, List.map_cons, Table.put]
        show _ = if (e.1.respell f == a.respell f) = true then _ else _
        rw [Atom.respell_beq_respell]
        split
        · rfl
        · rw [List.map_cons, ih]
  rw [SameEntries, hmap, hmap, ha, hargs, h]

theorem any_eq (h : SameEntries f es es') (a : Atom) :
    (es.any fun e => e.1 == a) = es'.any fun e => e.1 == a := by
  have hmap : ∀ es : List (Atom × List Ty),
      (es.map (respellEntry f)).any (fun e => e.1 == a) = es.any fun e => e.1 == a := by
    intro es
    rw [List.any_map]
    exact congrArg _ (funext fun e => Atom.respell_beq f e.1 a)
  rw [← hmap es, ← hmap es', h]

theorem append (h : SameEntries f es es') (e : Atom × List Ty) :
    SameEntries f (es ++ [e]) (es' ++ [e]) := by
  rw [SameEntries, List.map_append, List.map_append, h]

theorem foldl_insertNew {t t' : Instantiations} (h : SameEntries f t.entries t'.entries)
    (more : List (Atom × List Ty)) :
    SameEntries f (more.foldl (fun t e => t.insertNew e.1 e.2) t).entries
      (more.foldl (fun t e => t.insertNew e.1 e.2) t').entries := by
  induction more generalizing t t' with
  | nil => exact h
  | cons e rest ih =>
      refine ih ?_
      have hc : t.contains e.1 = t'.contains e.1 := h.any_eq e.1
      show SameEntries f (t.insertNew e.1 e.2).entries (t'.insertNew e.1 e.2).entries
      rw [Table.insertNew, Table.insertNew, hc]
      split
      · exact h
      · exact h.append e

theorem exists_mem (h : SameEntries f es es') {e : Atom × List Ty} (he : e ∈ es) :
    ∃ e' ∈ es', respellEntry f e' = respellEntry f e := by
  have hmem := List.mem_map_of_mem (f := respellEntry f) he
  rw [h] at hmem
  exact List.mem_map.1 hmem

end SameEntries

namespace View

variable (f : Spelling) (s : Solution)

theorem sameEntries_add {r r' : Reading} (h : SameEntries f r'.known.entries r.known.entries)
    (m : Ty) : SameEntries f (r'.add s (m.respell f)).known.entries
      (r.add s m).known.entries := by
  cases m with
  | errorConst c args =>
      refine h.put (by simp [Atom.respell, f.of_of]) ?_
      rw [Ty.respellAll_eq_map, Ty.map_respell_respell]
  | errorVar x =>
      have hget : s.get? x.bare = s.get? x := s.get?_congr x.bare_beq
      cases hx : x.flexible with
      | false =>
          rw [Ty.respell, add_rigid hx, add_rigid (show x.bare.flexible = false from hx)]
          exact h.put (by simp [Atom.respell, x.bare_bare]) rfl
      | true =>
          rw [Ty.respell]
          cases hs : s.get? x with
          | none =>
              rw [add_waiting hx hs, add_waiting (show x.bare.flexible = true from hx)
                (hget.trans hs)]
              exact h
          | some set =>
              rw [add_solved hx hs, add_solved (show x.bare.flexible = true from hx)
                (hget.trans hs)]
              exact h.foldl_insertNew set.entries
  | _ => exact h

/-- The known errors of a respelled type are those of the type, up to spelling. -/
theorem sameEntries_interpretWith (t : Ty) {e : Atom × List Ty} :
    (e ∈ (interpretWith s t).known.entries →
      ∃ e' ∈ (interpretWith s (t.respell f)).known.entries,
        respellEntry f e' = respellEntry f e) ∧
    (e ∈ (interpretWith s (t.respell f)).known.entries →
      ∃ e' ∈ (interpretWith s t).known.entries, respellEntry f e' = respellEntry f e) := by
  have hfold : ∀ (ms : List Ty) {r r' : Reading},
      SameEntries f r'.known.entries r.known.entries →
      SameEntries f ((ms.map (Ty.respell f)).foldl (Reading.add s) r').known.entries
        (ms.foldl (Reading.add s) r).known.entries := by
    intro ms
    induction ms with
    | nil => exact fun h => h
    | cons m ms ih => exact fun h => ih (sameEntries_add f s h m)
  have hsame := @hfold t.errorPart ⟨.empty, false, []⟩ ⟨.empty, false, []⟩ rfl
  rw [← Ty.errorPart_respell] at hsame
  constructor
  · intro he
    obtain ⟨e', he', hr⟩ := SameEntries.exists_mem (Eq.symm hsame)
      (ErrorSet.mem_entries_ofEntries.1 he)
    exact ⟨e', ErrorSet.mem_entries_ofEntries.2 he', hr⟩
  · intro he
    obtain ⟨e', he', hr⟩ := hsame.exists_mem (ErrorSet.mem_entries_ofEntries.1 he)
    exact ⟨e', ErrorSet.mem_entries_ofEntries.2 he', hr⟩

theorem universal_respell (t : Ty) :
    (interpretWith s (t.respell f)).known.universal = (interpretWith s t).known.universal := by
  simp only [universal_interpretWith, Ty.errorPart_respell, List.any_map]
  exact congrArg _ (funext fun m => m.yieldsAll_respell f s)

theorem flexible_eq_map (t : Ty) :
    (interpretWith s (t.respell f)).flexible = (interpretWith s t).flexible.map ErrorVar.bare := by
  have hmap : (fun m => Ty.waiting? s (Ty.respell f m)) =
      fun m => (Ty.waiting? s m).map ErrorVar.bare := funext fun m => m.waiting?_respell f s
  simp only [flexible_interpretWith, Ty.errorPart_respell, List.filterMap_map,
    Function.comp_def, hmap, ← List.map_filterMap]

theorem flexible_respell (t : Ty) (x : ErrorVar) :
    (interpretWith s (t.respell f)).flexible.contains x =
      (interpretWith s t).flexible.contains x := by
  rw [flexible_eq_map, List.contains_eq_any_beq, List.contains_eq_any_beq, List.any_map]
  refine congrArg _ (funext fun y => ?_)
  rw [Function.comp_apply, Bool.eq_iff_iff, ErrorVar.beq_iff_bare, ErrorVar.beq_iff_bare,
    y.bare_bare]

end View

/-! ## Declarations

Where all records of one number declare the same variances, types that are the
same under `==` are the same but for scopes and names. -/

namespace Ty

mutual

/-- The type and everything in it, at any depth. -/
def subterms : Ty → List Ty
  | .con c as => .con c as :: subtermsAll as
  | .errorConst c as => .errorConst c as :: subtermsAll as
  | .union ms => .union ms :: subtermsAll ms
  | t => [t]

def subtermsAll : List Ty → List Ty
  | [] => []
  | t :: ts => subterms t ++ subtermsAll ts

end

theorem mem_subtermsAll {ts : List Ty} {s : Ty} :
    s ∈ subtermsAll ts ↔ ∃ t ∈ ts, s ∈ t.subterms := by
  induction ts with
  | nil => simp [subtermsAll]
  | cons t ts ih => simp [subtermsAll, ih]

theorem mem_subterms_self (t : Ty) : t ∈ t.subterms := by
  cases t <;> simp [subterms]

theorem subterms_trans {s t u : Ty} (hs : s ∈ t.subterms) (ht : t ∈ u.subterms) :
    s ∈ u.subterms := by
  have hall : ∀ ts : List Ty, (∀ x ∈ ts, t ∈ x.subterms → s ∈ x.subterms) →
      t ∈ subtermsAll ts → s ∈ subtermsAll ts := by
    intro ts ih h
    obtain ⟨x, hx, htx⟩ := mem_subtermsAll.1 h
    exact mem_subtermsAll.2 ⟨x, hx, ih x hx htx⟩
  induction u with
  | con c as ih | errorConst c as ih | union as ih =>
      rw [subterms, List.mem_cons] at ht ⊢
      rcases ht with rfl | ht
      · simpa [subterms] using hs
      · exact Or.inr (hall as ih ht)
  | _ =>
      simp only [subterms, List.mem_singleton] at ht
      simpa [ht, subterms] using hs

theorem subterms_of_mem {t u : Ty} {ts : List Ty} (h : t ∈ subtermsAll ts) (hu : u ∈ t.subterms) :
    u ∈ subtermsAll ts := by
  obtain ⟨x, hx, ht⟩ := mem_subtermsAll.1 h
  exact mem_subtermsAll.2 ⟨x, hx, subterms_trans hu ht⟩

theorem arg_mem_subterms {a : Ty} {args : List Ty} (ha : a ∈ args) :
    a ∈ subtermsAll args :=
  mem_subtermsAll.2 ⟨a, ha, a.mem_subterms_self⟩

/-- The classifiers of some types, at any depth. -/
def classifiersAll (ts : List Ty) : List Classifier :=
  (subtermsAll ts).filterMap fun
    | .errorConst c _ => some c
    | _ => none

theorem mem_classifiersAll {ts : List Ty} {c : Classifier} :
    c ∈ classifiersAll ts ↔ ∃ args, .errorConst c args ∈ subtermsAll ts := by
  rw [classifiersAll, List.mem_filterMap]
  constructor
  · rintro ⟨t, ht, hc⟩
    cases t with
    | errorConst d args => cases hc; exact ⟨args, ht⟩
    | _ => cases hc
  · rintro ⟨args, h⟩
    exact ⟨_, h, rfl⟩

/-- Whether classifiers of one number declare the same variances throughout. -/
def Agree (ts : List Ty) : Prop :=
  ∀ c ∈ classifiersAll ts, ∀ d ∈ classifiersAll ts, c.id = d.id → c.variances = d.variances

instance (ts : List Ty) : Decidable (Agree ts) :=
  inferInstanceAs (Decidable (∀ c ∈ classifiersAll ts, ∀ d ∈ classifiersAll ts,
    c.id = d.id → c.variances = d.variances))

theorem Agree.errorConst {ts : List Ty} (h : Agree ts) {c d : Classifier} {as bs : List Ty}
    (hc : .errorConst c as ∈ subtermsAll ts) (hd : .errorConst d bs ∈ subtermsAll ts)
    (hid : c.id = d.id) : c.variances = d.variances :=
  h c (mem_classifiersAll.2 ⟨as, hc⟩) d (mem_classifiersAll.2 ⟨bs, hd⟩) hid

theorem map_unnamed_of_beq {as bs : List Ty} (hbeq : as.map (respell .bare) = bs.map (respell .bare))
    (h : ∀ a ∈ as, ∀ b ∈ bs, (a == b) = true → a.respell .unnamed = b.respell .unnamed) :
    as.map (respell .unnamed) = bs.map (respell .unnamed) := by
  induction as generalizing bs with
  | nil => cases bs <;> simp_all
  | cons a as ih =>
      cases bs with
      | nil => simp at hbeq
      | cons b bs =>
          rw [List.map_cons, List.map_cons, List.cons.injEq] at hbeq ⊢
          refine ⟨h a (by simp) b (by simp) (beq_iff_respell.2 hbeq.1), ih hbeq.2 ?_⟩
          exact fun x hx y hy => h x (by simp [hx]) y (by simp [hy])

/-- Under agreed declarations `==` leaves nothing but scopes and names open. -/
theorem Agree.unnamed_of_beq {ts : List Ty} (h : Agree ts) {a b : Ty}
    (ha : a ∈ subtermsAll ts) (hb : b ∈ subtermsAll ts) (hab : (a == b) = true) :
    a.respell .unnamed = b.respell .unnamed := by
  have hargs : ∀ as bs : List Ty, (∀ x ∈ as, ∀ y, x ∈ subtermsAll ts → y ∈ subtermsAll ts →
      (x == y) = true → x.respell .unnamed = y.respell .unnamed) →
      (∀ x ∈ subtermsAll as, x ∈ subtermsAll ts) → (∀ y ∈ subtermsAll bs, y ∈ subtermsAll ts) →
      as.map (respell .bare) = bs.map (respell .bare) →
      as.map (respell .unnamed) = bs.map (respell .unnamed) := by
    intro as bs ih has hbs hbeq
    refine map_unnamed_of_beq hbeq fun x hx y hy => ih x hx y ?_ ?_
    · exact has x (arg_mem_subterms hx)
    · exact hbs y (arg_mem_subterms hy)
  rw [beq_iff_respell] at hab
  induction a generalizing b with
  | con c as ih =>
      cases b with
      | con d bs =>
          simp only [respell, respellAll_eq_map, Ty.con.injEq] at hab ⊢
          refine ⟨hab.1, hargs as bs (fun x hx y hxt hyt hxy =>
            ih x hx hxt hyt (beq_iff_respell.1 hxy)) ?_ ?_ hab.2⟩
          · exact fun x hx => subterms_of_mem ha (by simp [subterms, hx])
          · exact fun y hy => subterms_of_mem hb (by simp [subterms, hy])
      | _ => cases hab
  | errorConst c as ih =>
      cases b with
      | errorConst d bs =>
          simp only [respell, respellAll_eq_map, Ty.errorConst.injEq] at hab ⊢
          have hid : c.id = d.id := by simpa [Spelling.bare, Classifier.bare] using hab.1
          refine ⟨by simp [Spelling.unnamed, hid, h.errorConst ha hb hid],
            hargs as bs (fun x hx y hxt hyt hxy =>
              ih x hx hxt hyt (beq_iff_respell.1 hxy)) ?_ ?_ hab.2⟩
          · exact fun x hx => subterms_of_mem ha (by simp [subterms, hx])
          · exact fun y hy => subterms_of_mem hb (by simp [subterms, hy])
      | _ => cases hab
  | union as ih =>
      cases b with
      | union bs =>
          simp only [respell, respellAll_eq_map, Ty.union.injEq] at hab ⊢
          refine hargs as bs (fun x hx y hxt hyt hxy =>
            ih x hx hxt hyt (beq_iff_respell.1 hxy)) ?_ ?_ hab
          · exact fun x hx => subterms_of_mem ha (by simp [subterms, hx])
          · exact fun y hy => subterms_of_mem hb (by simp [subterms, hy])
      | _ => cases hab
  | _ => cases b <;> first | exact hab | cases hab

end Ty

end Fallible
