import Fallible.Proofs.Lifecycle
import Fallible.Proofs.Reopening

/-!
# Fresh variables

A session names each variable that it hands out by a base, which the host chooses, a
dollar sign and a number, which only ever grows. A number is written in digits, so
the last dollar sign of the name stands before it, and two names with different
numbers differ whatever their bases are. The error projection of a type variable has
a name that ends in no digit, so it is no error variable that was handed out itself.

Instantiating a signature hands out one variable for each of its parameters. What it
does to the session and to the types is said here once, in closed form.
-/

namespace Fallible

/-! ## Names with numbers -/

/-- The name that a base and a number give. -/
def issuedName (base : String) (n : Nat) : String := base ++ "$" ++ toString n

theorem toList_issuedName (base : String) (n : Nat) :
    (issuedName base n).toList = base.toList ++ '$' :: Nat.toDigits 10 n := by
  simp [issuedName]

theorem not_mem_digits {c : Char} (hc : c.isDigit = false) (n : Nat) : c ∉ Nat.toDigits 10 n := by
  intro h
  rw [Nat.isDigit_of_mem_toDigits (by decide) (by decide) h] at hc
  cases hc

theorem number_of_issuedName {a b : String} {m n : Nat}
    (h : issuedName a m = issuedName b n) : m = n := by
  have hlist := congrArg String.toList h
  rw [toList_issuedName, toList_issuedName] at hlist
  -- The two dollar signs are the last ones, so they stand at the same place.
  have hdigits : Nat.toDigits 10 m = Nat.toDigits 10 n := by
    rcases List.append_eq_append_iff.1 hlist with ⟨c, -, hc⟩ | ⟨c, -, hc⟩
    · cases c with
      | nil => exact (List.cons.inj hc).2
      | cons d c =>
          exact absurd ((List.cons.inj hc).2 ▸ by simp) (not_mem_digits (c := '$') (by decide) m)
    · cases c with
      | nil => exact (List.cons.inj hc).2.symm
      | cons d c =>
          exact absurd ((List.cons.inj hc).2 ▸ by simp) (not_mem_digits (c := '$') (by decide) n)
  have hvalue := congrArg (fun ds => Nat.ofDigitChars 10 ds 0) hdigits
  simpa [Nat.ofDigitChars_toDigits] using hvalue

theorem issuedName_ne_projection (base name : String) (n : Nat) :
    issuedName base n ≠ name ++ "|_e" := by
  intro h
  have hlast := congrArg (fun s : String => s.toList.getLast?) h
  simp only [toList_issuedName, String.toList_append] at hlast
  have hdigit : (Nat.toDigits 10 n).getLast? = some 'e' := by
    rw [List.getLast?_append, List.getLast?_cons] at hlast
    cases hd : (Nat.toDigits 10 n).getLast? with
    | none => exact absurd (List.getLast?_eq_none_iff.1 hd) Nat.toDigits_ne_nil
    | some d => rw [hd] at hlast; simpa using hlast
  exact not_mem_digits (by decide) n (List.mem_of_getLast? hdigit)

/-- Whether a variable was handed out under a number. -/
inductive Ty.Numbered (n : Nat) : Ty → Prop where
  | var (base : String) : Numbered n (.var (issuedName base n) true)
  | valueProj (base : String) : Numbered n (.valueProj (issuedName base n) true)
  | projection (base : String) : Numbered n (.errorVar (.ofTyVar (issuedName base n) true))
  | errorVar (base : String) (bound : Universe) :
      Numbered n (.errorVar ⟨issuedName base n, bound, true⟩)

namespace Ty.Numbered

variable {m n : Nat} {x y : Ty}

theorem isFlexible (h : Numbered n x) : x.isFlexible = true := by cases h <;> rfl

theorem unknowns_eq (h : Numbered n x) : x.unknowns = [x] := by cases h <;> rfl

theorem stable (n : Nat) : Stable (Numbered n) := by
  intro name flexible h
  cases h with
  | var base => exact ⟨.valueProj base, .projection base⟩

/-- Variables with different numbers differ. -/
theorem eq_of_beq (hx : Numbered m x) (hy : Numbered n y) (hxy : (x == y) = true) : m = n := by
  rw [beq_iff] at hxy
  have hname : ∀ {v w : ErrorVar}, bare (.errorVar v) = bare (.errorVar w) → v.name = w.name := by
    intro v w h
    have hnames := congrArg ErrorVar.name (Ty.errorVar.inj h)
    exact hnames
  cases hx with
  | var base =>
      cases hy with
      | var => exact number_of_issuedName (Ty.var.inj hxy).1
      | _ => cases hxy
  | valueProj base =>
      cases hy with
      | valueProj => exact number_of_issuedName (Ty.valueProj.inj hxy).1
      | _ => cases hxy
  | projection base =>
      cases hy with
      | projection =>
          exact number_of_issuedName ((String.append_left_inj "|_e").1 (hname hxy))
      | errorVar => exact absurd (hname hxy).symm (issuedName_ne_projection _ _ _)
      | _ => cases hxy
  | errorVar base bound =>
      cases hy with
      | projection => exact absurd (hname hxy) (issuedName_ne_projection _ _ _)
      | errorVar => exact number_of_issuedName (hname hxy)
      | _ => cases hxy

end Ty.Numbered

/-! ## Parameters and what is put in their place -/

namespace TypeParam

/-- The variables that stand for a parameter in types. -/
def unknowns : TypeParam → List Ty
  | .type name flexible =>
      [.var name flexible, .valueProj name flexible, .errorVar (.ofTyVar name flexible)]
  | .error v => [.errorVar v]

/-- The error variable of a parameter. -/
def errorVar : TypeParam → ErrorVar
  | .type name flexible => .ofTyVar name flexible
  | .error v => v

/-- The parameter that is handed out in the place of another one under a number. -/
def renewed (n : Nat) : TypeParam → TypeParam
  | .type name _ => .type (issuedName name n) true
  | .error v => .error ⟨issuedName v.name n, v.bound, true⟩

/-- The parameters that are handed out in the place of others, from a number on. -/
def renewedFrom : Nat → List TypeParam → List TypeParam
  | _, [] => []
  | n, p :: ps => p.renewed n :: renewedFrom (n + 1) ps

/-- The variables of a parameter, each with what is put in its place. -/
def renewal (n : Nat) (p : TypeParam) : List (Ty × Ty) := p.unknowns.zip (p.renewed n).unknowns

/-- The variables of parameters, each with what is put in its place. -/
def renewals : Nat → List TypeParam → List (Ty × Ty)
  | _, [] => []
  | n, p :: ps => p.renewal n ++ renewals (n + 1) ps

theorem numbered_of_renewed {p : TypeParam} {n : Nat} {x : Ty}
    (hx : x ∈ (p.renewed n).unknowns) : x.Numbered n := by
  cases p with
  | type name flexible =>
      simp only [renewed, unknowns, List.mem_cons, List.not_mem_nil, or_false] at hx
      rcases hx with rfl | rfl | rfl
      · exact .var name
      · exact .valueProj name
      · exact .projection name
  | error v =>
      obtain rfl := List.mem_singleton.1 hx
      exact .errorVar v.name v.bound

/-- What is handed out for parameters has the numbers from the first on, one for each. -/
theorem numbered_of_mem_renewedFrom {ps : List TypeParam} : ∀ {n : Nat} {q : TypeParam} {x : Ty},
    q ∈ renewedFrom n ps → x ∈ q.unknowns → ∃ m, n ≤ m ∧ m < n + ps.length ∧ x.Numbered m := by
  induction ps with
  | nil => intro n q x hq; cases hq
  | cons p ps ih =>
      intro n q x hq hx
      rcases List.mem_cons.1 hq with rfl | hq
      · exact ⟨n, Nat.le_refl n, by simp, numbered_of_renewed hx⟩
      · obtain ⟨m, hle, hlt, hm⟩ := ih hq hx
        exact ⟨m, by omega, by simp only [List.length_cons]; omega, hm⟩

theorem length_renewedFrom (ps : List TypeParam) :
    ∀ n : Nat, (renewedFrom n ps).length = ps.length := by
  induction ps with
  | nil => exact fun _ => rfl
  | cons p ps ih => exact fun n => congrArg (· + 1) (ih (n + 1))

/-- What is put in the place of a variable was handed out for a parameter, and so was
what is put in the place of the others that stand for it. -/
theorem renewals_cases {ps : List TypeParam} : ∀ {n : Nat} {e : Ty × Ty}, e ∈ renewals n ps →
    ∃ p ∈ ps, ∃ m, n ≤ m ∧ p.renewed m ∈ renewedFrom n ps ∧ e ∈ p.renewal m ∧
      ∀ d ∈ p.renewal m, d ∈ renewals n ps := by
  induction ps with
  | nil => intro n e he; cases he
  | cons p ps ih =>
      intro n e he
      rcases List.mem_append.1 he with he | he
      · exact ⟨p, List.mem_cons_self, n, Nat.le_refl n, List.mem_cons_self, he,
          fun d hd => List.mem_append_left _ hd⟩
      · obtain ⟨p', hp', m, hle, hq, he, hall⟩ := ih he
        exact ⟨p', List.mem_cons_of_mem p hp', m, by omega, List.mem_cons_of_mem _ hq, he,
          fun d hd => List.mem_append_right _ (hall d hd)⟩

/-- Each variable of a parameter is replaced. -/
theorem exists_renewal {ps : List TypeParam} : ∀ {n : Nat} {p : TypeParam} {x : Ty},
    p ∈ ps → x ∈ p.unknowns → ∃ u, (x, u) ∈ renewals n ps := by
  induction ps with
  | nil => intro n p x hp; cases hp
  | cons q ps ih =>
      intro n p x hp hx
      rcases List.mem_cons.1 hp with rfl | hp
      · have hfst : (p.renewal n).map Prod.fst = p.unknowns := by cases p <;> rfl
        rw [← hfst] at hx
        obtain ⟨⟨x', u⟩, he, rfl⟩ := List.mem_map.1 hx
        exact ⟨u, List.mem_append_left _ he⟩
      · obtain ⟨u, hu⟩ := ih (n := n + 1) hp hx
        exact ⟨u, List.mem_append_right _ hu⟩

/-- No two variables that are put in the place of others are the same. -/
theorem pairwise_renewals (ps : List TypeParam) : ∀ n : Nat,
    (renewals n ps).Pairwise fun e e' => (e.2 == e'.2) = false := by
  induction ps with
  | nil => exact fun _ => .nil
  | cons p ps ih =>
      intro n
      refine List.pairwise_append.2 ⟨?_, ih (n + 1), fun e he e' he' => ?_⟩
      · cases p with
        | type name flexible =>
            simp [renewal, renewed, unknowns, Ty.beq_iff, Bool.eq_false_iff, Ty.bare]
        | error v => exact List.pairwise_singleton ..
      · obtain ⟨p', -, m, hle, -, he', -⟩ := renewals_cases he'
        rw [Bool.eq_false_iff]
        intro hsame
        have hn := (numbered_of_renewed (List.of_mem_zip he).2).eq_of_beq
          (numbered_of_renewed (List.of_mem_zip he').2) hsame
        omega

end TypeParam

/-! ## Instantiation in closed form -/

/-- What is handed out for a type: one that breaks the grammar counts as failed. -/
def Ty.screened (t : Ty) : Ty := if (Grammar.violation? t).isSome then .erroneous else t

namespace Session

/-- The session that has handed out several names. -/
def issueAll (s : Session) (vs : List ErrorVar) : Session := vs.foldl issue s

theorem counter_issueAll (vs : List ErrorVar) : ∀ s : Session,
    (s.issueAll vs).counter = s.counter + vs.length := by
  induction vs with
  | nil => exact fun s => rfl
  | cons v vs ih =>
      intro s
      have hone : (s.issue v).counter = s.counter + 1 := rfl
      rw [issueAll, List.foldl_cons, ← issueAll, ih, List.length_cons, hone]
      omega

/-- Names are handed out while the session is open. Without parameters there is none
to hand out. -/
theorem freshParams_eq (ps : List TypeParam) : ∀ {s : Session} (images : Table Ty Ty),
    (ps ≠ [] → s.status = .active) → s.freshParams ps images =
      (.ok (images.insertAll (TypeParam.renewals s.counter ps)),
        s.issueAll ((TypeParam.renewedFrom s.counter ps).map TypeParam.errorVar)) := by
  induction ps with
  | nil => exact fun _ _ => rfl
  | cons p ps ih =>
      intro s images hopen
      have hs := hopen (List.cons_ne_nil p ps)
      cases p with
      | type name flexible =>
          rw [freshParams, freshTyVar, whileOpen_of_active hs]
          exact ih _ fun _ => hs
      | error v =>
          rw [freshParams, freshErrorVar, whileOpen_of_active hs]
          exact ih _ fun _ => hs

theorem checked_eq (s : Session) (location : Location) (t : Ty) :
    s.checked location t = (t.screened, { s with
      diagnostics := s.diagnostics ++ (Grammar.violation? t).toList.map (⟨location, ·⟩) }) := by
  rw [checked, Ty.screened]
  cases Grammar.violation? t with
  | none => simp
  | some cause => rfl

theorem checkedAll_eq (location : Location) (ts : List Ty) : ∀ s : Session,
    s.checkedAll location ts = (ts.map Ty.screened, { s with
      diagnostics :=
        s.diagnostics ++ (ts.filterMap Grammar.violation?).map (⟨location, ·⟩) }) := by
  induction ts with
  | nil => intro s; simp [checkedAll]
  | cons t ts ih =>
      intro s
      rw [checkedAll, checked_eq]
      dsimp only
      rw [ih]
      cases hv : Grammar.violation? t <;> simp [hv]

end Session

namespace Signature

/-- What takes the place of the type parameters of a signature, from a number on. -/
def images (sig : Signature) (n : Nat) : Table Ty Ty :=
  .ofList (TypeParam.renewals n sig.typeParams)

/-- What is handed out for a type of a signature. -/
def handedOut (sig : Signature) (n : Nat) (t : Ty) : Ty := (t.subst (sig.images n)).screened

/-- What breaks the grammar when a signature is instantiated. -/
def violations (sig : Signature) (n : Nat) : List Cause :=
  (sig.params ++ [sig.returns]).filterMap fun t => Grammar.violation? (t.subst (sig.images n))

theorem handedOut_cases (sig : Signature) (n : Nat) (t : Ty) :
    (∃ cause, Grammar.violation? (t.subst (sig.images n)) = some cause ∧
      sig.handedOut n t = .erroneous) ∨ sig.handedOut n t = t.subst (sig.images n) := by
  rw [handedOut, Ty.screened]
  cases Grammar.violation? (t.subst (sig.images n)) with
  | some cause => exact Or.inl ⟨cause, rfl, rfl⟩
  | none => exact Or.inr rfl

theorem mem_violations {sig : Signature} {n : Nat} {t : Ty} (ht : t ∈ sig.returns :: sig.params)
    {cause : Cause} (h : Grammar.violation? (t.subst (sig.images n)) = some cause) :
    cause ∈ sig.violations n := by
  refine List.mem_filterMap.2 ⟨t, ?_, h⟩
  rcases List.mem_cons.1 ht with rfl | ht
  · exact List.mem_append_right _ List.mem_cons_self
  · exact List.mem_append_left _ ht

end Signature

/-- All that instantiating a signature does. -/
theorem Session.instantiate_eq {s : Session} {sig : Signature}
    (hopen : sig.typeParams ≠ [] → s.status = .active) (location : Location) :
    s.instantiate sig location =
      (.ok (sig.params.map (sig.handedOut s.counter), sig.handedOut s.counter sig.returns),
        { s.issueAll ((TypeParam.renewedFrom s.counter sig.typeParams).map TypeParam.errorVar) with
          diagnostics := s.diagnostics ++ (sig.violations s.counter).map (⟨location, ·⟩) }) := by
  have hkept : ∀ (vs : List ErrorVar) (s : Session),
      (s.issueAll vs).diagnostics = s.diagnostics := by
    intro vs
    induction vs with
    | nil => exact fun s => rfl
    | cons v vs ih => exact fun s => ih (s.issue v)
  rw [instantiate, freshParams_eq _ _ hopen]
  dsimp only
  rw [Ty.substAll_eq_map, checkedAll_eq]
  dsimp only
  rw [checked_eq]
  rw [hkept, Signature.violations, List.filterMap_append, List.map_append, List.append_assoc,
    List.map_map, List.filterMap_map]
  rfl

/-- Only an open session hands out variables for the parameters of a signature. -/
theorem Session.active_of_instantiate {s s' : Session} {sig : Signature} {location : Location}
    {types : List Ty × Ty} (h : s.instantiate sig location = (.ok types, s'))
    (hparams : sig.typeParams ≠ []) : s.status = .active := by
  by_contra hs
  rw [instantiate] at h
  cases hps : sig.typeParams with
  | nil => exact hparams hps
  | cons p ps =>
      rw [hps] at h
      cases p with
      | type name flexible =>
          rw [freshParams, freshTyVar, whileOpen_of_not_active hs] at h
          cases h
      | error v =>
          rw [freshParams, freshErrorVar, whileOpen_of_not_active hs] at h
          cases h

/-! ## Numbers only grow -/

namespace Session

variable (s : Session)

theorem Reports.counter {s s' : Session} (h : Reports s s') : s'.counter = s.counter := by
  obtain ⟨ds, rfl⟩ := h
  rfl

theorem counter_instantiate_of_active {s : Session} (hs : s.status = .active) (sig : Signature)
    (location : Location) :
    (s.instantiate sig location).2.counter = s.counter + sig.typeParams.length := by
  have hcount := s.counter_issueAll
    ((TypeParam.renewedFrom s.counter sig.typeParams).map TypeParam.errorVar)
  rw [List.length_map, TypeParam.length_renewedFrom] at hcount
  rw [instantiate_eq fun _ => hs]
  exact hcount

theorem counter_instantiate (sig : Signature) (location : Location) :
    s.counter ≤ (s.instantiate sig location).2.counter := by
  by_cases hs : s.status = .active
  · rw [counter_instantiate_of_active hs]
    exact Nat.le_add_right _ _
  · exact Nat.le_of_eq (reports_instantiate hs sig location).counter.symm

theorem counter_require (sup sub : Ty) (location : Location) :
    (s.require sup sub location).2.counter = s.counter := by
  rcases s.require_cases sup sub location with ⟨f, hr⟩ | ⟨f, e, _, hr⟩ | ⟨verdict, e, _, hr⟩
  · rw [hr]
  · rw [hr]; rfl
  · rw [hr]; cases verdict <;> rfl

theorem counter_requireArgs (pairs : List (Ty × TypedExpr)) :
    (s.requireArgs pairs).2.counter = s.counter := by
  induction pairs generalizing s with
  | nil => rfl
  | cons pair rest ih =>
      obtain ⟨param, arg⟩ := pair
      have hreq : (s.requireExpr param arg).2.counter = s.counter := s.counter_require _ _ _
      unfold requireArgs
      split
      · next h => rw [h] at hreq; exact hreq
      · next h => rw [h] at hreq; exact (ih _).trans hreq

theorem counter_call (sig : Signature) (args : List TypedExpr) (location : Location) :
    s.counter ≤ (s.call sig args location).2.counter := by
  have hinst := s.counter_instantiate sig location
  unfold call
  split
  · exact Nat.le_refl _
  · split
    · next h => rw [h] at hinst; exact hinst
    · next params returns s' h =>
        rw [h] at hinst
        have hargs := s'.counter_requireArgs (params.zip args)
        split
        · next hr => rw [hr] at hargs; exact hargs ▸ hinst
        · next hr => rw [hr] at hargs; exact hargs ▸ hinst

theorem counter_whileOpen {α : Type} {s : Session} {op : Except Fault α × Session}
    (h : s.counter ≤ op.2.counter) : s.counter ≤ (s.whileOpen op).2.counter := by
  rcases s.whileOpen_cases op with ho | ⟨f, ho⟩
  · rw [ho]; exact h
  · rw [ho]

theorem counter_act (a : Action) : s.counter ≤ (s.act a).counter := by
  cases a with
  | op op =>
      cases op with
      | freshErrorVar base bound => exact counter_whileOpen (Nat.le_add_right _ _)
      | freshTyVar base => exact counter_whileOpen (Nat.le_add_right _ _)
      | union members location => exact Nat.le_of_eq (s.reports_union members location).counter.symm
      | require sup sub location => exact Nat.le_of_eq (s.counter_require sup sub location).symm
      | requireExpr sup e => exact Nat.le_of_eq (s.counter_require sup e.type e.location).symm
      | instantiate sig location => exact s.counter_instantiate sig location
      | call sig args location => exact s.counter_call sig args location
      | annotateNode node t => cases t <;> exact Nat.le_refl _
      | annotateExpr e t => exact Nat.le_refl _
  | solve =>
      show s.counter ≤ s.solve.2.counter
      by_cases hopen : s.status = .active
      · rcases solve_cases hopen with ⟨f, _, hf⟩ | ⟨outcome, _, hreports⟩
        · rw [hf]
        · rw [hreports.counter, close]
          split <;> exact Nat.le_refl _
      · rw [solve, whileOpen_of_not_active hopen]
  | cancel =>
      show s.counter ≤ s.cancel.2.counter
      unfold cancel
      split <;> exact Nat.le_refl _
  | resolve t => exact Nat.le_refl _

theorem counter_actAll (as : List Action) : s.counter ≤ (s.actAll as).counter :=
  actAll_keeps (P := fun s' => s.counter ≤ s'.counter)
    (fun {s'} a _ h => h.trans (s'.counter_act a)) (Nat.le_refl _)

end Session

end Fallible
