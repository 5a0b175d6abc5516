import Fallible.Proofs.FreshNames

/-!
# Runs hand out each variable once

A session hands out variables when it is asked for one and when it puts them in the
place of the parameters of a signature. Whatever else its host does in between, the
variables of a run are numbered one after the other from the first. Names with
different numbers differ, so no variable of a run is another, and the session
remembers the error variables exactly as they were handed out.

What a run hands out is read off the answers of its calls. The closed form, a list of
parameters renewed from a number on, is then what each action adds to and a whole run
amounts to.
-/

namespace Fallible

namespace TypeParam

theorem renewedFrom_append (ps qs : List TypeParam) : ∀ n : Nat,
    renewedFrom n (ps ++ qs) = renewedFrom n ps ++ renewedFrom (n + ps.length) qs := by
  induction ps with
  | nil => exact fun _ => rfl
  | cons p ps ih =>
      intro n
      rw [List.cons_append, renewedFrom, ih, renewedFrom, List.cons_append, List.length_cons,
        Nat.add_right_comm, Nat.add_assoc]

theorem map_snd_renewals (ps : List TypeParam) : ∀ n : Nat,
    (renewals n ps).map Prod.snd = (renewedFrom n ps).flatMap unknowns := by
  induction ps with
  | nil => exact fun _ => rfl
  | cons p ps ih =>
      intro n
      have hone : (p.renewal n).map Prod.snd = (p.renewed n).unknowns := by cases p <;> rfl
      rw [renewals, List.map_append, hone, ih, renewedFrom, List.flatMap_cons]

theorem pairwise_unknowns (ps : List TypeParam) (n : Nat) :
    ((renewedFrom n ps).flatMap unknowns).Pairwise fun x y => (x == y) = false := by
  rw [← map_snd_renewals, List.pairwise_map]
  exact pairwise_renewals ps n

/-- The number of a parameter that was handed out is known from the name of its error
variable. -/
theorem number_of_errorVar {p q : TypeParam} {m n : Nat}
    (h : (p.renewed m).errorVar.name = (q.renewed n).errorVar.name) : m = n := by
  cases p with
  | type name flexible =>
      cases q with
      | type name' flexible' => exact number_of_issuedName ((String.append_left_inj "|_e").1 h)
      | error w => exact absurd h.symm (issuedName_ne_projection _ _ _)
  | error v =>
      cases q with
      | type name' flexible' => exact absurd h (issuedName_ne_projection _ _ _)
      | error w => exact number_of_issuedName h

theorem renewed_of_mem {ps : List TypeParam} : ∀ {n : Nat} {q : TypeParam},
    q ∈ renewedFrom n ps → ∃ p m, n ≤ m ∧ q = renewed m p := by
  induction ps with
  | nil => intro n q hq; cases hq
  | cons p ps ih =>
      intro n q hq
      rcases List.mem_cons.1 hq with rfl | hq
      · exact ⟨p, n, Nat.le_refl n, rfl⟩
      · obtain ⟨p', m, hle, rfl⟩ := ih hq
        exact ⟨p', m, by omega, rfl⟩

theorem nodup_names (ps : List TypeParam) : ∀ n : Nat,
    ((renewedFrom n ps).map fun q => q.errorVar.name).Nodup := by
  induction ps with
  | nil => exact fun _ => .nil
  | cons p ps ih =>
      intro n
      refine List.nodup_cons.2 ⟨fun hmem => ?_, ih (n + 1)⟩
      obtain ⟨q, hq, hname⟩ := List.mem_map.1 hmem
      obtain ⟨p', m, hle, rfl⟩ := renewed_of_mem hq
      have hnumber := number_of_errorVar hname
      omega

end TypeParam

namespace Session

/-! ## What is handed out -/

/-- What a session hands out for parameters, call by call, until one is refused. -/
def freshFor (s : Session) : List TypeParam → List TypeParam
  | [] => []
  | .type name _ :: rest =>
      match s.freshTyVar name with
      | (.error _, _) => []
      | (.ok fresh, s) => .type fresh true :: s.freshFor rest
  | .error v :: rest =>
      match s.freshErrorVar v.name v.bound with
      | (.error _, _) => []
      | (.ok fresh, s) => .error fresh :: s.freshFor rest

/-- What an operation hands out. -/
def freshBy (s : Session) : Op → List TypeParam
  | .freshErrorVar base bound =>
      match s.freshErrorVar base bound with
      | (.error _, _) => []
      | (.ok v, _) => [.error v]
  | .freshTyVar base =>
      match s.freshTyVar base with
      | (.error _, _) => []
      | (.ok name, _) => [.type name true]
  | .instantiate sig _ => s.freshFor sig.typeParams
  | .call sig args _ =>
      if args.length != sig.params.length then [] else s.freshFor sig.typeParams
  | _ => []

/-- What a run hands out, in order. -/
def freshIn (s : Session) : List Action → List TypeParam
  | [] => []
  | .op op :: as => s.freshBy op ++ (s.perform op).freshIn as
  | a :: as => (s.act a).freshIn as

section Calls

variable {s : Session}

theorem freshFor_of_active (ps : List TypeParam) : ∀ {s : Session}, s.status = .active →
    s.freshFor ps = TypeParam.renewedFrom s.counter ps := by
  induction ps with
  | nil => exact fun _ => rfl
  | cons p ps ih =>
      intro s hs
      cases p with
      | type name flexible =>
          rw [freshFor, freshTyVar, whileOpen_of_active hs]
          exact congrArg (List.cons _) (ih (s := s.issue _) hs)
      | error v =>
          rw [freshFor, freshErrorVar, whileOpen_of_active hs]
          exact congrArg (List.cons _) (ih (s := s.issue _) hs)

theorem freshFor_of_not_active (hs : s.status ≠ .active) (ps : List TypeParam) :
    s.freshFor ps = [] := by
  cases ps with
  | nil => rfl
  | cons p ps =>
      cases p with
      | type name flexible => rw [freshFor, freshTyVar, whileOpen_of_not_active hs]
      | error v => rw [freshFor, freshErrorVar, whileOpen_of_not_active hs]

/-- What is handed out for parameters is numbered from the next number on. -/
theorem exists_freshFor_eq (s : Session) (ps : List TypeParam) :
    ∃ qs, s.freshFor ps = TypeParam.renewedFrom s.counter qs := by
  by_cases hs : s.status = .active
  · exact ⟨ps, freshFor_of_active ps hs⟩
  · exact ⟨[], freshFor_of_not_active hs ps⟩

theorem exists_freshBy_eq (s : Session) (op : Op) :
    ∃ qs, s.freshBy op = TypeParam.renewedFrom s.counter qs := by
  cases op with
  | freshErrorVar base bound => exact s.exists_freshFor_eq [.error ⟨base, bound, true⟩]
  | freshTyVar base => exact s.exists_freshFor_eq [.type base true]
  | instantiate sig location => exact s.exists_freshFor_eq sig.typeParams
  | call sig args location =>
      rw [freshBy]
      split
      · exact ⟨[], rfl⟩
      · exact s.exists_freshFor_eq sig.typeParams
  | _ => exact ⟨[], rfl⟩

end Calls

/-! ## What the session remembers -/

/-- What a session remembers of the names it has handed out: how many they are, and
the error variables. -/
def ledger (s : Session) : Nat × List ErrorVar := (s.counter, s.issued)

theorem Reports.ledger {s s' : Session} (h : Reports s s') : s'.ledger = s.ledger := by
  obtain ⟨ds, rfl⟩ := h
  rfl

theorem ledger_issueAll (vs : List ErrorVar) : ∀ {s s' : Session}, s.ledger = s'.ledger →
    (s.issueAll vs).ledger = (s'.issueAll vs).ledger := by
  induction vs with
  | nil => exact fun h => h
  | cons v vs ih =>
      intro s s' h
      obtain ⟨hcounter, hissued⟩ := Prod.mk.inj h
      refine @ih (s.issue v) (s'.issue v) (Prod.ext ?_ ?_)
      · exact congrArg (· + 1) hcounter
      · show (if s.issued.contains v then s.issued else s.issued ++ [v]) = _
        rw [hissued]
        rfl

section Actions

variable (s : Session)

theorem ledger_instantiate (sig : Signature) (location : Location) :
    (s.instantiate sig location).2.ledger =
      (s.issueAll ((s.freshFor sig.typeParams).map TypeParam.errorVar)).ledger := by
  by_cases hs : s.status = .active
  · rw [instantiate_eq fun _ => hs, freshFor_of_active _ hs]
    rfl
  · rw [freshFor_of_not_active hs]
    exact (reports_instantiate hs sig location).ledger

theorem ledger_require (sup sub : Ty) (location : Location) :
    (s.require sup sub location).2.ledger = s.ledger := by
  rcases s.require_cases sup sub location with ⟨f, hr⟩ | ⟨f, e, _, hr⟩ | ⟨verdict, e, _, hr⟩
  · rw [hr]
  · rw [hr]; rfl
  · rw [hr]; cases verdict <;> rfl

theorem ledger_requireArgs (pairs : List (Ty × TypedExpr)) :
    (s.requireArgs pairs).2.ledger = s.ledger := by
  induction pairs generalizing s with
  | nil => rfl
  | cons pair rest ih =>
      obtain ⟨param, arg⟩ := pair
      have hreq : (s.requireExpr param arg).2.ledger = s.ledger := s.ledger_require _ _ _
      unfold requireArgs
      split
      · next h => rw [h] at hreq; exact hreq
      · next h => rw [h] at hreq; exact (ih _).trans hreq

theorem ledger_call (sig : Signature) (args : List TypedExpr) (location : Location) :
    (s.call sig args location).2.ledger =
      (s.issueAll ((s.freshBy (.call sig args location)).map TypeParam.errorVar)).ledger := by
  have hinst := s.ledger_instantiate sig location
  rw [call, freshBy]
  by_cases hcount : (args.length != sig.params.length) = true
  · rw [if_pos hcount, if_pos hcount]
    rfl
  · rw [if_neg hcount, if_neg hcount]
    split
    · next h => rw [h] at hinst; exact hinst
    · next params returns s' h =>
        rw [h] at hinst
        have hargs := s'.ledger_requireArgs (params.zip args)
        split
        · next hr => rw [hr] at hargs; exact hargs.trans hinst
        · next hr => rw [hr] at hargs; exact hargs.trans hinst

/-- Every operation adds to the ledger what it hands out. -/
theorem ledger_perform (op : Op) :
    (s.perform op).ledger = (s.issueAll ((s.freshBy op).map TypeParam.errorVar)).ledger := by
  cases op with
  | freshErrorVar base bound =>
      rw [perform, freshBy, freshErrorVar]
      by_cases hs : s.status = .active
      · rw [whileOpen_of_active hs]
        rfl
      · rw [whileOpen_of_not_active hs]
        rfl
  | freshTyVar base =>
      rw [perform, freshBy, freshTyVar]
      by_cases hs : s.status = .active
      · rw [whileOpen_of_active hs]
        rfl
      · rw [whileOpen_of_not_active hs]
        rfl
  | union members location => exact (s.reports_union members location).ledger
  | require sup sub location => exact s.ledger_require sup sub location
  | requireExpr sup e => exact s.ledger_require sup e.type e.location
  | instantiate sig location => exact s.ledger_instantiate sig location
  | call sig args location => exact s.ledger_call sig args location
  | annotateNode node t => cases t <;> rfl
  | annotateExpr e t => rfl

/-- Concluding a session hands out nothing. -/
theorem ledger_solve : s.solve.2.ledger = s.ledger := by
  by_cases hopen : s.status = .active
  · rcases solve_cases hopen with ⟨f, _, hf⟩ | ⟨outcome, _, hreports⟩
    · rw [hf]
    · rw [hreports.ledger, close]
      split <;> rfl
  · rw [solve, whileOpen_of_not_active hopen]

theorem ledger_cancel : s.cancel.2.ledger = s.ledger := by
  unfold cancel
  split <;> rfl

end Actions

/-- What a whole run does to the ledger is to add what was handed out. -/
theorem ledger_actAll (as : List Action) : ∀ s : Session,
    (s.actAll as).ledger = (s.issueAll ((s.freshIn as).map TypeParam.errorVar)).ledger := by
  induction as with
  | nil => exact fun _ => rfl
  | cons a as ih =>
      intro s
      rw [actAll, ih]
      cases a with
      | op op =>
          rw [freshIn, List.map_append, issueAll, issueAll, List.foldl_append]
          exact ledger_issueAll _ (s.ledger_perform op)
      | solve => exact ledger_issueAll _ s.ledger_solve
      | cancel => exact ledger_issueAll _ s.ledger_cancel
      | resolve t => rfl

/-- The variables of a run have the numbers from the first on, one after the other. -/
theorem exists_freshIn_eq (as : List Action) : ∀ s : Session,
    ∃ qs, s.freshIn as = TypeParam.renewedFrom s.counter qs := by
  induction as with
  | nil => exact fun _ => ⟨[], rfl⟩
  | cons a as ih =>
      intro s
      cases a with
      | op op =>
          obtain ⟨ps, hps⟩ := s.exists_freshBy_eq op
          obtain ⟨qs, hqs⟩ := ih (s.perform op)
          have hcounter : (s.perform op).counter = s.counter + ps.length := by
            have hledger := congrArg Prod.fst (s.ledger_perform op)
            rw [hps] at hledger
            refine hledger.trans ?_
            show (s.issueAll _).counter = _
            rw [counter_issueAll, List.length_map, TypeParam.length_renewedFrom]
          refine ⟨ps ++ qs, ?_⟩
          rw [freshIn, hps, hqs, hcounter, TypeParam.renewedFrom_append]
      | solve =>
          have hcounter : s.solve.2.counter = s.counter := congrArg Prod.fst s.ledger_solve
          exact hcounter ▸ ih s.solve.2
      | cancel =>
          have hcounter : s.cancel.2.counter = s.counter := congrArg Prod.fst s.ledger_cancel
          exact hcounter ▸ ih s.cancel.2
      | resolve t => exact ih s

/-- Different variables are all remembered. -/
theorem issued_issueAll {vs : List ErrorVar} : ∀ {s : Session},
    (s.issued ++ vs).Pairwise (fun v w => (v == w) = false) →
    (s.issueAll vs).issued = s.issued ++ vs := by
  induction vs with
  | nil => intro s _; exact (List.append_nil _).symm
  | cons v vs ih =>
      intro s hvs
      have hnew : s.issued.contains v = false := by
        refine Bool.eq_false_iff.2 fun hin => ?_
        obtain ⟨u, hu, huv⟩ := List.contains_iff_exists_mem_beq.1 hin
        rw [BEq.comm, (List.pairwise_append.1 hvs).2.2 u hu v List.mem_cons_self] at huv
        cases huv
      have hone : (s.issue v).issued = s.issued ++ [v] := by
        show (if s.issued.contains v then s.issued else s.issued ++ [v]) = _
        rw [hnew]
        rfl
      rw [issueAll, List.foldl_cons, ← issueAll, ih, hone, List.append_assoc]
      · rfl
      · rw [hone, List.append_assoc]
        exact hvs

/-- Whatever is done with a session, no variable that it hands out is another one: neither
the error variables, with the error projections of type variables among them, nor the
type variables, nor their value projections. Error variables differ even by name. The
session has counted and remembered all of them. -/
theorem fresh_variables_never_collide (options : Options) (registry : Registry)
    (as : List Action) :
    (((new options registry).freshIn as).flatMap TypeParam.unknowns).Pairwise
        (fun x y => (x == y) = false) ∧
      (((new options registry).freshIn as).map fun p => p.errorVar.name).Nodup ∧
      ((new options registry).actAll as).counter = ((new options registry).freshIn as).length ∧
      ((new options registry).actAll as).issued =
        ((new options registry).freshIn as).map TypeParam.errorVar := by
  obtain ⟨qs, hqs⟩ := exists_freshIn_eq as (new options registry)
  have hnames := TypeParam.nodup_names qs (new options registry).counter
  obtain ⟨hcounter, hissued⟩ := Prod.mk.inj (ledger_actAll as (new options registry))
  rw [counter_issueAll, List.length_map] at hcounter
  rw [hqs] at hcounter hissued ⊢
  refine ⟨TypeParam.pairwise_unknowns qs _, hnames, hcounter.trans (Nat.zero_add _),
    hissued.trans ?_⟩
  refine issued_issueAll (s := new options registry) (List.pairwise_map.2 ?_)
  refine (List.pairwise_map.1 hnames).imp fun {p q} hne => Bool.eq_false_iff.2 fun hpq => hne ?_
  have hname := congrArg ErrorVar.name (ErrorVar.beq_iff_bare.1 hpq)
  exact hname

/-- Bases that look like names which were handed out, or would be next. -/
example : ((new .default (.new 0)).freshIn
      [.op (.freshTyVar "T"), .op (.freshErrorVar "T$0|_e" .unbounded),
        .op (.freshErrorVar "E$3" .unbounded), .op (.freshErrorVar "E" .unbounded)]).map
        (fun p => p.errorVar.name) =
    ["T$0|_e", "T$0|_e$1", "E$3$2", "E$3"] := by
  decide

end Session

end Fallible
