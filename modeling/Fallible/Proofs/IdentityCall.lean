import Fallible.Proofs.Receiving

/-!
# Calls of the identity

The identity takes a value of any type and gives it back. A call puts a fresh
variable in the place of its parameter. The variable takes the type of the
argument, so what the call returns resolves to that type, put together again.

Main statement: calling the identity succeeds on every type that obeys the
grammar and holds no flexible variable, and the result is the argument's type.
-/

namespace Fallible

/-- The signature of the identity: `identity<T>(T) -> T`. -/
def identity (param : String) : Signature :=
  ⟨"identity", [.type param false], [.var param false], .var param false⟩

namespace Session

/-- A new session in which a fresh variable was compared with a type. -/
def taking (r : Registry) (name : String) (t : Ty) (location : Location) : Session :=
  { new .default r with
    counter := 1
    issued := [.ofTyVar name true]
    constraints := asked name t location
    bindings := Bindings.empty.bind name t.valuePart
    pending := if t.received.isEmpty then [] else [⟨.var name true, t, location⟩] }

/-- The same session solved. -/
def taken (r : Registry) (name : String) (t : Ty) (location : Location) : Session :=
  { taking r name t location with status := .solved, solution := some (t.receipt name) }

/-- The name of the first variable that a session hands out. -/
def firstName (base : String) : String := base ++ "$" ++ toString 0

variable (r : Registry) (param : String)

theorem instantiate_identity (location : Location) :
    (new .default r).instantiate (identity param) location =
      (.ok ([.var (firstName param) true], .var (firstName param) true),
        { new .default r with counter := 1, issued := [.ofTyVar (firstName param) true] }) := by
  obtain ⟨images, hfresh, himage⟩ : ∃ images : Table Ty Ty,
      (new .default r).freshParams (identity param).typeParams .empty = (.ok images,
        { new .default r with counter := 1, issued := [.ofTyVar (firstName param) true] }) ∧
      images.get? (.var param false) = some (.var (firstName param) true) := by
    refine ⟨_, rfl, ?_⟩
    show (if Ty.var param false == .var param false then some _ else _) = _
    rw [BEq.rfl, if_pos rfl]
    rfl
  have hsubst : (Ty.var param false).subst images = .var (firstName param) true := by
    rw [Ty.subst.eq_def, himage]
  have hparams : Ty.substAll images (identity param).params = [.var (firstName param) true] := by
    rw [Ty.substAll_eq_map]
    exact congrArg (fun u => [u]) hsubst
  have hreturns : (identity param).returns.subst images = .var (firstName param) true := hsubst
  rw [instantiate, hfresh]
  simp only [hparams, hreturns]
  rfl

variable {t : Ty} (hc : t.Closed) (hf : t.failed = false)

include hc hf in
theorem require_var (name : String) (location : Location) :
    { new .default r with counter := 1, issued := [.ofTyVar name true] }.require (.var name true) t
      location = (.ok (answered t), taking r name t location) := by
  generalize hs : { new .default r with counter := 1, issued := [.ofTyVar name true] } = s
  have hengine : s.engine = ⟨.classes, .empty, some .empty, some []⟩ := by rw [← hs]; rfl
  rw [require, hengine, Engine.check_var hc name rfl hf, answered, taking, ← hs]
  cases t.received.isEmpty <;> rfl

include hc hf in
theorem call_identity (node : String) (place location : Location) :
    (new .default r).call (identity param) [⟨node, t, place⟩] location =
      (.ok (.var (firstName param) true), taking r (firstName param) t place) := by
  have hlength : ([TypedExpr.mk node t place].length != (identity param).params.length) = false :=
    rfl
  rw [call, hlength, if_neg Bool.false_ne_true, instantiate_identity]
  simp only [List.zip_cons_cons, List.zip_nil_left, requireArgs, requireExpr, require_var r hc hf]

include hc in
/-- Solving gives the variable the errors of the type, and nothing is reported. -/
theorem solve_taking (hn : t.NamesOnce) {r : Registry}
    (hr : ∀ c args, .errorConst c args ∈ t.constituents → r.contains c = true) (name : String)
    (location : Location) :
    (taking r name t location).solve =
      (.ok ⟨[], t.receipt name, .empty⟩, taken r name t location) := by
  obtain ⟨o, ho, hviolation, hsolution⟩ := Fixpoint.solveBy_asked name hn.top hr location .strict
    ⟨.classes, .empty, Bindings.empty.bind name t.valuePart⟩
  have houtcome : (taking r name t location).outcome = .ok o := ho
  have hclose : (taking r name t location).close o = taken r name t location := by
    have hempty : (taking r name t location).emptySets = .ofList [(.ofTyVar name true, .empty)] :=
      rfl
    rw [close, hviolation, hempty, hsolution]
    rfl
  have hreview : (taken r name t location).review o = (.ok (), taken r name t location) := by
    have hsuccess : o.success = true := by rw [Fixpoint.Outcome.success, hviolation]; rfl
    have hholds := View.holds_var hc name hn
    show (if (o.success && true) = true then (taken r name t location).revalidate (t.receipt name)
      (if t.received.isEmpty then [] else [⟨.var name true, t, location⟩]) else _) = _
    rw [hsuccess, Bool.true_and, if_pos rfl]
    cases t.received.isEmpty with
    | true => rfl
    | false =>
        have hagain : (View.mk (taken r name t location).options.order (t.receipt name)
            (taken r name t location).bindings).holds (.var name true) t = .ok true := hholds
        rw [if_neg Bool.false_ne_true, revalidate, hagain]
        rfl
  rw [solve, houtcome]
  simp only [hclose, hreview]
  rfl

variable (hp : Grammar.Proper t.constituents)

include hc hp hf in
/-- The variable then resolves to the type put together again. -/
theorem resolve_taken (name : String) (location : Location) :
    (taken r name t location).resolve (.var name true) = .ok t.reassembled.canonical := by
  have happly : (taken r name t location).bindings.apply (Ty.var name true).canonical =
      .ok (Ty.unionOf [t.valuePart.reopened, .errorVar (.ofTyVar name true)]) := by
    have himage : (taken r name t location).bindings.imageWithin 1 name =
        some (.ok t.valuePart.reopened) := Bindings.imageWithin_taken hc name
    show Bindings.unfoldWith ((taken r name t location).bindings.imageWithin 1) _ = _
    simp only [Ty.canonical, Bindings.unfoldWith, Bindings.unfoldAllWith, himage, if_true,
      Option.getD_some]
    rfl
  have hproper : Grammar.violation? t.reassembled.canonical = none :=
    Grammar.violation?_eq_none_iff.2 (Ty.proper_reassembled hc hp hf).canonical
  have hresolution : (taken r name t location).resolution (.var name true) =
      .ok (t.reassembled.canonical, none) := by
    have hclean : ∀ vs : List ErrorVar, vs.any (List.contains []) = false :=
      fun _ => List.any_eq_false.2 fun _ _ => Bool.false_ne_true
    rw [resolution, happly]
    show (if List.any _ (List.contains []) = true then _ else _) = _
    rw [hclean, if_neg Bool.false_ne_true]
    show Except.ok ((t.receipt name).settled _, Grammar.violation? ((t.receipt name).settled _)) = _
    rw [settled_receipt name hc hp hf, hproper]
  rw [resolve, hresolution]
  rfl

end Session

/-- A call of the identity preserves the type of its argument. If the type has no
`Error`, beside which a set lists nothing, and no variable bounded by an empty alias,
which no set has to receive, the result is its canonical form. In every case the
result and the type cover each other. -/
theorem identity_preserves_type (registry : Registry) (param : String) (arg : TypedExpr)
    (location : Location) (hformed : ∀ u ∈ arg.type.subterms, Grammar.violation? u = none)
    (hclosed : arg.type.Closed) (hfailed : arg.type.failed = false)
    (hissued : ∀ c ∈ Ty.classifiersAll [arg.type], registry.contains c = true) :
    ∃ result called report solved resolved,
      (Session.new .default registry).call (identity param) [arg] location = (.ok result, called) ∧
        called.solve = (.ok report, solved) ∧ report.success = true ∧
        solved.resolve result = .ok resolved ∧
        (.error ∉ arg.type.errorPart →
          (∀ x a, .errorVar x ∈ arg.type.errorPart → x.bound = .bounded a → a.members ≠ []) →
          resolved = arg.type.canonical) ∧
        isSubtype .classes resolved arg.type = true ∧
        isSubtype .classes arg.type resolved = true := by
  obtain ⟨node, t, place⟩ := arg
  have hp := Grammar.violation?_eq_none_iff.1 (hformed t t.mem_subterms_self)
  have hn : t.NamesOnce := fun u hu => (Grammar.violation?_eq_none_iff.1 (hformed u hu)).constants
  have hr : ∀ c args, .errorConst c args ∈ t.constituents → registry.contains c = true := by
    intro c args h
    have hsub : .errorConst c args ∈ t.subterms :=
      Ty.errorConst_mem_subterms (List.mem_filter.2 ⟨h, rfl⟩)
    exact hissued c (Ty.mem_classifiersAll.2
      ⟨args, Ty.mem_subtermsAll.2 ⟨t, List.mem_singleton_self t, hsub⟩⟩)
  obtain ⟨hsup, hsub⟩ := Ty.isSubtype_reassembled hclosed hp hfailed
  have hnr := Ty.namesOnce_reassembled hclosed hp hfailed hn
  refine ⟨_, _, _, _, t.reassembled.canonical, Session.call_identity registry param hclosed hfailed
    node place location, Session.solve_taking hclosed hn hr _ place, rfl,
    Session.resolve_taken registry hclosed hfailed hp _ place, fun hu hb => ?_, ?_, ?_⟩
  · refine Ty.canonical_reassembled hclosed hp (fun h => hu (List.mem_filter.2 ⟨h, rfl⟩))
      (fun x hx => ?_) hfailed
    rw [View.coveredByAlias]
    cases hbound : x.bound with
    | unbounded => rfl
    | bounded a =>
        obtain ⟨c, hc⟩ := List.exists_mem_of_ne_nil _ (hb x a (List.mem_filter.2 ⟨hx, rfl⟩) hbound)
        exact List.all_eq_false.2 ⟨c, hc, Bool.false_ne_true⟩
  · rw [← isSubtype_canonical hnr.canonical hn, Ty.canonical_canonical, isSubtype_canonical hnr hn]
    exact hsup
  · rw [← isSubtype_canonical hn hnr.canonical, Ty.canonical_canonical, isSubtype_canonical hn hnr]
    exact hsub

/-! A list whose elements may fail, with a bounded variable in front of a payload
that is a rigid type variable. -/

def readFault : Classifier := ⟨0, [], "Read", [.covariant], some 0⟩

def waitFault : Classifier := ⟨1, [], "Wait", [], some 0⟩

def lateVar : ErrorVar := ⟨"E", .bounded (.of "Late" [waitFault]), false⟩

def wrappedType : Ty :=
  .union [.con (.named "list") [.union [.con (.host .int) [], .errorConst waitFault []]],
    .errorVar lateVar, .errorConst readFault [.union [.nothing, .var "S" false]]]

theorem identity_wrappedType :
    (wrappedType == wrappedType.canonical) = false ∧
      ∃ result called report solved,
        (Session.new .default (.holding 0 [readFault, waitFault])).call (identity "T")
          [⟨"x", wrappedType, .unknown⟩] .unknown = (.ok result, called) ∧
        called.solve = (.ok report, solved) ∧ report.success = true ∧
        solved.resolve result = .ok wrappedType.canonical := by
  obtain ⟨result, called, report, solved, resolved, hcall, hsolve, hsuccess, hresolve, heq, -⟩ :=
    identity_preserves_type (.holding 0 [readFault, waitFault]) "T"
      ⟨"x", wrappedType, .unknown⟩ .unknown (by decide) (by decide) (by decide) (by decide)
  have hpart : wrappedType.errorPart =
      [.errorVar lateVar, .errorConst readFault [.union [.nothing, .var "S" false]]] := rfl
  refine ⟨by decide, result, called, report, solved, hcall, hsolve, hsuccess, ?_⟩
  rw [hresolve, heq]
  · rw [hpart]
    simp
  · intro x a hx hbound
    rw [hpart] at hx
    obtain rfl : x = lateVar := by simpa using hx
    cases hbound
    decide

end Fallible
