import Fallible.Fault

/-!
# Options

Three things can be set: how two argument lists of one classifier are merged,
how the host's value constructors relate, and whether comparisons that had to
wait are made again once the variables are solved.
-/

namespace Fallible

/-- How two argument lists of one classifier are merged. -/
inductive Policy where
  /-- Covariant arguments must agree. -/
  | strict
  /-- Covariant arguments are joined, contravariant ones are met. -/
  | soft
  deriving DecidableEq

/-- The policy that a value names. -/
def Policy.ofValue (v : HostValue) : Except Fault Policy :=
  match v with
  | .text "strict" => .ok .strict
  | .text "soft" => .ok .soft
  | _ =>
      match v.compound? with
      | some kind => .error (.notAName kind)
      | none => .error (.unknownPolicy v)

/-- A policy, or the name of one that is looked up when it is needed. -/
inductive PolicyChoice where
  | named (name : HostValue)
  | fixed (p : Policy)

/-- The chosen policy. -/
def PolicyChoice.resolve : PolicyChoice → Except Fault Policy
  | .named name => Policy.ofValue name
  | .fixed p => .ok p

/-- What a rule for value constructors asks about their arguments before it
answers. A question is put to an argument of the wider constructor and one of
the narrower, each given by its place. -/
inductive Inquiry where
  | answer (related : Bool)
  /-- Whether argument `i` of the wider constructor covers argument `j` of the
  narrower, or is covered by it, if the question is turned round. An argument
  that is not there covers nothing and is not covered. -/
  | ask (turned : Bool) (i j : Nat) (next : Bool → Inquiry)

/-- A host's own rule for value constructors. It sees both constructors with
their arguments, and may look at all of this but the spelling of classifiers.
However it asks, it comes to an answer. -/
structure ValueRule where
  inquire (sup : Con) (supArgs : List Ty) (sub : Con) (subArgs : List Ty) : Inquiry
  /-- Arguments that are the same are treated the same. -/
  congr : ∀ {sup sub : Con} {as as' bs bs' : List Ty}, (as == as') = true →
    (bs == bs') = true → inquire sup as sub bs = inquire sup as' sub bs'

/-- How value constructors relate. -/
inductive ValueOrder where
  /-- By the classes of the host, with arguments that must agree. -/
  | classes
  /-- By a rule of the host's own. -/
  | custom (rule : ValueRule)

/-- The order by a list of pairs of names, the wider one first; arguments are
ignored. -/
def ValueOrder.listed (pairs : List (String × String)) : ValueOrder :=
  .custom ⟨fun sup _ sub _ => .answer (pairs.contains (sup.name, sub.name)), fun _ _ => rfl⟩

/-- Options of a checker. -/
structure Options where
  policy : PolicyChoice
  order : ValueOrder
  /-- Whether comparisons that had to wait are made again after solving, as the
  host has put it. -/
  revalidate : HostValue

namespace Options

/-- The options in force when nothing is set. -/
def default : Options := ⟨.named (.text "strict"), .classes, .bool true⟩

instance : Inhabited Options := ⟨default⟩

/-- Whether comparisons that had to wait are made again after solving. -/
def revalidates (o : Options) : Bool := o.revalidate.isTrue

/-- A value given for an option. -/
inductive Setting where
  | value (v : HostValue)
  | policy (p : Policy)
  | order (o : ValueOrder)

/-- The names of the options. -/
def names : List String := ["fixing_policy", "value_subtype", "revalidate"]

/-- Options with one of them set. -/
def set (o : Options) : String → Setting → Options
  | "fixing_policy", .value v => { o with policy := .named v }
  | "fixing_policy", .policy p => { o with policy := .fixed p }
  | "value_subtype", .order r => { o with order := r }
  | "revalidate", .value v => { o with revalidate := v }
  | _, _ => o

/-- The options that a list of settings spells out. Names that are not options
are refused, and listed in alphabetical order. -/
def ofSettings (settings : List (String × Setting)) : Except Fault Options :=
  let unknown := (settings.map Prod.fst).filter fun n => !names.contains n
  if unknown.isEmpty then .ok (settings.foldl (fun o s => o.set s.1 s.2) default)
  else .error (.unknownOptions (sortBy (fun a b => decide (a ≤ b)) unknown))

end Options

end Fallible
