import Fallible.Table
import Fallible.Ty.Parts
import Fallible.Ty.Text

/-!
# Error sets

The errors of a type form a set of atoms: classifiers, and error variables
that stand for classifiers not known yet. A classifier may come with the
arguments of its parameters, so the set is in fact a map from atoms to
argument lists; the empty list means that the arguments are not fixed. A set
may also be universal, which stands for all classifiers.

The entries are listed by atom. A set can be built from entries that name an
atom more than once; it keeps them all, and looking the atom up finds the last.
-/

namespace Fallible

/-- An element of an error set. -/
inductive Atom where
  | classifier (c : Classifier)
  | var (v : ErrorVar)

namespace Atom

/-- Atoms are compared as the classifiers or variables they are. -/
def beq : Atom → Atom → Bool
  | .classifier c, .classifier d => c == d
  | .var v, .var w => v == w
  | _, _ => false

instance : BEq Atom := ⟨beq⟩

/-- The place of an atom in a set: classifiers by number, then variables by
name. -/
def key : Atom → SortKey
  | .classifier c => ⟨0, c.id, ""⟩
  | .var v => ⟨1, 0, v.name⟩

/-- The classifier that the atom is, if it is one. -/
def classifier? : Atom → Option Classifier
  | .classifier c => some c
  | .var _ => none

/-- The union member that stands for an atom with its arguments. -/
def toMember : Atom → List Ty → Ty
  | .classifier c, args => .errorConst c args
  | .var v, _ => .errorVar v

/-- The variance of an atom's parameter. Only classifiers declare any. -/
def variance : Atom → Nat → Variance
  | .classifier c, i => c.variance i
  | .var _, _ => .invariant

/-- Whether everything the atom can stand for belongs to an alias. -/
def isWithin : Atom → Alias → Bool
  | .classifier c, a => a.contains c
  | .var v, a =>
      match v.bound with
      | .bounded b => b.isWithin a
      | .unbounded => false

/-- The atom with bare classifiers. -/
def bare : Atom → Atom
  | .classifier c => .classifier c.bare
  | .var v => .var v.bare

theorem beq_iff {a b : Atom} : (a == b) = true ↔ a.bare = b.bare := by
  show beq a b = true ↔ _
  cases a <;> cases b <;>
    simp [beq, bare, ErrorVar.beq_iff_bare, Classifier.bare]

instance : EquivBEq Atom where
  rfl := beq_iff.2 rfl
  symm h := beq_iff.2 (beq_iff.1 h).symm
  trans h k := beq_iff.2 ((beq_iff.1 h).trans (beq_iff.1 k))

end Atom

/-- The arguments of each atom's parameters. -/
abbrev Instantiations := Table Atom (List Ty)

/-- A set of errors. -/
structure ErrorSet where
  /-- The atoms and their arguments, in order. -/
  entries : List (Atom × List Ty)
  /-- Whether the set holds every classifier. -/
  universal : Bool
  sorted : entries.Pairwise fun a b => (a.1.key).le b.1.key = true

namespace ErrorSet

/-- The set with the given entries. -/
def ofEntries (es : List (Atom × List Ty)) (universal : Bool) : ErrorSet :=
  ⟨sortOn (fun e => e.1.key) es, universal, sortOn_pairwise _ es⟩

/-- The set without errors. -/
def empty : ErrorSet := ⟨[], false, List.Pairwise.nil⟩

instance : Inhabited ErrorSet := ⟨empty⟩

/-- The set with the atoms and arguments of a map. -/
def ofTable (t : Instantiations) (universal : Bool) : ErrorSet := ofEntries t.entries universal

/-- The set of some atoms without arguments. -/
def ofAtoms (atoms : List Atom) : ErrorSet :=
  ofEntries ((distinct atoms).map fun a => (a, [])) false

/-- The set as a map: each atom once, with the last of its argument lists. -/
def index (s : ErrorSet) : Instantiations := .ofList s.entries

/-- The arguments of an atom, if the set has it. -/
def get? (s : ErrorSet) (a : Atom) : Option (List Ty) := s.index.get? a

/-- Whether the set lists an atom. -/
def contains (s : ErrorSet) (a : Atom) : Bool := s.index.contains a

/-- The atoms of the set, each once. -/
def atoms (s : ErrorSet) : List Atom := s.index.keys

/-- The classifiers of the set, each once. -/
def classifiers (s : ErrorSet) : List Classifier := s.atoms.filterMap Atom.classifier?

/-- The number of entries. -/
def size (s : ErrorSet) : Nat := s.entries.length

/-- Whether the set holds nothing. -/
def isEmpty (s : ErrorSet) : Bool := s.entries.isEmpty && !s.universal

/-- Both sets together. Where both have an atom, the arguments of `s` stay. -/
def union (s other : ErrorSet) : ErrorSet :=
  ofTable (other.index.overlay s.index) (s.universal || other.universal)

/-- The set without some atoms. -/
def without (s : ErrorSet) (dropped : List Atom) : ErrorSet :=
  ⟨s.entries.filter fun e => !dropped.contains e.1, s.universal, s.sorted.filter _⟩

/-- The set as members of a union. -/
def members (s : ErrorSet) : List Ty :=
  (s.entries.map fun e => e.1.toMember e.2) ++ (if s.universal then [.error] else [])

/-- Sets are compared entry by entry. -/
instance : BEq ErrorSet := ⟨fun a b => a.entries == b.entries && a.universal == b.universal⟩

/-- The text of a set. -/
def text (s : ErrorSet) : String :=
  "\x7b" ++ ", ".intercalate (s.members.map Ty.text) ++ "\x7d"

/-- The arguments of the atoms, and the arguments in them, at any depth. -/
def arguments (s : ErrorSet) : List Ty :=
  s.entries.flatMap fun e => e.2 ++ Ty.argumentsAll e.2

/-! ## The errors that a type spells out -/

/-- A set under construction, with the error constituent `m` added. A
classifier named again takes the arguments named last. -/
def addMember (acc : Instantiations × Bool) : Ty → Instantiations × Bool
  | .errorConst c args => (acc.1.insert (.classifier c) args, acc.2)
  | .errorVar v => (acc.1.insert (.var v) [], acc.2)
  | .error => (acc.1, true)
  | _ => acc

/-- The errors of a type as it is written, variables left as they are. -/
def ofTy (t : Ty) : ErrorSet :=
  let acc := t.errorPart.foldl addMember (.empty, false)
  ofTable acc.1 acc.2

end ErrorSet

end Fallible
