import Fallible.Host.Hint.Basic

/-!
# When two hints are the same

Classes and names are the same if they are one, type variables if they have one
serial number, and numbers if they have one value, with truth values counted as
numbers. Hints with arguments are the same if their heads and arguments are.

Unions are the same if they have the same members in any order, whichever way
they were written. Two unions written with bars are compared as sets, and a set
cannot have a member that holds a list; such a comparison is refused.
-/

namespace Fallible.Hint

mutual

/-- Whether a hint holds no list, so that it can be a member of a set. -/
def isListFree : Hint → Bool
  | .list _ => false
  | .generic _ hs | .applied _ hs | .barUnion hs | .typingUnion hs => areListFree hs
  | _ => true

/-- Whether no hint holds a list. -/
def areListFree : List Hint → Bool
  | [] => true
  | h :: hs => isListFree h && areListFree hs

end

/-- Takes out the first hint that passes a test, if there is one. -/
def takeFirst (test : Hint → Except Refusal Bool) :
    List Hint → Except Refusal (Option (List Hint))
  | [] => return Option.none
  | h :: hs => do
      if ← test h then return some hs
      else return (← takeFirst test hs).map (h :: ·)

mutual

/-- Whether two hints are the same. -/
def same : Hint → Hint → Except Refusal Bool
  | .none, .none | .ellipsis, .ellipsis => .ok true
  | .cls c, .cls d => .ok (c == d)
  | .form f, .form g => .ok (f == g)
  | .typeVar _ m, .typeVar _ n => .ok (m == n)
  | .text s, .text t | .forwardRef s, .forwardRef t => .ok (s == t)
  | .generic c as, .generic d bs => if c == d then sameAll as bs else .ok false
  | .applied f as, .applied g bs => if f == g then sameAll as bs else .ok false
  | .list as, .list bs => if as.length == bs.length then sameAll as bs else .ok false
  | .barUnion as, .barUnion bs =>
      if areListFree as && areListFree bs then sameMembers as bs else .error .listInSet
  | .barUnion as, .typingUnion bs | .typingUnion as, .barUnion bs
  | .typingUnion as, .typingUnion bs => sameMembers as bs
  | a, b =>
      match a.number?, b.number? with
      | some m, some n => .ok (m == n)
      | _, _ => .ok false

/-- Whether two lists have the same hints in the same order. -/
def sameAll : List Hint → List Hint → Except Refusal Bool
  | a :: as, b :: bs => do
      if ← same a b then sameAll as bs else return false
  | [], [] => .ok true
  | _, _ => .ok false

/-- Whether two lists have the same hints in any order. -/
def sameMembers : List Hint → List Hint → Except Refusal Bool
  | [], bs => .ok bs.isEmpty
  | a :: as, bs => do
      match ← takeFirst (same a) bs with
      | some rest => sameMembers as rest
      | Option.none => return false

end

/-- Whether one of some hints passes a test, tried in order. -/
def anyOf (test : Hint → Except Refusal Bool) : List Hint → Except Refusal Bool
  | [] => return false
  | h :: hs => do
      if ← test h then return true else anyOf test hs

/-- Adds the hints that are not there yet, one by one. -/
def addNew (test : Hint → Hint → Except Refusal Bool) (kept : List Hint) :
    List Hint → Except Refusal (List Hint)
  | [] => return kept
  | h :: hs => do
      if ← anyOf (test h) kept then addNew test kept hs
      else addNew test (kept ++ [h]) hs

end Fallible.Hint
