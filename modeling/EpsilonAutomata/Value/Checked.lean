import EpsilonAutomata.Fault
import EpsilonAutomata.Value.Items
import EpsilonAutomata.Value.Order

/-!
# Using values, with faults

What values are used for, and the fault of a value that does not serve: going through its items,
making it a member of a set, putting several in order, counting on from it.
-/

namespace EpsilonAutomata

/-- A list in ascending order, if every two of its items can be compared. -/
def Sorting.sorted {α : Type} (lt : α → α → Option Bool) (xs : List α) : Except Fault (List α) :=
  match sort? lt xs with
  | some ys => .ok ys
  | none => .error .incomparable

namespace Value

/-- The items of a collection. -/
def items (a : Value) : Except Fault (List Value) :=
  match a.items? with
  | some xs => .ok xs
  | none => .error .notIterable

def asMember (a : Value) : Except Fault Value :=
  if a.hashable then .ok a else .error .unhashable

/-- Symbols in the order of labels. -/
def sortedLabels (xs : List Value) : Except Fault (List Value) :=
  Sorting.sorted labelLt? xs

/-- The sum of a number and a whole number. Truth values count as zero and one, and the sum with a
double is rounded to a double. -/
def plus (a : Value) (i : Int) : Except Fault Value :=
  match a with
  | int b => .ok (int (b + i))
  | bool b => .ok (int ((if b then 1 else 0) + i))
  | double x => .ok (double (x.addInt i))
  | _ => .error .notNumber

end Value

namespace ValueSet

/-- The set of the items of a list, all of which must be able to be members. -/
def ofValues (xs : List Value) : Except Fault ValueSet :=
  if xs.all Value.hashable then .ok (OrderedSet.ofList xs) else .error .unhashable

def sorted (s : ValueSet) : Except Fault (List Value) :=
  Sorting.sorted Value.lt? s.items

end ValueSet

end EpsilonAutomata
