import EpsilonAutomata.Value.Equality

/-!
# The order of values

Numbers are ordered as quantities, text by code points, tuples and lists by their first difference,
and sets by strict inclusion. All other pairs cannot be compared, and `lt?` says so. Labels have an
order of their own, `labelLt?`: the empty move comes first, then kinds in a fixed order, and only
values of one kind are compared.
-/

namespace EpsilonAutomata.Value

/-- The quantity that a number stands for. -/
def quantity? (a : Value) : Option Quantity :=
  match a.scalar? with
  | some (.number q) => some q
  | _ => none

/-- The order of two numbers; anything else cannot be compared here. -/
def ltNumbers? (a b : Value) : Option Bool :=
  match a.quantity?, b.quantity? with
  | some p, some q => some (p.lt q)
  | _, _ => none

mutual

/-- Whether the first value is below the second, if the two can be compared. -/
def lt? : Value → Value → Option Bool
  | text s, text t => some (decide (s < t))
  | tuple xs, tuple ys => ltItems? xs ys
  | list xs, list ys => ltItems? xs ys
  | set xs, b => b.members?.map fun ys => within xs ys && !ys.all (among xs)
  | frozenSet xs, b => b.members?.map fun ys => within xs ys && !ys.all (among xs)
  | a, b => ltNumbers? a b

/-- The order of two lists by their first difference; a list is below its extensions. -/
def ltItems? : List Value → List Value → Option Bool
  | [], ys => some !ys.isEmpty
  | _ :: _, [] => some false
  | x :: xs, y :: ys => if same x y then ltItems? xs ys else lt? x y

end

/-- The place of the value's kind among the kinds of labels, which are ordered by their names. All
tuples are of one kind. -/
def kindRank : Value → Nat
  | marker _ _ => 0
  | epsilon => 0
  | null => 1
  | bool _ => 2
  | mapping _ => 3
  | double _ => 4
  | frozenSet _ => 5
  | int _ => 6
  | list _ => 7
  | set _ => 8
  | text _ => 9
  | tuple _ => 10

/-- Whether two labels hold one place in the order of labels. -/
def sameLabel (a b : Value) : Bool :=
  a.kindRank == b.kindRank && a == b

/-- Whether the first label is below the second, if the two can be compared. -/
def labelLt? (a b : Value) : Option Bool :=
  match a.isEpsilon, b.isEpsilon with
  | true, other => some !other
  | false, true => some false
  | false, false =>
    if a.kindRank = b.kindRank then if a == b then some false else lt? a b
    else some (decide (a.kindRank < b.kindRank))

end EpsilonAutomata.Value
