import EpsilonAutomata.Value.Equality

/-!
# Values as collections

What a value yields when it is gone through item by item, and which values it is said to contain.
-/

namespace EpsilonAutomata.Value

/-- The items of a collection: the characters of text, the items of a tuple, list or set, the keys
of a mapping. -/
def items? : Value → Option (List Value)
  | text s => some (s.toList.map fun c => text (String.singleton c))
  | tuple xs => some xs
  | list xs => some xs
  | set xs => some xs
  | frozenSet xs => some xs
  | mapping es => some (es.map (·.1))
  | _ => none

/-- The text occurs within the list of characters. -/
def occursIn (part : List Char) : List Char → Bool
  | [] => part.isEmpty
  | c :: cs => part.isPrefixOf (c :: cs) || occursIn part cs

/-- Whether a collection contains a value that can be a member of a set. Text contains its parts and
refuses all but text. -/
def holds? (collection : Value) (a : Value) : Option Bool :=
  match collection, a with
  | text s, text t => some (occursIn t.toList s.toList)
  | text _, _ => none
  | _, _ => collection.items?.map fun xs => xs.any (· == a)

end EpsilonAutomata.Value
