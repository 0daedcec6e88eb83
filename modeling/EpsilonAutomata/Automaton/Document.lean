import EpsilonAutomata.Automaton.Listing
import EpsilonAutomata.Json.Basic
import EpsilonAutomata.Json.Parser
import EpsilonAutomata.Json.Printer

/-!
# Automata as documents

An automaton is stored as an object of five fields, its sets as lists in order. Text, numbers, truth
values and tuples of them have a form in a document, tuples as arrays; the mark of the empty move,
as a label, is null. Reading turns arrays back into tuples and makes the automaton anew.
-/

namespace EpsilonAutomata

namespace Value

mutual

def toJson : Value → Except Fault Json
  | bool b => .ok (.bool b)
  | int i => .ok (.int i)
  | double x => .ok (.double x)
  | text s => .ok (.text s)
  | tuple xs => do return .array (← toJsonAll xs)
  | a => .error (.unstorable a)

def toJsonAll : List Value → Except Fault (List Json)
  | [] => .ok []
  | x :: xs => do
    let j ← toJson x
    return j :: (← toJsonAll xs)

end

def labelToJson (label : Value) : Except Fault Json :=
  if label.isEpsilon then .ok .null else label.toJson

end Value

namespace Json

mutual

/-- A document as the value it is: arrays are lists and objects mappings. -/
def asValue : Json → Value
  | null => .null
  | bool b => .bool b
  | int i => .int i
  | double x => .double x
  | text s => .text s
  | array items => .list (asValues items)
  | object fields => .mapping (asEntries fields)

def asValues : List Json → List Value
  | [] => []
  | j :: js => asValue j :: asValues js

def asEntries : List (String × Json) → List (Value × Value)
  | [] => []
  | (k, j) :: fields => (.text k, asValue j) :: asEntries fields

end

mutual

/-- The value that a document stands for: arrays are tuples. -/
def toValue : Json → Value
  | array items => .tuple (toValues items)
  | j => j.asValue

def toValues : List Json → List Value
  | [] => []
  | j :: js => toValue j :: toValues js

end

def toLabel : Json → Value
  | null => .epsilon
  | j => j.toValue

/-- Whether a document has a field: a name of an object, an item of an array or a part of text. -/
def hasField (name : String) : Json → Except Fault Bool
  | object fields => .ok (fields.any fun f => f.1 = name)
  | array items => .ok (items.any fun j => j.asValue == .text name)
  | text s => .ok (Value.occursIn name.toList s.toList)
  | _ => .error .notIterable

def field (name : String) (j : Json) : Except Fault Json :=
  match j.field? name with
  | some value => .ok value
  | none => .error .wrongOperand

/-- The items of a document: those of an array, the characters of text, the names of an object. -/
def items : Json → Except Fault (List Json)
  | array items => .ok items
  | text s => .ok (s.toList.map fun c => text (String.singleton c))
  | object fields => .ok (fields.map fun f => text f.1)
  | _ => .error .notIterable

/-- The parts of a transition, of which there must be three. -/
def tripleParts (j : Json) : Except Fault (List Value) := do
  match ← j.items with
  | [source, label, target] => return [source.toValue, label.toLabel, target.toValue]
  | _ => throw (.notTriple j.asValue)

end Json

namespace Automaton

def fieldNames : List String :=
  ["states", "alphabet", "start", "transitions", "final_states"]

def transitionToJson (t : Transition) : Except Fault Json := do
  return .array [← t.source.toJson, ← t.label.labelToJson, ← t.target.toJson]

def toDocument (n : Automaton) : Except Fault Json := do
  let states ← (← ValueSet.sorted n.states).mapM Value.toJson
  let alphabet ← (← Value.sortedLabels n.alphabet.items).mapM Value.toJson
  let start ← n.initial.toJson
  let transitions ← (← n.triples).mapM transitionToJson
  let finals ← (← ValueSet.sorted n.finals).mapM Value.toJson
  return .object [("states", .array states), ("alphabet", .array alphabet), ("start", start),
    ("transitions", .array transitions), ("final_states", .array finals)]

def missingFields (j : Json) : Except Fault (List String) := do
  let present ← fieldNames.mapM fun name => j.hasField name
  return (fieldNames.zip present).filterMap fun (name, here) => if here then none else some name

def ofDocument (j : Json) : Except Fault Automaton := do
  let missing ← missingFields j
  if !missing.isEmpty then throw (.missingFields missing)
  let transitions ← (← (← j.field "transitions").items).mapM Json.tripleParts
  let states ← (← j.field "states").items
  let alphabet ← (← j.field "alphabet").items
  let start ← j.field "start"
  let finals ← (← j.field "final_states").items
  make (← Shape.ofParts (states.map Json.toValue) (alphabet.map Json.toValue) start.toValue
    transitions (finals.map Json.toValue))

def toText (n : Automaton) (style : Json.Style) : Except Fault String := do
  return Json.render style (← n.toDocument)

def ofText (s : String) : Except Fault Automaton :=
  match Json.parse? s with
  | some j => ofDocument j
  | none => .error .malformedDocument

end Automaton

end EpsilonAutomata
