import EpsilonAutomata.Collection.Sorting
import EpsilonAutomata.Number.Double

/-!
# JSON documents

Whole numbers and doubles are told apart. The fields of an object keep the order in which their
names came first, and of two fields of one name the last one counts.
-/

namespace EpsilonAutomata

/-- A JSON document. -/
inductive Json where
  | null
  | bool (b : Bool)
  | int (i : Int)
  | double (x : Double)
  | text (s : String)
  | array (items : List Json)
  | object (fields : List (String × Json))
  deriving Inhabited

namespace Json

/-- Sets a field; a name that came earlier keeps its place. -/
def setField (name : String) (j : Json) : List (String × Json) → List (String × Json)
  | [] => [(name, j)]
  | (k, v) :: fields =>
    if k = name then (k, j) :: fields else (k, v) :: setField name j fields

/-- The fields of a list of named documents, the last of a name counting. -/
def fieldsOf (fields : List (String × Json)) : List (String × Json) :=
  fields.foldl (fun fs f => setField f.1 f.2 fs) []

def field? (name : String) : Json → Option Json
  | object fields => (fields.find? fun f => f.1 = name).map (·.2)
  | _ => none

mutual

/-- The document with the fields of every object in the order of their names. -/
def sortKeys : Json → Json
  | array items => array (sortKeysAll items)
  | object fields => object (Sorting.sortBy (fun a b => decide (a.1 < b.1)) (sortKeysIn fields))
  | j => j

def sortKeysAll : List Json → List Json
  | [] => []
  | j :: js => sortKeys j :: sortKeysAll js

def sortKeysIn : List (String × Json) → List (String × Json)
  | [] => []
  | (k, j) :: fields => (k, sortKeys j) :: sortKeysIn fields

end

end Json

end EpsilonAutomata
