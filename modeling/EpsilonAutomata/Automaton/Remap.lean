import EpsilonAutomata.Automaton.Make
import EpsilonAutomata.Log

/-!
# Renaming states

`Automaton.remap` replaces every state by its image under a mapping; `Automaton.renumber` maps the
states in order onto consecutive numbers.
-/

namespace EpsilonAutomata

/-- A mapping of values, as a list of entries with different keys. -/
structure Mapping where
  entries : List (Value × Value)

namespace Mapping

/-- Sets the entry of a key; the key that came first stays. -/
def setEntry (k v : Value) : List (Value × Value) → List (Value × Value)
  | [] => [(k, v)]
  | (k', v') :: es => if k' == k then (k', v) :: es else (k', v') :: setEntry k v es

def set (m : Mapping) (k v : Value) : Mapping :=
  ⟨setEntry k v m.entries⟩

/-- The mapping of a list of entries, of which the last one of a key counts. -/
def ofList (es : List (Value × Value)) : Mapping :=
  es.foldl (fun m e => m.set e.1 e.2) ⟨[]⟩

/-- The mapping of a list of entries whose keys can be members of a set. -/
def ofEntries (es : List (Value × Value)) : Except Fault Mapping :=
  if es.all fun e => e.1.hashable then .ok (ofList es) else .error .unhashable

def get? (m : Mapping) (k : Value) : Option Value :=
  (m.entries.find? fun e => e.1 == k).map (·.2)

/-- The image of a value, which must have one. -/
def get (m : Mapping) (k : Value) : Except Fault Value :=
  if !k.hashable then .error .unhashable
  else match m.get? k with
    | some v => .ok v
    | none => .error .missingKey

def values (m : Mapping) : List Value :=
  m.entries.map (·.2)

def onTransition (m : Mapping) (t : Transition) : Except Fault Transition := do
  return ⟨← m.get t.source, t.label, ← m.get t.target⟩

end Mapping

namespace Automaton

/-- The automaton with every state replaced by its image. The states of the result are all images,
also those of keys that were no states. -/
def remap (n : Automaton) (m : Mapping) : Except Fault Automaton := do
  let initial ← m.get n.initial
  let states ← ValueSet.ofValues m.values
  let transitions ← n.transitions.items.mapM m.onTransition
  let finals ← n.finals.items.mapM m.get
  make ⟨states, n.alphabet, initial, .ofList transitions, .ofList finals⟩

/-- The mapping of states in order onto consecutive numbers. -/
def numbering (base : Value) (states : List Value) : Except Fault Mapping := do
  let entries ← states.zipIdx.mapM fun (s, i) => do return (s, ← base.plus i)
  return .ofList entries

/-- The automaton with its states, in order, renamed to consecutive numbers from a base. -/
def renumber (n : Automaton) (base : Value) : Logged Automaton := do
  let inOrder ← Logged.quiet (ValueSet.sorted n.states)
  let m ← Logged.quiet (numbering base inOrder)
  Logged.report fun _ => .ok
    ("Renumbering " ++ Value.writtenInt m.entries.length ++ " states from " ++ base.shown)
  Logged.quiet (n.remap m)

end Automaton

end EpsilonAutomata
