import EpsilonAutomata.Value.Checked

/-!
# Making automata

An automaton is made from a shape that breaks no invariant (`Automaton.make`), from parts given as
lists of values (`Shape.ofParts`), or from values that are gone through item by item
(`Automaton.ofValues`). Parts whose values cannot be members of a set are refused first, then
transitions that are not triples, then broken invariants. A start state that is given as a set is
sought as a frozen one, so it may keep the invariants; it is refused last.
-/

namespace EpsilonAutomata

/-- The automaton of a shape that breaks no invariant. -/
def Automaton.make (s : Shape) : Except Fault Automaton :=
  match s.violations with
  | [] => .ok (.ofShape s)
  | vs => .error (.broken vs)

/-- A value that can be looked up in a set: a member, or a set, which is sought as a frozen one. -/
def Value.isSeekable : Value → Bool
  | .set _ => true
  | a => a.hashable

def Transition.ofList : List Value → Except Fault Transition
  | [source, label, target] => .ok ⟨source, label, target⟩
  | _ => .error .wrongArity

/-- The shape with the given parts, of which invariants are not asked. -/
def Shape.ofParts (states alphabet : List Value) (initial : Value)
    (transitions : List (List Value)) (finals : List Value) : Except Fault Shape := do
  let states ← ValueSet.ofValues states
  let alphabet ← ValueSet.ofValues alphabet
  if transitions.any fun t => !t.all Value.hashable then throw .unhashable
  let finals ← ValueSet.ofValues finals
  if !initial.isSeekable then throw .unhashable
  let transitions ← transitions.mapM Transition.ofList
  return ⟨states, alphabet, initial, .ofList transitions, finals⟩

/-- The shape whose parts are the items of the given values. -/
def Shape.ofValues (states alphabet initial transitions finals : Value) : Except Fault Shape := do
  let states ← states.items
  let alphabet ← alphabet.items
  let transitions ← (← transitions.items).mapM Value.items
  let finals ← finals.items
  Shape.ofParts states alphabet initial transitions finals

/-- The automaton whose parts are the items of the given values. -/
def Automaton.ofValues (states alphabet initial transitions finals : Value) :
    Except Fault Automaton := do
  let n ← Automaton.make (← Shape.ofValues states alphabet initial transitions finals)
  if !n.initial.hashable then throw .setStart
  return n

/-! ## Summary -/

/-- One line about an automaton: its sizes, its start state and its final states in order. -/
def Shape.summary (s : Shape) : Except Fault String := do
  let finals ← ValueSet.sorted s.finals
  return "<NFA " ++ Value.writtenInt s.states.size ++ " states, " ++
    Value.writtenInt s.transitions.size ++ " transitions, start=" ++ s.initial.written ++
    ", final=" ++ Value.writtenList finals ++ ">"

end EpsilonAutomata
