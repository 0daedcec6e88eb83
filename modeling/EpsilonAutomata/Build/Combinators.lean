import EpsilonAutomata.Automaton.Remap
import EpsilonAutomata.Build.Counter

/-!
# Building automata out of smaller ones

The automata of nothing, of the empty word and of one symbol; concatenation, which links the final
states of the first automaton to the start of the second; and union, which puts a new start state in
front of both. Two automata that share states are first separated: the second one moves onto fresh
states.
-/

namespace EpsilonAutomata.Build

def link (source target : Value) : Transition := ⟨source, .epsilon, target⟩

/-- An automaton that accepts nothing: one state that is not final. -/
def empty : Build Automaton := do
  let s ← newState
  quiet (Automaton.make ⟨.ofList [s], ∅, s, ∅, ∅⟩)

/-- An automaton that accepts the empty word only: two states joined by an empty move. -/
def epsilon : Build Automaton := do
  let s ← newState
  let e ← newState
  quiet (Automaton.make ⟨.ofList [s, e], ∅, s, .ofList [link s e], .ofList [e]⟩)

/-- An automaton that accepts the word of one symbol only. -/
def symbol (x : Value) : Build Automaton := do
  if x.isEpsilon then throw .epsilonAutomaton
  let s ← newState
  let e ← newState
  let x ← quiet x.asMember
  quiet (Automaton.make ⟨.ofList [s, e], .ofList [x], s, .ofList [⟨s, x, e⟩], .ofList [e]⟩)

/-- The second automaton, moved onto fresh states if it shares states with the first. -/
def separate (m n : Automaton) : Build Automaton := do
  if m.states.disjoint n.states then return n
  let inOrder ← quiet (ValueSet.sorted n.states)
  let entries ← freshStates (m.states ∪ n.states) inOrder
  report fun _ => .ok
    ("Moving " ++ Value.writtenInt entries.length ++ " shared states onto fresh ones")
  quiet (n.remap (.ofList entries))

/-- The set of transitions with further links, all of which must be able to be members. -/
def addLinks (transitions : OrderedSet Transition) (links : List Transition) :
    Except Fault (OrderedSet Transition) :=
  if links.all Transition.hashable then .ok (transitions.insertAll links) else .error .unhashable

/-- The concatenation of two automata: an empty move from each final state of the first to the start
of the second. -/
def concat (m n : Automaton) : Build Automaton := do
  let n ← separate m n
  let links := m.finals.items.map fun f => link f n.initial
  let transitions ← quiet (addLinks (m.transitions ∪ n.transitions) links)
  let joined ← quiet (Automaton.make
    ⟨m.states ∪ n.states, m.alphabet ∪ n.alphabet, m.initial, transitions, n.finals⟩)
  report fun _ => do return "concat -> " ++ (← joined.summary)
  return joined

/-- The union of two automata: empty moves from a new start state to the starts of both. -/
def union (m n : Automaton) : Build Automaton := do
  let n ← separate m n
  let states := m.states ∪ n.states
  let s ← freshState states
  let transitions ← quiet
    (addLinks (m.transitions ∪ n.transitions) [link s m.initial, link s n.initial])
  let joined ← quiet (Automaton.make
    ⟨states.insert s, m.alphabet ∪ n.alphabet, s, transitions, m.finals ∪ n.finals⟩)
  report fun _ => do return "union -> " ++ (← joined.summary)
  return joined

/-- Concatenates an automaton with those of the given symbols, one after the other. -/
def appendSymbols (n : Automaton) : List Value → Build Automaton
  | [] => return n
  | x :: word => do
    let part ← symbol x
    appendSymbols (← concat n part) word

/-- An automaton that accepts exactly the given word. -/
def string (word : Value) : Build Automaton := do
  match ← quiet word.items with
  | [] => epsilon
  | x :: rest => appendSymbols (← symbol x) rest

end EpsilonAutomata.Build
