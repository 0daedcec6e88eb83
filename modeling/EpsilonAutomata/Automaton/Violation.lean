import EpsilonAutomata.Automaton.Basic
import EpsilonAutomata.Value.Written

/-!
# What can be wrong with a shape

Six invariants hold of every automaton. A `Violation` says which of them a shape breaks, and where;
`Shape.violations` lists them all.

1. The start state is a state.
2. There is a state.
3. The mark of the empty move is not in the alphabet.
4. Every symbol of the alphabet labels a transition.
5. Every final state is a state.
6. Every transition joins two states; its label is the empty move or a symbol of the alphabet.
-/

namespace EpsilonAutomata

inductive Violation where
  | startOutside (state : Value)
  | noStates
  | epsilonInAlphabet
  | unusedSymbol (symbol : Value)
  | finalOutside (state : Value)
  | transitionOutside (transition : Transition)
  | unknownLabel (label : Value)

namespace Violation

def number : Violation → Nat
  | startOutside _ => 1
  | noStates => 2
  | epsilonInAlphabet => 3
  | unusedSymbol _ => 4
  | finalOutside _ => 5
  | transitionOutside _ => 6
  | unknownLabel _ => 6

def description : Violation → String
  | startOutside s => "start state " ++ s.written ++ " is not a state"
  | noStates => "the automaton has no states"
  | epsilonInAlphabet => "EPSILON is in the alphabet"
  | unusedSymbol x => "symbol " ++ x.written ++ " labels no transition"
  | finalOutside s => "final state " ++ s.written ++ " is not a state"
  | transitionOutside t => "transition " ++ t.triple.written ++ " leaves the states"
  | unknownLabel x => "transition label " ++ x.written ++ " is not in the alphabet"

/-- The description with the number of the invariant in front. -/
def line (v : Violation) : String :=
  "(" ++ Value.writtenInt v.number ++ ") " ++ v.description

end Violation

namespace Shape

/-- The first thing that is wrong with a transition. -/
def transitionViolation? (s : Shape) (t : Transition) : Option Violation :=
  if !s.states.contains t.source || !s.states.contains t.target then some (.transitionOutside t)
  else if !t.label.isEpsilon && !s.alphabet.contains t.label then some (.unknownLabel t.label)
  else none

/-- Some transition carries the label. -/
def labels (s : Shape) (x : Value) : Bool :=
  s.transitions.items.any fun t => t.label == x

/-- Every breach of an invariant, by the number of the invariant. -/
def violations (s : Shape) : List Violation :=
  (if s.states.contains s.initial then [] else [.startOutside s.initial]) ++
  (if s.states.isEmpty then [.noStates] else []) ++
  (if s.alphabet.contains .epsilon then [.epsilonInAlphabet] else []) ++
  (s.alphabet.items.filter fun x => !s.labels x).map .unusedSymbol ++
  (s.finals \ s.states).items.map .finalOutside ++
  s.transitions.items.filterMap s.transitionViolation?

end Shape

end EpsilonAutomata
