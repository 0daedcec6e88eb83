import EpsilonAutomata.Automaton.Closure
import EpsilonAutomata.Log

/-!
# Reading words

The states that a word leads to. A word is read symbol by symbol from a closed set of states: each
symbol moves the set and the result is closed again. The mark of the empty move inside a word reads
nothing. A word is accepted if it leads from the start state to a set with a final state.
-/

namespace EpsilonAutomata.Automaton

/-- Reads the symbols of a word, from a closed set of states. Once no state is left the rest of the
word is not looked at. -/
def readSymbols (n : Automaton) (method : ClosureMethod) : ValueSet → Word → Except Fault ValueSet
  | states, [] => .ok states
  | states, x :: word =>
    if x.isEpsilon then n.readSymbols method states word
    else if states.isEmpty then .ok states
    else do
      let moved ← n.move states x
      n.readSymbols method (← n.close method moved) word

/-- The closed set of states that a word leads to from a set of states. -/
def readFrom (n : Automaton) (method : ClosureMethod) (states : ValueSet) (word : Word) :
    Except Fault ValueSet := do
  n.readSymbols method (← n.close method states) word

def readingReport (state word : Value) (inOrder : List Value) : String :=
  "delta_ext(" ++ state.written ++ ", " ++ word.written ++ ") -> " ++ Value.writtenList inOrder

/-- The states reached from the given ones by reading a word, which must be comparable with one
another because they are reported in order. -/
def deltaExt (n : Automaton) (state word : Value) (method : ClosureMethod) : Logged ValueSet := do
  let closed ← Logged.quiet (n.statesOf state >>= n.close method)
  let symbols ← Logged.quiet word.items
  let reached ← Logged.quiet (n.readSymbols method closed symbols)
  let inOrder ← Logged.quiet (ValueSet.sorted reached)
  Logged.report fun _ => .ok (readingReport state word inOrder)
  return reached

/-- Whether the word is accepted. -/
def accepts (n : Automaton) (word : Value) : Logged Bool := do
  return n.accepting (← n.deltaExt n.initial word .rounds)

end EpsilonAutomata.Automaton
