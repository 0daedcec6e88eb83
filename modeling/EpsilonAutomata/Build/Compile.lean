import EpsilonAutomata.Build.Combinators
import EpsilonAutomata.Expr.Operand

/-!
# Compiling expressions

The automaton of an expression, built along its structure: it accepts exactly the words that the
expression denotes.
-/

namespace EpsilonAutomata.Build

def regex : Regex → Build Automaton
  | .empty => empty
  | .eps => epsilon
  | .symb x => symbol x
  | .seq a b => do
    let m ← regex a
    concat m (← regex b)
  | .alt a b => do
    let m ← regex a
    union m (← regex b)
  | .bare => throw (.notCompilable none)

/-- The automaton of an operand, which must be an expression. -/
def operand : Operand → Build Automaton
  | .node r => regex r
  | o => do
    let written ← quiet o.written
    throw (.notCompilable (some written))

/-- The automaton of an operand, with a report of its size. -/
def compile (o : Operand) : Build Automaton := do
  let n ← operand o
  report fun _ => do
    return "Compiled " ++ (← o.written) ++ " into " ++ Value.writtenInt n.states.size ++
      " states, " ++ Value.writtenInt n.transitions.size ++ " transitions"
  return n

end EpsilonAutomata.Build
