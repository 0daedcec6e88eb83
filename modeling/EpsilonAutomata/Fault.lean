import EpsilonAutomata.Automaton.Violation
import EpsilonAutomata.Collection.Sorting

/-!
# Faults

Why an operation fails. A `Fault` names the cause, `Fault.family` the broad class it belongs to, and
`Fault.message` its wording. Faults about the form of a value (of which there are many, and which a
caller sees as one class) have no wording.
-/

namespace EpsilonAutomata

/-- The cause of a failure. -/
inductive Fault where
  /-- A value that a document cannot hold. -/
  | unstorable (value : Value)
  | missingFields (names : List String)
  /-- An item of a document that should be a transition. -/
  | notTriple (item : Value)
  /-- A value that cannot name a state, asked of the automaton with the given summary. -/
  | notState (value : Value) (automaton : String)
  /-- States of which the automaton with the given summary knows nothing. -/
  | foreignStates (states : List Value) (automaton : String)
  /-- A shape that breaks invariants. -/
  | broken (violations : List Violation)
  | overlongPath
  /-- The mark of the empty move in the place of a symbol to build an automaton for. -/
  | epsilonAutomaton
  /-- The mark of the empty move in a symbol node. -/
  | epsilonNode
  | notExpression (written : String)
  /-- Something that has no automaton; without a text if it is a bare node. -/
  | notCompilable (written : Option String)
  /-- Something that has no language; without a text if it is a bare node. -/
  | noLanguage (written : Option String)
  | fixedAutomaton
  /-- A change to an expression node of the given kind. -/
  | fixedNode (kind : String)
  | noSuchPart
  | unhashable
  | incomparable
  | notIterable
  /-- A value that cannot be counted with. -/
  | notNumber
  /-- Two operands that cannot be joined. -/
  | wrongOperand
  /-- A transition that does not have three parts. -/
  | wrongArity
  /-- A start state that was given as a set. -/
  | setStart
  | missingKey
  | malformedDocument
  /-- A counter that issues no new number any more. -/
  | stuckCounter

/-- The broad classes of failure. -/
inductive Fault.Family where
  | automaton
  | invalidState
  | invariant
  | expression
  | form
  | part
  | value
  | key
  | document
  deriving DecidableEq

namespace Fault

def family : Fault → Family
  | unstorable _ | missingFields _ | notTriple _ => .automaton
  | notState _ _ | foreignStates _ _ => .invalidState
  | broken _ | overlongPath => .invariant
  | epsilonAutomaton | epsilonNode | notExpression _ => .expression
  | notCompilable _ | noLanguage _ | unhashable | incomparable | notIterable | notNumber
  | wrongOperand => .form
  | fixedAutomaton | fixedNode _ | noSuchPart => .part
  | wrongArity | setStart | stuckCounter => .value
  | missingKey => .key
  | malformedDocument => .document

/-- The wording of a fault, empty for those without one. Breaches are given in the order of their
texts. -/
def message : Fault → String
  | unstorable v => v.written ++ " can't be stored as JSON"
  | missingFields names => "Missing automaton fields: " ++ Value.writtenList (names.map .text)
  | notTriple item => "Transition " ++ item.written ++ " is not a triple"
  | notState v automaton => v.written ++ " is not a state of " ++ automaton
  | foreignStates states automaton =>
    "States " ++ Value.writtenList states ++ " do not belong to " ++ automaton
  | broken violations =>
    "; ".intercalate (Sorting.sortBy (fun a b => decide (a < b)) (violations.map Violation.line))
  | epsilonAutomaton => "Use epsilon() for the empty word"
  | epsilonNode => "Symb() cannot hold EPSILON, use Eps()"
  | notExpression written => written ++ " is not a Regex node"
  | notCompilable (some written) => "Can't compile " ++ written ++ ", expected a Regex node"
  | noLanguage (some written) => "Don't know the language of " ++ written
  | fixedAutomaton => "NFA objects are immutable"
  | fixedNode kind => kind ++ " nodes are immutable"
  | _ => ""

end Fault

end EpsilonAutomata
