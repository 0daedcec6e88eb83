import EpsilonAutomata.Automaton.Make
import EpsilonAutomata.Expr.Language

/-!
# Building expressions from anything

Where an expression is wanted, something else may be given. An `Operand` is what is given; each way
to build or to use an expression says what it refuses.
-/

namespace EpsilonAutomata

/-- What may stand where an expression is wanted. -/
inductive Operand where
  | node (r : Regex)
  | value (v : Value)
  | automaton (n : Automaton)

namespace Operand

def written : Operand → Except Fault String
  | node r => .ok r.written
  | value v => .ok v.written
  | automaton n => n.summary

/-- The expression itself; anything else is refused. -/
def asNode (o : Operand) : Except Fault Regex := do
  match o with
  | node r => return r
  | o => throw (.notExpression (← o.written))

def symb (x : Value) : Except Fault Regex :=
  if x.isEpsilon then .error .epsilonNode else .ok (.symb x)

def seq (left right : Operand) : Except Fault Regex := do
  return .seq (← left.asNode) (← right.asNode)

def alt (left right : Operand) : Except Fault Regex := do
  return .alt (← left.asNode) (← right.asNode)

/-- The sequence of two operands joined by an operator, which knows expressions only. -/
def joinSeq : Operand → Operand → Except Fault Regex
  | node a, node b => .ok (.seq a b)
  | _, _ => .error .wrongOperand

/-- The choice between two operands joined by an operator, which knows expressions only. -/
def joinAlt : Operand → Operand → Except Fault Regex
  | node a, node b => .ok (.alt a b)
  | _, _ => .error .wrongOperand

def children : Operand → Except Fault (List Operand)
  | node (.symb x) => .ok [value x]
  | node (.seq a b) => .ok [node a, node b]
  | node (.alt a b) => .ok [node a, node b]
  | node _ => .ok []
  | _ => .error .noSuchPart

def language (o : Operand) : Except Fault Language := do
  match o with
  | node r => r.language
  | o => throw (.noLanguage (some (← o.written)))

def alphabet : Operand → Except Fault ValueSet
  | node r => r.alphabet
  | _ => .error .noSuchPart

/-- The fault of changing a part of an operand: expressions and automata are fixed. -/
def changeFault : Operand → Fault
  | node r => .fixedNode r.kind
  | automaton _ => .fixedAutomaton
  | value _ => .noSuchPart

/-- Two operands are equal when they are of one kind and equal in it. -/
def same : Operand → Operand → Bool
  | node a, node b => a == b
  | value a, value b => a == b
  | automaton m, automaton n => m == n
  | _, _ => false

instance : BEq Operand := ⟨same⟩

def hashable : Operand → Bool
  | node r => r.hashable
  | value v => v.hashable
  | automaton n => n.initial.hashable

/-- The number of different operands of a list. -/
def countDistinct (os : List Operand) : Except Fault Nat :=
  if os.all hashable then .ok (OrderedSet.ofList os).size else .error .unhashable

end Operand

end EpsilonAutomata
