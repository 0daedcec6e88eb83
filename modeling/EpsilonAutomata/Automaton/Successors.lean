import EpsilonAutomata.Automaton.Make

/-!
# Single moves

Where a state leads by one empty move, or by one move that reads a given symbol, as the lookup
tables have it; and the queries about sets of states that look at one move only.
-/

namespace EpsilonAutomata.Automaton

/-- The targets of the empty moves out of a state. -/
def epsilonTargets (n : Automaton) (s : Value) : ValueSet :=
  n.epsilonMoves.get.get s

/-- The targets of the moves out of a state with the given label. -/
def targets (n : Automaton) (s x : Value) : ValueSet :=
  if x.isEpsilon then n.epsilonTargets s else n.symbolMoves.get.get ⟨s, x⟩

def epsilonSuccessors (n : Automaton) (state : Value) : Except Fault ValueSet :=
  if state.hashable then .ok (n.epsilonTargets state) else .error .unhashable

def symbolSuccessors (n : Automaton) (state symbol : Value) : Except Fault ValueSet :=
  if state.hashable && symbol.hashable then .ok (n.targets state symbol) else .error .unhashable

/-- Adds the label of a transition that leaves one of the given states and is no empty move. -/
def addLabel (states : Value) (labels : ValueSet) (t : Transition) : Except Fault ValueSet :=
  match states.holds? t.source with
  | none => .error .notIterable
  | some held => .ok (if held && !t.label.isEpsilon then labels.insert t.label else labels)

/-- The symbols that can be read in one of the given states. -/
def getLabels (n : Automaton) (states : Value) : Except Fault ValueSet :=
  n.transitions.items.foldlM (addLabel states) ∅

/-- Looks through a list for a final state. -/
def anyFinal (n : Automaton) : List Value → Except Fault Bool
  | [] => .ok false
  | s :: rest =>
    if !s.hashable then .error .unhashable
    else if n.finals.contains s then .ok true
    else n.anyFinal rest

def isFinal (n : Automaton) (states : Value) : Except Fault Bool := do
  n.anyFinal (← states.items)

/-- Whether a set of states has a final one. -/
def accepting (n : Automaton) (states : ValueSet) : Bool :=
  !n.finals.disjoint states

/-! ## Sets of states -/

/-- The states that an argument stands for: a set or list stands for its items, anything else for
itself. -/
def statesOf (n : Automaton) (argument : Value) : Except Fault ValueSet := do
  let members := match argument with
    | .set xs => xs
    | .frozenSet xs => xs
    | .list xs => xs
    | a => [a]
  if members.all Value.hashable then
    let given := OrderedSet.ofList members
    let unknown := given \ n.states
    if unknown.isEmpty then return given
    let inOrder := Sorting.sortBy (fun a b => decide (a.written < b.written)) unknown.items
    throw (.foreignStates inOrder (← n.summary))
  else throw (.notState argument (← n.summary))

/-- The states reached from a set of states by one move with the given label. -/
def move (n : Automaton) (states : ValueSet) (x : Value) : Except Fault ValueSet :=
  if states.isEmpty || x.hashable then
    .ok (.ofList (states.items.flatMap fun s => (n.targets s x).items))
  else .error .unhashable

/-- The states reached from the given ones by one move with the given label. -/
def step (n : Automaton) (states symbol : Value) : Except Fault ValueSet := do
  n.move (← n.statesOf states) symbol

end EpsilonAutomata.Automaton
