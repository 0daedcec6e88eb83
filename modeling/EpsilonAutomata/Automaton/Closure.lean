import EpsilonAutomata.Automaton.Successors

/-!
# Closure under empty moves

The states that a set of states reaches by empty moves alone, found in two ways: in rounds
(`Automaton.closure`), and depth first along paths (`Automaton.closureByDepth`). Both searches end
because the table of empty moves is finite: a round finds a target that was missing, and a visit
uses up the moves out of a state.
-/

namespace EpsilonAutomata.Automaton

/-- Every state that an empty move leads to. -/
def epsilonGoals (n : Automaton) : List Value :=
  n.epsilonMoves.get.targets

/-- The states one empty move away from a member of a set. -/
def oneEpsilonAway (n : Automaton) (states : ValueSet) : ValueSet :=
  .ofList (states.items.flatMap fun s => (n.epsilonTargets s).items)

theorem mem_epsilonGoals {n : Automaton} {s a : Value} (h : a ∈ (n.epsilonTargets s).items) :
    a ∈ n.epsilonGoals :=
  Table.mem_targets_of_mem_get h

theorem mem_epsilonGoals_of_oneEpsilonAway {n : Automaton} {states : ValueSet} {a : Value}
    (h : a ∈ (n.oneEpsilonAway states).items) : a ∈ n.epsilonGoals := by
  obtain ⟨s, _, ha⟩ := List.mem_flatMap.1 (OrderedSet.mem_of_mem_items_ofList h)
  exact mem_epsilonGoals ha

/-! ## In rounds -/

/-- Follows empty moves from the frontier, round by round, until a round finds nothing new. -/
def closeRounds (n : Automaton) (closed frontier : ValueSet) : ValueSet :=
  let found := n.oneEpsilonAway frontier
  if found.subset closed then closed
  else n.closeRounds (closed ∪ (found \ closed)) (found \ closed)
termination_by closed.missing n.epsilonGoals
decreasing_by
  rename_i hnew
  rw [OrderedSet.subset, Bool.not_eq_true, List.all_eq_false] at hnew
  obtain ⟨a, ha, hclosed⟩ := hnew
  rw [Bool.not_eq_true, OrderedSet.contains_eq_false_iff] at hclosed
  refine OrderedSet.missing_lt (a := a) (fun b _ hb => OrderedSet.mem_union.2 (.inl hb))
    (mem_epsilonGoals_of_oneEpsilonAway ha) hclosed (OrderedSet.mem_union.2 (.inr ?_))
  exact OrderedSet.mem_sdiff.2 ⟨OrderedSet.mem_of_mem_items ha, hclosed⟩

/-- The states reached from a set of states by empty moves, the set itself included. -/
def closure (n : Automaton) (states : ValueSet) : ValueSet :=
  n.closeRounds states states

/-! ## Depth first -/

/-- A state to visit, with the states on the path from the origin to it, both ends included. -/
structure Frame where
  state : Value
  path : List Value

/-- The frame that a path of one state begins with. -/
def Frame.origin (s : Value) : Frame := ⟨s, [s]⟩

def Frame.extend (f : Frame) (s : Value) : Frame := ⟨s, f.path ++ [s]⟩

/-- The frames to push when a frame is visited: its successors that are neither on its path nor
found already, the last one on top. -/
def nextFrames (n : Automaton) (found : ValueSet) (f : Frame) : List Frame :=
  (((n.epsilonTargets f.state).items.filter fun s => !f.path.contains s && !found.contains s).map
    f.extend).reverse

theorem length_nextFrames_le (n : Automaton) (found : ValueSet) (f : Frame) :
    (n.nextFrames found f).length ≤ (n.epsilonTargets f.state).size := by
  simp only [nextFrames, List.length_reverse, List.length_map]
  exact List.length_filter_le ..

/-- Visits the frames of a stack, top first. A state that is found already is passed over; no path
may have more states than the automaton. A visit uses up the empty moves out of its state, so that
the frames on the stack and the empty moves not used up become fewer together. -/
def visitFrames (n : Automaton) (found : ValueSet) : List Frame → Except Fault ValueSet
  | [] => .ok found
  | f :: stack =>
    if found.contains f.state then n.visitFrames found stack
    else if f.path.length ≤ n.size then
      n.visitFrames (found.insert f.state)
        (n.nextFrames (found.insert f.state) f ++ stack)
    else .error .overlongPath
termination_by stack => stack.length + n.epsilonMoves.get.weightOutside found
decreasing_by
  · simp
  · rename_i h _
    have hpush := n.length_nextFrames_le (found.insert f.state) f
    have hweight := Table.weightOutside_insert_add_size_le (t := n.epsilonMoves.get) h
    have htargets : (n.epsilonTargets f.state).size = (n.epsilonMoves.get.get f.state).size := rfl
    simp only [List.length_append, List.length_cons]
    omega

/-- Visits what is reachable from each origin that is not found yet. -/
def visitOrigins (n : Automaton) : (found : ValueSet) → List Value → Except Fault ValueSet
  | found, [] => .ok found
  | found, s :: origins =>
    if found.contains s then n.visitOrigins found origins
    else do n.visitOrigins (← n.visitFrames found [.origin s]) origins

/-- The states reached from a set of states by empty moves, found depth first. -/
def closureByDepth (n : Automaton) (states : ValueSet) : Except Fault ValueSet :=
  n.visitOrigins ∅ states.items

/-! ## Queries -/

inductive ClosureMethod where
  | rounds
  | depth
  deriving DecidableEq

/-- The closure of a set of states, found in the given way. -/
def close (n : Automaton) (method : ClosureMethod) (states : ValueSet) : Except Fault ValueSet :=
  match method with
  | .rounds => .ok (n.closure states)
  | .depth => n.closureByDepth states

def eclose (n : Automaton) (states : Value) : Except Fault ValueSet := do
  n.close .rounds (← n.statesOf states)

def ecloseByDepth (n : Automaton) (states : Value) : Except Fault ValueSet := do
  n.close .depth (← n.statesOf states)

def start (n : Automaton) : Except Fault ValueSet :=
  n.eclose n.initial

/-- The closed set of states reached from a set of states by one move with the given label. -/
def advance (n : Automaton) (states : ValueSet) (x : Value) : Except Fault ValueSet := do
  n.close .rounds (← n.move states x)

/-- The closed set of states reached from the given ones by one move with the given label. -/
def nextState (n : Automaton) (states label : Value) : Except Fault ValueSet := do
  n.advance (← n.statesOf states) label

end EpsilonAutomata.Automaton
