import EpsilonAutomata.Log
import EpsilonAutomata.Value.Checked

/-!
# Fresh state numbers

A counter hands out numbers, each one more than the last. `Build` is work that draws numbers from a
counter, may fail and may report; numbers drawn before a failure stay used up.
-/

namespace EpsilonAutomata

/-- A counter and the number it issued last. -/
structure Counter where
  last : Value
  deriving Inhabited

/-- The counter that has issued nothing yet. -/
def Counter.fresh : Counter := ⟨.int 0⟩

/-- What building works with: a counter and the log. -/
structure Workshop where
  counter : Counter
  log : Log

/-- Work that draws numbers from a counter, may fail and may report. -/
abbrev Build := ExceptT Fault (StateM Workshop)

namespace Build

def quiet {α : Type} (result : Except Fault α) : Build α :=
  ExceptT.mk (pure result)

/-- Adds a message to the log, if the log is on. -/
def report (message : Unit → Except Fault String) : Build Unit :=
  ExceptT.mk fun w =>
    let (result, log) := (Logged.report message).runWith w.log
    (result, { w with log := log })

def newState : Build Value := do
  let w ← get
  let number ← quiet (w.counter.last.plus 1)
  set { w with counter := ⟨number⟩ }
  return number

/-- Draws numbers until one is not taken. The bound, one more than the taken values, is met by every
counter whose numbers do not repeat. -/
def freshWithin (taken : ValueSet) : (bound : Nat) → Build Value
  | 0 => throw .stuckCounter
  | bound + 1 => do
    let number ← newState
    if taken.contains number then freshWithin taken bound else return number

/-- Draws the next number that is not taken. -/
def freshState (taken : ValueSet) : Build Value :=
  freshWithin taken (taken.size + 1)

/-- Draws a number for each of the given states, in order, none of them taken. -/
def freshStates (taken : ValueSet) : List Value → Build (List (Value × Value))
  | [] => return []
  | s :: states => do
    let number ← freshState taken
    let others ← freshStates (taken.insert number) states
    return (s, number) :: others

def newStates : Nat → Build (List Value)
  | 0 => return []
  | count + 1 => do
    let number ← newState
    return number :: (← newStates count)

/-- The outcome of the work in a workshop, and the workshop after it. -/
def runWith {α : Type} (work : Build α) (w : Workshop) : Except Fault α × Workshop :=
  StateT.run (ExceptT.run work) w

end Build

end EpsilonAutomata
