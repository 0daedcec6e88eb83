import EpsilonAutomata.Automaton.Reading
import EpsilonAutomata.Automaton.Path
import EpsilonAutomata.Automaton.Words

/-!
# Snapshots

A snapshot is a copy of an automaton taken apart and put together again. Markers are kept by name,
and the only name that is known again is that of the mark of the empty move: a marker of that name
comes back as the mark itself. An undefined number comes back as another one wherever it stands.
Invariants are not asked of the copy. A lookup table that was in use comes back as it was, marks
replaced; one that was not is read off the transitions of the copy.
-/

namespace EpsilonAutomata

/-- Work that restores values, or ends without any. Its state is the tag for the next undefined
number. -/
abbrev Restoring := StateT Nat Option

namespace Value

mutual

/-- The value that comes back from a snapshot; nothing if it holds a marker of unknown name. -/
def restored : Value → Restoring Value
  | marker _ name => if name = "EPSILON" then pure epsilon else failure
  | double (.undefined _) => modifyGet fun tag => (double (.undefined tag), tag + 1)
  | tuple xs => tuple <$> restoredAll xs
  | list xs => list <$> restoredAll xs
  | set xs => (fun ys => set (OrderedSet.ofList ys).items) <$> restoredAll xs
  | frozenSet xs => (fun ys => frozenSet (OrderedSet.ofList ys).items) <$> restoredAll xs
  | mapping es => mapping <$> restoredEntries es
  | a => pure a

def restoredAll : List Value → Restoring (List Value)
  | [] => pure []
  | x :: xs => do
    let y ← restored x
    let ys ← restoredAll xs
    return y :: ys

def restoredEntries : List (Value × Value) → Restoring (List (Value × Value))
  | [] => pure []
  | (k, v) :: es => do
    let k ← restored k
    let v ← restored v
    let es ← restoredEntries es
    return (k, v) :: es

end

end Value

def ValueSet.restored (s : ValueSet) : Restoring ValueSet :=
  .ofList <$> Value.restoredAll s.items

def Transition.restored (t : Transition) : Restoring Transition := do
  return ⟨← t.source.restored, ← t.label.restored, ← t.target.restored⟩

namespace Shape

/-- The shape that comes back from a snapshot. -/
def restored (s : Shape) : Restoring Shape := do
  let states ← ValueSet.restored s.states
  let alphabet ← ValueSet.restored s.alphabet
  let initial ← s.initial.restored
  let transitions ← s.transitions.items.mapM Transition.restored
  let finals ← ValueSet.restored s.finals
  return ⟨states, alphabet, initial, .ofList transitions, finals⟩

end Shape

/-- The table that comes back from a snapshot, if its keys and members do. -/
def Table.restored {κ : Type} [BEq κ] (key : κ → Restoring κ) (t : Table κ Value) :
    Restoring (Table κ Value) := do
  let rows ← t.rows.mapM fun r => do
    let k ← key r.1
    let s ← ValueSet.restored r.2
    return (k, s)
  return ⟨rows.foldl (fun rows r => setRow r.1 r.2 rows) []⟩

def Reading.restored (r : Reading) : Restoring Reading := do
  return ⟨← r.state.restored, ← r.symbol.restored⟩

/-- Which of the lookup tables of an automaton have been in use. -/
structure TablesUsed where
  epsilon : Bool
  symbol : Bool
  deriving DecidableEq

namespace TablesUsed

def none : TablesUsed := ⟨false, false⟩

/-- What has been in use after two spells of use. -/
def join (a b : TablesUsed) : TablesUsed := ⟨a.epsilon || b.epsilon, a.symbol || b.symbol⟩

/-- Looking for the successors under a label. -/
def byLabel (x : Value) : TablesUsed := ⟨x.isEpsilon, !x.isEpsilon⟩

end TablesUsed

namespace Automaton

/-- The table of empty moves of a copy that has the given shape. -/
def restoredEpsilonMoves (n : Automaton) (shape : Shape) (used : Bool) :
    Restoring (Thunk EpsilonTable) :=
  if used then Thunk.pure <$> n.epsilonMoves.get.restored Value.restored
  else pure (ofShape shape).epsilonMoves

/-- The table of all other moves of a copy that has the given shape. -/
def restoredSymbolMoves (n : Automaton) (shape : Shape) (used : Bool) :
    Restoring (Thunk SymbolTable) :=
  if used then Thunk.pure <$> n.symbolMoves.get.restored Reading.restored
  else pure (ofShape shape).symbolMoves

/-- The copy that comes back from a snapshot of an automaton whose tables were in use as given. -/
def restored (n : Automaton) (used : TablesUsed) : Restoring Automaton := do
  let shape ← n.toShape.restored
  let epsilonMoves ← n.restoredEpsilonMoves shape used.epsilon
  let symbolMoves ← n.restoredSymbolMoves shape used.symbol
  return ⟨shape, epsilonMoves, symbolMoves⟩

/-- The copy that comes back from a snapshot. Its undefined numbers are tagged from the given tag on. -/
def snapshot (n : Automaton) (used : TablesUsed) (tag : Nat) : Except Fault Automaton :=
  match (n.restored used).run tag with
  | some (copy, _) => .ok copy
  | none => .error .missingKey

/-! ## Which tables a query uses -/

/-- Closing a set of states. -/
def usedByClosing (states : ValueSet) : TablesUsed := ⟨!states.isEmpty, false⟩

/-- Moving a set of states under a label. -/
def usedByMoving (states : ValueSet) (x : Value) : TablesUsed :=
  if states.isEmpty then .none else .byLabel x

def usedByClosure (n : Automaton) (states : Value) : TablesUsed :=
  match n.statesOf states with
  | .ok s => usedByClosing s
  | .error _ => .none

def usedByStep (n : Automaton) (states x : Value) : TablesUsed :=
  match n.statesOf states with
  | .ok s => usedByMoving s x
  | .error _ => .none

def usedByAdvance (n : Automaton) (states : ValueSet) (x : Value) : TablesUsed :=
  match n.move states x with
  | .ok moved => (usedByMoving states x).join (usedByClosing moved)
  | .error _ => usedByMoving states x

/-- A query about one move from the given states and the closure after it. -/
def usedByNextState (n : Automaton) (states x : Value) : TablesUsed :=
  match n.statesOf states with
  | .ok s => n.usedByAdvance s x
  | .error _ => .none

/-- Reading a word from the given states: its first symbol is looked up whenever there is a state to
read it in. -/
def usedByReading (n : Automaton) (state word : Value) : TablesUsed :=
  match n.statesOf state with
  | .error _ => .none
  | .ok s =>
    if s.isEmpty then .none
    else
      let symbols := (word.items?.getD []).filter fun x => !x.isEpsilon
      ⟨true, !symbols.isEmpty⟩

/-- Searching for a path: nothing is looked up if the search begins at its goal. -/
def usedByPath (n : Automaton) (state word dest : Value) : TablesUsed :=
  match n.statesOf (.list [state, dest]), word.items? with
  | .ok _, some symbols =>
    let symbols := symbols.filter fun x => !x.isEpsilon
    if symbols.isEmpty then ⟨!(state == dest), false⟩ else ⟨true, true⟩
  | _, _ => .none

/-- Listing words of at most the given length over the given symbols, or over the alphabet: the
first round looks up every symbol that any round does. -/
def usedByListing (n : Automaton) (maxLength : Value) (symbols : Option Value) : TablesUsed :=
  match n.listingSymbols symbols, n.start with
  | .ok symbols, .ok start =>
    match lengthBound maxLength with
    | .ok bound =>
      if bound ≤ 0 then usedByClosing start
      else symbols.foldl (fun used x => used.join (n.usedByAdvance start x)) (usedByClosing start)
    | .error _ => usedByClosing start
  | _, _ => .none

end Automaton

end EpsilonAutomata
