import EpsilonAutomata.Automaton.Make

/-!
# Listings

The transitions in order, and the automaton laid out line by line: a line for each state in order,
followed by a line for each transition that leaves it. The transitions are put in rows by their source
first, and a state is looked up among the rows, whose keys may hold it in another form (`get_ofList`).
-/

namespace EpsilonAutomata

/-- Transitions are ordered by source, then label, then target. -/
def Transition.lt? (t u : Transition) : Option Bool :=
  if t.source == u.source then
    if Value.sameLabel t.label u.label then
      if t.target == u.target then some false else t.target.lt? u.target
    else t.label.labelLt? u.label
  else t.source.lt? u.source

/-- Transitions in rows, a row for each source. -/
abbrev Outgoing := List (Value × List Transition)

namespace Outgoing

/-- Adds a transition at the end of the row of its source, or a row at the end. -/
def add (t : Transition) : Outgoing → Outgoing
  | [] => [(t.source, [t])]
  | (s, ts) :: rows => if s == t.source then (s, ts ++ [t]) :: rows else (s, ts) :: add t rows

/-- The transitions in the row of a source. -/
def get (s : Value) : Outgoing → List Transition
  | [] => []
  | (s', ts) :: rows => if s' == s then ts else get s rows

def ofList (ts : List Transition) : Outgoing :=
  ts.foldl (fun rows t => add t rows) []

theorem get_add (t : Transition) (rows : Outgoing) (s : Value) :
    get s (add t rows) = get s rows ++ if t.source == s then [t] else [] := by
  induction rows with
  | nil => rw [add, get, get, List.nil_append]; rfl
  | cons row rows ih =>
    obtain ⟨s', ts⟩ := row
    rw [add]
    by_cases hkey : (s' == t.source) = true
    · rw [if_pos hkey, get, get, BEq.congr_left hkey]
      split <;> simp_all
    · rw [if_neg hkey, get, get]
      split
      · next hs =>
        have hother : (t.source == s) = false :=
          Bool.eq_false_iff.mpr fun h => hkey (BEq.trans hs (BEq.symm h))
        simp [hother]
      · exact ih

theorem get_foldl_add (ts : List Transition) (rows : Outgoing) (s : Value) :
    get s (ts.foldl (fun rows t => add t rows) rows) =
      get s rows ++ ts.filter fun t => t.source == s := by
  induction ts generalizing rows with
  | nil => simp
  | cons t ts ih =>
    rw [List.foldl_cons, ih, get_add, List.filter_cons]
    split <;> simp_all

theorem get_ofList (ts : List Transition) (s : Value) :
    get s (ofList ts) = ts.filter fun t => t.source == s :=
  get_foldl_add ts [] s

end Outgoing

namespace Automaton

def triples (n : Automaton) : Except Fault (List Transition) :=
  Sorting.sorted Transition.lt? n.transitions.items

/-- A printed line: a state, or a transition under its source. -/
inductive Line where
  | state (state : Value) (starts accepts : Bool)
  | move (transition : Transition)

def Line.text : Line → String
  | state s starts accepts =>
    (if starts then "@" else " ") ++ " " ++ s.shown ++ " " ++ (if accepts then "||" else "")
  | move t =>
    "    " ++ (if t.label.isEpsilon then "ε" else t.label.written) ++ " -> " ++ t.target.shown

/-- The lines of a state and the transitions that leave it. -/
def linesOf (n : Automaton) (outgoing : Outgoing) (s : Value) : List Line :=
  .state s (s == n.initial) (n.finals.contains s) :: (outgoing.get s).map .move

def lines (n : Automaton) : Except Fault (List Line) := do
  let outgoing := Outgoing.ofList (← n.triples)
  let states ← ValueSet.sorted n.states
  return states.flatMap (n.linesOf outgoing)

def dump (n : Automaton) : Except Fault String := do
  return String.join ((← n.lines).map fun line => line.text ++ "\n")

end Automaton

end EpsilonAutomata
