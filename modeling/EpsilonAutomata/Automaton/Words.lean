import EpsilonAutomata.Automaton.Closure

/-!
# Listing the accepted words

All accepted words up to a length, shortest first, and in the order of the symbols within one
length. A listing goes round by round: a branch is a word together with the states it leads to, and
a round extends every branch that leads somewhere by every symbol.
-/

namespace EpsilonAutomata.Automaton

/-- A word and the states it leads to from the start. -/
structure Branch where
  word : Word
  states : ValueSet

/-- The branches one symbol longer that still lead somewhere. -/
def extendBranch (n : Automaton) (symbols : List Value) (b : Branch) :
    Except Fault (List Branch) := do
  let longer ← symbols.mapM fun x => do
    return Branch.mk (b.word ++ [x]) (← n.advance b.states x)
  return longer.filter fun c => !c.states.isEmpty

/-- The accepted words among some branches and their extensions by up to the given number of
symbols. -/
def wordsWithin (n : Automaton) (symbols : List Value) :
    Nat → List Branch → Except Fault (List Word)
  | _, [] => .ok []
  | more, branches => do
    let accepted := (branches.filter fun b => n.accepting b.states).map Branch.word
    match more with
    | 0 => return accepted
    | more + 1 =>
      let longer ← branches.mapM (n.extendBranch symbols)
      return accepted ++ (← n.wordsWithin symbols more longer.flatten)

def lengthBound : Value → Except Fault Int
  | .int i => .ok i
  | .bool b => .ok (if b then 1 else 0)
  | _ => .error .notNumber

/-- The symbols that words are made of, in order: the given ones, or the alphabet. -/
def listingSymbols (n : Automaton) (symbols : Option Value) : Except Fault (List Value) := do
  match symbols with
  | none => Value.sortedLabels n.alphabet.items
  | some xs => Value.sortedLabels (← xs.items)

/-- The accepted words of at most the given length over the given symbols, or over the alphabet. -/
def acceptedWords (n : Automaton) (maxLength : Value) (symbols : Option Value) :
    Except Fault (List Word) := do
  let symbols ← n.listingSymbols symbols
  let start ← n.start
  let bound ← lengthBound maxLength
  if bound < 0 then return []
  n.wordsWithin symbols bound.toNat [⟨[], start⟩]

end EpsilonAutomata.Automaton
