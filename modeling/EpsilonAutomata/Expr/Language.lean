import EpsilonAutomata.Collection.Lists
import EpsilonAutomata.Expr.Basic
import EpsilonAutomata.Value.Checked

/-!
# The language of an expression

The words that an expression denotes, computed from its structure, and the symbols that occur in it.
Both are finite sets, so both fail on symbols that cannot be members of one.
-/

namespace EpsilonAutomata

abbrev Language := OrderedSet Word

/-- Every word of the first language followed by every word of the second. -/
def Language.concat (l m : Language) : Language :=
  .ofList (l.items.flatMap fun u => m.items.map fun v => u ++ v)

namespace Regex

def language : Regex → Except Fault Language
  | empty => .ok ∅
  | eps => .ok (.ofList [[]])
  | symb x => if x.hashable then .ok (.ofList [[x]]) else .error .unhashable
  | seq a b => do return Language.concat (← a.language) (← b.language)
  | alt a b => do return (← a.language) ∪ (← b.language)
  | bare => .error (.noLanguage none)

def alphabet : Regex → Except Fault ValueSet
  | symb x => if x.hashable then .ok (.ofList [x]) else .error .unhashable
  | seq a b => do return (← a.alphabet) ∪ (← b.alphabet)
  | alt a b => do return (← a.alphabet) ∪ (← b.alphabet)
  | _ => .ok ∅

end Regex

end EpsilonAutomata
