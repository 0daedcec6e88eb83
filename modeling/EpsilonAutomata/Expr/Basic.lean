import EpsilonAutomata.Value.Equality
import EpsilonAutomata.Value.Written

/-!
# Expressions

Regular expressions without repetition, as trees. A `bare` node is a node of no particular kind: it
has no parts, no language and no automaton.
-/

namespace EpsilonAutomata

inductive Regex where
  | empty
  | eps
  | symb (symbol : Value)
  | seq (left right : Regex)
  | alt (left right : Regex)
  | bare
  deriving Inhabited

namespace Regex

def kind : Regex → String
  | empty => "Empty"
  | eps => "Eps"
  | symb _ => "Symb"
  | seq _ _ => "Seq"
  | alt _ _ => "Alt"
  | bare => "Regex"

/-- Expressions are equal when they have one structure and equal symbols. -/
def same : Regex → Regex → Bool
  | empty, empty => true
  | eps, eps => true
  | symb x, symb y => x == y
  | seq a b, seq c d => same a c && same b d
  | alt a b, alt c d => same a c && same b d
  | bare, bare => true
  | _, _ => false

instance : BEq Regex := ⟨same⟩

def hashable : Regex → Bool
  | symb x => x.hashable
  | seq a b => a.hashable && b.hashable
  | alt a b => a.hashable && b.hashable
  | _ => true

def written : Regex → String
  | symb x => "Symb(" ++ x.written ++ ")"
  | seq a b => "Seq(" ++ a.written ++ ", " ++ b.written ++ ")"
  | alt a b => "Alt(" ++ a.written ++ ", " ++ b.written ++ ")"
  | r => r.kind ++ "()"

/-! ## Equality is an equivalence -/

theorem same_refl (a : Regex) : same a a = true := by
  induction a with
  | symb x => exact BEq.rfl (a := x)
  | seq a b iha ihb | alt a b iha ihb => simp [same, iha, ihb]
  | _ => rfl

theorem same_symm {a b : Regex} (h : same a b = true) : same b a = true := by
  induction a generalizing b with
  | symb x => cases b <;> simp_all [same, BEq.comm]
  | seq a₁ a₂ ih₁ ih₂ | alt a₁ a₂ ih₁ ih₂ =>
    cases b <;> simp only [same, Bool.and_eq_true, Bool.false_eq_true] at h ⊢
    exact ⟨ih₁ h.1, ih₂ h.2⟩
  | _ => cases b <;> simp_all [same]

theorem same_trans {a b c : Regex} (hab : same a b = true) (hbc : same b c = true) :
    same a c = true := by
  induction a generalizing b c with
  | symb x =>
    cases b <;> simp only [same, Bool.false_eq_true] at hab
    cases c <;> simp only [same, Bool.false_eq_true] at hbc ⊢
    exact BEq.trans hab hbc
  | seq a₁ a₂ ih₁ ih₂ | alt a₁ a₂ ih₁ ih₂ =>
    cases b <;> simp only [same, Bool.and_eq_true, Bool.false_eq_true] at hab
    cases c <;> simp only [same, Bool.and_eq_true, Bool.false_eq_true] at hbc ⊢
    exact ⟨ih₁ hab.1 hbc.1, ih₂ hab.2 hbc.2⟩
  | _ => cases b <;> cases c <;> simp_all [same]

instance : EquivBEq Regex where
  rfl := same_refl _
  symm := same_symm
  trans := same_trans

end Regex

end EpsilonAutomata
