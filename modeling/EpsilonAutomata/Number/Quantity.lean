import EpsilonAutomata.Number.Double

/-!
# Quantities

What a whole number or a double stands for. Numbers of both kinds are compared as quantities,
exactly. The finite quantities and the infinities are linearly ordered; an undefined one is below
and above nothing.
-/

namespace EpsilonAutomata

/-- What a number stands for. -/
inductive Quantity where
  | finite (value : Dyadic)
  | infinite (negative : Bool)
  | undefined (tag : Nat)
  deriving DecidableEq

namespace Quantity

def ofInt (i : Int) : Quantity :=
  finite (Dyadic.ofInt i)

/-- The strict order of quantities. -/
def lt : Quantity → Quantity → Bool
  | finite a, finite b => decide (a < b)
  | finite _, infinite negative => !negative
  | infinite negative, finite _ => negative
  | infinite a, infinite b => a && !b
  | _, _ => false

/-- A quantity that takes part in the order. -/
def IsDefined : Quantity → Prop
  | undefined _ => False
  | _ => True

theorem toRat_ofInt (i : Int) : (Dyadic.ofInt i).toRat = (i : Rat) :=
  Dyadic.toRat_intCast i

theorem ofInt_inj {i j : Int} : ofInt i = ofInt j ↔ i = j := by
  constructor
  · intro h
    have h' : (Dyadic.ofInt i).toRat = (Dyadic.ofInt j).toRat := by
      rw [Quantity.finite.inj h]
    rw [toRat_ofInt, toRat_ofInt] at h'
    exact_mod_cast h'
  · rintro rfl
    rfl

theorem ofInt_lt_ofInt (i j : Int) : lt (ofInt i) (ofInt j) = decide (i < j) := by
  rw [ofInt, ofInt, lt, decide_eq_decide, ← Dyadic.toRat_lt_toRat_iff, toRat_ofInt, toRat_ofInt]
  exact_mod_cast Iff.rfl

theorem lt_irrefl (a : Quantity) : lt a a = false := by
  cases a with
  | finite d => simp [lt, Std.lt_irrefl]
  | infinite s => cases s <;> rfl
  | undefined t => rfl

theorem lt_trans {a b c : Quantity} (hab : lt a b = true) (hbc : lt b c = true) :
    lt a c = true := by
  cases a <;> cases b <;> cases c <;> simp_all [lt]
  exact Std.lt_trans hab hbc

theorem lt_or_lt_of_ne {a b : Quantity} (ha : a.IsDefined) (hb : b.IsDefined) (h : a ≠ b) :
    lt a b = true ∨ lt b a = true := by
  cases a <;> cases b <;> simp_all [lt, IsDefined]
  · rename_i x y
    rcases Dyadic.le_total x y with hxy | hyx
    · exact .inl (Std.lt_of_le_of_ne hxy h)
    · exact .inr (Std.lt_of_le_of_ne hyx (Ne.symm h))
  · rename_i s t
    cases s <;> cases t <;> simp_all

end Quantity

/-- What a double stands for; the two zeros are one quantity. -/
def Double.quantity : Double → Quantity
  | finite d => .finite d
  | negativeZero => .finite 0
  | infinite negative => .infinite negative
  | undefined tag => .undefined tag

end EpsilonAutomata
