/-!
# Hexadecimal numerals

Numerals of a fixed width with lower case digits, as escapes in text write them, and the reading of
one digit, in either case.
-/

namespace EpsilonAutomata.Hexadecimal

/-- The lower case character of a digit below sixteen. -/
def digitChar (d : Nat) : Char :=
  if d < 10 then Char.ofNat (48 + d) else Char.ofNat (87 + d)

def digitValue? (c : Char) : Option Nat :=
  if '0' ≤ c ∧ c ≤ '9' then some (c.toNat - 48)
  else if 'a' ≤ c ∧ c ≤ 'f' then some (c.toNat - 87)
  else if 'A' ≤ c ∧ c ≤ 'F' then some (c.toNat - 55)
  else none

/-- The last `width` digits of a number, most significant first. -/
def fixed : (width : Nat) → Nat → List Char
  | 0, _ => []
  | width + 1, n => fixed width (n / 16) ++ [digitChar (n % 16)]

theorem digitChar_facts : ∀ d : Fin 16, digitValue? (digitChar d) = some d.val := by
  decide

theorem digitValue?_digitChar {d : Nat} (h : d < 16) : digitValue? (digitChar d) = some d :=
  digitChar_facts ⟨d, h⟩

end EpsilonAutomata.Hexadecimal
