/-!
# Decimal numerals

Numerals as lists of characters: `digits n` writes a number without leading zeros and `ofDigits`
reads it back.
-/

namespace EpsilonAutomata.Decimal

def digitChar (d : Nat) : Char :=
  Char.ofNat (48 + d)

/-- The characters `0` to `9`. -/
def isDigit (c : Char) : Bool :=
  decide ('0' ≤ c) && decide (c ≤ '9')

def digitValue (c : Char) : Nat :=
  c.toNat - 48

/-- The numeral of a number, most significant digit first. -/
def digits (n : Nat) : List Char :=
  if n < 10 then [digitChar n] else digits (n / 10) ++ [digitChar (n % 10)]
termination_by n

def tenPow (k : Nat) : Nat :=
  Nat.pow 10 k

/-- The number that a list of digits stands for. -/
def ofDigits (cs : List Char) : Nat :=
  cs.foldl (fun n c => 10 * n + digitValue c) 0

/-- The numeral of an integer, with a leading minus sign below zero. -/
def intDigits (i : Int) : List Char :=
  if i < 0 then '-' :: digits i.natAbs else digits i.natAbs

/-! ## Laws -/

theorem digitChar_facts :
    ∀ d : Fin 10, isDigit (digitChar d) = true ∧ digitValue (digitChar d) = d := by
  decide

theorem isDigit_digitChar {d : Nat} (h : d < 10) : isDigit (digitChar d) = true :=
  (digitChar_facts ⟨d, h⟩).1

theorem digitValue_digitChar {d : Nat} (h : d < 10) : digitValue (digitChar d) = d :=
  (digitChar_facts ⟨d, h⟩).2

theorem ofDigits_append_singleton (cs : List Char) (c : Char) :
    ofDigits (cs ++ [c]) = 10 * ofDigits cs + digitValue c := by
  simp [ofDigits]

theorem ofDigits_digits (n : Nat) : ofDigits (digits n) = n := by
  induction n using Nat.strongRecOn with
  | ind n ih =>
    rw [digits]
    split
    · next h => simp [ofDigits, digitValue_digitChar h]
    · next h =>
      rw [ofDigits_append_singleton, ih (n / 10) (by omega),
        digitValue_digitChar (Nat.mod_lt n (by decide))]
      omega

theorem isDigit_of_mem_digits (n : Nat) : ∀ c ∈ digits n, isDigit c = true := by
  induction n using Nat.strongRecOn with
  | ind n ih =>
    rw [digits]
    split
    · next h => simpa using isDigit_digitChar h
    · next h =>
      intro c hc
      rcases List.mem_append.1 hc with hc | hc
      · exact ih (n / 10) (by omega) c hc
      · rw [List.mem_singleton.1 hc]
        exact isDigit_digitChar (Nat.mod_lt n (by decide))

theorem digits_ne_nil (n : Nat) : digits n ≠ [] := by
  rw [digits]
  split <;> simp

end EpsilonAutomata.Decimal
