import Mathlib.Tactic.SplitIfs
import EpsilonAutomata.Json.Parser
import EpsilonAutomata.Json.Printer

/-!
# What is written for text and numbers reads back

Each character of a text is written as itself, by a short escape, or by its code units, of which a
character beyond the basic plane has two; whichever it is, one step of the reader gives the character
back (`readChars_charText`). A whole number reads back as itself where what follows it does not go on
with the number (`NumberEnd`).
-/

namespace EpsilonAutomata.Json

/-! ## Text -/

theorem fixed_four (n : Nat) : Hexadecimal.fixed 4 n =
    [Hexadecimal.digitChar (n / 16 / 16 / 16 % 16), Hexadecimal.digitChar (n / 16 / 16 % 16),
      Hexadecimal.digitChar (n / 16 % 16), Hexadecimal.digitChar (n % 16)] := rfl

theorem readUnit_fixed {n : Nat} (hn : n < 65536) (rest : List Char) :
    readUnit (Hexadecimal.fixed 4 n ++ rest) = some (n, rest) := by
  have hdigit (k : Nat) : Hexadecimal.digitValue? (Hexadecimal.digitChar (k % 16)) = some (k % 16) :=
    Hexadecimal.digitValue?_digitChar (Nat.mod_lt k (by decide))
  have hvalue : ((n / 16 / 16 / 16 % 16 * 16 + n / 16 / 16 % 16) * 16 + n / 16 % 16) * 16 + n % 16 =
      n := by
    omega
  rw [fixed_four]
  simp only [List.cons_append, List.nil_append, readUnit, hdigit, bind, Option.bind, hvalue]

theorem readPair_of_plane {c : Char} (hc : c.toNat < 65536) (rest : List Char) :
    readPair c.toNat rest = (c, rest) := by
  have hvalid : c.toNat < 0xD800 ∨ 0xDFFF < c.toNat ∧ c.toNat < 0x110000 := c.valid
  unfold readPair
  rw [if_neg (by omega), charOfUnit, if_neg (by omega), Char.ofNat_toNat]

theorem readPair_of_pair {c : Char} (hc : 65536 ≤ c.toNat) (rest : List Char) :
    readPair (55296 + (c.toNat - 65536) / 1024)
      (unitEscape (56320 + (c.toNat - 65536) % 1024) ++ rest) = (c, rest) := by
  have hvalid : c.toNat < 0xD800 ∨ 0xDFFF < c.toNat ∧ c.toNat < 0x110000 := c.valid
  have hlow := readUnit_fixed (n := 56320 + (c.toNat - 65536) % 1024) (by omega) rest
  have hcode : 0x10000 + (55296 + (c.toNat - 65536) / 1024 - 0xD800) * 1024 +
      (56320 + (c.toNat - 65536) % 1024 - 0xDC00) = c.toNat := by
    omega
  unfold readPair
  rw [if_pos (by omega), unitEscape, List.cons_append, List.cons_append]
  simp only [hlow]
  rw [if_pos (by omega), hcode, Char.ofNat_toNat]

theorem readEscape_charEscape (c : Char) (rest : List Char) :
    ∃ tail, charEscape c ++ rest = '\\' :: tail ∧ readEscape tail = some (c, rest) := by
  have hvalid : c.toNat < 0xD800 ∨ 0xDFFF < c.toNat ∧ c.toNat < 0x110000 := c.valid
  by_cases hc : c.toNat < 65536
  · refine ⟨'u' :: (Hexadecimal.fixed 4 c.toNat ++ rest), ?_, ?_⟩
    · simp only [charEscape, if_pos hc, unitEscape, List.cons_append]
    · rw [readEscape, readUnit_fixed hc, Option.map_some]
      exact congrArg some (readPair_of_plane hc rest)
  · refine ⟨'u' :: (Hexadecimal.fixed 4 (55296 + (c.toNat - 65536) / 1024) ++
      (unitEscape (56320 + (c.toNat - 65536) % 1024) ++ rest)), ?_, ?_⟩
    · simp only [charEscape, if_neg hc, unitEscape, List.cons_append, List.append_assoc]
    · rw [readEscape, readUnit_fixed (by omega), Option.map_some]
      exact congrArg some (readPair_of_pair (by omega) rest)

theorem readChars_escape {bound : Nat} {cs rest : List Char} {c : Char}
    (h : readEscape cs = some (c, rest)) :
    readChars (bound + 1) ('\\' :: cs) = (readChars bound rest).map fun (ds, r) => (c :: ds, r) := by
  rw [readChars, if_neg (by decide), if_pos rfl, h]
  show ((readChars bound rest).bind fun (ds, r) => some (c :: ds, r)) = _
  cases readChars bound rest <;> rfl

theorem readChars_charText (asciiOnly : Bool) (c : Char) (bound : Nat) (rest : List Char) :
    readChars (bound + 1) (charText asciiOnly c ++ rest) =
      (readChars bound rest).map fun (ds, r) => (c :: ds, r) := by
  have hescape : readChars (bound + 1) (charEscape c ++ rest) =
      (readChars bound rest).map fun (ds, r) => (c :: ds, r) := by
    obtain ⟨tail, htail, hread⟩ := readEscape_charEscape c rest
    rw [htail, readChars_escape hread]
  unfold charText
  split_ifs with hquote hbackslash hnewline hreturn htab hfeed hback hcontrol hascii
  · subst hquote
    exact readChars_escape rfl
  · subst hbackslash
    exact readChars_escape rfl
  · subst hnewline
    exact readChars_escape rfl
  · subst hreturn
    exact readChars_escape rfl
  · subst htab
    exact readChars_escape rfl
  · subst hfeed
    exact readChars_escape rfl
  · subst hback
    exact readChars_escape rfl
  · exact hescape
  · exact hescape
  · rw [List.cons_append, List.nil_append, readChars, if_neg hquote, if_neg hbackslash,
      if_neg hcontrol]
    cases readChars bound rest <;> rfl

theorem readChars_written (asciiOnly : Bool) (cs rest : List Char) {bound : Nat}
    (hbound : cs.length < bound) :
    readChars bound (cs.flatMap (charText asciiOnly) ++ '"' :: rest) = some (cs, rest) := by
  induction cs generalizing bound with
  | nil =>
    obtain ⟨bound, rfl⟩ := Nat.exists_eq_add_of_lt hbound
    rfl
  | cons c cs ih =>
    obtain ⟨bound, rfl⟩ := Nat.exists_eq_add_of_lt (Nat.zero_lt_of_lt hbound)
    rw [Nat.zero_add] at hbound ⊢
    rw [List.flatMap_cons, List.append_assoc, readChars_charText, ih (by simpa using hbound)]
    rfl

theorem length_le_length_written (asciiOnly : Bool) (cs : List Char) :
    cs.length ≤ (cs.flatMap (charText asciiOnly)).length := by
  have hne (c : Char) : 1 ≤ (charText asciiOnly c).length := by
    have hescape : 1 ≤ (charEscape c).length := by
      unfold charEscape
      dsimp only
      split_ifs <;> simp [unitEscape]
    unfold charText
    split_ifs <;> first | exact hescape | simp
  induction cs with
  | nil => exact Nat.le_refl 0
  | cons c cs ih =>
    have := hne c
    simp only [List.flatMap_cons, List.length_cons, List.length_append]
    omega

theorem length_quoted (asciiOnly : Bool) (s : String) :
    s.toList.length + 2 ≤ (quoted asciiOnly s).length := by
  have := length_le_length_written asciiOnly s.toList
  simp only [quoted, List.length_cons, List.length_append, List.length_nil]
  omega

theorem readText_quoted (asciiOnly : Bool) (s : String) (rest : List Char) {bound : Nat}
    (hbound : s.toList.length < bound) :
    ∃ tail, quoted asciiOnly s ++ rest = '"' :: tail ∧ readText bound tail = some (s, rest) := by
  refine ⟨s.toList.flatMap (charText asciiOnly) ++ '"' :: rest, by simp [quoted], ?_⟩
  rw [readText, readChars_written asciiOnly s.toList rest hbound, Option.map_some]
  exact congrArg (fun t => some (t, rest)) String.ofList_toList

/-! ## Whole numbers -/

/-- No number goes on here. -/
def NumberEnd (rest : List Char) : Prop :=
  ∀ c ∈ rest.head?, Decimal.isDigit c = false ∧ c ≠ '.' ∧ c ≠ 'e' ∧ c ≠ 'E'

theorem numberEnd_nil : NumberEnd [] := by
  intro c hc
  cases hc

theorem numberEnd_cons {c : Char} (h : Decimal.isDigit c = false ∧ c ≠ '.' ∧ c ≠ 'e' ∧ c ≠ 'E')
    (cs : List Char) : NumberEnd (c :: cs) := by
  intro d hd
  obtain rfl := Option.some.inj hd
  exact h

theorem head_digits {n : Nat} (hn : 0 < n) : ∃ c cs, Decimal.digits n = c :: cs ∧ c ≠ '0' := by
  induction n using Nat.strongRecOn with
  | ind n ih =>
    rw [Decimal.digits]
    split
    · next h =>
      refine ⟨_, [], rfl, fun hzero => ?_⟩
      have hvalue := Decimal.digitValue_digitChar h
      rw [hzero] at hvalue
      exact absurd hvalue (Nat.ne_of_lt hn)
    · next h =>
      obtain ⟨c, cs, hcs, hc⟩ := ih (n / 10) (by omega) (by omega)
      exact ⟨c, cs ++ [Decimal.digitChar (n % 10)], by rw [hcs]; rfl, hc⟩

theorem readDigits_append {ds rest : List Char} (hds : ∀ c ∈ ds, Decimal.isDigit c = true)
    (hrest : NumberEnd rest) : readDigits (ds ++ rest) = (ds, rest) := by
  have hstop : rest.takeWhile Decimal.isDigit = [] ∧ rest.dropWhile Decimal.isDigit = rest := by
    cases rest with
    | nil => exact ⟨rfl, rfl⟩
    | cons c cs =>
      have hc := (hrest c rfl).1
      exact ⟨List.takeWhile_cons_of_neg (by simp [hc]), List.dropWhile_cons_of_neg (by simp [hc])⟩
  rw [readDigits, List.takeWhile_append_of_pos hds, List.dropWhile_append_of_pos hds, hstop.1, hstop.2,
    List.append_nil]

theorem readWhole_digits (n : Nat) {rest : List Char} (hrest : NumberEnd rest) :
    readWhole (Decimal.digits n ++ rest) = some (Decimal.digits n, rest) := by
  rcases Nat.eq_zero_or_pos n with rfl | hn
  · have hzero : Decimal.digits 0 = ['0'] := by
      rw [Decimal.digits]
      rfl
    rw [hzero]
    rfl
  · obtain ⟨c, cs, hcs, hc⟩ := head_digits hn
    have hread := readDigits_append (Decimal.isDigit_of_mem_digits n) hrest
    rw [hcs, List.cons_append] at hread ⊢
    unfold readWhole
    split
    · next h => exact absurd (List.cons.inj h).1 hc
    · rw [hread]
      rfl

theorem readFraction_end {rest : List Char} (hrest : NumberEnd rest) :
    readFraction rest = (none, rest) := by
  unfold readFraction
  split
  · exact absurd rfl (hrest '.' rfl).2.1
  · rfl

theorem readPower_end {rest : List Char} (hrest : NumberEnd rest) : readPower rest = (none, rest) := by
  cases rest with
  | nil => rfl
  | cons c cs =>
    obtain ⟨-, -, he, hE⟩ := hrest c rfl
    simp only [readPower, he, hE, or_self, if_false]

theorem readNumber_digits (negative : Bool) (n : Nat) {rest : List Char} (hrest : NumberEnd rest) :
    readNumber negative (Decimal.digits n ++ rest) =
      some (.int (if negative then -(n : Int) else n), rest) := by
  rw [readNumber, readWhole_digits n hrest]
  simp only [bind, Option.bind, readFraction_end hrest, readPower_end hrest,
    Decimal.ofDigits_digits]

theorem ne_of_digit {c d : Char} (hc : Decimal.isDigit c = true) (hd : Decimal.isDigit d = false) :
    c ≠ d := by
  rintro rfl
  rw [hc] at hd
  cases hd

theorem exists_intDigits_cons (i : Int) :
    ∃ c cs, Decimal.intDigits i = c :: cs ∧ (c = '-' ∨ Decimal.isDigit c = true) := by
  obtain ⟨c, cs, hcs⟩ := List.exists_cons_of_ne_nil (Decimal.digits_ne_nil i.natAbs)
  have hc : Decimal.isDigit c = true := Decimal.isDigit_of_mem_digits i.natAbs c (by simp [hcs])
  unfold Decimal.intDigits
  split
  · exact ⟨'-', _, rfl, .inl rfl⟩
  · exact ⟨c, cs, hcs, .inr hc⟩

theorem readScalar_of_digit {c : Char} (hc : Decimal.isDigit c = true) (cs : List Char) :
    readScalar (c :: cs) = readNumber false (c :: cs) := by
  unfold readScalar
  split <;> first | rfl | skip
  all_goals
    next h => exact absurd (List.cons.inj h).1 (ne_of_digit hc (by decide))

theorem readWord_of_digit {c : Char} (hc : Decimal.isDigit c = true) (cs : List Char) :
    readWord "Infinity" (c :: cs) = none := by
  have hword : "Infinity".toList = ['I', 'n', 'f', 'i', 'n', 'i', 't', 'y'] := rfl
  have hne : ('I' == c) = false := beq_false_of_ne (ne_of_digit hc (by decide)).symm
  rw [readWord, hword, List.isPrefixOf_cons_cons, hne, Bool.false_and, if_neg Bool.false_ne_true]

theorem readScalar_intDigits (i : Int) {rest : List Char} (hrest : NumberEnd rest) :
    readScalar (Decimal.intDigits i ++ rest) = some (.int i, rest) := by
  obtain ⟨c, cs, hcs⟩ := List.exists_cons_of_ne_nil (Decimal.digits_ne_nil i.natAbs)
  have hc : Decimal.isDigit c = true := Decimal.isDigit_of_mem_digits i.natAbs c (by simp [hcs])
  unfold Decimal.intDigits
  split
  · next hi =>
    have hvalue : -(i.natAbs : Int) = i := by omega
    have hread := readNumber_digits true i.natAbs hrest
    rw [if_pos rfl, hvalue, hcs, List.cons_append] at hread
    rw [hcs, List.cons_append, List.cons_append, readScalar, readWord_of_digit hc]
    exact hread
  · next hi =>
    have hvalue : (i.natAbs : Int) = i := by omega
    have hread := readNumber_digits false i.natAbs hrest
    rw [if_neg Bool.false_ne_true, hvalue, hcs, List.cons_append] at hread
    rw [hcs, List.cons_append, readScalar_of_digit hc, hread]

end EpsilonAutomata.Json
