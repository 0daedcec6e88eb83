import EpsilonAutomata.Json.Basic
import EpsilonAutomata.Number.Hexadecimal

/-!
# Reading JSON

`Json.parse?` reads a whole text. Blanks are the space, the tab and the two line ends. Text may not
hold control characters. `NaN`, `Infinity` and `-Infinity` are numbers. Each reader takes the
characters that are left and gives back what it read together with the characters after it; the
readers of nested documents and of text carry a bound on the steps they may take, which twice the
length of the text always meets.
-/

namespace EpsilonAutomata.Json

def isBlank (c : Char) : Bool :=
  c == ' ' || c == '\t' || c == '\n' || c == '\r'

def skipBlanks (cs : List Char) : List Char :=
  cs.dropWhile isBlank

/-! ## Text -/

/-- Reads one code unit of four hexadecimal digits. -/
def readUnit : List Char → Option (Nat × List Char)
  | a :: b :: c :: d :: cs => do
    let a ← Hexadecimal.digitValue? a
    let b ← Hexadecimal.digitValue? b
    let c ← Hexadecimal.digitValue? c
    let d ← Hexadecimal.digitValue? d
    some (((a * 16 + b) * 16 + c) * 16 + d, cs)
  | _ => none

/-- The character that stands for half of a pair whose other half is missing. -/
def replacement : Char := Char.ofNat 0xFFFD

/-- The character of a code unit that is no half of a pair. -/
def charOfUnit (n : Nat) : Char :=
  if 0xD800 ≤ n ∧ n < 0xE000 then replacement else Char.ofNat n

/-- Reads the character of an escape whose first code unit was read: a high half takes the low half
that follows it, if one does. -/
def readPair (high : Nat) (cs : List Char) : Char × List Char :=
  if 0xD800 ≤ high ∧ high < 0xDC00 then
    match cs with
    | '\\' :: 'u' :: rest =>
      match readUnit rest with
      | some (low, rest) =>
        if 0xDC00 ≤ low ∧ low < 0xE000 then
          (Char.ofNat (0x10000 + (high - 0xD800) * 1024 + (low - 0xDC00)), rest)
        else (replacement, cs)
      | none => (replacement, cs)
    | _ => (replacement, cs)
  else (charOfUnit high, cs)

/-- Reads the character of an escape, after its backslash. -/
def readEscape : List Char → Option (Char × List Char)
  | '"' :: cs => some ('"', cs)
  | '\\' :: cs => some ('\\', cs)
  | '/' :: cs => some ('/', cs)
  | 'b' :: cs => some (Char.ofNat 8, cs)
  | 'f' :: cs => some (Char.ofNat 12, cs)
  | 'n' :: cs => some ('\n', cs)
  | 'r' :: cs => some ('\r', cs)
  | 't' :: cs => some ('\t', cs)
  | 'u' :: cs => (readUnit cs).map fun (high, rest) => readPair high rest
  | _ => none

/-- Reads text up to its closing quote, character by character. -/
def readChars : (bound : Nat) → List Char → Option (List Char × List Char)
  | 0, _ => none
  | _ + 1, [] => none
  | bound + 1, c :: cs =>
    if c = '"' then some ([], cs)
    else if c = '\\' then do
      let (d, rest) ← readEscape cs
      let (ds, rest) ← readChars bound rest
      some (d :: ds, rest)
    else if c.toNat < 32 then none
    else do
      let (ds, rest) ← readChars bound cs
      some (c :: ds, rest)

/-- Reads text, after its opening quote. -/
def readText (bound : Nat) (cs : List Char) : Option (String × List Char) :=
  (readChars bound cs).map fun (ds, rest) => (String.ofList ds, rest)

/-! ## Numbers -/

def readDigits (cs : List Char) : List Char × List Char :=
  (cs.takeWhile Decimal.isDigit, cs.dropWhile Decimal.isDigit)

/-- Reads the whole part of a number: a zero, or digits that do not begin with one. -/
def readWhole : List Char → Option (List Char × List Char)
  | '0' :: cs => some (['0'], cs)
  | cs =>
    let (ds, rest) := readDigits cs
    if ds.isEmpty then none else some (ds, rest)

/-- Reads a point and the digits after it, if digits follow. -/
def readFraction : List Char → Option (List Char) × List Char
  | '.' :: cs =>
    let (ds, rest) := readDigits cs
    if ds.isEmpty then (none, '.' :: cs) else (some ds, rest)
  | cs => (none, cs)

/-- Reads a power of ten, if one follows. -/
def readPower (cs : List Char) : Option Int × List Char :=
  match cs with
  | c :: tail =>
    if c = 'e' ∨ c = 'E' then
      let (negative, tail) := match tail with
        | '-' :: r => (true, r)
        | '+' :: r => (false, r)
        | r => (false, r)
      let (ds, rest) := readDigits tail
      if ds.isEmpty then (none, cs)
      else
        let power : Int := Decimal.ofDigits ds
        (some (if negative then -power else power), rest)
    else (none, cs)
  | [] => (none, cs)

/-- Reads a number without its sign. It is whole unless a point or a power of ten follows. -/
def readNumber (negative : Bool) (cs : List Char) : Option (Json × List Char) := do
  let (whole, rest) ← readWhole cs
  let (fraction, rest) := readFraction rest
  let (power, rest) := readPower rest
  match fraction, power with
  | none, none =>
    let m : Int := Decimal.ofDigits whole
    some (.int (if negative then -m else m), rest)
  | _, _ =>
    let numeral := Double.Numeral.mk negative whole (fraction.getD []) (power.getD 0)
    some (.double numeral.toDouble, rest)

def readWord (word : String) (cs : List Char) : Option (List Char) :=
  if word.toList.isPrefixOf cs then some (cs.drop word.toList.length) else none

/-- Reads a document without parts: a word or a number. -/
def readScalar (cs : List Char) : Option (Json × List Char) :=
  match cs with
  | 'n' :: _ => (readWord "null" cs).map (.null, ·)
  | 't' :: _ => (readWord "true" cs).map (.bool true, ·)
  | 'f' :: _ => (readWord "false" cs).map (.bool false, ·)
  | 'N' :: _ => (readWord "NaN" cs).map (.double (.undefined 0), ·)
  | 'I' :: _ => (readWord "Infinity" cs).map (.double (.infinite false), ·)
  | '-' :: rest =>
    match readWord "Infinity" rest with
    | some rest => some (.double (.infinite true), rest)
    | none => readNumber true rest
  | _ => readNumber false cs

/-! ## Documents -/

mutual

/-- Reads a document that begins with the first character. -/
def readJson : (bound : Nat) → List Char → Option (Json × List Char)
  | 0, _ => none
  | bound + 1, cs =>
    match cs with
    | '"' :: rest => (readText bound rest).map fun (s, rest) => (.text s, rest)
    | '[' :: rest =>
      match skipBlanks rest with
      | ']' :: rest => some (.array [], rest)
      | rest => (readItems bound rest).map fun (js, rest) => (.array js, rest)
    | '\x7b' :: rest =>
      match skipBlanks rest with
      | '\x7d' :: rest => some (.object [], rest)
      | rest => (readFields bound rest).map fun (fs, rest) => (.object (fieldsOf fs), rest)
    | cs => readScalar cs

def readItems : (bound : Nat) → List Char → Option (List Json × List Char)
  | 0, _ => none
  | bound + 1, cs => do
    let (j, rest) ← readJson bound cs
    match skipBlanks rest with
    | ']' :: rest => some ([j], rest)
    | ',' :: rest =>
      let (js, rest) ← readItems bound (skipBlanks rest)
      some (j :: js, rest)
    | _ => none

def readFields : (bound : Nat) → List Char → Option (List (String × Json) × List Char)
  | 0, _ => none
  | bound + 1, cs =>
    match cs with
    | '"' :: rest => do
      let (name, rest) ← readText bound rest
      match skipBlanks rest with
      | ':' :: rest =>
        let (j, rest) ← readJson bound (skipBlanks rest)
        match skipBlanks rest with
        | '\x7d' :: rest => some ([(name, j)], rest)
        | ',' :: rest =>
          let (fs, rest) ← readFields bound (skipBlanks rest)
          some ((name, j) :: fs, rest)
        | _ => none
      | _ => none
    | _ => none

end

/-- The document that a text holds, if it holds exactly one. -/
def parse? (s : String) : Option Json :=
  let cs := s.toList
  match readJson (2 * cs.length + 2) (skipBlanks cs) with
  | some (j, rest) => if (skipBlanks rest).isEmpty then some j else none
  | none => none

end EpsilonAutomata.Json
