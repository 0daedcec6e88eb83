import EpsilonAutomata.Number.Decimal

/-!
# Double-precision numbers

A finite double is held exactly, as the dyadic number it stands for, so that comparison with whole
numbers is exact. `Double.nearest` rounds a quotient of natural numbers, `Double.shortest?` finds
the fewest decimal digits that read back as the same number, `Double.text` writes them and
`Double.read?` reads a numeral.
-/

namespace EpsilonAutomata

/-- A double-precision number. Two undefined numbers are the same only if they carry one tag. -/
inductive Double where
  | finite (value : Dyadic)
  | negativeZero
  | infinite (negative : Bool)
  | undefined (tag : Nat)
  deriving DecidableEq, Inhabited

namespace Double

/-! ## Rounding -/

def twoPow (k : Nat) : Nat :=
  Nat.pow 2 k

/-- The quotient `num / den`, rounded to a whole number, a half going to the even neighbour. -/
def roundHalfEven (num den : Nat) : Nat :=
  let q := num / den
  let r := num % den
  if 2 * r < den then q
  else if den < 2 * r then q + 1
  else if q % 2 = 0 then q else q + 1

/-- The fraction `num / (den * 2 ^ e)` as a pair of natural numbers. -/
def scaleDown (num den : Nat) (e : Int) : Nat × Nat :=
  if 0 ≤ e then (num, den * twoPow e.toNat) else (num * twoPow (-e).toNat, den)

/-- The exponent of the last place: the least `e ≥ -1074` with `num / den < 2 ^ (e + 53)`. -/
def lastPlace (num den : Nat) : Int :=
  let guess : Int := (Nat.log2 num : Int) - (Nat.log2 den : Int) - 53
  let fits (e : Int) : Bool :=
    let (a, b) := scaleDown num den e
    a / b < twoPow 53
  let start := max guess (-1074)
  if fits start then start else if fits (start + 1) then start + 1 else start + 2

/-- The double nearest to `num / den`, with the given sign. -/
def nearest (negative : Bool) (num den : Nat) : Double :=
  let e := lastPlace num den
  let (a, b) := scaleDown num den e
  let m := roundHalfEven a b
  if m = 0 then if negative then negativeZero else finite 0
  else if 1024 ≤ (Nat.log2 m : Int) + e then infinite negative
  else finite (Dyadic.ofIntWithPrec (if negative then -(m : Int) else m) (-e))

/-- The double nearest to the decimal number `m * 10 ^ e`, with the given sign. -/
def ofDecimal (negative : Bool) (m : Nat) (e : Int) : Double :=
  let size : Int := (Decimal.digits m).length + e
  if m = 0 then if negative then negativeZero else finite 0
  else if 400 < size then infinite negative
  else if size < -400 then if negative then negativeZero else finite 0
  else if 0 ≤ e then nearest negative (m * Decimal.tenPow e.toNat) 1
  else nearest negative m (Decimal.tenPow (-e).toNat)

/-- The double nearest to a dyadic number. A sum that vanishes is the positive zero. -/
def ofDyadic : Dyadic → Double
  | .zero => finite 0
  | .ofOdd n k _ =>
    if 0 ≤ k then nearest (n < 0) n.natAbs (twoPow k.toNat)
    else nearest (n < 0) (n.natAbs * twoPow (-k).toNat) 1

/-- The sum with a whole number, rounded to the nearest double. The sum with an undefined number is
another undefined number. -/
def addInt (x : Double) (i : Int) : Double :=
  match x with
  | finite d => ofDyadic (d + Dyadic.ofInt i)
  | negativeZero => ofDyadic (Dyadic.ofInt i)
  | infinite s => infinite s
  | undefined t => undefined (t + 1 + i.toNat)

/-! ## The fewest digits that read back -/

/-- Decimal digits `0.d₁d₂… * 10 ^ point`. -/
structure Digits where
  digits : List Char
  point : Int

def stripZeros (cs : List Char) : List Char :=
  (cs.reverse.dropWhile (· == '0')).reverse

/-- The mantissa, below `2 ^ 53`, and the exponent of the last place of `n * 2 ^ (-k)`. -/
def lastPlaceForm (n : Nat) (k : Int) : Nat × Int :=
  let e : Int := max ((Nat.log2 n : Int) - k - 52) (-1074)
  (n * twoPow (-k - e).toNat, e)

/-- Of the decimal numbers with `count` digits beside the positive number `m * 2 ^ e`, the nearest
that rounds to it, if one does; of two at one distance the even one. -/
def withDigits? (m : Nat) (e : Int) (point : Int) (count : Nat) : Option Digits :=
  let unit : Int := point - count
  -- all numbers below are multiples of one unit: a quarter of the last place, over `den`
  let up := twoPow (e - 2).toNat * Decimal.tenPow (-unit).toNat
  let den := twoPow (2 - e).toNat * Decimal.tenPow unit.toNat
  let exact := 4 * m * up
  let high := (4 * m + 2) * up
  let low := (if m = twoPow 52 ∧ -1074 < e then 4 * m - 1 else 4 * m - 2) * up
  let inside (d : Nat) : Bool :=
    if m % 2 = 0 then low ≤ d * den && d * den ≤ high else low < d * den && d * den < high
  let below := exact / den
  let above := below + 1
  let pick (d : Nat) : Option Digits :=
    let ds := Decimal.digits d
    some ⟨stripZeros ds, unit + ds.length⟩
  match inside below && (0 < below : Bool), inside above with
  | false, false => none
  | true, false => pick below
  | false, true => pick above
  | true, true =>
    let left := exact - below * den
    let right := above * den - exact
    if left < right then pick below
    else if right < left then pick above
    else if below % 2 = 0 then pick below else pick above

/-- The place of the decimal point of a positive number: `10 ^ (p - 1) ≤ m * 2 ^ e < 10 ^ p`. -/
def pointOf (m : Nat) (e : Int) : Int :=
  let scaled := m * twoPow e.toNat * Decimal.tenPow 350 / twoPow (-e).toNat
  (Decimal.digits scaled).length - 350

/-- The fewest digits that read back as `n * 2 ^ (-k)`; seventeen always do. -/
def shortest? (n : Nat) (k : Int) : Option Digits :=
  let (m, e) := lastPlaceForm n k
  let point := pointOf m e
  (List.range' 1 17).findSome? (withDigits? m e point)

/-! ## Text -/

/-- Digits laid out: positionally when the point falls within sixteen digits after or four zeros
before them, else with a power of ten of at least two digits. -/
def layout (d : Digits) : List Char :=
  let count : Int := d.digits.length
  let p := d.point
  if -4 < p ∧ p ≤ 16 then
    if p ≤ 0 then '0' :: '.' :: (List.replicate (-p).toNat '0' ++ d.digits)
    else if count ≤ p then d.digits ++ List.replicate (p - count).toNat '0' ++ ['.', '0']
    else d.digits.take p.toNat ++ '.' :: d.digits.drop p.toNat
  else
    let power := p - 1
    let ds := Decimal.digits power.natAbs
    let padded := if ds.length < 2 then '0' :: ds else ds
    let mantissa := match d.digits with
      | [] => []
      | [c] => [c]
      | c :: cs => c :: '.' :: cs
    mantissa ++ 'e' :: (if power < 0 then '-' else '+') :: padded

/-- The text of a double: the fewest digits that read back, always with a point or a power. -/
def text : Double → String
  | finite .zero => "0.0"
  | finite (.ofOdd n k _) =>
    let sign := if n < 0 then ['-'] else []
    match shortest? n.natAbs k with
    | some d => String.ofList (sign ++ layout d)
    | none => String.ofList sign
  | negativeZero => "-0.0"
  | infinite negative => if negative then "-inf" else "inf"
  | undefined _ => "nan"

/-- A numeral taken apart: sign, digits before and after the point, and power of ten. -/
structure Numeral where
  negative : Bool
  whole : List Char
  fraction : List Char
  power : Int

def Numeral.toDouble (x : Numeral) : Double :=
  ofDecimal x.negative (Decimal.ofDigits (x.whole ++ x.fraction)) (x.power - x.fraction.length)

/-- Reads an optional power of ten, `e` or `E` and a signed whole number, up to the end. -/
def readPower? : List Char → Option Int
  | [] => some 0
  | c :: cs =>
    if c = 'e' ∨ c = 'E' then
      let (negative, ds) := match cs with
        | '-' :: r => (true, r)
        | '+' :: r => (false, r)
        | r => (false, r)
      if ds.isEmpty || !ds.all Decimal.isDigit then none
      else some (if negative then -(Decimal.ofDigits ds : Int) else Decimal.ofDigits ds)
    else none

/-- Reads the text of a double; an undefined number gets the given tag. -/
def read? (tag : Nat) (s : String) : Option Double :=
  let (negative, cs) := match s.toList with
    | '-' :: r => (true, r)
    | '+' :: r => (false, r)
    | r => (false, r)
  if cs = "inf".toList then some (infinite negative)
  else if cs = "nan".toList then some (undefined tag)
  else
    let whole := cs.takeWhile Decimal.isDigit
    let rest := cs.dropWhile Decimal.isDigit
    let (fraction, rest) := match rest with
      | '.' :: r => (r.takeWhile Decimal.isDigit, r.dropWhile Decimal.isDigit)
      | r => ([], r)
    if whole.isEmpty && fraction.isEmpty then none
    else (readPower? rest).map fun power => (Numeral.mk negative whole fraction power).toDouble

end Double

end EpsilonAutomata
