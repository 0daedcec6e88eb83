import EpsilonAutomata.Json.Basic
import EpsilonAutomata.Number.Hexadecimal

/-!
# Writing JSON

`Json.render` writes a document in a given style: on one line, or with each item on a line of its
own under an indentation; with separators of choice; with names in order or as they come; with
characters beyond ASCII as they are or escaped.
-/

namespace EpsilonAutomata.Json

structure Style where
  /-- The indentation of one level, if items stand on lines of their own. -/
  indent : Option (List Char)
  itemSeparator : List Char
  keySeparator : List Char
  sortKeys : Bool
  asciiOnly : Bool

def Style.line : Style := ⟨none, [',', ' '], [':', ' '], false, true⟩

/-- The style with the given indentation; without separators of its own, an item that ends a line
has no blank after its comma. -/
def Style.make (indent : Option (List Char)) (separators : Option (List Char × List Char))
    (sortKeys asciiOnly : Bool) : Style :=
  let (item, key) := separators.getD
    (if indent.isSome then [','] else [',', ' '], [':', ' '])
  ⟨indent, item, key, sortKeys, asciiOnly⟩

/-! ## Text -/

/-- A code unit of four hexadecimal digits. -/
def unitEscape (n : Nat) : List Char :=
  '\\' :: 'u' :: Hexadecimal.fixed 4 n

/-- The escape of a character: one code unit, or two beyond the basic plane. -/
def charEscape (c : Char) : List Char :=
  let n := c.toNat
  if n < 65536 then unitEscape n
  else unitEscape (55296 + (n - 65536) / 1024) ++ unitEscape (56320 + (n - 65536) % 1024)

def charText (asciiOnly : Bool) (c : Char) : List Char :=
  if c = '"' then ['\\', '"']
  else if c = '\\' then ['\\', '\\']
  else if c = '\n' then ['\\', 'n']
  else if c = '\r' then ['\\', 'r']
  else if c = '\t' then ['\\', 't']
  else if c = Char.ofNat 12 then ['\\', 'f']
  else if c = Char.ofNat 8 then ['\\', 'b']
  else if c.toNat < 32 then charEscape c
  else if asciiOnly && 127 ≤ c.toNat then charEscape c
  else [c]

def quoted (asciiOnly : Bool) (s : String) : List Char :=
  '"' :: (s.toList.flatMap (charText asciiOnly) ++ ['"'])

/-- The text of a double; infinities and undefined numbers have names. -/
def doubleText : Double → List Char
  | .infinite negative => if negative then "-Infinity".toList else "Infinity".toList
  | .undefined _ => "NaN".toList
  | x => x.text.toList

/-! ## Documents -/

/-- The start of a new line at a level of nesting, if lines are broken. -/
def Style.newline (style : Style) (level : Nat) : List Char :=
  match style.indent with
  | none => []
  | some unit => '\n' :: (List.replicate level unit).flatten

mutual

/-- The written form of a document at a level of nesting. -/
def renderAt (style : Style) (level : Nat) : Json → List Char
  | null => "null".toList
  | bool b => if b then "true".toList else "false".toList
  | int i => Decimal.intDigits i
  | double x => doubleText x
  | text s => quoted style.asciiOnly s
  | array [] => ['[', ']']
  | array (j :: js) =>
    '[' :: (style.newline (level + 1) ++ renderAt style (level + 1) j ++
      renderItems style (level + 1) js ++ style.newline level ++ [']'])
  | object [] => ['\x7b', '\x7d']
  | object ((k, j) :: fields) =>
    '\x7b' :: (style.newline (level + 1) ++ quoted style.asciiOnly k ++ style.keySeparator ++
      renderAt style (level + 1) j ++ renderFields style (level + 1) fields ++
      style.newline level ++ ['\x7d'])

def renderItems (style : Style) (level : Nat) : List Json → List Char
  | [] => []
  | j :: js =>
    style.itemSeparator ++ style.newline level ++ renderAt style level j ++
      renderItems style level js

def renderFields (style : Style) (level : Nat) : List (String × Json) → List Char
  | [] => []
  | (k, j) :: fields =>
    style.itemSeparator ++ style.newline level ++ quoted style.asciiOnly k ++ style.keySeparator ++
      renderAt style level j ++ renderFields style level fields

end

def render (style : Style) (j : Json) : String :=
  String.ofList (renderAt style 0 (if style.sortKeys then j.sortKeys else j))

end EpsilonAutomata.Json
