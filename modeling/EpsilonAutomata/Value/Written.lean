import EpsilonAutomata.Text.Quoted
import EpsilonAutomata.Value.Basic

/-!
# Values as text

`written` is the form a value has inside messages and summaries: text is quoted, a tuple of one item
keeps a comma, and an empty set is named. `shown` leaves text as it is.
-/

namespace EpsilonAutomata.Value

def writtenInt (i : Int) : String :=
  String.ofList (Decimal.intDigits i)

def commaSeparated (texts : List String) : String :=
  ", ".intercalate texts

mutual

/-- The written form of a value. -/
def written : Value → String
  | null => "None"
  | bool b => if b then "True" else "False"
  | int i => writtenInt i
  | double x => x.text
  | text s => Text.quoted s
  | tuple xs =>
    match writtenAll xs with
    | [s] => "(" ++ s ++ ",)"
    | ss => "(" ++ commaSeparated ss ++ ")"
  | list xs => "[" ++ commaSeparated (writtenAll xs) ++ "]"
  | set xs =>
    match writtenAll xs with
    | [] => "set()"
    | ss => "\x7b" ++ commaSeparated ss ++ "\x7d"
  | frozenSet xs =>
    match writtenAll xs with
    | [] => "frozenset()"
    | ss => "frozenset(\x7b" ++ commaSeparated ss ++ "\x7d)"
  | mapping es => "\x7b" ++ commaSeparated (writtenEntries es) ++ "\x7d"
  | epsilon => "<EPSILON>"
  | marker _ name => "<" ++ name ++ ">"

def writtenAll : List Value → List String
  | [] => []
  | x :: xs => written x :: writtenAll xs

def writtenEntries : List (Value × Value) → List String
  | [] => []
  | (k, v) :: es => (written k ++ ": " ++ written v) :: writtenEntries es

end

/-- The form a value has on its own: text as it is, all else as written. -/
def shown : Value → String
  | text s => s
  | a => a.written

def writtenList (xs : List Value) : String :=
  written (list xs)

end EpsilonAutomata.Value
