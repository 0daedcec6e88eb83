import EpsilonAutomata.Number.Hexadecimal
import EpsilonAutomata.Text.Printable

/-!
# Quoted text

Text between quotes, with escapes for the quote, the backslash and all that is not printable. Double
quotes are chosen only for text that holds a single quote and no double quote.
-/

namespace EpsilonAutomata.Text

/-- The written form of one character between the given quotes. -/
def escape (quote c : Char) : List Char :=
  if c = quote ∨ c = '\\' then ['\\', c]
  else if c = '\n' then ['\\', 'n']
  else if c = '\t' then ['\\', 't']
  else if c = '\r' then ['\\', 'r']
  else if isPrintable c then [c]
  else if c.toNat < 256 then '\\' :: 'x' :: Hexadecimal.fixed 2 c.toNat
  else if c.toNat < 65536 then '\\' :: 'u' :: Hexadecimal.fixed 4 c.toNat
  else '\\' :: 'U' :: Hexadecimal.fixed 8 c.toNat

def quoteFor (cs : List Char) : Char :=
  if cs.contains '\'' && !cs.contains '"' then '"' else '\''

/-- Text between quotes. -/
def quoted (s : String) : String :=
  let cs := s.toList
  let quote := quoteFor cs
  String.ofList (quote :: (cs.flatMap (escape quote) ++ [quote]))

end EpsilonAutomata.Text
