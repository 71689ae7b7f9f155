import Causality.Text.Printable

/-!
# Quoted text and lists

Names inside messages stand in quotes: single ones, or double ones if the text holds a single
quote and no double one. Backslashes, the quote itself and characters that are not printable are
escaped. Lists are written in brackets, tuples in parentheses.
-/

namespace Causality.Text

/-- The hexadecimal digits of `n`, filled up to `width` with zeros. -/
def hex (width n : Nat) : List Char :=
  let digits := Nat.toDigits 16 n
  List.replicate (width - digits.length) '0' ++ digits

def escape (quote c : Char) : List Char :=
  if c = quote ∨ c = '\\' then ['\\', c]
  else if c = '\n' then ['\\', 'n']
  else if c = '\r' then ['\\', 'r']
  else if c = '\t' then ['\\', 't']
  else if isPrintable c then [c]
  else if c.toNat < 0x100 then '\\' :: 'x' :: hex 2 c.toNat
  else if c.toNat < 0x10000 then '\\' :: 'u' :: hex 4 c.toNat
  else '\\' :: 'U' :: hex 8 c.toNat

def quoteFor (cs : List Char) : Char :=
  if cs.contains '\'' && !cs.contains '"' then '"' else '\''

def quoted (s : String) : String :=
  let quote := quoteFor s.toList
  String.ofList (quote :: s.toList.flatMap (escape quote) ++ [quote])

def list (items : List String) : String := "[" ++ ", ".intercalate items ++ "]"

/-- A tuple of one item keeps its comma. -/
def tuple : List String → String
  | [item] => "(" ++ item ++ ",)"
  | items => "(" ++ ", ".intercalate items ++ ")"

def quotedList (names : List String) : String := list (names.map quoted)

end Causality.Text
