/-
  Statechart.Text.Quoted — a text between quotation marks, as messages show names.

  Single marks, unless the text has a single mark and no double one. The mark itself and
  the backslash are escaped, and so are characters that would not show.
-/

import Statechart.Text.Hidden

namespace Statechart.Text

def hexDigit (n : Nat) : Char := if n < 10 then Char.ofNat (48 + n) else Char.ofNat (87 + n)

/-- Two hexadecimal digits. -/
def hexByte (n : Nat) : List Char := [hexDigit (n / 16 % 16), hexDigit (n % 16)]

/-- The shortest of the three forms, with two, four or eight digits, that holds a code point. -/
def codePoint (n : Nat) : List Char :=
  if n < 0x100 then 'x' :: hexByte n
  else if n < 0x10000 then 'u' :: (hexByte (n / 0x100) ++ hexByte n)
  else 'U' :: (hexByte (n / 0x1000000) ++ hexByte (n / 0x10000) ++ hexByte (n / 0x100) ++ hexByte n)

def escape (mark c : Char) : List Char :=
  if c = mark ∨ c = '\\' then ['\\', c]
  else if c = '\n' then ['\\', 'n']
  else if c = '\r' then ['\\', 'r']
  else if c = '\t' then ['\\', 't']
  else if hidden c then '\\' :: codePoint c.toNat
  else [c]

def mark (cs : List Char) : Char := if cs.contains '\'' && !cs.contains '"' then '"' else '\''

def quote (s : String) : String :=
  let m := mark s.toList
  .ofList (m :: s.toList.flatMap (escape m) ++ [m])

end Statechart.Text
