import Covenant.Text.Printable
import Covenant.Text.Hex

/-!
# Quoted texts

Diagnostics and listings show a text between double quotes. The quote, the backslash and the
common controls get a short escape, a printable character stands for itself, and every other
character is written by its code point, so that no two texts are shown alike.
-/

namespace Covenant

namespace Text

/-- The short escapes of control characters. -/
def controlEscape? (c : Char) : Option Char :=
  match c.toNat with
  | 0x07 => some 'a'
  | 0x08 => some 'b'
  | 0x0c => some 'f'
  | 0x0a => some 'n'
  | 0x0d => some 'r'
  | 0x09 => some 't'
  | 0x0b => some 'v'
  | _ => none

/-- One character inside double quotes. -/
def quoteChar (c : Char) : String :=
  if c = '"' || c = '\\' then String.ofList ['\\', c]
  else if isPrintable c then c.toString
  else match controlEscape? c with
    | some e => String.ofList ['\\', e]
    | none =>
      if c.toNat < 0x80 then "\\x" ++ hexPadded 2 c.toNat
      else if c.toNat < 0x10000 then "\\u" ++ hexPadded 4 c.toNat
      else "\\U" ++ hexPadded 8 c.toNat

/-- **A text in double quotes**, with everything escaped that would not show. -/
def quote (s : String) : String :=
  "\"" ++ String.join (s.toList.map quoteChar) ++ "\""

/-! ## Reading a literal

The inverse direction serves the lexer: a literal may stand in single or double quotes, and the
quote that encloses it is the only one it may escape. -/

/-- A code point given by digits; surrogates and values past the last code point are refused. -/
def charOfCode? (n : Nat) : Option Char :=
  if n < 0xd800 || (0xdfff < n && n < 0x110000) then some (Char.ofNat n) else none

/-- The value of exactly `count` hexadecimal digits at the front. -/
def leadingHex? (count : Nat) (cs : List Char) : Option Nat :=
  let digits := cs.take count
  if digits.length = count then natOfHexDigits? digits else none

/-- The value of an octal digit. -/
def octalValue? (c : Char) : Option Nat :=
  if '0' ≤ c && c ≤ '7' then some (c.toNat - 48) else none

/-- **What an escape denotes**: its character and how many digits follow its letter `c`. An escape
by byte value denotes the code point of that value, and of the two quotes only the delimiter may
be escaped. -/
def escape? (delimiter c : Char) (rest : List Char) : Option (Char × Nat) :=
  match c with
  | 'a' => some (Char.ofNat 0x07, 0)
  | 'b' => some (Char.ofNat 0x08, 0)
  | 'f' => some (Char.ofNat 0x0c, 0)
  | 'n' => some ('\n', 0)
  | 'r' => some ('\r', 0)
  | 't' => some ('\t', 0)
  | 'v' => some (Char.ofNat 0x0b, 0)
  | '\\' => some ('\\', 0)
  | '\'' => if delimiter = '\'' then some (c, 0) else none
  | '"' => if delimiter = '"' then some (c, 0) else none
  | 'x' => (leadingHex? 2 rest).map (Char.ofNat ·, 2)
  | 'u' => ((leadingHex? 4 rest).bind charOfCode?).map (·, 4)
  | 'U' => ((leadingHex? 8 rest).bind charOfCode?).map (·, 8)
  | _ => do
    let a ← octalValue? c
    let b ← rest.head?.bind octalValue?
    let d ← rest.tail.head?.bind octalValue?
    let n := 64 * a + 8 * b + d
    if n ≤ 255 then some (Char.ofNat n, 2) else none

/-- The characters between the quotes of a literal, decoded. -/
def decodeBody? (delimiter : Char) (cs : List Char) : Option (List Char) :=
  match cs with
  | [] => some []
  | '\\' :: [] => none
  | '\\' :: c :: rest => do
    let (d, digits) ← escape? delimiter c rest
    return d :: (← decodeBody? delimiter (rest.drop digits))
  | c :: rest =>
    if c = delimiter then none
    else (decodeBody? delimiter rest).map (c :: ·)
termination_by cs.length
decreasing_by all_goals simp; try omega

/-- **The text a quoted literal denotes**; `none` if an escape in it is not one. The literal is
given with its quotes, of which the first says how it is delimited. -/
def unquote? (literal : List Char) : Option String :=
  match literal with
  | delimiter :: rest => (decodeBody? delimiter rest.dropLast).map String.ofList
  | [] => none

end Text

end Covenant
