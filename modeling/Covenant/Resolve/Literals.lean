import Covenant.Resolve.Types

/-!
# Literals

The values that number and string literals denote. A number is kept by its decimal numeral and has
to fit in a word; a string has to fit in a word as well, unless it spells an address.
-/

namespace Covenant

namespace Resolve

/-- The number of values of a machine word. -/
def wordBound : Nat := Nat.pow 2 256

/-- The longest string that fits in a word, in bytes. -/
def maxTextBytes : Nat := 32

/-- The number that decimal digits denote; at least one is needed. -/
def decimalValue? (digits : List Char) : Option Nat :=
  if digits.isEmpty then none
  else digits.foldlM (fun n c => if c.isDigit then some (10 * n + (c.toNat - 48)) else none) 0

/-- The number that hexadecimal digits denote; at least one is needed. -/
def hexValue? (digits : List Char) : Option Nat :=
  if digits.isEmpty then none else Text.natOfHexDigits? digits

/-- **The number that a literal denotes**: separators count for nothing, and a mark in front
changes the base. -/
def literalValue? (literal : List Char) : Option Nat :=
  match literal.filter (· ≠ '_') with
  | '0' :: 'x' :: digits => hexValue? digits
  | '0' :: 'X' :: digits => hexValue? digits
  | digits => decimalValue? digits

/-- **A number literal.** -/
def number (pos : Position) (literal : String) : Except Fault Expr :=
  match literalValue? literal.toList with
  | none => .error (.malformed pos (.malformedNumber literal))
  | some n =>
    if n < wordBound then .ok (.literal pos .number (toString n))
    else .error (.malformed pos (.numericOverflow literal))

/-- **A string literal.** -/
def text (pos : Position) (value : String) : Except Fault Expr :=
  if isAddressLiteral value then .ok (.literal pos (.address none) value)
  else if maxTextBytes < value.utf8ByteSize then
    .error (.malformed pos (.longText value.utf8ByteSize maxTextBytes))
  else .ok (.literal pos .text value)

/-- A truth value. -/
def truth (pos : Position) (value : Bool) : Expr :=
  .literal pos .boolean (if value then "true" else "false")

end Resolve

end Covenant
