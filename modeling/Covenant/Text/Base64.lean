/-!
# Base 64

Bytes written with sixty-four digits, four digits for three bytes. The last four may end in one or
two marks that stand for no byte. Line ends between the digits count for nothing.
-/

namespace Covenant

namespace Text

namespace Base64

/-- The value of a digit. -/
def digit? (c : Char) : Option Nat :=
  if c.isUpper then some (c.toNat - 65)
  else if c.isLower then some (c.toNat - 71)
  else if c.isDigit then some (c.toNat + 4)
  else if c = '+' then some 62
  else if c = '/' then some 63
  else none

/-- The three bytes of four digits. -/
def quantum? (a b c d : Char) : Option (List UInt8) := do
  let n := 262144 * (← digit? a) + 4096 * (← digit? b) + 64 * (← digit? c) + (← digit? d)
  return [UInt8.ofNat (n / 65536), UInt8.ofNat (n / 256), UInt8.ofNat n]

/-- The bytes of digits without line ends. -/
def digits? : List Char → Option (List UInt8)
  | [] => some []
  | [a, b, '=', '='] => (quantum? a b 'A' 'A').map (List.take 1)
  | [a, b, c, '='] => (quantum? a b c 'A').map (List.take 2)
  | a :: b :: c :: d :: rest => do return (← quantum? a b c d) ++ (← digits? rest)
  | _ => none

/-- **The bytes that a text spells.** -/
def decode? (text : String) : Option (List UInt8) :=
  digits? (text.toList.filter fun c => c ≠ '\n' && c ≠ '\r')

end Base64

end Text

end Covenant
