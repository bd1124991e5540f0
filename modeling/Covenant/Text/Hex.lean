/-!
# Hexadecimal text

Bytes and numbers written with hexadecimal digits. Writing uses lower-case digits; reading takes
either case.
-/

namespace Covenant

namespace Text

/-- The lower-case hexadecimal digit of a value below sixteen. -/
def hexDigit (n : Nat) : Char :=
  if n < 10 then Char.ofNat (48 + n) else Char.ofNat (87 + n)

/-- The value of a hexadecimal digit of either case. -/
def hexValue? (c : Char) : Option Nat :=
  let n := c.toNat
  if 48 ≤ n && n ≤ 57 then some (n - 48)
  else if 97 ≤ n && n ≤ 102 then some (n - 87)
  else if 65 ≤ n && n ≤ 70 then some (n - 55)
  else none

/-- Whether a character is a hexadecimal digit. -/
def isHexDigit (c : Char) : Bool :=
  (hexValue? c).isSome

/-- The two digits of a byte. -/
def hexByte (b : UInt8) : List Char :=
  [hexDigit (b.toNat / 16), hexDigit (b.toNat % 16)]

/-- **The digits of a byte string**, two per byte. -/
def hexBytes (bs : List UInt8) : String :=
  String.ofList (bs.flatMap hexByte)

/-- Reads an even number of digits as bytes; anything else is refused. -/
def bytesOfHex? : List Char → Option (List UInt8)
  | [] => some []
  | high :: low :: rest => do
    let h ← hexValue? high
    let l ← hexValue? low
    let tail ← bytesOfHex? rest
    return UInt8.ofNat (16 * h + l) :: tail
  | [_] => none

/-- The number that a run of hexadecimal digits denotes; `none` at any other character. -/
def natOfHexDigits? (cs : List Char) : Option Nat :=
  cs.foldlM (fun n c => (hexValue? c).map (16 * n + ·)) 0

/-- The shortest hexadecimal numeral of a number, without a mark in front. -/
def hexNat (n : Nat) : String :=
  String.ofList (Nat.toDigits 16 n)

/-- A hexadecimal numeral filled up with zeros on the left to a width. -/
def hexPadded (width n : Nat) : String :=
  let digits := Nat.toDigits 16 n
  String.ofList (List.replicate (width - digits.length) '0' ++ digits)

/-- The UTF-8 bytes of a text. -/
def bytes (s : String) : List UInt8 :=
  s.toUTF8.data.toList

end Text

end Covenant
