import Covenant.Text.Hex

/-!
# Numerals

Numbers as people write them: integers whose first characters tell the base, with separators
between their digits, and decimal fractions with an exponent. A fraction is rounded to the nearest
double, and its whole part is taken from that.
-/

namespace Covenant

namespace Text

/-! ## Integers -/

/-- The value of a digit in a base. -/
def digit? (base : Nat) (c : Char) : Option Nat :=
  (hexValue? c).filter (· < base)

/-- The number of a run of digits in a base; at least one is needed. -/
def digits? (base : Nat) (cs : List Char) : Option Nat :=
  if cs.isEmpty then none
  else cs.foldlM (fun n c => (digit? base c).map (base * n + ·)) 0

/-- The number of an unsigned numeral: the first characters tell the base. -/
def natural? : List Char → Option Nat
  | '0' :: 'x' :: rest | '0' :: 'X' :: rest => digits? 16 rest
  | '0' :: 'o' :: rest | '0' :: 'O' :: rest => digits? 8 rest
  | '0' :: 'b' :: rest | '0' :: 'B' :: rest => digits? 2 rest
  | ['0'] => some 0
  | '0' :: rest => digits? 8 rest
  | cs => digits? 10 cs

/-- A numeral without its sign, and whether it is negative. -/
def unsigned : List Char → Bool × List Char
  | '-' :: rest => (true, rest)
  | '+' :: rest => (false, rest)
  | cs => (false, cs)

/-- A number with a sign. -/
def signed (negative : Bool) (n : Nat) : Int :=
  if negative then -(n : Int) else n

/-- The least integer of 64 bits. -/
def leastInt : Int := -9223372036854775808

/-- The greatest integer of 64 bits. -/
def greatestInt : Int := 9223372036854775807

/-- A number, if it is an integer of 64 bits. -/
def bounded? (n : Int) : Option Int :=
  if leastInt ≤ n && n ≤ greatestInt then some n else none

/-- Whether every separator stands between digits, or between the mark of a base and a digit. What
came last is a digit, a separator or neither. -/
def separatorsFit (isHex afterDigit afterSeparator : Bool) : List Char → Bool
  | [] => !afterSeparator
  | c :: rest =>
    if c.isDigit || (isHex && isHexDigit c) then separatorsFit isHex true false rest
    else if c = '_' then afterDigit && separatorsFit isHex false true rest
    else !afterSeparator && separatorsFit isHex false false rest

/-- Whether the separators of an unsigned numeral stand where they may. -/
def hasFitSeparators : List Char → Bool
  | '0' :: c :: rest =>
    let mark := c.toLower
    if mark = 'b' || mark = 'o' || mark = 'x' then separatorsFit (mark = 'x') true false rest
    else separatorsFit false false false ('0' :: c :: rest)
  | cs => separatorsFit false false false cs

/-- **The integer of 64 bits that a text spells**, with separators between its digits. -/
def integer? (text : String) : Option Int := do
  let (negative, digits) := unsigned text.toList
  if hasFitSeparators digits then
    let n ← natural? (digits.filter (· ≠ '_'))
    bounded? (signed negative n)
  else none

/-! ## Fractions -/

/-- A decimal fraction: a number of times a power of ten. -/
structure Decimal where
  factor : Nat
  exponent : Int
deriving DecidableEq, Repr, Inhabited

/-- The exponent behind the digits of a fraction. -/
def exponent? : List Char → Option Int
  | [] => some 0
  | e :: rest =>
    if e = 'e' || e = 'E' then
      let (negative, digits) := unsigned rest
      (digits? 10 digits).map (signed negative)
    else none

/-- Reads an unsigned decimal fraction: digits with at most one point, then an exponent. -/
def decimal? (cs : List Char) : Option Decimal := do
  let whole := cs.takeWhile Char.isDigit
  let rest := cs.drop whole.length
  let (hasPoint, rest) :=
    match rest with
    | '.' :: tail => (true, tail)
    | rest => (false, rest)
  let places := if hasPoint then rest.takeWhile Char.isDigit else []
  let exponent ← exponent? (rest.drop places.length)
  let factor ← digits? 10 (whole ++ places)
  return { factor, exponent := exponent - places.length }

/-- A quotient rounded to the nearest whole number; a half goes to the even one. -/
def roundQuotient (numerator denominator : Nat) : Nat :=
  let q := numerator / denominator
  let twice := 2 * (numerator % denominator)
  if twice < denominator || (twice = denominator && q % 2 = 0) then q else q + 1

/-- The whole part of the double nearest to a quotient, if doubles reach that far. A double has 53
digits in base two. -/
def wholeOfQuotient? (numerator denominator : Nat) : Option Nat :=
  if numerator = 0 then some 0
  else
    let scaled (shift : Int) : Nat × Nat :=
      if 0 ≤ shift then (numerator, denominator * Nat.pow 2 shift.toNat)
      else (numerator * Nat.pow 2 (-shift).toNat, denominator)
    -- the quotient lies between two neighbouring powers of two around this one
    let estimate : Int := (numerator.log2 : Int) - denominator.log2
    let (n, d) := scaled (estimate - 52)
    let shift := if n < 4503599627370496 * d then estimate - 53 else estimate - 52
    let (n, d) := scaled shift
    let m := roundQuotient n d
    if 0 ≤ shift then
      let whole := m * Nat.pow 2 shift.toNat
      if whole < Nat.pow 2 1024 then some whole else none
    else some (m / Nat.pow 2 (-shift).toNat)

/-- **The whole part of a decimal fraction** once it is rounded to a double; `none` if it is too
large for one. Powers of ten far beyond the doubles are not worked out. -/
def Decimal.whole? (d : Decimal) : Option Nat :=
  let magnitude : Int := (Nat.toDigits 10 d.factor).length + d.exponent
  if d.factor = 0 || magnitude < -1 then some 0
  else if 400 < magnitude then none
  else if 0 ≤ d.exponent then wholeOfQuotient? (d.factor * Nat.pow 10 d.exponent.toNat) 1
  else wholeOfQuotient? d.factor (Nat.pow 10 (-d.exponent).toNat)

/-- The integer that the whole part of a double is read as: one beyond the least integer, or just
beyond the greatest, becomes the least; one still greater becomes nothing. -/
def wordOfWhole? (negative : Bool) (whole : Nat) : Option Int :=
  if negative then some (max leastInt (-(whole : Int)))
  else if whole < 9223372036854775808 then some whole
  else if whole = 9223372036854775808 then some leastInt
  else none

end Text

end Covenant
