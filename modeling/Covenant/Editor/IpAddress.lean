import Covenant.Text.Utf8

/-!
# Numeric addresses of hosts

A host can be given by the number it has in a network: four octets with dots between them, or
eight groups of hexadecimal digits with colons between them. Once, two colons may stand for groups
of zeros, and the last two groups may be written as octets. Nothing is ever sent to such an address,
so it is only checked.
-/

namespace Covenant

namespace Editor

/-- **Why a text is no numeric address**, with the part of it that was not understood. -/
inductive IpError where
  | unrecognized
  | onlyZone
  | emptyZone
  | leadingZero
  | octetTooLarge
  | emptyOctet (rest : List UInt8)
  | tooManyOctets
  | unexpectedCharacter (rest : List UInt8)
  | tooFewOctets
  | longGroup (rest : List UInt8)
  | emptyGroup (rest : List UInt8)
  | misplacedOctets (rest : List UInt8)
  | noRoomForOctets (rest : List UInt8)
  | missingColon (rest : List UInt8)
  | danglingColon (rest : List UInt8)
  | secondGap (rest : List UInt8)
  | tooManyGroups (rest : List UInt8)
  | tooFewGroups
  | emptyGap
deriving DecidableEq, Repr, Inhabited

namespace IpError

/-- What is wrong. -/
def reason : IpError → String
  | unrecognized => "unable to parse IP"
  | onlyZone => "missing IPv6 address"
  | emptyZone => "zone must be a non-empty string"
  | leadingZero => "IPv4 field has octet with leading zero"
  | octetTooLarge => "IPv4 field has value >255"
  | emptyOctet _ => "IPv4 field must have at least one digit"
  | tooManyOctets => "IPv4 address too long"
  | unexpectedCharacter _ => "unexpected character"
  | tooFewOctets => "IPv4 address too short"
  | longGroup _ => "each group must have 4 or less digits"
  | emptyGroup _ => "each colon-separated field must have at least one digit"
  | misplacedOctets _ =>
    "embedded IPv4 address must replace the final 2 fields of the address"
  | noRoomForOctets _ =>
    "too many hex fields to fit an embedded IPv4 at the end of the address"
  | missingColon _ => "unexpected character, want colon"
  | danglingColon _ => "colon must be followed by more characters"
  | secondGap _ => "multiple :: in address"
  | tooManyGroups _ => "trailing garbage after address"
  | tooFewGroups => "address string too short"
  | emptyGap => "the :: must expand to at least one field of zeros"

/-- Where it is wrong; nowhere in particular, where this is empty. -/
def rest : IpError → List UInt8
  | emptyOctet rest | unexpectedCharacter rest | longGroup rest | emptyGroup rest
  | misplacedOctets rest | noRoomForOctets rest | missingColon rest | danglingColon rest
  | secondGap rest | tooManyGroups rest => rest
  | _ => []

/-- The wording of an error with a text. -/
def message (e : IpError) (text : List UInt8) : String :=
  "ParseAddr(" ++ Text.quoteBytes text ++ "): " ++ e.reason
    ++ if e.rest.isEmpty then "" else " (at " ++ Text.quoteBytes e.rest ++ ")"

end IpError

/-- The two kinds of numeric addresses. -/
inductive IpVersion where
  | four
  | six
deriving DecidableEq, Repr, Inhabited

namespace IpVersion

open Text (charOf)

/-- How far octets have been read: the value and the number of digits of the one at hand, and the
number of those in front of it. -/
structure Octets where
  value : Nat := 0
  digits : Nat := 0
  before : Nat := 0

/-- **Checks four octets** with dots between them. -/
def checkOctets (o : Octets) : List UInt8 → Except IpError Unit
  | [] => if o.before < 3 then .error .tooFewOctets else .ok ()
  | b :: rest =>
    let c := charOf b
    let value := 10 * o.value + (c.toNat - '0'.toNat)
    if c.isDigit then
      if o.digits = 1 && o.value = 0 then .error .leadingZero
      else if 255 < value then .error .octetTooLarge
      else checkOctets { o with value, digits := o.digits + 1 } rest
    else if c = '.' then
      if o.digits = 0 || rest.isEmpty then .error (.emptyOctet (b :: rest))
      else if o.before = 3 then .error .tooManyOctets
      else checkOctets { before := o.before + 1 } rest
    else .error (.unexpectedCharacter (b :: rest))

/-- Ends the groups of an address that has room for more: a gap fills it, and has to. -/
def finish (gap : Bool) (room : Nat) : Except IpError Unit :=
  if room = 0 then if gap then .error .emptyGap else .ok ()
  else if gap then .ok () else .error .tooFewGroups

/-- **Checks the groups of an address** that has room for some more; `gap` says whether two colons
have been read. -/
def checkGroups (gap : Bool) (s : List UInt8) : Nat → Except IpError Unit
  | 0 => if s.isEmpty then finish gap 0 else .error (.tooManyGroups s)
  | room + 1 =>
    let digits := s.takeWhile fun b => (Text.hexValue? (charOf b)).isSome
    if 4 < digits.length then .error (.longGroup s)
    else if digits.isEmpty then .error (.emptyGroup s)
    else
      match s.drop digits.length with
      | [] => finish gap room
      | b :: rest =>
        if charOf b = '.' then
          if !gap && room ≠ 1 then .error (.misplacedOctets s)
          else if room = 0 then .error (.noRoomForOctets s)
          else do
            checkOctets {} s
            finish gap (room - 1)
        else if charOf b ≠ ':' then .error (.missingColon (b :: rest))
        else
          match rest with
          | [] => .error (.danglingColon [b])
          | c :: more =>
            if charOf c ≠ ':' then checkGroups gap rest room
            else if gap then .error (.secondGap rest)
            else if more.isEmpty then finish true room
            else checkGroups true more room

/-- Checks an address of eight groups, which may start with a gap. -/
def checkSix (s : List UInt8) : Except IpError Unit :=
  match s.map charOf with
  | [':', ':'] => .ok ()
  | ':' :: ':' :: _ => checkGroups true (s.drop 2) 8
  | _ => checkGroups false s 8

/-- **The kind of a numeric address.** The first character that is no digit tells which one it is
meant to be; the name of a zone may stand behind a percent sign. -/
def ofBytes (s : List UInt8) : Except IpError IpVersion :=
  match (s.map charOf).find? fun c => c = '.' || c = ':' || c = '%' with
  | some '.' => do
    checkOctets {} s
    return .four
  | some ':' => do
    let address := s.takeWhile fun b => charOf b ≠ '%'
    if s.length = address.length + 1 then throw .emptyZone
    checkSix address
    return .six
  | some _ => .error .onlyZone
  | none => .error .unrecognized

end IpVersion

end Editor

end Covenant
