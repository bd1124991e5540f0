import Covenant.Editor.IpAddress

/-!
# Addresses of documents

An editor names a document by an address such as `file:///w/token.ts`. Only the path of the address
matters, with its percent escapes decoded; the query and the fragment are dropped, and an address
whose part behind the scheme does not start with a slash has no path. The rest of the address is
checked all the same.
-/

namespace Covenant

namespace Editor

/-- **Why an address is refused.** -/
inductive UriError where
  | controlCharacter
  | missingScheme
  | colonInFirstSegment
  | invalidEscape (bytes : List UInt8)
  | invalidHostCharacter (text : String)
  | invalidPort (text : String)
  | invalidUser
  | unclosedBracket
  | misplacedAddress
  | invalidAddress (text : List UInt8) (cause : IpError)
deriving DecidableEq, Repr, Inhabited

/-- The wording of an error. -/
def UriError.message : UriError → String
  | controlCharacter => "net/url: invalid control character in URL"
  | missingScheme => "missing protocol scheme"
  | colonInFirstSegment => "first path segment in URL cannot contain colon"
  | invalidEscape bytes => "invalid URL escape " ++ Text.quoteBytes bytes
  | invalidHostCharacter text => "invalid character " ++ Text.quote text ++ " in host name"
  | invalidPort text => "invalid port " ++ Text.quote text ++ " after host"
  | invalidUser => "net/url: invalid userinfo"
  | unclosedBracket => "missing ']' in host"
  | misplacedAddress => "invalid IP-literal"
  | invalidAddress text cause => "invalid host: " ++ cause.message text

namespace Uri

open Text (charOf)

/-- Cuts a text at the first character of a kind. -/
def cut (mark : Char) (cs : List Char) : List Char × List Char :=
  (cs.takeWhile (· ≠ mark), (cs.dropWhile (· ≠ mark)).drop 1)

/-- The part of a text behind the last character of a kind; all of it, where there is none. -/
def behindLast (mark : Char) (cs : List Char) : List Char :=
  (cs.reverse.takeWhile (· ≠ mark)).reverse

/-- Whether a character is an ASCII control character. -/
def isControl (c : Char) : Bool :=
  c.toNat < 32 || c.toNat = 127

/-- Whether a character is an ASCII letter. -/
def isLetter (c : Char) : Bool :=
  c.isAlpha

/-- Whether a character may stand in a scheme, but not at its start. -/
def isSchemeTail (c : Char) : Bool :=
  c.isDigit || c = '+' || c = '-' || c = '.'

/-- The scheme of an address, and what stands behind it. A text without a scheme is all rest. -/
def scheme (cs : List Char) : Except UriError (List Char × List Char) :=
  let name := cs.takeWhile fun c => isLetter c || isSchemeTail c
  match cs.drop name.length with
  | ':' :: rest =>
    match name with
    | [] => .error .missingScheme
    | c :: _ => if isLetter c then .ok (name, rest) else .ok ([], cs)
  | _ => .ok ([], cs)

/-! ## Percent escapes -/

/-- The bytes of a text. -/
def bytesOf (cs : List Char) : List UInt8 :=
  Text.bytes (String.ofList cs)

/-- The byte that two digits behind a percent sign stand for. -/
def escaped? (high low : UInt8) : Option UInt8 := do
  let h ← Text.hexValue? (charOf high)
  let l ← Text.hexValue? (charOf low)
  return UInt8.ofNat (16 * h + l)

/-- **The bytes of a text without its percent escapes.** A byte that stands for itself has to be a
`plain` one, and one that is escaped an `escapable` one; the first that is not is reported. -/
def unescape (plain escapable : UInt8 → Bool) : List UInt8 → Except UriError (List UInt8)
  | [] => .ok []
  | b :: rest =>
    if charOf b = '%' then
      match rest with
      | high :: low :: tail =>
        match escaped? high low with
        | some value =>
          if escapable value then do return value :: (← unescape plain escapable tail)
          else .error (.invalidEscape [b, high, low])
        | none => .error (.invalidEscape [b, high, low])
      | _ => .error (.invalidEscape (b :: rest))
    else if plain b then do return b :: (← unescape plain escapable rest)
    else .error (.invalidHostCharacter (String.singleton (charOf b)))

/-- Decodes a text in which every byte may stand and be escaped. Bytes that belong to no character
are kept apart. -/
def decode (cs : List Char) : Except UriError String := do
  return Text.keepBytes (← unescape (fun _ => true) (fun _ => true) (bytesOf cs))

/-! ## Users and hosts -/

/-- Whether a byte is an ASCII one that may stand in the name of a host. -/
def isHostByte (b : UInt8) : Bool :=
  b < 128 && ((charOf b).isAlphanum || "-_.~!$&'()*+,;=:[]<>\"".toList.contains (charOf b))

/-- The bytes of a part of a host. Those outside of ASCII may stand; of the others, only those of
a host name. -/
def hostBytes (escapable : UInt8 → Bool) (cs : List Char) : Except UriError (List UInt8) :=
  unescape (fun b => 128 ≤ b || isHostByte b) escapable (bytesOf cs)

/-- Whether a byte may be escaped in the name of a host: one outside of ASCII, or the percent
sign. -/
def escapableInHost (b : UInt8) : Bool :=
  128 ≤ b || charOf b = '%'

/-- Whether a byte may be escaped in a zone: one of a host name, the percent sign or a blank. -/
def escapableInZone (b : UInt8) : Bool :=
  isHostByte b || charOf b = '%' || charOf b = ' '

/-- Whether a port, with its colon, consists of digits; there may be none. -/
def isPort : List Char → Bool
  | [] => true
  | c :: digits => c = ':' && digits.all Char.isDigit

/-- The last part of a host from its last colon on. -/
def portOf (cs : List Char) : List Char :=
  if cs.contains ':' then ':' :: behindLast ':' cs else []

/-- How many characters stand in front of the zone of a numeric address, which starts with an
escaped percent sign. -/
def zoneStart? : List Char → Option Nat
  | [] => none
  | c :: rest =>
    if ['%', '2', '5'].isPrefixOf (c :: rest) then some 0 else (zoneStart? rest).map (· + 1)

/-- The bytes of a numeric address, which may have a zone. -/
def addressBytes (cs : List Char) : Except UriError (List UInt8) := do
  match zoneStart? cs with
  | none => hostBytes escapableInHost cs
  | some n =>
    let address ← hostBytes escapableInHost (cs.take n)
    return address ++ (← hostBytes escapableInZone (cs.drop n))

/-- Checks the numeric address that stands between brackets. It has to be of the kind that colons
divide. -/
def checkAddress (cs : List Char) : Except UriError Unit := do
  let bytes ← addressBytes cs
  match IpVersion.ofBytes bytes with
  | .error e => throw (.invalidAddress bytes e)
  | .ok .four => throw .misplacedAddress
  | .ok .six => return

/-- Checks a port with its colon. -/
def checkPort (cs : List Char) : Except UriError Unit :=
  if isPort cs then .ok () else .error (.invalidPort (String.ofList cs))

/-- Checks a host: a numeric address in brackets or a name, either with a port behind it. -/
def checkHost (cs : List Char) : Except UriError Unit :=
  if (cs.drop 1).contains '[' then .error .misplacedAddress
  else if cs.head? = some '[' then
    if !cs.contains ']' then .error .unclosedBracket
    else do
      let port := behindLast ']' cs
      checkPort port
      checkAddress ((cs.take (cs.length - port.length - 1)).drop 1)
  else do
    checkPort (portOf cs)
    let _ ← hostBytes escapableInHost cs

/-- Whether a character may stand in front of a host, before the at sign. -/
def isUserChar (c : Char) : Bool :=
  c.isAlphanum || "-._:~!$&'()*+,;=%@".toList.contains c

/-- Checks the user in front of a host: a name and, behind a colon, a password. -/
def checkUser (cs : List Char) : Except UriError Unit := do
  if !cs.all isUserChar then throw .invalidUser
  let (name, password) := cut ':' cs
  let _ ← decode name
  let _ ← decode password

/-- Checks the part between two slashes and the path. -/
def checkAuthority (cs : List Char) : Except UriError Unit :=
  if cs.contains '@' then do
    let host := behindLast '@' cs
    checkHost host
    checkUser (cs.take (cs.length - host.length - 1))
  else checkHost cs

/-! ## Paths -/

/-- The path of an address without its fragment. -/
def pathOf (cs : List Char) : Except UriError String := do
  if cs.any isControl then throw .controlCharacter
  let (name, rest) ← scheme cs
  let (rest, _) := cut '?' rest
  match rest with
  | '/' :: '/' :: tail =>
    if name.isEmpty && tail.head? = some '/' then decode rest
    else
      checkAuthority (tail.takeWhile (· ≠ '/'))
      decode (tail.dropWhile (· ≠ '/'))
  | '/' :: _ => decode rest
  | _ =>
    if !name.isEmpty then return ""
    else if (cut '/' rest).1.contains ':' then throw .colonInFirstSegment
    else decode rest

/-- **The path of the document at an address**, or what is said of a bad address. -/
def path (uri : String) : Except String String :=
  let (address, fragment) := cut '#' uri.toList
  let refusal (text : List Char) (e : UriError) : String :=
    "invalid URI " ++ uri ++ ": parse " ++ Text.quote (String.ofList text) ++ ": " ++ e.message
  match pathOf address with
  | .error e => .error (refusal address e)
  | .ok path =>
    match decode fragment with
    | .error e => .error (refusal uri.toList e)
    | .ok _ => .ok path

end Uri

end Editor

end Covenant
