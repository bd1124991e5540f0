import Covenant.Config.Yaml.Scalar

/-!
# Tokens of documents

The parts that a document is put together from. Most are single characters of the text; where
blocks start and end, and which words are keys, is told by tokens too, though nothing is written
for them.
-/

namespace Covenant

namespace Yaml

/-- **The kinds of tokens.** -/
inductive Token.Kind where
  | streamEnd
  | version (major minor : Nat)
  /-- What a handle in front of tags stands for. -/
  | handle (name expansion : String)
  | documentStart
  | documentEnd
  | blockSequence
  | blockMapping
  | blockEnd
  | openBracket
  | closeBracket
  | openBrace
  | closeBrace
  | dash
  | comma
  | key
  | value
  | reference (name : String)
  | anchor (name : String)
  | tag (handle suffix : String)
  | scalar (text : String) (isPlain : Bool)
deriving DecidableEq, Repr, Inhabited

/-- **A token** and the line it starts at. -/
structure Token where
  kind : Token.Kind
  line : Nat
deriving DecidableEq, Repr, Inhabited

/-! ## Names and tags -/

/-- Reads the name of an anchor or a reference. -/
def anchorName (cs : List Char) : Except Fault (String × List Char) :=
  let name := cs.takeWhile isNameChar
  let rest := cs.drop name.length
  let isApart := startsGap rest || (rest.head?.any fun c => "?:,]\x7d%@\x60".toList.contains c)
  if name.isEmpty || !isApart then .error (.noName, rest)
  else .ok (String.ofList name, rest)

/-- Whether a tag may hold a character as it is. -/
def isTagChar (c : Char) : Bool :=
  isNameChar c || ";/?:@&=+$,.!~*'()[]".toList.contains c

/-- The number of octets of a character, by the first of them. -/
def octets? (n : Nat) : Option Nat :=
  if n < 0x80 then some 1
  else if 0xc0 ≤ n && n < 0xe0 then some 2
  else if 0xe0 ≤ n && n < 0xf0 then some 3
  else if 0xf0 ≤ n && n < 0xf8 then some 4
  else none

/-- Reads the text of a tag; each octet of an escaped character counts as a character. A number of
octets may be owed to the character before. -/
def tagText (owed : Nat) (text : List Char) : List Char → Except Fault (List Char × List Char)
  | [] => if owed = 0 then .ok (text, []) else .error (.noOctet, [])
  | '%' :: a :: b :: rest =>
    match Text.hexValue? a, Text.hexValue? b with
    | some high, some low =>
      let octet := 16 * high + low
      let text := text ++ [Char.ofNat octet]
      if owed = 0 then
        match octets? octet with
        | some n => tagText (n - 1) text rest
        | none => .error (.badLeadingOctet, rest)
      else if 0x80 ≤ octet && octet < 0xc0 then tagText (owed - 1) text rest
      else .error (.badTrailingOctet, rest)
    | _, _ => .error (.noOctet, rest)
  | c :: rest =>
    if owed ≠ 0 || c = '%' then .error (.noOctet, c :: rest)
    else if isTagChar c then tagText 0 (text ++ [c]) rest
    else .ok (text, c :: rest)

/-- Reads the text of a tag, which must not be empty. -/
def tagName (cs : List Char) : Except Fault (String × List Char) := do
  let (text, rest) ← tagText 0 [] cs
  if text.isEmpty then throw (.noTagName, rest)
  return (String.ofList text, rest)

/-- The start of a tag that looks like a handle: an exclamation mark, a name and, maybe, another
exclamation mark. -/
def handleText : List Char → List Char × List Char
  | '!' :: cs =>
    let name := cs.takeWhile isNameChar
    match cs.drop name.length with
    | '!' :: rest => ('!' :: name ++ ['!'], rest)
    | rest => ('!' :: name, rest)
  | cs => ([], cs)

/-- Reads a tag between angle brackets, from behind the opening one. -/
def verbatimTag (cs : List Char) : Except Fault (Token.Kind × List Char) := do
  let (name, rest) ← tagName cs
  match rest with
  | '>' :: rest => return (.tag "" name, rest)
  | rest => throw (.noClosingAngle, rest)

/-- Reads a tag that has a handle, or none but the exclamation mark. -/
def shorthandTag (cs : List Char) : Except Fault (Token.Kind × List Char) := do
  let (handle, rest) := handleText cs
  if 1 < handle.length && handle.getLast? = some '!' then
    let (suffix, rest) ← tagName rest
    return (.tag (String.ofList handle) suffix, rest)
  else
    let (suffix, rest) ← tagText 0 (handle.drop 1) rest
    return (if suffix.isEmpty then .tag "" "!" else .tag "!" (String.ofList suffix), rest)

/-- **Reads a tag**, which has to stand apart from what follows. -/
def tag (cs : List Char) : Except Fault (Token.Kind × List Char) := do
  let (kind, rest) ←
    match cs with
    | '!' :: '<' :: rest => verbatimTag rest
    | cs => shorthandTag cs
  if startsGap rest then return (kind, rest) else throw (.noBlankOrBreak, rest)

/-! ## Directives -/

/-- Reads a number of a version, of at most two digits. -/
def versionNumber (cs : List Char) : Except Fault (Nat × List Char) :=
  let digits := cs.takeWhile Char.isDigit
  let rest := cs.drop digits.length
  if digits.isEmpty then .error (.noVersion, rest)
  else if 2 < digits.length then .error (.longVersion, rest)
  else .ok (digits.foldl (fun n c => 10 * n + (c.toNat - 48)) 0, rest)

/-- Reads the version that a document is written for. -/
def versionDirective (cs : List Char) : Except Fault (Token.Kind × List Char) := do
  let (major, rest) ← versionNumber (cs.dropWhile isBlank)
  match rest with
  | '.' :: rest =>
    let (minor, rest) ← versionNumber rest
    return (.version major minor, rest)
  | rest => throw (.noVersionPoint, rest)

/-- Reads what a handle stands for. -/
def handleDirective (cs : List Char) : Except Fault (Token.Kind × List Char) := do
  let (handle, rest) := handleText (cs.dropWhile isBlank)
  if handle.isEmpty then throw (.noExclamationMark, rest)
  if 1 < handle.length && handle.getLast? ≠ some '!' then throw (.noExclamationMark, rest)
  if !rest.head?.any isBlank then throw (.noBlank, rest)
  let (expansion, rest) ← tagName (rest.dropWhile isBlank)
  if !startsGap rest then throw (.noBlankOrBreak, rest)
  return (.handle (String.ofList handle) expansion, rest)

/-- **Reads a directive** from behind its percent sign, with the line it stands on. -/
def directive (cs : List Char) : Except Fault (Token.Kind × List Char) := do
  let name := cs.takeWhile isNameChar
  let rest := cs.drop name.length
  if name.isEmpty then throw (.noDirectiveName, rest)
  if !startsGap rest then throw (.badDirectiveName, rest)
  let (kind, rest) ←
    if name = "YAML".toList then versionDirective rest
    else if name = "TAG".toList then handleDirective rest
    else throw (.unknownDirective, rest)
  let rest := rest.dropWhile isBlank
  let rest := if rest.head? = some '#' then rest.dropWhile (!isBreak ·) else rest
  if startsBreak rest then return (kind, rest.drop 1) else throw (.noCommentOrBreak, rest)

end Yaml

end Covenant
