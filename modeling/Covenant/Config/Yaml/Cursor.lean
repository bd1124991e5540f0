/-!
# Places in a text

A cursor stands between two characters of a text and knows the line and the column there. Line ends
are brought to one form when a text is opened, so that every step passes one character.
-/

namespace Covenant

namespace Yaml

/-! ## Characters -/

/-- Whether a text may hold a character. -/
def isAllowed (c : Char) : Bool :=
  let n := c.toNat
  n = 0x09 || n = 0x0a || n = 0x0d || (0x20 ≤ n && n ≤ 0x7e) || n = 0x85
    || (0xa0 ≤ n && n ≤ 0xd7ff) || (0xe000 ≤ n && n ≤ 0xfffd) || 0x10000 ≤ n

/-- The mark that may stand in front of a text to tell the order of its bytes. -/
def isOrderMark (c : Char) : Bool :=
  c.toNat = 0xfeff

/-- Whether a character is a blank within a line. -/
def isBlank (c : Char) : Bool :=
  c = ' ' || c = '\t'

/-- Whether a character ends a line. -/
def isBreak (c : Char) : Bool :=
  c = '\n' || c.toNat = 0x2028 || c.toNat = 0x2029

/-- Whether a character is a blank or ends a line. -/
def isGap (c : Char) : Bool :=
  isBlank c || isBreak c

/-- Whether a character can be part of a name. -/
def isNameChar (c : Char) : Bool :=
  c.isAlphanum || c = '_' || c = '-'

/-- Whether a text is over, or goes on with a blank or a line end. -/
def startsGap : List Char → Bool
  | [] => true
  | c :: _ => isGap c

/-- Whether a text is over, or goes on with a line end. -/
def startsBreak : List Char → Bool
  | [] => true
  | c :: _ => isBreak c

/-- Whether a text goes on with three marks that stand apart. -/
def startsMark (mark : Char) : List Char → Bool
  | a :: b :: c :: rest => a = mark && b = mark && c = mark && startsGap rest
  | _ => false

/-- Whether a text goes on with the start or the end of a document. -/
def startsBoundary (cs : List Char) : Bool :=
  startsMark '-' cs || startsMark '.' cs

/-- A text with its line ends in one form. -/
def uniformBreaks : List Char → List Char
  | [] => []
  | '\r' :: '\n' :: rest => '\n' :: uniformBreaks rest
  | c :: rest => (if c = '\r' || c.toNat = 0x85 then '\n' else c) :: uniformBreaks rest

/-! ## Cursors -/

/-- **A place in a text**: what follows it, and where it is. Lines and columns count from zero. -/
structure Cursor where
  rest : List Char
  index : Nat := 0
  line : Nat := 0
  column : Nat := 0
  /-- The line ends passed since the last character that is not a blank. -/
  breaks : Nat := 0
deriving Repr, Inhabited

namespace Cursor

/-- The place behind the next character. -/
def next (c : Cursor) : Cursor :=
  match c.rest with
  | [] => c
  | ch :: rest =>
    if isBreak ch then
      { rest, index := c.index + 1, line := c.line + 1, column := 0, breaks := c.breaks + 1 }
    else
      { rest, index := c.index + 1, line := c.line, column := c.column + 1
        breaks := if isBlank ch then c.breaks else 0 }

/-- The place behind a number of characters. -/
def forward (c : Cursor) : Nat → Cursor
  | 0 => c
  | n + 1 => c.next.forward n

/-- The place where the rest of a text starts. -/
def upTo (c : Cursor) (rest : List Char) : Cursor :=
  c.forward (c.rest.length - rest.length)

/-- The place behind the characters of a class. -/
def skipWhile (c : Cursor) (p : Char → Bool) : Cursor :=
  c.forward (c.rest.takeWhile p).length

/-- Whether a mark of three characters starts or ends a document here. -/
def isBoundary (c : Cursor) (mark : Char) : Bool :=
  c.column = 0 && startsMark mark c.rest

/-- The place behind a comment on this line, if only blanks are in front of it. Something that goes
over several lines ends its line for comments. At most 511 blanks are looked at. -/
def skipLineComment (c : Cursor) : Cursor :=
  let blanks := c.rest.takeWhile isBlank
  if c.breaks = 0 && blanks.length < 512 && (c.rest.drop blanks.length).head? = some '#' then
    c.skipWhile (!isBreak ·)
  else c

/-- The place behind a comment and the comments on the lines below, whatever is set in front of
them. At most 511 characters between two comments are looked at. -/
def skipComments (c : Cursor) : Nat → Cursor
  | 0 => c
  | fuel + 1 =>
    let behind := c.skipWhile (!isBreak ·)
    let gap := behind.rest.takeWhile isGap
    if gap.length < 512 && (behind.rest.drop gap.length).head? = some '#' then
      (behind.forward gap.length).skipComments fuel
    else behind

end Cursor

end Yaml

end Covenant
