import Covenant.Config.Yaml.Cursor
import Covenant.Config.Yaml.Error
import Covenant.Text.Hex

/-!
# Scalars

The texts of a document: plain ones, ones in quotes, and blocks of lines. Where a text goes on over
several lines, a single line end stands for a space, and of more line ends the first is dropped.
-/

namespace Covenant

namespace Yaml

/-- A problem, and what was still to be read where it was found. -/
abbrev Fault := Problem × List Char

/-! ## Gaps -/

/-- **What stands between two words**: blanks, or line ends with blanks around them. -/
structure Gap where
  blanks : List Char := []
  breaks : List Char := []
  /-- Whether the gap starts with a line end that does not count. -/
  isJoint : Bool := false
deriving DecidableEq, Repr, Inhabited

namespace Gap

/-- Whether there is no gap. -/
def isEmpty (g : Gap) : Bool :=
  g.blanks.isEmpty && g.breaks.isEmpty && !g.isJoint

/-- Whether the gap goes over a line end. -/
def isBroken (g : Gap) : Bool :=
  g.isJoint || !g.breaks.isEmpty

/-- A gap that goes on with a blank or a line end. Blanks around line ends do not count. -/
def add (g : Gap) (c : Char) : Gap :=
  if isBreak c then { g with blanks := [], breaks := g.breaks ++ [c] }
  else if g.isBroken then g
  else { g with blanks := g.blanks ++ [c] }

/-- The text of a gap. -/
def text (g : Gap) : List Char :=
  if g.isJoint then g.breaks
  else
    match g.breaks with
    | [] => g.blanks
    | ['\n'] => [' ']
    | '\n' :: more => more
    | breaks => breaks

end Gap

/-- **A scalar while it is read**: the words so far, last character first, and the gap behind
them. -/
structure Words where
  read : List Char := []
  gap : Gap := {}
  /-- The column of what comes next. -/
  column : Nat
  /-- The digits that an escape still needs, and the value of those before. -/
  code : Option (Nat × Nat) := none
deriving Repr, Inhabited

namespace Words

/-- The words with the gap behind them. -/
def flushed (w : Words) : List Char :=
  w.gap.text.reverse ++ w.read

/-- Goes on with a blank or a line end. -/
def addGap (w : Words) (c : Char) : Words :=
  { w with gap := w.gap.add c, column := if isBreak c then 0 else w.column + 1 }

/-- Goes on with a character that is written with a number of characters. -/
def addChar (w : Words) (c : Char) (width : Nat) : Words :=
  { read := c :: w.flushed, column := w.column + width }

/-- The text of the words. -/
def text (read : List Char) : String :=
  String.ofList read.reverse

end Words

/-! ## Plain scalars -/

/-- Whether a plain scalar ends in front of a text. -/
def endsPlain (isFlow : Bool) : List Char → Bool
  | [] => true
  | c :: rest =>
    (c = ':' && startsGap rest)
      || (isFlow && (c = ',' || c = '?' || c = '[' || c = ']' || c = '\x7b' || c = '\x7d'))

/-- **Reads a plain scalar.** A line that is not set in beyond the margin ends it, and so does a
comment behind a gap. -/
def plainWords (isFlow : Bool) (margin : Nat) (w : Words) :
    List Char → Except Fault (Words × List Char)
  | [] => .ok (w, [])
  | c :: rest =>
    if isGap c then
      if w.gap.isBroken && w.column < margin && c = '\t' then
        .error (.tabInIndentation, c :: rest)
      else plainWords isFlow margin (w.addGap c) rest
    else
      let isOver := !w.gap.isEmpty && (c = '#' || (!isFlow && w.column < margin)
        || (w.column = 0 && startsBoundary (c :: rest)))
      if isOver || endsPlain isFlow (c :: rest) then .ok (w, c :: rest)
      else plainWords isFlow margin (w.addChar c 1) rest

/-! ## Quoted scalars -/

/-- Whether a document starts or ends within quotes. -/
def Words.isCutOff (w : Words) (cs : List Char) : Bool :=
  !w.gap.isEmpty && w.column = 0 && startsBoundary cs

/-- **Reads a text in single quotes** up to the closing one. A quote within is written twice. -/
def singleQuoted (w : Words) : List Char → Except Fault (String × List Char)
  | [] => .error (.unclosedQuotes, [])
  | '\'' :: '\'' :: rest => singleQuoted (w.addChar '\'' 2) rest
  | c :: rest =>
    if isGap c then singleQuoted (w.addGap c) rest
    else if c = '\'' then .ok (Words.text w.flushed, rest)
    else if w.isCutOff (c :: rest) then .error (.boundaryInQuotes, c :: rest)
    else singleQuoted (w.addChar c 1) rest

/-- The character of an escape that consists of one letter. -/
def letterEscape? : Char → Option Char
  | '0' => some (Char.ofNat 0)
  | 'a' => some (Char.ofNat 7)
  | 'b' => some (Char.ofNat 8)
  | 't' => some '\t'
  | '\t' => some '\t'
  | 'n' => some '\n'
  | 'v' => some (Char.ofNat 11)
  | 'f' => some (Char.ofNat 12)
  | 'r' => some '\r'
  | 'e' => some (Char.ofNat 27)
  | ' ' => some ' '
  | '"' => some '"'
  | '\'' => some '\''
  | '\\' => some '\\'
  | 'N' => some (Char.ofNat 0x85)
  | '_' => some (Char.ofNat 0xa0)
  | 'L' => some (Char.ofNat 0x2028)
  | 'P' => some (Char.ofNat 0x2029)
  | _ => none

/-- The number of digits behind a letter that starts a numeric escape. -/
def escapeDigits? : Char → Option Nat
  | 'x' => some 2
  | 'u' => some 4
  | 'U' => some 8
  | _ => none

/-- **Reads a text in double quotes** up to the closing one. A backslash escapes what follows; in
front of a line end it joins the lines. -/
def doubleQuoted (w : Words) : List Char → Except Fault (String × List Char)
  | [] => .error (if w.code.isSome then .noEscapeDigits else .unclosedQuotes, [])
  | c :: rest =>
    match w.code with
    | some (needed, value) =>
      match Text.hexValue? c with
      | none => .error (.noEscapeDigits, c :: rest)
      | some digit =>
        let value := 16 * value + digit
        if needed ≠ 1 then
          doubleQuoted { w with code := some (needed - 1, value), column := w.column + 1 } rest
        else if value.isValidChar then doubleQuoted (w.addChar (Char.ofNat value) 1) rest
        else .error (.badEscapeCode, c :: rest)
    | none =>
      if isGap c then doubleQuoted (w.addGap c) rest
      else if c = '"' then .ok (Words.text w.flushed, rest)
      else if w.isCutOff (c :: rest) then .error (.boundaryInQuotes, c :: rest)
      else if c ≠ '\\' then doubleQuoted (w.addChar c 1) rest
      else
        match rest with
        | [] => .error (.unknownEscape, [c])
        | letter :: rest =>
          if isBreak letter then
            doubleQuoted { read := w.flushed, gap := { isJoint := true }, column := 0 } rest
          else
            match letterEscape? letter, escapeDigits? letter with
            | some escaped, _ => doubleQuoted (w.addChar escaped 2) rest
            | none, some digits =>
              doubleQuoted { read := w.flushed, column := w.column + 2, code := some (digits, 0) }
                rest
            | none, none => .error (.unknownEscape, c :: letter :: rest)

/-! ## Block scalars -/

/-- What becomes of the line ends behind a block of lines. -/
inductive Chomping where
  | strip
  | clip
  | keep
deriving DecidableEq, Repr, Inhabited

/-- The chomping that a character asks for. -/
def Chomping.ofChar? : Char → Option Chomping
  | '-' => some strip
  | '+' => some keep
  | _ => none

/-- How a block of lines is to be read: its chomping, and how far it is set in, if that is told. -/
structure BlockHeader where
  chomping : Chomping := .clip
  depth : Nat := 0
deriving DecidableEq, Repr, Inhabited

/-- Reads the two indicators of a block of lines, in either order. -/
def blockHeader (cs : List Char) : Except Fault (BlockHeader × List Char) :=
  let depth (h : BlockHeader) : List Char → Except Fault (BlockHeader × List Char)
    | c :: rest =>
      if c = '0' then .error (.zeroMargin, c :: rest)
      else if c.isDigit then .ok ({ h with depth := c.toNat - 48 }, rest)
      else .ok (h, c :: rest)
    | [] => .ok (h, [])
  match cs with
  | [] => .ok ({}, [])
  | c :: rest =>
    match Chomping.ofChar? c with
    | some chomping => depth { chomping } rest
    | none => do
      let (h, rest) ← depth {} cs
      match rest with
      | d :: tail =>
        match (if h.depth = 0 then none else Chomping.ofChar? d) with
        | some chomping => return ({ h with chomping }, tail)
        | none => return (h, d :: tail)
      | [] => return (h, [])

/-- The empty lines in front of a line of a block, the greatest column reached in them, the column
where the line starts, and what follows. -/
structure Margin where
  breaks : List Char := []
  deepest : Nat := 0
  column : Nat := 0
  rest : List Char := []
deriving Repr, Inhabited

/-- Reads empty lines and the blanks in front of the next line, up to a depth. At depth zero, all
blanks are read. -/
def margin (depth : Nat) (m : Margin) : List Char → Except Fault Margin
  | [] => .ok { m with deepest := max m.deepest m.column, rest := [] }
  | c :: rest =>
    let isShort := depth = 0 || m.column < depth
    if isShort && c = ' ' then margin depth { m with column := m.column + 1 } rest
    else if isShort && c = '\t' then .error (.tabInMargin, c :: rest)
    else
      let m := { m with deepest := max m.deepest m.column }
      if isBreak c then margin depth { m with breaks := m.breaks ++ [c], column := 0 } rest
      else .ok { m with rest := c :: rest }

/-- **A block of lines while it is read**: the text so far, last character first, the line end
behind it and the ones behind that. -/
structure Block where
  read : List Char := []
  ending : List Char := []
  further : List Char := []
  /-- Whether the last line starts with a blank. -/
  isBlank : Bool := false
deriving Repr, Inhabited

/-- What stands between the text of a block and its next line. A folded block turns a single line
end between two lines into a space, and drops the first of several, unless one of the lines starts
with a blank. -/
def Block.joint (b : Block) (isLiteral isBlankNext : Bool) : List Char :=
  if !isLiteral && !b.isBlank && !isBlankNext && b.ending.head? = some '\n' then
    if b.further.isEmpty then [' '] else b.further
  else b.ending ++ b.further

/-- Reads the lines of a block that start in a column. -/
def blockLines (isLiteral : Bool) (depth : Nat) (b : Block) (column : Nat) :
    Nat → List Char → Except Fault (Block × List Char)
  | 0, cs => .ok (b, cs)
  | _ + 1, [] => .ok (b, [])
  | fuel + 1, c :: rest =>
    if column ≠ depth then .ok (b, c :: rest)
    else do
      let line := (c :: rest).takeWhile (!isBreak ·)
      let behind := (c :: rest).drop line.length
      let m ← margin depth {} (behind.drop 1)
      let b : Block :=
        { read := line.reverse ++ (b.joint isLiteral (Yaml.isBlank c)).reverse ++ b.read
          ending := behind.take 1, further := m.breaks, isBlank := Yaml.isBlank c }
      blockLines isLiteral depth b m.column fuel m.rest

/-- **Reads a block of lines** behind its header. It is set in beyond the block around it: as far as
the header tells, or else as far as its first lines. -/
def blockText (isLiteral : Bool) (h : BlockHeader) (around : Option Nat) (cs : List Char) :
    Except Fault (String × List Char) := do
  let told := if h.depth = 0 then 0 else around.getD 0 + h.depth
  let m ← margin told {} cs
  let least := (around.map (· + 1)).getD 0
  let depth := if told = 0 then max (max m.deepest least) 1 else told
  let (b, rest) ← blockLines isLiteral depth { further := m.breaks } m.column (cs.length + 1) m.rest
  let ending :=
    match h.chomping with
    | .strip => []
    | .clip => b.ending
    | .keep => b.ending ++ b.further
  return (String.ofList (b.read.reverse ++ ending), rest)

end Yaml

end Covenant
