import Covenant.Config.Yaml.Token

/-!
# Cutting documents into tokens

Tokens are cut one by one, and wait in a queue until they are taken: a word turns out to be a key
only when a colon follows on its line, and then the tokens that say so go in front of it. How far
blocks are set in tells where they end. A text is read only as far as the tokens that are asked for
need, so what is wrong behind a document may stay unseen.
-/

namespace Covenant

namespace Yaml

/-- **A token that may turn out to be a key**: its number, and where it starts. -/
structure KeyMark where
  isOpen : Bool := false
  /-- Whether nothing but a key can stand there. -/
  isRequired : Bool := false
  number : Nat := 0
  index : Nat := 0
  line : Nat := 0
  column : Nat := 0
deriving DecidableEq, Repr, Inhabited

/-- Whether a place is too far from the start of a key for its colon. -/
def KeyMark.isBehind (k : KeyMark) (c : Cursor) : Bool :=
  k.line < c.line || k.index + 1024 < c.index

/-- **A text that is cut into tokens.** -/
structure Lexer where
  cursor : Cursor
  /-- The tokens that wait. -/
  queue : List Token := []
  /-- How many tokens were taken. -/
  taken : Nat := 0
  /-- The columns of the open blocks, innermost first. -/
  blocks : List Nat := []
  /-- The number of open brackets and braces. -/
  flow : Nat := 0
  /-- The last token that may be a key, for each open bracket or brace and for the text itself,
  innermost first. -/
  keys : List KeyMark := [{}]
  /-- The tokens to be settled before they are taken, and the level of each. -/
  unsettled : List (Nat × Nat) := []
  /-- Whether a key can start here. -/
  allowsKey : Bool := true
deriving Repr, Inhabited

namespace Lexer

/-- A problem in something that starts at a line. -/
def fail (l : Lexer) (start : Nat) (p : Problem) : Except Error Lexer :=
  .error (.spelling start l.cursor.line p)

/-- A problem right here. -/
def failHere (l : Lexer) (p : Problem) : Except Error Lexer :=
  l.fail l.cursor.line p

/-- The number of the token that comes next into the queue. -/
def nextNumber (l : Lexer) : Nat :=
  l.taken + l.queue.length

/-- Puts a token at the end of the queue. -/
def push (l : Lexer) (kind : Token.Kind) (line : Nat) : Lexer :=
  { l with queue := l.queue ++ [{ kind, line }] }

/-- Puts a token in front of one that waits; at the end if that one was taken. -/
def insert (l : Lexer) (number : Nat) (kind : Token.Kind) (line : Nat) : Lexer :=
  if number < l.taken then l.push kind line
  else
    let place := number - l.taken
    { l with queue := l.queue.take place ++ { kind, line } :: l.queue.drop place }

/-- Takes the first token. -/
def take (l : Lexer) : Lexer :=
  { l with queue := l.queue.drop 1, taken := l.taken + 1 }

/-! ## Blocks -/

/-- Ends the innermost blocks of a kind; brackets keep blocks open. -/
def closeBlocks (l : Lexer) (isOver : Nat → Bool) (line : Nat) : Lexer :=
  if l.flow ≠ 0 then l
  else
    let ended := l.blocks.takeWhile isOver
    { l with
      blocks := l.blocks.drop ended.length
      queue := l.queue ++ ended.map fun _ => { kind := .blockEnd, line } }

/-- Starts a block at a column that is set in further than the blocks around. -/
def openBlock (l : Lexer) (column number : Nat) (kind : Token.Kind) (line : Nat) : Lexer :=
  if l.flow ≠ 0 || l.blocks.head?.any (column ≤ ·) then l
  else { l with blocks := column :: l.blocks }.insert number kind line

/-! ## Keys -/

/-- Gives up on the innermost key. -/
def dropKey (l : Lexer) : Except Error Lexer :=
  match l.keys with
  | [] => .ok l
  | key :: keys =>
    if !key.isOpen then .ok l
    else if key.isRequired then l.fail key.line .noColon
    else
      .ok { l with
        keys := { key with isOpen := false } :: keys
        unsettled := l.unsettled.filter (·.1 ≠ key.number) }

/-- Notes that the next token may be a key. -/
def noteKey (l : Lexer) : Except Error Lexer :=
  if !l.allowsKey then .ok l
  else do
    let l ← l.dropKey
    let key : KeyMark :=
      { isOpen := true
        isRequired := l.flow = 0 && l.blocks.head? = some l.cursor.column
        number := l.nextNumber, index := l.cursor.index
        line := l.cursor.line, column := l.cursor.column }
    return { l with
      keys := key :: l.keys.drop 1
      unsettled := (key.number, l.keys.length - 1) :: l.unsettled.filter (·.1 ≠ key.number) }

/-- The key at a level, counted from the text itself, if it still can be one. A required key that
no longer can is a problem. -/
def keyAt (l : Lexer) (level : Nat) : Except Error (Option KeyMark × Lexer) :=
  let place := l.keys.length - 1 - level
  match l.keys[place]? with
  | none => .ok (none, l)
  | some key =>
    if !key.isOpen then .ok (none, l)
    else if !key.isBehind l.cursor then .ok (some key, l)
    else if key.isRequired then .error (.spelling key.line l.cursor.line .noColon)
    else .ok (none, { l with keys := l.keys.set place { key with isOpen := false } })

/-! ## Brackets -/

/-- Goes one level in. -/
def enter (l : Lexer) : Except Error Lexer :=
  if 10000 ≤ l.flow then l.failHere .tooDeep
  else
    .ok { l with
      keys := { number := l.nextNumber, line := l.cursor.line } :: l.keys
      flow := l.flow + 1 }

/-- Goes one level out, if there is one. -/
def leave (l : Lexer) : Lexer :=
  if l.flow = 0 then l
  else
    let number := (l.keys.head?.map KeyMark.number).getD 0
    { l with
      keys := l.keys.drop 1
      unsettled := l.unsettled.filter (·.1 ≠ number)
      flow := l.flow - 1 }

/-! ## Single tokens -/

/-- Puts a token for the next character into the queue. -/
def pushMark (l : Lexer) (kind : Token.Kind) (width : Nat) : Lexer :=
  { l.push kind l.cursor.line with cursor := l.cursor.forward width }

/-- Puts a token into the queue that ends where the rest of the text starts. -/
def pushUpTo (l : Lexer) (kind : Token.Kind) (rest : List Char) : Lexer :=
  { l.push kind l.cursor.line with cursor := l.cursor.upTo rest }

/-- The result of reading a part of the text, with the line of a problem. -/
def located {α : Type} (l : Lexer) : Except Fault α → Except Error α
  | .ok a => .ok a
  | .error (p, rest) => .error (.spelling l.cursor.line (l.cursor.upTo rest).line p)

/-- The end of the text. -/
def cutEnd (l : Lexer) : Except Error Lexer := do
  let c := l.cursor
  let c := if c.column = 0 then c else { c with column := 0, line := c.line + 1 }
  let l := { l with cursor := c }.closeBlocks (fun _ => true) c.line
  let l ← l.dropKey
  return { l with allowsKey := false }.push .streamEnd c.line

/-- A directive. -/
def cutDirective (l : Lexer) : Except Error Lexer := do
  let l ← (l.closeBlocks (fun _ => true) l.cursor.line).dropKey
  let (kind, rest) ← l.located (directive (l.cursor.rest.drop 1))
  return { l with allowsKey := false }.pushUpTo kind rest

/-- The start or the end of a document. -/
def cutBoundary (l : Lexer) (kind : Token.Kind) : Except Error Lexer := do
  let l ← (l.closeBlocks (fun _ => true) l.cursor.line).dropKey
  return { l with allowsKey := false }.pushMark kind 3

/-- An opening bracket or brace. -/
def cutOpening (l : Lexer) (kind : Token.Kind) : Except Error Lexer := do
  let l ← (← l.noteKey).enter
  return { l with allowsKey := true }.pushMark kind 1

/-- A closing bracket or brace. -/
def cutClosing (l : Lexer) (kind : Token.Kind) : Except Error Lexer := do
  let l := (← l.dropKey).leave
  return { l with allowsKey := false }.pushMark kind 1

/-- A comma. -/
def cutComma (l : Lexer) : Except Error Lexer := do
  let l ← l.dropKey
  return { l with allowsKey := true }.pushMark .comma 1

/-- The dash in front of an item. -/
def cutDash (l : Lexer) : Except Error Lexer := do
  if l.flow = 0 && !l.allowsKey then l.failHere .strayDash
  else
    let l := l.openBlock l.cursor.column l.nextNumber .blockSequence l.cursor.line
    let l ← l.dropKey
    return { l with allowsKey := true }.pushMark .dash 1

/-- The question mark in front of a key. -/
def cutKey (l : Lexer) : Except Error Lexer := do
  if l.flow = 0 && !l.allowsKey then l.failHere .strayKey
  else
    let l := l.openBlock l.cursor.column l.nextNumber .blockMapping l.cursor.line
    let l ← l.dropKey
    return { l with allowsKey := l.flow = 0 }.pushMark .key 1

/-- The colon in front of a value. It makes the innermost key one. -/
def cutValue (l : Lexer) : Except Error Lexer := do
  match ← l.keyAt (l.keys.length - 1) with
  | (some key, l) =>
    let l := l.insert key.number .key key.line
    let l := l.openBlock key.column key.number .blockMapping key.line
    return { l with
      keys := { key with isOpen := false } :: l.keys.drop 1
      unsettled := l.unsettled.filter (·.1 ≠ key.number)
      allowsKey := false }.pushMark .value 1
  | (none, l) =>
    if l.flow = 0 && !l.allowsKey then l.failHere .strayValue
    else
      let l := l.openBlock l.cursor.column l.nextNumber .blockMapping l.cursor.line
      return { l with allowsKey := l.flow = 0 }.pushMark .value 1

/-- An anchor or a reference. -/
def cutName (l : Lexer) (kind : String → Token.Kind) : Except Error Lexer := do
  let l ← l.noteKey
  let (name, rest) ← l.located (anchorName (l.cursor.rest.drop 1))
  return { l with allowsKey := false }.pushUpTo (kind name) rest

/-- A tag. -/
def cutTag (l : Lexer) : Except Error Lexer := do
  let l ← l.noteKey
  let (kind, rest) ← l.located (tag l.cursor.rest)
  return { l with allowsKey := false }.pushUpTo kind rest

/-- A block of lines. -/
def cutBlock (l : Lexer) (isLiteral : Bool) : Except Error Lexer := do
  let l ← l.dropKey
  let (header, rest) ← l.located (blockHeader (l.cursor.rest.drop 1))
  let rest := rest.dropWhile isBlank
  let rest := if rest.head? = some '#' then rest.dropWhile (!isBreak ·) else rest
  if !startsBreak rest then (l.located (.error (.noCommentOrBreak, rest)))
  let (text, rest) ← l.located (blockText isLiteral header l.blocks.head? (rest.drop 1))
  return { l with allowsKey := true }.pushUpTo (.scalar text false) rest

/-- A text in quotes. -/
def cutQuoted (l : Lexer) (isSingle : Bool) : Except Error Lexer := do
  let l ← l.noteKey
  let words : Words := { column := l.cursor.column + 1 }
  let cs := l.cursor.rest.drop 1
  let (text, rest) ← l.located (if isSingle then singleQuoted words cs else doubleQuoted words cs)
  return { l with allowsKey := false }.pushUpTo (.scalar text false) rest

/-- A plain scalar. If it ends behind a line end, a key can follow. -/
def cutPlain (l : Lexer) : Except Error Lexer := do
  let l ← l.noteKey
  let margin := (l.blocks.head?.map (· + 1)).getD 0
  let (words, rest) ←
    l.located (plainWords (l.flow ≠ 0) margin { column := l.cursor.column } l.cursor.rest)
  return { l with allowsKey := words.gap.isBroken }.pushUpTo
    (.scalar (Words.text words.read) true) rest

/-! ## The queue -/

/-- Moves to the next token. A line end lets a key start, outside of brackets; a tab may stand in
front of a token where no key can start. -/
def skipGaps (l : Lexer) : Nat → Lexer
  | 0 => l
  | fuel + 1 =>
    let takesTabs := l.flow ≠ 0 || !l.allowsKey
    let c := if l.cursor.index = 0 && l.cursor.rest.head?.any isOrderMark then l.cursor.next
      else l.cursor
    let c := c.skipWhile fun ch => ch = ' ' || (takesTabs && ch = '\t')
    let c := if c.rest.head? = some '#' then c.skipComments c.rest.length else c
    if c.rest.head?.any isBreak then
      { l with cursor := c.next, allowsKey := l.allowsKey || l.flow = 0 }.skipGaps fuel
    else { l with cursor := c }

/-- Whether a character has a meaning of its own at the start of a token. -/
def isIndicator (c : Char) : Bool :=
  "-?:,[]\x7b\x7d#&*!|>'\"%@\x60".toList.contains c

/-- Whether a plain scalar starts with a character, in front of a text. -/
def startsPlain (isFlow : Bool) (c : Char) (rest : List Char) : Bool :=
  (!isGap c && !isIndicator c)
    || (c = '-' && !rest.head?.any isBlank)
    || (!isFlow && (c = '?' || c = ':') && !startsGap rest)

/-- Cuts the token that starts with a character, in front of a text. -/
def cutToken (l : Lexer) (c : Char) (rest : List Char) : Except Error Lexer :=
  let isMark := l.flow ≠ 0 || startsGap rest
  if c = '[' then l.cutOpening .openBracket
  else if c = '\x7b' then l.cutOpening .openBrace
  else if c = ']' then l.cutClosing .closeBracket
  else if c = '\x7d' then l.cutClosing .closeBrace
  else if c = ',' then l.cutComma
  else if c = '-' && startsGap rest then l.cutDash
  else if c = '?' && isMark then l.cutKey
  else if c = ':' && isMark then l.cutValue
  else if c = '*' then l.cutName .reference
  else if c = '&' then l.cutName .anchor
  else if c = '!' then l.cutTag
  else if c = '|' && l.flow = 0 then l.cutBlock true
  else if c = '>' && l.flow = 0 then l.cutBlock false
  else if c = '\'' then l.cutQuoted true
  else if c = '"' then l.cutQuoted false
  else if startsPlain (l.flow ≠ 0) c rest then l.cutPlain
  else l.failHere .strayCharacter

/-- **Cuts the next token**, with the tokens that end blocks in front of it and a comment behind
it. -/
def cut (l : Lexer) : Except Error Lexer := do
  let before := l.cursor.line
  let l := l.skipGaps (l.cursor.rest.length + 1)
  let l := l.closeBlocks (l.cursor.column < ·) before
  match l.cursor.rest with
  | [] => l.cutEnd
  | c :: rest =>
    if l.cursor.column = 0 && c = '%' then l.cutDirective
    else if l.cursor.isBoundary '-' then l.cutBoundary .documentStart
    else if l.cursor.isBoundary '.' then l.cutBoundary .documentEnd
    else
      let l ← l.cutToken c rest
      if l.queue.getLast?.any (·.kind = .dash) then return l
      else return { l with cursor := l.cursor.skipLineComment }

/-- Whether the first token of the queue needs no more tokens behind it: at least two wait there,
and it is settled whether it is a key. -/
def isReady (l : Lexer) : Except Error (Bool × Lexer) :=
  if l.queue.length ≤ 2 then .ok (false, l)
  else
    match l.unsettled.lookup l.taken with
    | none => .ok (true, l)
    | some level => do
      let (key, l) ← l.keyAt level
      return (key.isNone, l)

/-- **Cuts tokens until the first one is ready to be taken.** -/
def fill (l : Lexer) : Nat → Except Error Lexer
  | 0 => .ok l
  | fuel + 1 => do
    let (ready, l) ← l.isReady
    if ready then return l else (← l.cut).fill fuel

/-- **Opens a text.** -/
def ofText (text : String) : Except Error Lexer :=
  let cs := text.toList
  let cs := if cs.head?.any isOrderMark then cs.drop 1 else cs
  if cs.all isAllowed then .ok { cursor := { rest := uniformBreaks cs } }
  else .error { problem := .controlCharacter }

end Lexer

end Yaml

end Covenant
