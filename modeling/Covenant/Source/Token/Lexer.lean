import Covenant.Source.Token

/-!
# Cutting a text into tokens

At every place the classes are tried in a fixed order and the first that matches decides, so a
comment wins over the slash operator and an operator takes its longest spelling. Each class is a
function that says how many characters it matches at the front of the text, zero if none. The cut
stops at the first place where nothing matches or where a string literal is malformed.
-/

namespace Covenant

namespace Source

namespace Lexer

/-- The classes of text runs: those of tokens, and the two that separate tokens. -/
inductive RunKind where
  | comment
  | token (kind : TokenKind)
  | blank
deriving DecidableEq, Repr

/-! ## The classes -/

/-- The number of characters up to and including the mark that ends a block comment. -/
def blockEnd? : List Char → Option Nat
  | '*' :: '/' :: _ => some 2
  | _ :: rest => (blockEnd? rest).map (· + 1)
  | [] => none

/-- A comment runs to the end of its line, or to the first closing mark behind its opening one.
Without a closing mark there is no comment. -/
def comment : List Char → Nat
  | '/' :: '/' :: rest => 2 + (rest.takeWhile (· ≠ '\n')).length
  | '/' :: '*' :: rest => ((blockEnd? rest).map (· + 2)).getD 0
  | _ => 0

/-- The number of characters up to and including the closing quote of a literal. A backslash
keeps the next character from closing it, and must not stand at the end of a line. -/
def literalEnd? (delimiter : Char) : List Char → Option Nat
  | '\\' :: c :: rest => if c = '\n' then none else (literalEnd? delimiter rest).map (· + 2)
  | c :: rest =>
    if c = delimiter then some 1
    else if c = '\\' then none
    else (literalEnd? delimiter rest).map (· + 1)
  | [] => none

/-- A string literal in either kind of quotes. -/
def text : List Char → Nat
  | [] => 0
  | c :: rest =>
    if c = '"' || c = '\'' then ((literalEnd? c rest).map (· + 1)).getD 0 else 0

/-- Decimal digits, which may be separated by underscores after the first. -/
def isDecimalPart (c : Char) : Bool :=
  c.isDigit || c = '_'

/-- Hexadecimal digits and separators. -/
def isHexPart (c : Char) : Bool :=
  Text.isHexDigit c || c = '_'

/-- A decimal number: a digit, then digits and separators. -/
def decimal : List Char → Nat
  | c :: rest => if c.isDigit then 1 + (rest.takeWhile isDecimalPart).length else 0
  | [] => 0

/-- A number: hexadecimal behind its mark if a digit or separator follows, else decimal. -/
def number (cs : List Char) : Nat :=
  match cs with
  | '0' :: x :: rest =>
    let digits := (rest.takeWhile isHexPart).length
    if (x = 'x' || x = 'X') && digits ≠ 0 then 2 + digits else decimal cs
  | _ => decimal cs

/-- What an identifier may start with. -/
def isIdentifierStart (c : Char) : Bool :=
  c.isAlpha || c = '_' || c = '$'

/-- What an identifier may go on with. -/
def isIdentifierPart (c : Char) : Bool :=
  isIdentifierStart c || c.isDigit

/-- An identifier. -/
def identifier : List Char → Nat
  | c :: rest =>
    if isIdentifierStart c then 1 + (rest.takeWhile isIdentifierPart).length else 0
  | [] => 0

/-- The spellings of operators, each before those it extends. -/
def operators : List String :=
  ["===", "!==", "**", "==", "!=", "<=", ">=", "&&", "||", "+=", "-=", "=>",
    "-", "+", "*", "/", "%", "<", ">", "=", "!", "?"]

/-- An operator. -/
def operator (cs : List Char) : Nat :=
  ((operators.find? fun o => o.toList.isPrefixOf cs).map String.length).getD 0

/-- A punctuation mark. -/
def punctuation : List Char → Nat
  | c :: _ => if "\x7b\x7d[]():;,.".toList.contains c then 1 else 0
  | [] => 0

/-- Blanks between tokens. -/
def blank (cs : List Char) : Nat :=
  (cs.takeWhile fun c => c = ' ' || c = '\t' || c = '\r' || c = '\n').length

/-- How many characters of the text a class matches. -/
def RunKind.span : RunKind → List Char → Nat
  | comment => Lexer.comment
  | token .text => Lexer.text
  | token .number => Lexer.number
  | token .identifier => Lexer.identifier
  | token .operator => Lexer.operator
  | token .punctuation => Lexer.punctuation
  | blank => Lexer.blank

/-- The order in which the classes are tried. -/
def RunKind.order : List RunKind :=
  [comment, token .text, token .number, token .identifier, token .operator, token .punctuation,
    blank]

/-! ## The cut -/

/-- The first class that matches at the front of the text. -/
def classify? (cs : List Char) : Option RunKind :=
  RunKind.order.find? fun k => k.span cs ≠ 0

/-- What a diagnostic shows of a text in which no token starts: its first sixteen characters. -/
def sample (cs : List Char) : String :=
  if cs.length ≤ 16 then String.ofList cs else String.ofList (cs.take 16) ++ "..."

/-- The token that a run of the text is. -/
def tokenOf (kind : TokenKind) (run : List Char) (pos : Position) : Except SyntaxError Token :=
  match kind with
  | .text =>
    match Text.unquote? run with
    | some value => .ok { kind, value, pos }
    | none => .error { cause := .malformedText (String.ofList run), pos }
  | _ => .ok { kind, value := String.ofList run, pos }

/-- Every class that matches takes at least one character, so each step of the cut is a
progress. -/
theorem span_pos_of_classify? {cs : List Char} {k : RunKind} (h : classify? cs = some k) :
    0 < k.span cs := by
  have := List.find?_some h
  simp at this
  omega

/-- The tokens of the text from a place on. -/
def scanFrom (pos : Position) (cs : List Char) : Except SyntaxError TokenStream :=
  match cs with
  | [] => .ok { tokens := [], finish := pos }
  | c :: rest =>
    match h : classify? (c :: rest) with
    | none => .error { cause := .strayText (sample (c :: rest)), pos }
    | some kind =>
      have := span_pos_of_classify? h
      let run := (c :: rest).take (kind.span (c :: rest))
      let next := scanFrom (pos.advance run) ((c :: rest).drop (kind.span (c :: rest)))
      match kind with
      | .token kind =>
        match tokenOf kind run pos, next with
        | .ok token, .ok stream => .ok { stream with tokens := token :: stream.tokens }
        | .ok _, .error e => .error e
        | .error e, _ => .error e
      | _ => next
termination_by cs.length

end Lexer

/-- **The tokens of a source text**, or the first place where it cannot be cut. -/
def scan (file source : String) : Except SyntaxError TokenStream :=
  Lexer.scanFrom (Position.start file) source.toList

end Source

end Covenant
