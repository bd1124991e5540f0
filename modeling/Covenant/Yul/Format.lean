import Covenant.Text.Blank

/-!
# Formatting assembly text

Formatting drops blank lines and the titles of sections, and sets each line in by the number of
braces around it. Only braces count: what the code means is of no concern, so any text can be
formatted.
-/

namespace Covenant

namespace Yul

/-- The blanks within the title line of a section. -/
def isMarkBlank (c : Char) : Bool :=
  c = ' ' || c = '\t' || c = '\n' || c = '\x0c' || c = '\r'

/-- Whether a text ends with a blank and a dash. -/
def endsMarked : List Char → Bool
  | [] => false
  | [_] => false
  | [a, b] => isMarkBlank a && b = '-'
  | _ :: rest => endsMarked rest

/-- **Whether a line is the title of a section**: a comment between two dashes that stand apart. -/
def isTitle (line : List Char) : Bool :=
  match line with
  | '/' :: '/' :: rest =>
    match rest.dropWhile isMarkBlank with
    | '-' :: blank :: title => isMarkBlank blank && endsMarked title
    | _ => false
  | _ => false

/-- Puts a character in front of the first line, or starts a new line. -/
def consLine (c : Char) (lines : List (List Char)) : List (List Char) :=
  match lines with
  | line :: rest => if c = '\n' then [] :: line :: rest else (c :: line) :: rest
  | [] => [[c]]

/-- The lines of a text. -/
def splitLines (text : List Char) : List (List Char) :=
  text.foldr consLine [[]]

/-- The lines of a text without blanks around them. -/
def trimmedLines (text : List Char) : List (List Char) :=
  (splitLines text).map Text.trimChars

/-- **The lines that formatting keeps.** -/
def keptLines (text : List Char) : List (List Char) :=
  (trimmedLines text).filter fun line => !line.isEmpty && !isTitle line

/-- The number of closing braces a line starts with. -/
def leadingClosers (line : List Char) : Nat :=
  (line.takeWhile (· = '\x7d')).length

/-- **The depth after a line**, from the depth before it. It never falls below zero. -/
def depthAfter (depth : Nat) (line : List Char) : Nat :=
  let rest := line.dropWhile (· = '\x7d')
  depth - leadingClosers line + rest.count '\x7b' - rest.count '\x7d'

/-- A line, set in. -/
def indented (depth : Nat) (line : List Char) : List Char :=
  List.replicate (4 * depth) ' ' ++ line ++ ['\n']

/-- Sets lines in, from a depth on. Closing braces at the start of a line count for that line. -/
def layOut : Nat → List (List Char) → List Char
  | _, [] => []
  | depth, line :: rest =>
    indented (depth - leadingClosers line) line ++ layOut (depthAfter depth line) rest

/-- **Formats assembly text.** -/
def format (text : String) : String :=
  String.ofList (layOut 0 (keptLines text.toList))

/-- The title in a title line. -/
def titleOf (line : List Char) : List Char :=
  let inner := Text.trimChars (line.drop 2)
  Text.trimChars (Text.trimWhere (· = '-') inner)

/-- **The titles of the sections of a text**, in order. -/
def titles (text : String) : List String :=
  (((trimmedLines text.toList).filter isTitle).map titleOf).map String.ofList

end Yul

end Covenant
