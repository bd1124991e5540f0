/-!
# Positions in source files

A place in a source text: the file it is in, the line and column a reader counts, and the offset
in bytes that orders places of one file. Lines and columns start at one; zero means that a place
is not known.
-/

namespace Covenant

/-- **A place in a source file.** Columns count code points, offsets count UTF-8 bytes. -/
structure Position where
  file : String := ""
  line : Nat := 0
  column : Nat := 0
  offset : Nat := 0
deriving DecidableEq, Repr, Inhabited

namespace Position

/-- The first place of a file. -/
def start (file : String) : Position :=
  { file, line := 1, column := 1, offset := 0 }

/-- The place behind one character: a line feed starts a new line. -/
def next (p : Position) (c : Char) : Position :=
  if c = '\n' then
    { p with line := p.line + 1, column := 1, offset := p.offset + c.utf8Size }
  else
    { p with column := p.column + 1, offset := p.offset + c.utf8Size }

/-- The place behind a run of characters. -/
def advance (p : Position) (cs : List Char) : Position :=
  cs.foldl next p

/-- The line and column as a reader writes them, after the name of the file if there is one. -/
def render (p : Position) : String :=
  let place := toString p.line ++ ":" ++ toString p.column
  if p.file = "" then place else p.file ++ ":" ++ place

end Position

end Covenant
