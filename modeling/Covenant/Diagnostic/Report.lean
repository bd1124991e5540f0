import Covenant.Diagnostic.Basic

/-!
# Reports

A diagnostic set against the source text it is about: the line in question between its neighbours,
marked, with the suggestions, notes and help below. Terminals may show it in colour.
-/

namespace Covenant

namespace Report

/-- The attributes a terminal can give a text. -/
inductive Ink where
  | bold
  | dim
  | red
  | green
  | yellow
  | blue
  | cyan
deriving DecidableEq, Repr

/-- The number that switches an attribute on. -/
def Ink.on : Ink → Nat
  | bold => 1
  | dim => 2
  | red => 31
  | green => 32
  | yellow => 33
  | blue => 34
  | cyan => 36

/-- The number that switches an attribute off. -/
def Ink.off : Ink → Nat
  | bold => 22
  | dim => 22
  | _ => 0

/-- A control sequence of a terminal. -/
def control (numbers : List Nat) : String :=
  "\x1b[" ++ ";".intercalate (numbers.map toString) ++ "m"

/-- **A text with attributes**, or as it is where colours are off. -/
def paint (coloured : Bool) (inks : List Ink) (s : String) : String :=
  if coloured then control (inks.map Ink.on) ++ s ++ control (inks.map Ink.off) else s

/-- The attributes of a level. -/
def inksOf : Level → List Ink
  | .warning => [.yellow, .bold]
  | .note => [.blue, .bold]
  | .help => [.green, .bold]
  | _ => [.red, .bold]

/-- A text repeated. -/
def repeated (n : Int) (s : String) : String :=
  String.join (List.replicate n.toNat s)

/-- A number filled up with blanks on the left. -/
def padded (width : Nat) (n : Int) : String :=
  let digits := toString n
  String.ofList (List.replicate (width - digits.length) ' ') ++ digits

/-- The width of the column of line numbers. -/
def gutterWidth (line : Int) : Nat :=
  max 3 (toString (line + 1)).length

/-- The bar between line numbers and text. -/
def bar (coloured : Bool) (ink : Ink) : String :=
  paint coloured [ink] "│"

/-- The line of a number, counted from one. -/
def line? (lines : List String) (n : Int) : Option String :=
  if 1 ≤ n then lines[(n - 1).toNat]? else none

/-- The level, code, kind and message. -/
def heading (coloured : Bool) (d : Diagnostic) : String :=
  paint coloured (inksOf d.level) d.level.name
    ++ (if d.code.text = "" then "" else "[" ++ d.code.text ++ "]") ++ ": "
    ++ (match d.kind with
      | some kind => kind.name ++ ": "
      | none => "")
    ++ d.message ++ "\n"

/-- A numbered line of the source, if there is one. -/
def sourceLine (coloured : Bool) (ink : Ink) (width : Nat) (lines : List String) (n : Int) :
    String :=
  match line? lines n with
  | some text =>
    paint coloured [ink] (padded width n) ++ " " ++ bar coloured .dim ++ " " ++ text ++ "\n"
  | none => ""

/-- The mark under the text a diagnostic is about. -/
def marker (coloured : Bool) (d : Diagnostic) : String :=
  let inks := if d.level = .warning then [Ink.yellow, Ink.bold] else [Ink.red, Ink.bold]
  repeated (d.place.column - 1) " " ++ paint coloured inks (repeated (max 1 d.length) "^")

/-- The line in question between its neighbours, with the mark under it. -/
def snippet (coloured : Bool) (lines : List String) (gutter : String) (d : Diagnostic) : String :=
  let width := gutter.length
  let n := d.place.line
  sourceLine coloured .dim width lines (n - 1)
    ++ (match line? lines n with
      | some _ =>
        sourceLine coloured .bold width lines n
          ++ gutter ++ " " ++ bar coloured .dim ++ " " ++ marker coloured d ++ "\n"
      | none => "")
    ++ sourceLine coloured .dim width lines (n + 1)

/-- A suggestion, with the new text below it. -/
def suggestionLines (coloured : Bool) (gutter label : String) (s : Suggestion) : String :=
  gutter ++ " " ++ paint coloured [.cyan] label ++ " " ++ s.message ++ "\n"
    ++ (if s.replacement = "" then ""
      else
        let text := ("\n" ++ gutter ++ " " ++ bar coloured .dim ++ " ").intercalate
          (s.replacement.splitOn "\n")
        gutter ++ " " ++ bar coloured .cyan ++ " " ++ paint coloured [.cyan] text ++ "\n")

/-- All suggestions; only the first has a label. -/
def suggestions (coloured : Bool) (gutter : String) : List Suggestion → String
  | [] => ""
  | first :: rest =>
    gutter ++ " " ++ bar coloured .dim ++ "\n" ++ suggestionLines coloured gutter "help: try" first
      ++ String.join (rest.map (suggestionLines coloured gutter "    "))

/-- A labelled remark below the snippet. -/
def remark (coloured : Bool) (gutter : String) (ink : Ink) (label text : String) : String :=
  gutter ++ " " ++ bar coloured .dim ++ " " ++ paint coloured [ink] label ++ " " ++ text ++ "\n"

end Report

namespace Diagnostic

/-- **The report of a diagnostic** against a source text. The file is the one it points at, if it
names one. -/
def report (d : Diagnostic) (coloured : Bool) (file source : String) : String :=
  let lines := source.splitOn "\n"
  let gutter := String.ofList (List.replicate (Report.gutterWidth d.place.line) ' ')
  let file := if d.place.file = "" then file else d.place.file
  Report.heading coloured d
    ++ gutter ++ " " ++ Report.paint coloured [.dim] "-->" ++ " " ++ file ++ ":"
    ++ toString d.place.line ++ ":" ++ toString d.place.column ++ "\n"
    ++ gutter ++ " " ++ Report.bar coloured .dim ++ "\n"
    ++ Report.snippet coloured lines gutter d
    ++ Report.suggestions coloured gutter d.suggestions
    ++ String.join (d.notes.map (Report.remark coloured gutter .blue "note:"))
    ++ (if d.help = "" then "" else Report.remark coloured gutter .green "help:" d.help)
    ++ "\n"

end Diagnostic

end Covenant
