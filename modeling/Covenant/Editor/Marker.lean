import Covenant.Diagnostic.Cause
import Covenant.Text.Utf8

/-!
# Markers in an open document

Diagnostics as an editor shows them: a range of one document, a severity and a message. Lines and
characters start at zero and are counted with 32 bits. What is wrong in another file is shown at the
top of the document, with the place in front of the message.
-/

namespace Covenant

namespace Editor

/-- A range of a document. -/
structure Range where
  startLine : Nat := 0
  startChar : Nat := 0
  endLine : Nat := 0
  endChar : Nat := 0
deriving DecidableEq, Repr, Inhabited

/-- **A marker in a document.** -/
structure Marker where
  range : Range := {}
  isError : Bool := true
  code : Option String := none
  message : String
deriving DecidableEq, Repr, Inhabited

/-- A number as far as 32 bits hold it. -/
def word32 (n : Int) : Nat :=
  (n % 4294967296).toNat

namespace Marker

/-- The range a diagnostic of the document itself points at; at least one character is marked. -/
def rangeOf (d : Diagnostic) : Range :=
  let line := word32 (d.place.line - 1)
  let start := word32 (max (d.place.column - 1) 0)
  { startLine := line, startChar := start
    endLine := line, endChar := word32 (start + max d.length 1) }

/-- The message of a diagnostic with its first suggestion and its notes. -/
def messageOf (d : Diagnostic) : String :=
  d.message
    ++ (match d.suggestions with
      | s :: _ => " (" ++ s.message ++ ")"
      | [] => "")
    ++ (if d.notes.isEmpty then "" else "\n" ++ "\n".intercalate d.notes)

/-- **The marker of a diagnostic** in the document at a path. -/
def ofDiagnostic (path : String) (d : Diagnostic) : Marker :=
  let isHere := d.place.file = path && 0 < d.place.line
  { range := if isHere then rangeOf d else {}
    isError := d.level ≠ .warning
    code := some d.code.text
    message := Text.shown
      (if isHere || d.place.file = "" then messageOf d
      else d.place.render ++ ": " ++ messageOf d) }

/-- The number for how severe a marker is. -/
def severity (m : Marker) : Nat :=
  if m.isError then 1 else 2

/-- What every marker is said to come from. -/
def origin : String :=
  "tsevm"

/-- The marker of a failure that has only a message. -/
def ofMessage (message : String) : Marker :=
  { message := Text.shown message }

/-- **The markers of warnings** that belong to the document at a path. -/
def ofWarnings (path : String) (warnings : List Diagnostic) : List Marker :=
  (warnings.filter (·.place.file = path)).map (ofDiagnostic path)

end Marker

end Editor

end Covenant
