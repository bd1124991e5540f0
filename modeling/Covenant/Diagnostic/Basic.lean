import Covenant.Diagnostic.Code
import Covenant.Source.Position
import Covenant.Text.Distance

/-!
# Diagnostics

What the compiler has to say about a program: how grave it is, what kind of failure it is, where,
and what may help. The builders of this file give each kind of failure its wording; which failures
there are is said where they arise.
-/

namespace Covenant

/-- How grave a diagnostic is. -/
inductive Level where
  | error
  | warning
  | note
  | help
  | other (name : String)
deriving DecidableEq, Repr, Inhabited

/-- The broad classes of failures. -/
inductive Kind where
  | unreadable
  | unsupported
  | unresolved
  | structural
  | externalTool
  | other (name : String)
deriving DecidableEq, Repr, Inhabited

/-- A place a diagnostic points at. Unlike a source position it need not exist. -/
structure Place where
  file : String := ""
  line : Int := 0
  column : Int := 0
  offset : Int := 0
deriving DecidableEq, Repr, Inhabited

/-- A change that may help, with the new text if it is known. -/
structure Suggestion where
  message : String
  replacement : String := ""
deriving DecidableEq, Repr, Inhabited

/-- **A diagnostic.** A warning has no kind. The length counts the bytes to be marked. -/
structure Diagnostic where
  level : Level := .error
  kind : Option Kind := none
  code : Code
  message : String
  construct : String := ""
  place : Place := {}
  length : Int := 1
  suggestions : List Suggestion := []
  notes : List String := []
  help : String := ""
deriving DecidableEq, Repr, Inhabited

namespace Level

/-- The word for a level. -/
def name : Level → String
  | error => "error"
  | warning => "warning"
  | note => "note"
  | help => "help"
  | other name => name

/-- The level of a word. -/
def ofName (s : String) : Level :=
  ([error, warning, note, help].find? (·.name = s)).getD (other s)

end Level

namespace Kind

/-- The word for a kind of failure. -/
def name : Kind → String
  | unreadable => "SyntaxError"
  | unsupported => "UnsupportedConstruct"
  | unresolved => "UnresolvedReference"
  | structural => "StructuralError"
  | externalTool => "ExternalToolError"
  | other name => name

/-- The kind of a word; the empty word is none. -/
def ofName? (s : String) : Option Kind :=
  if s = "" then none
  else some (([unreadable, unsupported, unresolved, structural, externalTool].find?
    (·.name = s)).getD (other s))

end Kind

namespace Place

/-- The place of a source position. -/
def ofPosition (p : Position) : Place :=
  { file := p.file, line := p.line, column := p.column, offset := p.offset }

/-- The place as it is written; without a line only the file. -/
def render (p : Place) : String :=
  if p.line = 0 then p.file
  else p.file ++ ":" ++ toString p.line ++ ":" ++ toString p.column

end Place

namespace Diagnostic

/-- The diagnostic on one line, behind its place and kind, and its notes on lines of their own. -/
def render (d : Diagnostic) : String :=
  (if d.place.file ≠ "" || 0 < d.place.line then d.place.render ++ ": " else "")
    ++ (match d.kind with
      | some kind => kind.name ++ ": "
      | none => "")
    ++ d.message ++ String.join (d.notes.map ("\n" ++ ·))

/-! ## Builders -/

/-- Names the construct a diagnostic is about, and marks all of it. -/
def about (d : Diagnostic) (construct : String) : Diagnostic :=
  { d with
    construct
    length := if construct = "" then d.length else construct.utf8ByteSize }

/-- Adds a suggestion. -/
def suggest (d : Diagnostic) (message : String) : Diagnostic :=
  { d with suggestions := d.suggestions ++ [{ message }] }

/-- Adds a note. -/
def note (d : Diagnostic) (text : String) : Diagnostic :=
  { d with notes := d.notes ++ [text] }

/-- Sets the help text. -/
def withHelp (d : Diagnostic) (text : String) : Diagnostic :=
  { d with help := text }

/-- An error of a kind. -/
def failure (kind : Option Kind) (code : Code) (message : String) (place : Place) : Diagnostic :=
  { kind, code, message, place }

/-- A warning. -/
def warning (code : Code) (message : String) (place : Place) : Diagnostic :=
  { level := .warning, code, message, place }

/-- A construct outside the supported part of the language. -/
def unsupported (construct message : String) (place : Place) : Diagnostic :=
  ((failure (some .unsupported) .unsupported message place).about construct).withHelp
    "only classes, interfaces, constants and a limited statement set are supported"

/-- A type annotation without a contract type. -/
def unsupportedType (construct : String) (place : Place) : Diagnostic :=
  ((failure (some .unsupported) .unsupportedType ("unsupported type '" ++ construct ++ "'")
    place).about construct).note
    ("supported types are number, boolean, string, address, bytes, void, Record<K, V>, T[] "
      ++ "and declared interfaces")

/-- A name that nothing declares, with the near ones among the names that could be meant. -/
def unresolved (what name : String) (candidates : List String) (place : Place) : Diagnostic :=
  let d := (failure (some .unresolved) .unresolved ("unknown " ++ what ++ " '" ++ name ++ "'")
    place).about name
  match Text.nearNames name candidates with
  | [] => d
  | [near] => d.suggest ("did you mean '" ++ near ++ "'?")
  | near => d.suggest ("did you mean one of: '" ++ "', '".intercalate near ++ "'?")

/-- An emitted event that is not declared. -/
def unknownEvent (name : String) (declared : List String) (place : Place) : Diagnostic :=
  let d := (failure (some .unresolved) .unknownEvent ("event '" ++ name ++ "' is not declared")
    place).about name
  match Text.nearNames name declared with
  | [] => d.withHelp ("declare it as a property: " ++ name ++ ": Event<Params>;")
  | near :: _ => d.suggest ("did you mean '" ++ near ++ "'?")

/-- An invalid shape of a contract; the general code serves where none is given. -/
def structural (code : Code) (message : String) (place : Place) : Diagnostic :=
  failure (some .structural) (if code.text = "" then .structural else code) message place

/-- A field that an object literal does not give. -/
def missingField (owner field : String) (place : Place) : Diagnostic :=
  (failure (some .structural) .missingField
    ("missing field '" ++ field ++ "' for '" ++ owner ++ "'") place).suggest
    ("add '" ++ field ++ ": <value>' to the object literal")

/-- A readonly property without exactly one source of its value. -/
def immutableSource (name : String) (sources : Int) (place : Place) : Diagnostic :=
  if sources = 0 then
    ((failure (some .structural) .immutableSource
      ("immutable property '" ++ name ++ "' has no value") place).about name).suggest
      ("initialize it or assign this." ++ name ++ " once in the constructor")
  else
    ((failure (some .structural) .immutableSource
      ("immutable property '" ++ name ++ "' is assigned " ++ toString sources ++ " times")
      place).about name).note
      ("an immutable property takes its value from its initializer or from exactly one "
        ++ "constructor assignment")

/-- What the assembler said, word by word. -/
def externalTool (contract : String) (messages : List String) : Diagnostic :=
  { kind := some .externalTool
    code := .externalTool
    message := "assembler rejected '" ++ contract ++ "'"
    place := { file := contract }
    length := 0
    notes := messages }

/-- A text that cannot be read, reported by a message alone. -/
def unreadable (file message : String) : Diagnostic :=
  failure (some .unreadable) .unreadable message { file }

end Diagnostic

end Covenant
