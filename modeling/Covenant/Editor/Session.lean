import Covenant.Build.Basic
import Covenant.Editor.Completion
import Covenant.Editor.Marker
import Covenant.Editor.Uri

/-!
# Editor sessions

A session knows the documents that are open in an editor and the syntax trees it has made of them.
An open document counts in place of the file on disk. Whenever a document changes it is built, and
what is wrong with it is shown.

A session asks for the whole text of a document that changes (`capabilities`). So whatever kind of
change it is told of, the text that comes with it is that of the document, and of several the last
one counts (`changedText?`).
-/

namespace Covenant

namespace Editor

/-! ## What is offered -/

/-- How an editor is to tell of the changes of a document. -/
inductive Sync where
  | never
  /-- With the whole text, every time. -/
  | whole
  /-- With the parts that change. -/
  | parts
deriving DecidableEq, Repr, Inhabited

/-- The number of a way to tell of changes. -/
def Sync.number : Sync → Nat
  | never => 0
  | whole => 1
  | parts => 2

/-- **What a session offers to an editor.** -/
structure Capabilities where
  /-- Whether it is to be told of documents that are opened and closed. -/
  followsDocuments : Bool
  sync : Sync
  /-- Whether it can be asked for more about a single completion. -/
  resolvesItems : Bool
  /-- What an editor asks for completions at, without being told to. -/
  triggers : List String
  /-- The words for the categories of highlights, in the order of their numbers. -/
  categories : List String
  /-- The words for what else is said of a highlight, in the order of their bits. -/
  traits : List String
  /-- Whether it can be asked for all highlights of a document. -/
  highlightsDocuments : Bool
deriving DecidableEq, Repr

/-- What every session offers. -/
def capabilities : Capabilities where
  followsDocuments := true
  sync := .whole
  resolvesItems := false
  triggers := ["."]
  categories := Category.all.map Category.word
  traits := traitWords
  highlightsDocuments := true

/-! ## What is told -/

/-- **A change of a document**, as an editor tells of it. -/
inductive Change where
  | whole (text : String)
  /-- A change of a range. As whole texts are asked for, it comes with the whole text all the
  same. -/
  | ranged (text : String)
  | unknown
deriving DecidableEq, Repr, Inhabited

/-- The text that a change comes with. -/
def Change.text? : Change → Option String
  | whole text | ranged text => some text
  | unknown => none

/-- **The text of a document after some changes**: what comes with the last one that has a text. -/
def changedText? (changes : List Change) : Option String :=
  changes.foldl (fun text change => change.text?.or text) none

/-! ## Sessions -/

/-- **Why a request fails.** -/
inductive Refusal where
  /-- With a message for the user. -/
  | message (text : String)
  /-- The build was stopped by something that has no message. -/
  | stopped
deriving DecidableEq, Repr, Inhabited

/-- **A session**: the open documents and the syntax trees at hand, by path. -/
structure Session where
  documents : Table String := []
  programs : Table Source.Program := []
deriving Inhabited

namespace Session

/-- A table without a name. -/
def without {α : Type} (t : Table α) (name : String) : Table α :=
  t.filter (·.1 ≠ name)

/-- The files of a build: the open documents, then those on disk. -/
def files (s : Session) (disk : Build.Files) : Build.Files :=
  { disk with texts := s.documents ++ disk.texts }

/-- **What is wrong with the file at a path**, and what there is to warn of. -/
def diagnose (s : Session) (disk : Build.Files) (path : String) : Except Refusal (List Marker) :=
  match Build.compile Build.noAssembler (s.files disk) [path] with
  | .ok result => .ok (Marker.ofWarnings path (result.warnings.map Fault.diagnostic))
  | .error (.fault fault) => .ok [Marker.ofDiagnostic path fault.diagnostic]
  | .error (.noEntry reason) => .ok [Marker.ofMessage reason]
  | .error (.tool contract messages) =>
    .ok [Marker.ofDiagnostic path (.externalTool contract messages)]
  | .error (.overlong _) | .error .incomplete => .error .stopped

/-- **Takes the text of a document**, and shows what is wrong with it. -/
def update (s : Session) (disk : Build.Files) (uri text : String) :
    Session × Except Refusal (List Marker) :=
  match Uri.path uri with
  | .error message => (s, .error (.message message))
  | .ok path =>
    let s : Session :=
      { documents := (without s.documents path).put path text
        programs := without s.programs path }
    (s, s.diagnose disk path)

/-- **Takes the changes of a document.** If there is no text among them, nothing happens and nothing
is shown. -/
def change (s : Session) (disk : Build.Files) (uri : String) (changes : List Change) :
    Session × Except Refusal (Option (List Marker)) :=
  match changedText? changes with
  | none => (s, .ok none)
  | some text =>
    let (s, markers) := s.update disk uri text
    (s, markers.map some)

/-- **Forgets a document.** -/
def close (s : Session) (uri : String) : Session × Except Refusal Unit :=
  match Uri.path uri with
  | .error message => (s, .error (.message message))
  | .ok path =>
    ({ documents := without s.documents path, programs := without s.programs path }, .ok ())

/-- **The syntax tree of a document and its text.** A tree that is at hand is used again. -/
def program (s : Session) (disk : Build.Files) (path : String) :
    Session × Except Refusal (Source.Program × String) :=
  match s.programs.get? path with
  | some program => (s, .ok (program, (s.documents.get? path).getD ""))
  | none =>
    match (s.documents.get? path).or (disk.get? path) with
    | none =>
      let reason := "failed to read file " ++ path ++ ": " ++ disk.absence path
      (s, .error (.message (Text.shown reason)))
    | some text =>
      match Source.parse path text with
      | .error e => (s, .error (.message (Text.shown e.render)))
      | .ok program =>
        ({ s with programs := s.programs.put path program }, .ok (program, text))

/-- **The highlights of a document**, as differences. -/
def highlight (s : Session) (disk : Build.Files) (uri : String) :
    Session × Except Refusal (List Nat) :=
  match Uri.path uri with
  | .error message => (s, .error (.message message))
  | .ok path =>
    let (s, result) := s.program disk path
    (s, result.map fun (program, text) => deltas (highlights program text))

/-- **The completions at a place of a document.** -/
def complete (s : Session) (uri : String) (line character : Nat) :
    Except Refusal Completions :=
  match Uri.path uri with
  | .error message => .error (.message message)
  | .ok path => .ok { items := Editor.complete ((s.documents.get? path).getD "") line character }

end Session

end Editor

end Covenant
