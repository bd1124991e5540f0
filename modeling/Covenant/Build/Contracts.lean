import Covenant.Analysis.Flow
import Covenant.Build.Files
import Covenant.Contract.Basic
import Covenant.Resolve.Classes
import Covenant.Resolve.Declarations

/-!
# The contracts of a build

Every class of every file becomes a contract. Classes are known by name in the whole build;
interfaces and constants only where they are declared or imported. The events of all classes are
found before any body is resolved, so a class can log the events of its bases wherever those are
declared.
-/

namespace Covenant

namespace Build

open Resolve

/-! ## Classes -/

/-- A class and the file that declares it. -/
abbrev OwnedClass := String × Source.ClassDecl

/-- The classes of all files, in order. -/
def allClasses (files : List SourceFile) : List OwnedClass :=
  files.flatMap fun f => f.program.classes.map (f.path, ·)

/-- Refuses two classes of one name. -/
def checkClasses (seen : Table String) : List OwnedClass → Except Fault Unit
  | [] => .ok ()
  | (file, c) :: rest =>
    match seen.get? c.name with
    | some first => .error (.malformed c.pos (.duplicateContract c.name first))
    | none => checkClasses (seen.put c.name file) rest

/-- The classes that each class extends. -/
def extensions (classes : List OwnedClass) : Graph :=
  classes.map fun (_, c) => (c.name, c.bases)

/-! ## Imports -/

/-- What each file declares, by path. -/
abbrev Exports := Table Declarations

/-- The names that can be imported from a file, in ascending order. -/
def exportNames (d : Declarations) : List String :=
  (d.interfaces.names ++ d.constants.names ++ d.classes.map (·.name)).mergeSort (· ≤ ·)

/-- Takes one name from what a file declares. The name of a class needs no import. -/
def importName (i : Source.Import) (d : Declarations) (scope : Scope) (name : String) :
    Except Fault Scope :=
  match d.interfaces.get? name, d.constants.get? name with
  | some interface, _ => .ok { scope with interfaces := scope.interfaces.put name interface }
  | none, some value => .ok { scope with constants := scope.constants.put name value }
  | none, none =>
    if d.classes.any (·.name = name) then .ok scope
    else .error (.unresolved i.pos (.exportOf i.source) name (exportNames d))

/-- Takes everything from what a file declares. -/
def importEverything (d : Declarations) (scope : Scope) : Scope :=
  { scope with
    interfaces := scope.interfaces.putAll d.interfaces
    constants := scope.constants.putAll d.constants }

/-- **Takes what an import asks for.** One that lists no names takes everything. -/
def importInto (exports : Exports) (scope : Scope) (i : Source.Import × String) :
    Except Fault Scope :=
  let d := (exports.get? i.2).getD {}
  match i.1.clause with
  | .names (name :: names) => (name :: names).foldlM (importName i.1 d) scope
  | _ => .ok (importEverything d scope)

/-! ## Resolution -/

/-- A file whose declarations are known, and the scope of its classes. -/
structure DeclaredFile where
  path : String
  classes : List Source.ClassDecl
  scope : Scope

/-- What is known after some files: what they export, the events of their classes, and the files
themselves. -/
structure Known where
  exports : Exports := []
  events : Table (List Event) := []
  files : List DeclaredFile := []

/-- Finds the declarations of one more file. -/
def declareFile (base : Scope) (k : Known) (f : SourceFile) : Except Fault Known := do
  let scope ← f.imports.foldlM (importInto k.exports) base
  let (declared, scope) ← declarations scope f.program
  let events ← declared.classes.mapM fun c => do return (c.name, ← ownEvents scope c)
  return {
    exports := k.exports.put f.path declared
    events := events.reverse ++ k.events
    files := k.files ++ [{ path := f.path, classes := declared.classes, scope }] }

/-- The contracts so far, what there is to warn of, and the number of temporary names used. -/
structure Resolved where
  contracts : List Contract := []
  warnings : List Fault := []
  next : Nat := 0

/-- Resolves one more class. -/
def resolveClass (bases : Graph) (events : Table (List Event)) (f : DeclaredFile) (r : Resolved)
    (c : Source.ClassDecl) : Except Fault Resolved := do
  let scope := { f.scope with events := inheritedEvents bases events c.name }
  let (contract, next) ← contract scope r.next f.path c
  return {
    contracts := r.contracts ++ [contract]
    warnings := r.warnings ++ Flow.analyze contract
    next }

/-- **The contracts of some files**, and what there is to warn of. -/
def resolveFiles (files : List SourceFile) : Except Fault (Registry × List Fault) := do
  let classes := allClasses files
  checkClasses [] classes
  let base : Scope := { contracts := classes.map (·.2.name) }
  let known ← files.foldlM (declareFile base) {}
  let resolved ← known.files.foldlM
    (fun r f => f.classes.foldlM (resolveClass (extensions classes) known.events f) r)
    ({} : Resolved)
  return ({ contracts := resolved.contracts }, resolved.warnings)

end Build

end Covenant
