import Covenant.Diagnostic.Cause
import Covenant.Environment
import Covenant.Source.Productions

/-!
# Paths, and the files of a build

Paths are written with forward slashes. A clean path has no empty and no `.` parts, and `..` only in
front, where nothing is left to go back from.
-/

namespace Covenant

namespace Path

/-- The parts of a path between its slashes. -/
def parts (path : String) : List String :=
  (path.toList.splitOn '/').map String.ofList

/-- Whether a path starts at the root. -/
def isRooted (path : String) : Bool :=
  path.startsWith "/"

/-- Adds one part to clean parts, which are given in reverse. -/
def step (rooted : Bool) (cleaned : List String) (part : String) : List String :=
  if part = "" || part = "." then cleaned
  else if part = ".." then
    match cleaned with
    | last :: rest => if last = ".." then part :: cleaned else rest
    | [] => if rooted then [] else [part]
  else part :: cleaned

/-- **A path made clean.** The empty path is that of the current directory. -/
def clean (path : String) : String :=
  let rooted := isRooted path
  let cleaned := "/".intercalate ((parts path).foldl (step rooted) []).reverse
  if rooted then "/" ++ cleaned else if cleaned = "" then "." else cleaned

/-- The directory of a path. -/
def directory (path : String) : String :=
  clean ("/".intercalate ((parts path).dropLast ++ [""]))

/-- Two paths one after the other, made clean; empty ones count for nothing. -/
def join (first second : String) : String :=
  if first = "" then (if second = "" then "" else clean second)
  else if second = "" then clean first
  else clean (first ++ "/" ++ second)

/-- Whether the last part of a path has an extension. -/
@[irreducible] def hasExtension (path : String) : Bool :=
  ((parts path).getLastD "").toList.contains '.'

end Path

/-! ## The files of a build

A build starts from some files and takes in every file they import, directly or not. The files are
put in an order in which each comes after those it imports; files that import each other are
refused. -/

namespace Build

/-- **The files there are**, by path, and what is said of one that cannot be read. -/
structure Files where
  texts : List (String × String)
  absence : String → String

/-- A file that was read, with the path behind each import that names a file. -/
structure SourceFile where
  path : String
  program : Source.Program
  imports : List (Source.Import × String)

/-- Files given by their texts. -/
def Files.ofTexts (texts : List (String × String)) : Files where
  texts := texts
  absence := fun path => path ++ ": no such file"

/-- The text of a file. -/
def Files.get? (files : Files) (path : String) : Option String :=
  files.texts.lookup path

/-- Whether an import names a file by the way to it. -/
def isRelative (source : String) : Bool :=
  source.startsWith "./" || source.startsWith "../"

/-- **The path of an imported file.** It is given from the directory of the importing file and may
leave out the extension. -/
def importPath (importer source : String) : String :=
  let target := Path.join (Path.directory importer) source
  if Path.hasExtension target then target else target ++ ".ts"

/-- The paths of the files that a text imports; none of a text that cannot be read. -/
def importedPaths (path text : String) : List String :=
  match Source.parse path text with
  | .error _ => []
  | .ok program =>
    (program.imports.filter fun i => !Environment.isModule i.source && isRelative i.source).map
      fun i => importPath path i.source

/-- How many files are not being read. -/
def pending (files : Files) (active : List String) : Nat :=
  files.texts.countP fun f => f.1 ∉ active

/-- A file that is there and is not being read is one fewer once it is. -/
theorem pending_cons_lt {files : Files} {active : List String} {path text : String}
    (htext : files.get? path = some text) (hpath : path ∉ active) :
    pending files (path :: active) < pending files active := by
  obtain ⟨texts, absence⟩ := files
  simp only [Files.get?, pending] at htext ⊢
  induction texts with
  | nil => simp at htext
  | cons f texts ih =>
    have hle : texts.countP (fun f => f.1 ∉ path :: active)
        ≤ texts.countP (fun f => f.1 ∉ active) :=
      List.countP_mono_left fun f _ h => by simp_all
    simp only [List.countP_cons]
    by_cases hkey : path = f.1
    · subst hkey
      simp only [List.mem_cons, true_or, not_true_eq_false, decide_false, hpath,
        not_false_eq_true, decide_true, if_true] at hle ⊢
      grind
    · have := ih (by rwa [List.lookup_cons, beq_false_of_ne hkey] at htext)
      grind

mutual
/-- **Reads a file** and the files it imports. The file itself is among the active ones, and comes
last. -/
def load (files : Files) (active : List String) (loaded : List SourceFile) (path text : String) :
    Except Failure (List SourceFile) :=
  match Source.parse path text with
  | .error e => .error (.fault (.ofSyntaxError e))
  | .ok program =>
    match loadImports files active loaded path program.imports with
    | .error e => .error e
    | .ok (loaded, imports) => .ok (loaded ++ [{ path, program, imports }])
termination_by (pending files active, 1, 0)

/-- Reads the files behind imports, unless they have been read. -/
def loadImports (files : Files) (active : List String) (loaded : List SourceFile)
    (importer : String) :
    List Source.Import → Except Failure (List SourceFile × List (Source.Import × String))
  | [] => .ok (loaded, [])
  | i :: rest =>
    if Environment.isModule i.source then loadImports files active loaded importer rest
    else if !isRelative i.source then
      .error (.unresolved i.pos .moduleName i.source Environment.moduleNames)
    else
      let path := importPath importer i.source
      if loaded.any (·.path = path) then
        match loadImports files active loaded importer rest with
        | .error e => .error e
        | .ok (loaded, imports) => .ok (loaded, (i, path) :: imports)
      else if _ : path ∈ active then .error (.malformed i.pos (.importCycle path))
      else
        match _ : files.get? path with
        | none =>
          .error (.fault { pos := i.pos, cause := .unloadable i.source (files.absence path) })
        | some text =>
          match load files (path :: active) loaded path text with
          | .error e => .error e
          | .ok loaded =>
            match loadImports files active loaded importer rest with
            | .error e => .error e
            | .ok (loaded, imports) => .ok (loaded, (i, path) :: imports)
termination_by imports => (pending files active, 0, imports.length)
decreasing_by
  all_goals first
    | exact Prod.Lex.left _ _ (pending_cons_lt ‹_› ‹_›)
    | exact Prod.Lex.right _ (Prod.Lex.right _ (by simp))
end

/-- Reads a file that the build was asked for, unless it has been read. -/
def loadEntry (files : Files) (loaded : List SourceFile) (entry : String) :
    Except Failure (List SourceFile) :=
  let path := Path.clean entry
  if loaded.any (·.path = path) then .ok loaded
  else
    match files.get? path with
    | none => .error (.noEntry (files.absence path))
    | some text => load files [path] loaded path text

/-- **The files of a build**, each after those it imports. -/
def loadAll (files : Files) (entries : List String) : Except Failure (List SourceFile) :=
  entries.foldlM (loadEntry files) []

end Build

end Covenant
