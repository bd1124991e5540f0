import Covenant.Build.Files
import Covenant.Text.Utf8

/-!
# The working folder

The files and folders that a run of the command line reads and writes, as a value. Paths are
followed part by part from the working folder. What goes wrong is said in the words of the operating
system. Of what is outside of the working folder, nothing is known but that there are folders above.
-/

namespace Covenant

namespace Cli

/-- **The working folder**: the texts of files, and the folders made in it, by clean path. -/
structure Folder where
  files : List (String × String) := []
  folders : List String := []
deriving Inhabited

/-- What a path leads to. -/
inductive Target where
  | file (text : String)
  /-- A folder, by the parts of its path, last one first. -/
  | folder (place : List String)
  /-- A folder outside of the working folder. -/
  | outside
deriving Repr, Inhabited

/-- **What the operating system has against a path.** -/
inductive Trouble where
  | missing
  | notFolder
  | isFolder
  | taken
  | tooLong
  | invalid
  | forbidden
deriving DecidableEq, Repr, Inhabited

/-- The wording of a trouble. -/
def Trouble.message : Trouble → String
  | missing => "no such file or directory"
  | notFolder => "not a directory"
  | isFolder => "is a directory"
  | taken => "file exists"
  | tooLong => "file name too long"
  | invalid => "invalid argument"
  | forbidden => "permission denied"

/-- A trouble with an action on a path. -/
def Trouble.report (t : Trouble) (action path : String) : String :=
  action ++ " " ++ path ++ ": " ++ t.message

namespace Folder

/-- A working folder with files in it. -/
def ofFiles (files : List (String × String)) : Folder where
  files := files.map fun (path, text) => (Path.clean path, text)

/-- The path of a place. -/
def pathOf (place : List String) : String :=
  "/".intercalate place.reverse

/-- Whether there is a folder at a path: one that was made, or one that something is in. -/
def hasFolder (f : Folder) (path : String) : Bool :=
  f.folders.contains path
    || (f.files.map Prod.fst ++ f.folders).any fun other => other.startsWith (path ++ "/")

/-- What a part of a path leads to, from where the parts before it led. -/
def step (f : Folder) (t : Target) (part : String) : Except Trouble Target :=
  match t with
  | .file _ => .error .notFolder
  | .outside =>
    if part = "" || part = "." || part = ".." then .ok .outside
    else if 255 < Text.keptSize part then .error .tooLong
    else .error .missing
  | .folder place =>
    if part = "" || part = "." then .ok t
    else if part = ".." then
      match place with
      | [] => .ok .outside
      | _ :: above => .ok (.folder above)
    else if 255 < Text.keptSize part then .error .tooLong
    else
      let path := pathOf (part :: place)
      match f.files.lookup path with
      | some text => .ok (.file text)
      | none => if f.hasFolder path then .ok (.folder (part :: place)) else .error .missing

/-- Follows the parts of a path. -/
def walk (f : Folder) (path : String) (parts : List String) : Except Trouble Target :=
  parts.foldlM f.step (if Path.isRooted path then .outside else .folder [])

/-- Refuses a text that can be no path at all. -/
def checkPath (path : String) : Except Trouble Unit :=
  if path.contains (Char.ofNat 0) then .error .invalid
  else if 4096 ≤ Text.keptSize path then .error .tooLong
  else if path = "" then .error .missing
  else .ok ()

/-- **What a path leads to.** -/
def target (f : Folder) (path : String) : Except Trouble Target := do
  checkPath path
  f.walk path (Path.parts path)

/-! ## Reading -/

/-- **The text of a file**, or what is said of a path that cannot be read. -/
def read (f : Folder) (path : String) : Except String String :=
  match f.target path with
  | .ok (.file text) => .ok text
  | .ok _ => .error (Trouble.isFolder.report "read" path)
  | .error t => .error (t.report "open" path)

/-- What is said of a path that cannot be read. -/
def absence (f : Folder) (path : String) : String :=
  match f.read path with
  | .ok _ => Trouble.missing.report "open" path
  | .error message => message

/-- Whether nothing is at a path, and nothing else is wrong with it. -/
def isMissing (f : Folder) (path : String) : Bool :=
  match f.target path with
  | .error t => t = .missing
  | .ok _ => false

/-- The files as a build sees them. -/
def sources (f : Folder) : Build.Files :=
  { texts := f.files, absence := f.absence }

/-! ## Making folders -/

/-- The parts of a path without what stands behind its last name, last one first. -/
def partsToLast (path : String) : List String :=
  (Path.parts path).reverse.dropWhile (· = "")

/-- Makes one folder, in one that is there. -/
def makeOne (f : Folder) (path : String) : Except Trouble Folder := do
  checkPath path
  match partsToLast path with
  | [] => .error .taken
  | name :: above =>
    match ← f.walk path above.reverse with
    | .file _ => .error .notFolder
    | .outside =>
      if name = "." || name = ".." then .error .taken
      else if 255 < Text.keptSize name then .error .tooLong
      else .ok f
    | .folder place =>
      match f.step (.folder place) name with
      | .ok _ => .error .taken
      | .error .missing => .ok { f with folders := pathOf (name :: place) :: f.folders }
      | .error t => .error t

/-- The path of the folder that the last part of a path is in; there may be none. -/
def parent? (path : String) : Option String :=
  match partsToLast path with
  | _ :: above =>
    let parent := "/".intercalate above.reverse
    if parent = "" then none else some parent
  | [] => none

/-- **Makes a folder** and those above it, unless they are there. -/
def makeFolder (f : Folder) (path : String) : Nat → Except String Folder
  | 0 => .error (Trouble.tooLong.report "mkdir" path)
  | fuel + 1 =>
    match f.target path with
    | .ok (.file _) => .error (Trouble.notFolder.report "mkdir" path)
    | .ok _ => .ok f
    | .error _ => do
      let f ←
        match parent? path with
        | some parent => f.makeFolder parent fuel
        | none => pure f
      match f.makeOne path with
      | .ok f => return f
      | .error t =>
        match f.target path with
        | .ok (.folder _) | .ok .outside => return f
        | _ => throw (t.report "mkdir" path)

/-- Makes a folder and all those above it. -/
def make (f : Folder) (path : String) : Except String Folder :=
  f.makeFolder path ((Path.parts path).length + 1)

/-! ## Writing -/

/-- Whether a clean path leads out of the working folder. -/
def leadsOut (path : String) : Bool :=
  Path.isRooted path || path = ".." || path.startsWith "../"

/-- What is in the way of writing a file. -/
def obstacle? (f : Folder) (path : String) : Option Trouble :=
  match f.target path with
  | .ok (.file _) => none
  | .ok _ => some .isFolder
  | .error .missing => if leadsOut path then none else
    match f.walk path (Path.parts path).dropLast with
    | .ok _ => none
    | .error t => some t
  | .error t => some t

/-- **Writes a file** at a clean path. Nothing is kept of a file outside of the working folder. -/
def write (f : Folder) (path text : String) : Except String Folder :=
  match f.obstacle? path with
  | some t => .error ("failed to write " ++ path ++ ": " ++ t.report "open" path)
  | none =>
    if leadsOut path then .ok f
    else .ok { f with files := (path, text) :: f.files.filter (·.1 ≠ path) }

/-- The files that are not in another folder, in the order of their paths. -/
def added (f before : Folder) : List (String × String) :=
  (f.files.filter fun (path, _) => (before.files.lookup path).isNone).mergeSort (·.1 ≤ ·.1)

/-! ## Starting other programs -/

/-- **What is said of a program that cannot be started.** A name alone is looked for in the search
path; a path has to lead to a file that may be run, which none of the working folder may. -/
def startFailure (f : Folder) (path : String) : String :=
  path ++ ": " ++
    if path = "" then "exec: no command"
    else if path.all (· = '/') && path.length = 1 then
      "exec: " ++ Text.quote path ++ ": " ++ Trouble.isFolder.message
    else if path.contains '/' then
      match f.target path with
      | .ok _ => Trouble.forbidden.report "fork/exec" path
      | .error t => t.report "fork/exec" path
    else "exec: " ++ Text.quote path ++ ": executable file not found in $PATH"

end Folder

end Cli

end Covenant
