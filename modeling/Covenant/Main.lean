import Covenant.Cli.Run

/-!
# The command

Reads the files that a run needs, runs it, and writes what it made.
-/

namespace Covenant

namespace Command

/-- The text of a file, if it can be read. -/
def readText? (path : String) : IO (Option String) := do
  try return some (← IO.FS.readFile path) catch _ => return none

/-- Reads files and the files they import, each once. -/
partial def gather (found : List (String × String)) : List String → IO (List (String × String))
  | [] => return found
  | path :: rest => do
    if (found.lookup path).isSome then gather found rest
    else
      match ← readText? path with
      | none => gather found rest
      | some text => gather ((path, text) :: found) (Build.importedPaths path text ++ rest)

/-- The files that a run needs. -/
def workingFolder (args : List String) : IO Cli.Folder := do
  match Cli.Options.parse {} args with
  | .error _ => return {}
  | .ok options =>
    let settings := (← readText? options.config).map fun text => (Path.clean options.config, text)
    let folder : Cli.Folder := { files := settings.toList }
    match options.settings folder with
    | .error _ => return folder
    | .ok config => return { files := ← gather folder.files (config.sources.map Path.clean) }

/-- Writes the files that a run made. -/
def store (folder before : Cli.Folder) : IO Unit := do
  for path in folder.folders do
    IO.FS.createDirAll path
  for (path, text) in folder.added before do
    IO.FS.writeFile path text

end Command

end Covenant

open Covenant in
/-- **Runs the command.** -/
def main (args : List String) : IO UInt32 := do
  let started ← IO.monoNanosNow
  let folder ← Command.workingFolder args
  let time := Cli.duration ((← IO.monoNanosNow) - started)
  let outcome := Cli.run time args folder
  IO.print outcome.printed
  Command.store outcome.folder folder
  return UInt32.ofNat outcome.exitCode
