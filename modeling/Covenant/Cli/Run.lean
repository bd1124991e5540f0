import Covenant.Build.Assembler
import Covenant.Build.Basic
import Covenant.Cli.Folder
import Covenant.Cli.Options
import Covenant.Config.Decode
import Covenant.Diagnostic.Report

/-!
# Runs of the command line

A run reads the settings, builds the source files and writes what the settings ask for. It is a
function of its arguments and of the working folder; the time it took is told to it.
-/

namespace Covenant

namespace Cli

/-- **What a run does**: its exit code, what it prints, and the working folder behind it. -/
structure Outcome where
  exitCode : Nat
  printed : String
  folder : Folder

/-! ## Settings -/

/-- **Why a run has no settings.** -/
inductive SettingsError where
  | message (text : String)
  /-- The settings cannot even be compared. -/
  | crash
deriving DecidableEq, Repr, Inhabited

/-- The settings at a path, over the defaults; a file that is missing changes nothing. -/
def settings (folder : Folder) (path : String) : Except SettingsError Config :=
  match folder.read path with
  | .ok text =>
    match Config.parse text with
    | .ok config => .ok config
    | .error .incomparableKey => .error .crash
    | .error e => .error (.message (path ++ ": " ++ e.message))
  | .error message => if folder.isMissing path then .ok {} else .error (.message message)

/-- The settings of a run: its options go before the settings. -/
def Options.settings (o : Options) (folder : Folder) : Except SettingsError Config := do
  let config ← Cli.settings folder o.config
  return { config with
    outDir := if o.outDir = "" then config.outDir else o.outDir
    outputs := { config.outputs with bytecode := o.bytecode || config.outputs.bytecode }
    sources := if o.sources.isEmpty then config.sources else o.sources }

/-! ## Reports -/

/-- A diagnostic with its line of source, where that can be read. -/
def report (folder : Folder) (d : Diagnostic) : String :=
  match folder.read d.place.file with
  | .ok source => if d.place.line = 0 then d.render ++ "\n" else d.report false d.place.file source
  | .error _ => d.render ++ "\n"

/-- A failure as it is printed. -/
def reportFailure (folder : Folder) : Failure → String
  | .fault fault => report folder fault.diagnostic
  | .tool contract messages => report folder (.externalTool contract messages)
  | .noEntry reason => "error: " ++ reason ++ "\n"
  | .overlong _ | .incomplete => ""

/-- A quotient with a number of places behind the point. -/
def fixed (places numerator denominator : Nat) : String :=
  let scaled := (2 * numerator * Nat.pow 10 places + denominator) / (2 * denominator)
  let digits := toString (scaled % Nat.pow 10 places)
  toString (scaled / Nat.pow 10 places) ++ "."
    ++ String.ofList (List.replicate (places - digits.length) '0') ++ digits

/-- A time in nanoseconds, in a fitting unit. -/
def duration (nanoseconds : Nat) : String :=
  if 60000000000 ≤ nanoseconds then fixed 2 nanoseconds 60000000000 ++ "min"
  else if 1000000000 ≤ nanoseconds then fixed 2 nanoseconds 1000000000 ++ "s"
  else if 1000000 ≤ nanoseconds then fixed 1 nanoseconds 1000000 ++ "ms"
  else if 1000 ≤ nanoseconds then fixed 1 nanoseconds 1000 ++ "μs"
  else toString nanoseconds ++ "ns"

/-! ## Results -/

/-- The files that settings ask for, by their endings. -/
def outputsOf (config : Config) (a : Build.Artifact) : List (String × String) :=
  let chosen : List (Bool × String × String) :=
    [(config.outputs.abi, ".abi.json", a.abi ++ "\n"),
      (config.outputs.assembly, ".yul", a.assembly),
      (config.outputs.ir, ".ir", a.contract.render),
      (config.outputs.bytecode && a.bytecode ≠ "", ".bin", a.bytecode ++ "\n")]
  (chosen.filter (·.1)).map Prod.snd

/-- Writes the files of a contract; what was written before a failure stays. -/
def writeAll (folder : Folder) (outDir name : String) :
    List (String × String) → Folder × Option String
  | [] => (folder, none)
  | (ending, text) :: rest =>
    match folder.write (Path.join outDir (name ++ ending)) text with
    | .error e => (folder, some e)
    | .ok folder => writeAll folder outDir name rest

/-- Writes the results for a contract. -/
def writeArtifact (config : Config) (folder : Folder) (a : Build.Artifact) :
    Folder × Option String :=
  match folder.make config.outDir with
  | .error e => (folder, some e)
  | .ok folder => writeAll folder config.outDir a.contract.name (outputsOf config a)

/-- Prints and writes the results for contracts. -/
def deliver (o : Options) (config : Config) (printed : String) (folder : Folder) :
    List Build.Artifact → Outcome
  | [] => { exitCode := 0, printed, folder }
  | a :: rest =>
    let printed := if o.showContracts then printed ++ a.contract.render ++ "\n" else printed
    match writeArtifact config folder a with
    | (folder, some e) => { exitCode := 1, printed := printed ++ e ++ "\n", folder }
    | (folder, none) => deliver o config printed folder rest

/-- What is done with the result of a build. -/
def conclude (o : Options) (config : Config) (folder : Folder) (time : String) :
    Except Failure Build.Result → Outcome
  | .error (.overlong _) | .error .incomplete => { exitCode := 2, printed := "", folder }
  | .error e =>
    { exitCode := 1
      printed := reportFailure folder e ++ "Compilation failed after " ++ time ++ "\n"
      folder }
  | .ok result =>
    let warnings := String.join (result.warnings.map fun w => report folder w.diagnostic)
    let outcome := deliver o config warnings folder result.artifacts
    if outcome.exitCode ≠ 0 then outcome
    else
      { outcome with
        printed := outcome.printed ++ "Compiled " ++ toString result.artifacts.length
          ++ " contract(s) in " ++ time ++ "\n" }

/-- The assembler of a run: there is none to be started. -/
def assembler (config : Config) (folder : Folder) : Build.Assembler :=
  if config.outputs.bytecode then
    fun name _ => .error (.tool name [folder.startFailure config.solc])
  else Build.noAssembler

/-- **Runs the command line.** -/
def run (time : String) (args : List String) (folder : Folder) : Outcome :=
  match Options.parse {} args with
  | .error stop => { exitCode := stop.exitCode, printed := "", folder }
  | .ok o =>
    match o.settings folder with
    | .error .crash => { exitCode := 2, printed := "", folder }
    | .error (.message text) => { exitCode := 1, printed := text ++ "\n", folder }
    | .ok config =>
      if config.sources.isEmpty then { exitCode := 1, printed := "", folder }
      else
        conclude o config folder time
          (Build.compile (assembler config folder) folder.sources config.sources)

end Cli

end Covenant
