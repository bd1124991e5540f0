import Covenant.Text.Numeral

/-!
# Command line options

Options come first and start with one or two dashes; the first argument that does not is the first
source file, and so is the one behind two dashes alone. The value of an option follows an equals
sign or is the next argument; a switch needs none.
-/

namespace Covenant

namespace Cli

/-- **The options of a run.** -/
structure Options where
  /-- The path of the settings. -/
  config : String := "tsevm.yaml"
  /-- Where results go, if it is not the settings that say so. -/
  outDir : String := ""
  /-- Whether contracts are printed. -/
  showContracts : Bool := false
  /-- Whether bytecode is made, even if the settings do not ask for it. -/
  bytecode : Bool := false
  sources : List String := []
deriving DecidableEq, Repr, Inhabited

/-- **Why a run ends before it starts.** -/
inductive Stop where
  /-- The user asked for help. -/
  | help
  /-- The options make no sense. -/
  | badUsage
deriving DecidableEq, Repr, Inhabited

/-- The exit code of a run that ends before it starts. -/
def Stop.exitCode : Stop → Nat
  | help => 0
  | badUsage => 2

/-- An argument that is an option: its name, and its value if one follows an equals sign. -/
def optionOf? (arg : String) : Option (List Char × Option String) :=
  match arg.toList with
  | '-' :: c :: rest =>
    let text := if c = '-' then rest else c :: rest
    let name := text.takeWhile (· ≠ '=')
    some (name, (text.drop name.length).tail?.map String.ofList)
  | _ => none

/-- The truth value of the text of a switch. -/
def switch? (text : String) : Option Bool :=
  if ["1", "t", "T", "TRUE", "true", "True"].contains text then some true
  else if ["0", "f", "F", "FALSE", "false", "False"].contains text then some false
  else none

/-- The switches. -/
def isSwitch (name : String) : Bool :=
  name = "ir" || name = "bytecode"

/-- Sets a switch, which is on if it has no value. -/
def setSwitch (o : Options) (name : String) (value : Option String) : Except Stop Options :=
  match (value.map switch?).getD (some true) with
  | none => .error .badUsage
  | some on =>
    .ok (if name = "ir" then { o with showContracts := on } else { o with bytecode := on })

/-- Whether a text is a number, as the level of detail of the log has to be. -/
def isLevel (text : String) : Bool :=
  (Text.integer? text).isSome

/-- Sets an option that takes a value. -/
def setValue (o : Options) (name value : String) : Except Stop Options :=
  match name with
  | "config" => .ok { o with config := value }
  | "out" => .ok { o with outDir := value }
  | "v" => if isLevel value then .ok o else .error .badUsage
  | _ => .error .badUsage

/-- **Reads the arguments of a run.** -/
def Options.parse (o : Options) : List String → Except Stop Options
  | [] => .ok o
  | arg :: rest =>
    match optionOf? arg with
    | none => .ok { o with sources := arg :: rest }
    | some ([], value) =>
      if value.isNone && arg = "--" then .ok { o with sources := rest } else .error .badUsage
    | some (chars, value) =>
      let name := String.ofList chars
      if name = "h" || name = "help" then .error .help
      else if isSwitch name then
        match setSwitch o name value with
        | .error stop => .error stop
        | .ok o => o.parse rest
      else
        match value with
        | some value =>
          match setValue o name value with
          | .error stop => .error stop
          | .ok o => o.parse rest
        | none =>
          match rest with
          | [] => .error .badUsage
          | value :: rest =>
            match setValue o name value with
            | .error stop => .error stop
            | .ok o => o.parse rest

end Cli

end Covenant
