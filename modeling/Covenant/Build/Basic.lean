import Covenant.Abi.Entry
import Covenant.Analysis.Inheritance
import Covenant.Analysis.Mutability
import Covenant.Build.Contracts
import Covenant.Emit.Object
import Covenant.Yul.Format

/-!
# Builds

A build turns source files into an interface description, assembly text and bytecode for each
contract. The first failure ends it.
-/

namespace Covenant

namespace Build

/-- **What a build makes of a contract.** -/
structure Artifact where
  contract : Contract
  /-- The description of its functions and events. -/
  abi : String
  /-- The formatted assembly text. -/
  assembly : String
  /-- The bytecode that creates it; empty if there is no assembler. -/
  bytecode : String

/-- **The result of a build**: the artifacts in the order of their names, what there is to warn of,
and the contracts. -/
structure Result where
  artifacts : List Artifact
  warnings : List Fault
  registry : Registry

/-- The artifact of a name. -/
def Result.artifact? (r : Result) (name : String) : Option Artifact :=
  r.artifacts.find? (·.contract.name = name)

/-- **An assembler** makes bytecode of the name and the assembly text of a contract. -/
abbrev Assembler := String → String → Except Failure String

/-- The assembler of builds without bytecode. -/
def noAssembler : Assembler :=
  fun _ _ => .ok ""

/-- Raises a fault, if there is one. -/
def orFail {α : Type} (r : α × Option Fault) : Except Failure α :=
  match r with
  | (a, none) => .ok a
  | (_, some fault) => .error (.fault fault)

/-- Finds out what the methods of each contract may do, in the order of their names. -/
def analyzeAll (r : Registry) : List String → Except Failure Registry
  | [] => .ok r
  | name :: rest =>
    match r.get? name with
    | none => analyzeAll r rest
    | some c => do
      let analyzed ← orFail (Mutability.analyze c)
      analyzeAll (r.put analyzed) rest

/-- The contracts of a build, with everything they inherit. -/
def analyzed (r : Registry) : Except Failure Registry := do
  let r ← orFail (Inheritance.flatten r)
  analyzeAll r r.names

/-- The artifacts of contracts, one after the other. -/
def generate (assembler : Assembler) (r : Registry) (store : Emit.Store) :
    List Contract → Except Failure (List Artifact)
  | [] => .ok []
  | c :: rest =>
    match Emit.emit r store c with
    | (.error e, _) => .error e
    | (.ok object, store) => do
      let assembly := Yul.format object.render
      let bytecode ← assembler c.name assembly
      return { contract := c, abi := Abi.render c, assembly, bytecode }
        :: (← generate assembler r store rest)

/-- **Builds** every contract of the given files and of those they import. -/
def compile (assembler : Assembler) (files : Files) (entries : List String) :
    Except Failure Result := do
  let files ← loadAll files entries
  let (registry, warnings) ← (resolveFiles files).mapError Failure.fault
  let registry ← analyzed registry
  let artifacts ← generate assembler registry [] (registry.names.filterMap registry.get?)
  return { artifacts, warnings, registry }

/-- Builds one file given by its text, without bytecode. -/
def compileText (name text : String) : Except Failure Result :=
  compile noAssembler (.ofTexts [(name, text)]) [name]

end Build

end Covenant
