/-!
# Project settings

What a project can set: its source files, where results go, which of them are written, and how the
assembler optimizes.
-/

namespace Covenant

/-- Which results are written for a contract. -/
structure Outputs where
  abi : Bool := true
  assembly : Bool := true
  ir : Bool := false
  bytecode : Bool := false
deriving DecidableEq, Repr, Inhabited

/-- Single steps of the assembler's optimizer. -/
structure OptimizerSteps where
  peephole : Bool := true
  inliner : Bool := true
  jumpdestRemover : Bool := true
  orderLiterals : Bool := true
  deduplicate : Bool := true
  cse : Bool := true
  constantOptimizer : Bool := true
  yul : Bool := true
deriving DecidableEq, Repr, Inhabited

/-- How the assembler optimizes. -/
structure Optimizer where
  enabled : Bool := true
  runs : Int := 200
  steps : OptimizerSteps := {}
deriving DecidableEq, Repr, Inhabited

/-- **The settings of a project.** -/
structure Config where
  sources : List String := []
  outDir : String := "build"
  solc : String := "solc"
  outputs : Outputs := {}
  optimizer : Optimizer := {}
deriving DecidableEq, Repr, Inhabited

end Covenant
