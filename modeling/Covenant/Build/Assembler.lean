import Covenant.Build.Reply
import Covenant.Config.Basic
import Covenant.Diagnostic.Cause
import Covenant.Json.Basic

/-!
# The assembler

Assembly text is turned into bytecode by another program. It is asked in JSON, and its reply holds
errors or the bytecode of the objects it found.
-/

namespace Covenant

namespace Build

/-! ## Asking -/

/-- The settings of the optimizer as JSON. -/
def optimizerJson (o : Optimizer) : Json :=
  .object
    [("enabled", .bool o.enabled), ("runs", .int o.runs),
      ("details", .object
        [("peephole", .bool o.steps.peephole), ("inliner", .bool o.steps.inliner),
          ("jumpdestRemover", .bool o.steps.jumpdestRemover),
          ("orderLiterals", .bool o.steps.orderLiterals),
          ("deduplicate", .bool o.steps.deduplicate), ("cse", .bool o.steps.cse),
          ("constantOptimizer", .bool o.steps.constantOptimizer), ("yul", .bool o.steps.yul)])]

/-- The name of the file that a contract is handed over in. -/
def assemblyFile (name : String) : String :=
  name ++ ".yul"

/-- **What the assembler is asked** for a contract. -/
def request (o : Optimizer) (name assembly : String) : String :=
  Json.compact (.object
    [("language", .string "Yul"),
      ("sources", .object [(assemblyFile name, .object [("content", .string assembly)])]),
      ("settings", .object
        [("optimizer", optimizerJson o),
          ("outputSelection",
            .object [("*", .object [("*", .strings ["evm.bytecode.object"])])])])])

/-! ## Answers -/

/-- **The bytecode in an answer** about a contract. Errors are passed on word by word. -/
def decodeReply (name text : String) : Except Failure String :=
  match Reply.parse? text with
  | none => .error (.tool name ["unreadable solc output"])
  | some reply =>
    if !reply.errors.isEmpty then .error (.tool name reply.errors)
    else
      match reply.bytecode? (assemblyFile name) name with
      | some code => .ok code
      | none => .error (.tool name ["solc produced no bytecode"])

/-- An assembler that gives one answer to everything. -/
def answering (reply : String) : String → String → Except Failure String :=
  fun name _ => decodeReply name reply

end Build

end Covenant
