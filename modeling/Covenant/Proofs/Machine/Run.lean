import Covenant.Emit.Shared
import Covenant.Proofs.Execution.Locals
import Covenant.Proofs.Execution.Numeral
import Covenant.Proofs.Machine.Memory
import Covenant.Yul.Object

/-!
# Running assembly code

What assembly code does on the machine. Expressions give words, the operands of a call are evaluated
from right to left, and a function works on variables of its own. Beside its effects a run leaves a
trace of the slots of storage it accessed and of what it hashed.

Nesting is followed by recursion on the code. Loops and calls of functions go on for a number of
rounds; a run that needs more is exhausted. What the machine knows about the world, the hash
function among it, is a parameter, the `Host`.
-/

namespace Covenant

namespace Machine

/-- Why a run stops before the end of its code. -/
inductive Stop where
  | reverted (data : List UInt8)
  | returned (data : List UInt8)
  /-- The code makes no sense, such as a call of a function that is not there. -/
  | stuck
  /-- The number of rounds was too small. -/
  | exhausted
deriving DecidableEq

/-- What is seen of a run beside its effects. -/
inductive Access where
  /-- A slot of storage was read or written. -/
  | slot (slot : Word)
  | hash (input : List UInt8)
deriving DecidableEq

/-- **The state of the machine**, with the variables of the function that runs. -/
structure State where
  memory : Memory := fun _ => 0
  storage : Word → Word
  /-- The data and the topics of what was logged. -/
  logs : List (List UInt8 × List Word) := []
  trace : List Access := []
  locals : Locals Word := {}

/-- **A run** that gives a value, or stops. -/
abbrev Action (α : Type) := EStateM Stop State α

/-- **What the machine knows about the world.** Operations beyond those described here, such as
calls of other contracts, are given by their name, their quoted operands and their words. -/
structure Host where
  keccak : List UInt8 → Word
  calldata : List UInt8
  callvalue : Word
  immutable : String → Word
  other : String → Option (List String → List Word → Action (List Word))

/-- How a statement ends. -/
inductive Flow where
  | next
  /-- The function is left. -/
  | left
  /-- The loop is left. -/
  | broke
deriving DecidableEq

/-! ## Parts of a run -/

section Parts

variable {α β : Type}

/-- The state of the machine. -/
def state : Action State := fun s => .ok s s

/-- Changes the state. -/
def change (f : State → State) : Action Unit := fun s => .ok () (f s)

/-- Stops. -/
def stop (why : Stop) : Action α := fun s => .error why s

/-- Goes on with a result, unless the run stopped. -/
def andThen (r : EStateM.Result Stop State α) (f : α → Action β) : EStateM.Result Stop State β :=
  match r with
  | .ok a s => f a s
  | .error why s => .error why s

/-- The one word that is expected. -/
def single (x : Action (List Word)) : Action Word := do
  match ← x with
  | [w] => pure w
  | _ => stop .stuck

/-- Runs in a block of its own. -/
def inBlock (x : Action α) : Action α := do
  change fun s => { s with locals := s.locals.enter }
  let a ← x
  change fun s => { s with locals := s.locals.leave }
  return a

/-- Gives a variable a word. -/
def assign (name : String) (w : Word) : Action Unit := do
  let s ← state
  match s.locals.get? name with
  | some _ => change fun s => { s with locals := s.locals.set name w }
  | none => stop .stuck

/-- Repeats a body while a condition is not zero. -/
def iterate (condition : Action Word) (body step : Action Flow) : Nat → Action Flow
  | 0 => stop .exhausted
  | rounds + 1 => do
    if (← condition) = 0 then return .next
    match ← body with
    | .broke => return .next
    | .left => return .left
    | .next =>
      let _ ← step
      iterate condition body step rounds

/-- Runs the body of a function on variables of its own, and gives the values of its results. -/
def invoke (f : Yul.Function) (args : List Word) (body : Action Flow) : Action (List Word) := do
  if args.length = f.params.length then
    let outer := (← state).locals
    change fun s => { s with locals := { inner := f.params.zip args ++ f.results.map (·, 0) } }
    let _ ← body
    let inner := (← state).locals
    change fun s => { s with locals := outer }
    return f.results.map fun name => (inner.get? name).getD 0
  else stop .stuck

end Parts

/-! ## Operations -/

/-- The operations on two words. -/
def binaryOps : List (String × (Word → Word → Word)) :=
  [("add", fun a b => a + b),
    ("sub", fun a b => a - b),
    ("mul", fun a b => a * b),
    ("div", fun a b => a / b),
    ("mod", fun a b => if b = 0 then 0 else a % b),
    ("lt", fun a b => Word.truth (a < b)),
    ("gt", fun a b => Word.truth (b < a)),
    ("eq", fun a b => Word.truth (a = b)),
    ("and", fun a b => a &&& b),
    ("or", fun a b => a ||| b),
    ("shl", fun shift w => if shift < 256 then w <<< shift.toNat else 0),
    ("shr", fun shift w => if shift < 256 then w >>> shift.toNat else 0),
    ("byte", fun i w => if i < 32 then w >>> (8 * (31 - i.toNat)) &&& 255 else 0)]

/-- Reads a slot. -/
def load (slot : Word) : Action (List Word) := do
  change fun s => { s with trace := s.trace ++ [.slot slot] }
  return [(← state).storage slot]

/-- Writes a slot. -/
def store (slot value : Word) : Action (List Word) := do
  change fun s =>
    { s with
      storage := fun a => if a = slot then value else s.storage a
      trace := s.trace ++ [.slot slot] }
  return []

/-- Hashes bytes of memory. -/
def hash (host : Host) (place count : Word) : Action (List Word) := do
  let input := (← state).memory.read place.toNat count.toNat
  change fun s => { s with trace := s.trace ++ [.hash input] }
  return [host.keccak input]

/-- Writes a word to memory. -/
def writeWord (place value : Word) : Action (List Word) := do
  change fun s => { s with memory := s.memory.write place.toNat value.bytes }
  return []

/-- Reads a word from memory. -/
def readWord (place : Word) : Action (List Word) := do
  return [Word.ofBytes ((← state).memory.read place.toNat 32)]

/-- Logs bytes of memory under a topic. -/
def logOne (place count topic : Word) : Action (List Word) := do
  let data := (← state).memory.read place.toNat count.toNat
  change fun s => { s with logs := s.logs ++ [(data, [topic])] }
  return []

/-- The word of the call's arguments from a place on, filled up with zeros. -/
def callWord (host : Host) (place : Word) : Word :=
  Word.ofBytes ((List.range 32).map fun i => (host.calldata[place.toNat + i]?).getD 0)

/-- Stops with bytes of memory. -/
def stopWith (why : List UInt8 → Stop) (place count : Word) : Action (List Word) := do
  stop (why ((← state).memory.read place.toNat count.toNat))

/-- An operation, if the numbers of its quoted operands and of its words are right. -/
abbrev Operation := List String → List Word → Option (Action (List Word))

namespace Operation

/-- An operation without words. -/
def nullary (x : Action (List Word)) : Operation
  | _, [] => some x
  | _, _ => none

/-- An operation on one word. -/
def unary (x : Word → Action (List Word)) : Operation
  | _, [a] => some (x a)
  | _, _ => none

/-- An operation on two words. -/
def dyadic (x : Word → Word → Action (List Word)) : Operation
  | _, [a, b] => some (x a b)
  | _, _ => none

/-- An operation on three words. -/
def triadic (x : Word → Word → Word → Action (List Word)) : Operation
  | _, [a, b, c] => some (x a b c)
  | _, _ => none

/-- An operation on a quoted name. -/
def named (x : String → Action (List Word)) : Operation
  | [name], [] => some (x name)
  | _, _ => none

end Operation

open Operation in
/-- **The operations of the machine**, by their names. -/
def operations (host : Host) : List (String × Operation) :=
  [("iszero", unary fun a => pure [Word.truth (a = 0)]),
    ("not", unary fun a => pure [~~~a]),
    ("pop", unary fun _ => pure []),
    ("mload", unary readWord),
    ("mstore", dyadic writeWord),
    ("sload", unary load),
    ("sstore", dyadic store),
    ("keccak256", dyadic (hash host)),
    ("log1", triadic logOne),
    ("calldatasize", nullary (pure [BitVec.ofNat 256 host.calldata.length])),
    ("calldataload", unary fun place => pure [callWord host place]),
    ("callvalue", nullary (pure [host.callvalue])),
    ("loadimmutable", named fun name => pure [host.immutable name]),
    ("return", dyadic (stopWith .returned)),
    ("revert", dyadic (stopWith .reverted))]
    ++ binaryOps.map fun (name, op) => (name, dyadic fun a b => pure [op a b])

/-- What a name stands for among the operations, applied to quoted names and words. -/
def builtin (host : Host) (names : List String) (f : String) (words : List Word) :
    Option (Action (List Word)) :=
  ((operations host).lookup f).bind fun operation => operation names words

/-! ## Expressions -/

/-- What is done with a name that is applied to quoted names and words. -/
abbrev Apply := List String → String → List Word → Action (List Word)

/-- The quoted names among operands. -/
def quotedNames (args : List Yul.Expr) : List String :=
  args.filterMap fun
    | .quoted name => some name
    | _ => none

mutual
/-- **The words an expression gives.** -/
def eval (apply : Apply) : Yul.Expr → Action (List Word)
  | .literal numeral => pure [Word.ofNumeral numeral]
  | .quoted _ => stop .stuck
  | .var name => do
    match (← state).locals.get? name with
    | some w => pure [w]
    | none => stop .stuck
  | .call f args => do
    let words ← evalArgs apply args
    apply (quotedNames args) f words

/-- The words of operands, the last one first. Quoted names have none. -/
def evalArgs (apply : Apply) : List Yul.Expr → Action (List Word)
  | [] => pure []
  | .quoted _ :: rest => evalArgs apply rest
  | e :: rest => do
    let words ← evalArgs apply rest
    let w ← single (eval apply e)
    return w :: words
end

/-! ## Statements -/

mutual
/-- **Runs a statement.** -/
def exec (apply : Apply) (rounds : Nat) : Yul.Stmt → Action Flow
  | .evaluate value => do
    match ← eval apply value with
    | [] => return .next
    | _ => stop .stuck
  | .declare names none => do
    change fun s => { s with locals := s.locals.declareAll (names.map (·, 0)) }
    return .next
  | .declare names (some value) => do
    let words ← eval apply value
    if words.length = names.length then
      change fun s => { s with locals := s.locals.declareAll (names.zip words) }
      return .next
    else stop .stuck
  | .assign name value => do
    let w ← single (eval apply value)
    assign name w
    return .next
  | .block body => inBlock (execAll apply rounds body)
  | .ifThen condition body => do
    let w ← single (eval apply condition)
    if w = 0 then return .next else inBlock (execAll apply rounds body)
  | .guard condition action => do
    let w ← single (eval apply condition)
    if w = 0 then return .next else inBlock (exec apply rounds action)
  | .ifZero condition zero other => do
    let w ← single (eval apply condition)
    inBlock (if w = 0 then execAll apply rounds zero else execAll apply rounds other)
  | .loop condition step body =>
    iterate (single (eval apply condition)) (inBlock (execAll apply rounds body))
      (exec apply rounds step) rounds
  | .leave => return .left
  | .stop => return .broke

/-- Runs statements until one of them leaves. -/
def execAll (apply : Apply) (rounds : Nat) : List Yul.Stmt → Action Flow
  | [] => return .next
  | s :: rest => do
    match ← exec apply rounds s with
    | .next => execAll apply rounds rest
    | flow => return flow
end

/-! ## Functions -/

/-- The function of a name. -/
def function? (code : List Yul.Function) (name : String) : Option Yul.Function :=
  code.find? (·.name = name)

/-- **Applies a name**: an operation of the machine, a function of the code, or something else. -/
def apply (host : Host) (code : List Yul.Function) (rounds : Nat) : Apply := fun names f words =>
  match builtin host names f words, function? code f, host.other f with
  | some action, _, _ => action
  | none, some function, _ =>
    match rounds with
    | 0 => stop .exhausted
    | rounds + 1 => invoke function words (execAll (apply host code rounds) rounds function.body)
  | none, none, some action => action names words
  | none, none, none => stop .stuck

/-- **Runs a function** on some words. -/
def runFunction (host : Host) (code : List Yul.Function) (rounds : Nat) (f : Yul.Function)
    (args : List Word) : Action (List Word) :=
  invoke f args (execAll (apply host code rounds) rounds f.body)

end Machine

end Covenant
