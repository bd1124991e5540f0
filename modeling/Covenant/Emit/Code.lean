import Covenant.Emit.Dispatch

/-!
# The code of a contract

A contract has two pieces of code: the one that creates it, and the one that stays. Both end with
the same kinds of sections: functions that bodies rely on, access to storage, events, and shared
functions.
-/

namespace Covenant

namespace Emit

open Yul.Expr Yul.Stmt

/-- A piece of code and the contracts it deploys, in the order of their names. -/
structure Piece where
  code : Yul.Code
  deploys : List String

/-! ## Sections of both pieces -/

namespace Context

/-- The definitions of the calls to other contracts, numbered from a number on. -/
def callDefinitions (x : Context) (bodies : List Stmt) (number : Nat) : List Yul.Function :=
  let targets :=
    (x.externalsAll ((Stmt.substatementsAll bodies).flatMap Stmt.operands)).filterMap
      fun (contract, target) =>
        ((x.lookup contract).bind (·.method? target)).map (contract, ·)
  (firstByKey (fun t => callFunction t.1 t.2.name) targets).mapIdx fun i (contract, m) =>
    callDefinition contract m (number + i)

/-- The contracts that bodies deploy. -/
def deployed (x : Context) (bodies : List Stmt) : List Contract :=
  (sortedNames (deployments bodies)).filterMap x.lookup

/-- The events that bodies log. -/
def logged (x : Context) (bodies : List Stmt) : List Event :=
  let names := loggedEvents bodies
  x.contract.events.filter fun e => names.contains e.name

/-- Checks that the events that bodies log have a signature. -/
def checkLogged (x : Context) (bodies : List Stmt) : Except Failure Unit :=
  if (x.logged bodies).all Abi.hasEventSignature then .ok () else .error .incomplete

/-- **The sections behind the entry of a piece of code.** The functions are followed by those that
all bodies of the piece rely on. -/
def sections (x : Context) (mark : String) (entry : Yul.Section) (functions : List Yul.Function)
    (bodies : List Stmt) (number : Nat) : Piece :=
  let calls := x.callDefinitions bodies number
  let deployed := x.deployed bodies
  let deploys := deployed.mapIdx fun i c => deployDefinition c (number + calls.length + i)
  let events := (x.logged bodies).mapIdx fun i e =>
    eventDefinition e (number + calls.length + deploys.length + i)
  let hashes := ((hashArities bodies).mergeSort (· ≤ ·)).eraseDups
  let own : Yul.Code :=
    [entry,
      { title := mark ++ "Functions"
        items := (functions ++ calls ++ deploys).map (.function .flat) },
      { title := mark ++ "Storage Layout"
        items := x.layout.arities.map fun a => .function .indented (Storage.entrySlotFunction a) },
      { title := mark ++ "Storage Access"
        items := x.layout.cells.flatMap (Storage.accessors x.creation) },
      { title := mark ++ "Events", items := events.map (.function .flat) }]
  let shared := sharedFor own.calls
  { code :=
      own ++
        [{ title := mark ++ "Helpers"
           items := (hashes.map hashDefinition ++ shared).map (.function .indented) }]
    deploys := deployed.map Contract.name }

/-! ## Creation -/

/-- The initial values of variables as assignments. Literals of readonly variables need none. -/
def initializers (x : Context) : List Stmt :=
  x.layout.cells.filterMap fun cell =>
    if cell.location.isInlined then none
    else cell.owner.initial.map (Stmt.setProperty cell.owner.pos cell.name)

/-- The code that decodes the arguments of the constructor, which stand behind the code. -/
def constructorArguments (contract : String) (types : List Ty) : List Yul.Stmt :=
  if types.isEmpty then []
  else
    [define "args_size" (sub (call "codesize" []) (call "datasize" [quoted contract])),
      revertIf (.binary "lt" (var "args_size") (num (32 * types.length))),
      define "args" (call "allocate" [var "args_size"]),
      run "codecopy" [var "args", call "datasize" [quoted contract], var "args_size"]]
    ++ (types.zip (argNames types.length)).mapIdx fun i (type, name) =>
      define name (decodeMemory type (var "args") (head (var "args") i))

/-- The code that returns the code that stays, with the values set at construction. -/
def returnRuntime (x : Context) : List Yul.Stmt :=
  let name := Yul.Object.runtimeName x.contract.name
  [define "runtime_size" (call "datasize" [quoted name]),
    define "runtime" (call "allocate" [var "runtime_size"]),
    run "codecopy" [var "runtime", call "dataoffset" [quoted name], var "runtime_size"]]
  ++ x.layout.cells.filterMap (fun cell =>
    match cell.location with
    | .staged _ index =>
      some (run "setimmutable"
        [var "runtime", quoted cell.name, mload (num (Storage.stagingAddress index))])
    | _ => none)
  ++ [run "return" [var "runtime", var "runtime_size"]]

/-- The call of the constructor. -/
def invokeConstructor (c : Construction) : Yul.Stmt :=
  run "constructor_body" ((argNames c.params.length).map var)

/-- **The code that creates a contract.** Its statements stand in a block of their own, which keeps
their variables apart from those of all functions. -/
def creationPiece (x : Context) : Except Failure Piece := do
  let c := x.contract
  let prologue ← x.statements .void x.initializers
  let constructor ← c.construction.toList.mapM x.constructorBody
  let bodies := x.initializers ++ c.constructorBody
  let reached := reachedMethods c bodies
  let methods ← reached.mapM x.method
  x.checkLogged (bodies ++ reached.flatMap Routine.body)
  let entry : Yul.Stmt := .block
    ([mstore (num 64) (num (Storage.stagingAddress x.layout.staged)), run "require_no_value" []]
      ++ constructorArguments c.name (c.constructorParams.map Typed.type)
      ++ prologue ++ c.construction.toList.map invokeConstructor ++ x.returnRuntime)
  return x.sections "Constructor " { title := "Constructor", items := [.statement entry] }
    (constructor ++ methods) (bodies ++ reached.flatMap Routine.body) 1

/-! ## The code that stays -/

/-- **The code that stays on chain.** -/
def runtimePiece (x : Context) : Except Failure Piece := do
  let c := x.contract
  (Abi.exposedMethods c).forM fun m => checkResult m.returns
  let methods ← c.methods.mapM x.method
  x.checkLogged (c.methods.flatMap Routine.body)
  let routes := routes c
  return x.sections "" { title := "Dispatcher", items := dispatcher routes } methods
    (c.methods.flatMap Routine.body) (encodingRoutes routes + 1)

end Context

end Emit

end Covenant
