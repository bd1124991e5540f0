import Covenant.Emit.Functions

/-!
# Dispatch of calls

The code that stays on chain starts by telling from the selector which function a call is for. Each
function that can be called from outside has a route: it refuses money if it only reads, decodes the
arguments, calls the function and encodes what it returns.
-/

namespace Covenant

namespace Emit

open Yul.Expr Yul.Stmt

/-- **The way of a call from outside to a function.** -/
structure Route where
  signature : String
  inputs : List Ty
  outputs : List Ty
  /-- The function that is called. -/
  function : String
  /-- Whether the call must come without money. -/
  guarded : Bool

namespace Route

/-- The route to the getter of a variable. -/
def ofVariable (v : StateVar) : Route where
  signature := Abi.getterSignature v
  inputs := Abi.getterInputs v
  outputs := [Abi.getterOutput v]
  function := Storage.getter v.name
  guarded := true

/-- The route to a method. -/
def ofMethod (m : Routine) : Route where
  signature := Abi.methodSignature m
  inputs := m.params.map Typed.type
  outputs := resultTypes m.returns
  function := methodFunction m.name
  guarded := m.mutability = .view

/-- The names of the results. -/
def resultNames (r : Route) : List String :=
  Storage.numbered "ret_" r.outputs.length

/-- The code that checks the call and decodes its arguments. -/
def decoding (r : Route) : List Yul.Stmt :=
  (if r.guarded then [run "require_no_value" []] else [])
    ++ (if r.inputs.isEmpty then []
      else [run "require_calldata" [num (4 + 32 * r.inputs.length)]])
    ++ (r.inputs.zip (argNames r.inputs.length)).mapIdx fun i (type, name) =>
      define name (decodeCalldata type (4 + 32 * i))

/-- The call of the function. -/
def invocation (r : Route) : Yul.Expr :=
  call r.function ((argNames r.inputs.length).map var)

/-- The code that calls the function and returns what it gives. -/
def answering (r : Route) (number : Nat) : List Yul.Stmt :=
  if r.outputs.isEmpty then [evaluate r.invocation, run "return" [num 0, num 0]]
  else
    [declare r.resultNames (some r.invocation), define "ptr" free]
      ++ encode (endName number) (var "ptr") (typedVars r.outputs r.resultNames)
      ++ [run "return" [var "ptr", sub (var (endName number)) (var "ptr")]]

/-- **The case of a route.** -/
def case (r : Route) (number : Nat) : Yul.Case where
  label := Abi.selector r.signature
  comment := r.signature
  body := r.decoding ++ r.answering number

end Route

/-- **The routes of a contract**: to the getters, then to the methods. -/
def routes (c : Contract) : List Route :=
  (Abi.getters c).map Route.ofVariable ++ (Abi.exposedMethods c).map Route.ofMethod

/-- The cases of routes. Those that encode results are numbered from the given number on. -/
def casesFrom (number : Nat) : List Route → List Yul.Case
  | [] => []
  | r :: rest =>
    r.case number :: casesFrom (if r.outputs.isEmpty then number else number + 1) rest

/-- How many routes encode results. -/
def encodingRoutes (routes : List Route) : Nat :=
  routes.countP fun r => !r.outputs.isEmpty

/-- **The dispatcher.** A call that is too short or has no known selector is refused. -/
def dispatcher (routes : List Route) : List Yul.Item :=
  .statement (mstore (num 64) (num Storage.stagingStart))
    :: if routes.isEmpty then [.statement revert]
      else
        [.statement (revertIf (.binary "lt" (call "calldatasize" []) (num 4))),
          .choice (.binary "shr" (num 224) (call "calldataload" [num 0])) (casesFrom 1 routes)
            revert]

end Emit

end Covenant
