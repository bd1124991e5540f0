import Covenant.Abi.Selector
import Covenant.Contract.Ty
import Covenant.Emit.Shared
import Covenant.Emit.Statements

/-!
# Encodings, and functions that bodies rely on

A list of values is written as one word per value. The word of a text is the distance to where the
text itself stands, behind all the words: its length and then its bytes.
-/

namespace Covenant

namespace Emit

open Yul Yul.Expr Yul.Stmt

/-- Whether a value of the type stands behind the words. -/
def isDynamic : Ty → Bool
  | .text => true
  | _ => false

/-- The place of the word of a number, from a place on. -/
def head (start : Yul.Expr) (index : Nat) : Yul.Expr :=
  if index = 0 then start else add start (num (32 * index))

/-- Writes one value. -/
def encodeOne (stop : String) (start : Yul.Expr) (index : Nat) (type : Ty) (value : Yul.Expr) :
    List Yul.Stmt :=
  if isDynamic type then
    [mstore (head start index) (sub (var stop) start),
      assign stop (binary "abi_encode_string" (var stop) value)]
  else [mstore (head start index) value]

/-- Writes values from a number on. -/
def encodeFrom (stop : String) (start : Yul.Expr) : Nat → List (Ty × Yul.Expr) → List Yul.Stmt
  | _, [] => []
  | index, (type, value) :: rest =>
    encodeOne stop start index type value ++ encodeFrom stop start (index + 1) rest

/-- **Writes values from a place on.** The named variable holds where the encoding ends. -/
def encode (stop : String) (start : Yul.Expr) (values : List (Ty × Yul.Expr)) : List Yul.Stmt :=
  define stop (add start (num (32 * values.length))) :: encodeFrom stop start 0 values

/-- Reads a value of the call's arguments whose word is at a place. -/
def decodeCalldata (type : Ty) (place : Nat) : Yul.Expr :=
  match type with
  | .address _ => call "validate_address" [call "calldataload" [num place]]
  | .boolean => call "validate_bool" [call "calldataload" [num place]]
  | .text => call "decode_string_calldata" [num place]
  | _ => call "calldataload" [num place]

/-- Reads a value from an encoding in memory that begins at a place. -/
def decodeMemory (type : Ty) (start head : Yul.Expr) : Yul.Expr :=
  match type with
  | .address _ => call "validate_address" [mload head]
  | .boolean => call "validate_bool" [mload head]
  | .text => call "decode_string_memory" [start, head]
  | _ => mload head

end Emit

/-! ## Functions that bodies rely on

The code of a body refers to other methods, contracts, events and hashes by functions named for
them. This module finds out which ones some bodies need and defines them.

Functions that encode values each need a variable for the end of the encoding; those variables are
numbered through the whole code. -/

namespace Emit

open Yul.Expr Yul.Stmt

/-! ## What bodies refer to -/

namespace Context

mutual
/-- **The methods of other contracts that an expression calls**, in the order in which code is
generated for them: a call comes after its arguments and its receiver. -/
def externals (x : Context) : Expr → List (String × String)
  | .entry _ _ indices => x.externalsAll indices
  | .binary _ _ left right => x.externals left ++ x.externals right
  | .not _ value => x.externals value
  | .external _ _ address => x.externals address
  | .deploy _ _ args => x.externalsAll args
  | .call _ target receiver args =>
    x.externalsAll args ++ x.externals receiver
      ++ (x.receiverContract? receiver).toList.map (·, target)
  | .conditional _ condition yes no => x.externals condition ++ x.externals yes ++ x.externals no
  | .record _ _ fields => x.externalsAll fields
  | .hash _ inputs => x.externalsAll inputs
  | _ => []

/-- The methods of other contracts that several expressions call. -/
def externalsAll (x : Context) : List Expr → List (String × String)
  | [] => []
  | e :: es => x.externals e ++ x.externalsAll es
end

end Context

/-- The first item for each key. -/
def firstByKey {α : Type} (key : α → String) (items : List α) : List α :=
  items.foldl (fun kept a => if kept.any (key · = key a) then kept else kept ++ [a]) []

/-- The names of the contracts that a body deploys. -/
def deployments (body : List Stmt) : List String :=
  (Stmt.expressionsOf body).filterMap fun
    | .deploy _ contract _ => some contract
    | _ => none

/-- The numbers of words that a body hashes. -/
def hashArities (body : List Stmt) : List Nat :=
  (Stmt.expressionsOf body).filterMap fun
    | .hash _ inputs => some inputs.length
    | _ => none

/-- The names of the events that a body logs. -/
def loggedEvents (body : List Stmt) : List String :=
  (Stmt.substatementsAll body).filterMap fun
    | .emit _ event _ => some event
    | _ => none

/-- The names of the methods that a body calls on the executing contract. -/
def ownCalls (body : List Stmt) : List String :=
  (Stmt.expressionsOf body).filterMap fun
    | .call _ target (.this _) _ => some target
    | _ => none

/-- **The methods of a contract that a body can reach** by calls on the executing contract. -/
def reachedMethods (c : Contract) (body : List Stmt) : List Routine :=
  let edges := c.methods.map fun m => (m.name, ownCalls m.body)
  let reached := Graph.reachable edges [] (ownCalls body)
  c.methods.filter fun m => reached.contains m.name

/-! ## Definitions -/

/-- The name of the variable for the end of an encoding. -/
def endName (number : Nat) : String :=
  "end_" ++ toString number

/-- The names of the arguments of a function. -/
def argNames (count : Nat) : List String :=
  Storage.numbered "arg_" count

/-- The variables that stand for values of some types. -/
def typedVars (types : List Ty) (names : List String) : List (Ty × Yul.Expr) :=
  types.zip (names.map var)

/-- **Calls a method of another contract**: encodes the arguments behind the selector, passes on
what a failing call returns, and decodes the result. -/
def callDefinition (contract : String) (m : Routine) (number : Nat) : Yul.Function :=
  let types := m.params.map Typed.type
  let args := argNames types.length
  let stop := endName number
  { name := callFunction contract m.name
    params := "target" :: args
    results := resultVars m.returns
    body :=
      [define "ptr" free,
        mstore (var "ptr")
          (.binary "shl" (num 224) (.literal (Abi.selector (Abi.methodSignature m))))]
      ++ encode stop (add (var "ptr") (num 4)) (typedVars types args)
      ++ [guard
            (isZero
              (call "call"
                [call "gas" [], var "target", num 0, var "ptr", sub (var stop) (var "ptr"),
                  num 0, num 0]))
            (run "revert_forward" [])]
      ++ if m.returns.isVoid then []
        else
          [revertIf (.binary "lt" (call "returndatasize" []) (num 32)),
            run "returndatacopy" [var "ptr", num 0, call "returndatasize" []],
            assign "ret" (decodeMemory m.returns (var "ptr") (var "ptr"))] }

/-- **Deploys a contract**: copies its code, encodes the arguments behind it, and passes on what a
failing constructor returns. -/
def deployDefinition (c : Contract) (number : Nat) : Yul.Function :=
  let types := c.constructorParams.map Typed.type
  let args := argNames types.length
  let stop := endName number
  { name := deployFunction c.name
    params := args
    results := ["addr"]
    body :=
      [define "size" (call "datasize" [quoted c.name]), define "ptr" free,
        run "datacopy" [var "ptr", call "dataoffset" [quoted c.name], var "size"]]
      ++ encode stop (add (var "ptr") (var "size")) (typedVars types args)
      ++ [assign "addr" (call "create" [num 0, var "ptr", sub (var stop) (var "ptr")]),
        guard (isZero (var "addr")) (run "revert_forward" [])] }

/-- **Logs an event** under the hash of its signature. -/
def eventDefinition (e : Event) (number : Nat) : Yul.Function :=
  let types := e.params.map Typed.type
  let args := Context.paramNames e.params
  let stop := endName number
  { name := eventFunction e.name
    params := args
    body :=
      define "ptr" free :: encode stop (var "ptr") (typedVars types args)
      ++ [run "log1"
          [var "ptr", sub (var stop) (var "ptr"), .literal (Abi.topic (Abi.eventSignature e))]] }

/-- **Hashes a number of words**, written one after the other. -/
def hashDefinition (count : Nat) : Yul.Function where
  name := hashFunction count
  params := Storage.numbered "word" count
  results := ["hash"]
  body :=
    define "ptr" free
      :: (Storage.numbered "word" count).mapIdx (fun i word =>
        mstore (add (var "ptr") (num (32 * i))) (var word))
      ++ [assign "hash" (.binary "keccak256" (var "ptr") (num (32 * count)))]

end Emit

end Covenant
