import Covenant.Contract.Basic
import Covenant.Contract.Printer
import Covenant.Emit.Shared
import Covenant.Environment
import Covenant.Storage.Access

/-!
# Code of expressions

Every expression becomes one expression of the assembly language. Methods, variables, events, other
contracts and hashes are reached through functions named for them; which of those a piece of code
has to define is told by what it applies.
-/

namespace Covenant

namespace Emit

/-- **What the code of a contract is generated for**: the contracts it may refer to, its layout, and
whether the code is the one that creates the contract. -/
structure Context where
  registry : Registry
  contract : Contract
  layout : Storage.Layout
  creation : Bool

/-! ## Names -/

/-- The name of a local variable. -/
def localName (name : String) : String :=
  "var_" ++ name

/-- The name of the function of a method. -/
def methodFunction (name : String) : String :=
  "fun_" ++ name

/-- The name of the function that calls a method of another contract. -/
def callFunction (contract method : String) : String :=
  "call_" ++ contract ++ "_" ++ method

/-- The name of the function that deploys a contract. -/
def deployFunction (contract : String) : String :=
  "deploy_" ++ contract

/-- The name of the function that logs an event. -/
def eventFunction (event : String) : String :=
  "emit_" ++ event

/-- The name of the function that hashes a number of words. -/
def hashFunction (count : Nat) : String :=
  "hash_" ++ toString count

/-! ## Operators -/

/-- **The code of an operator.** Arithmetic is checked; the negations of comparisons are spelled
out. -/
def operation (op : BinaryOp) (left right : Yul.Expr) : Yul.Expr :=
  match op with
  | .add => .binary "checked_add" left right
  | .sub => .binary "checked_sub" left right
  | .mul => .binary "checked_mul" left right
  | .div => .binary "checked_div" left right
  | .mod => .binary "checked_mod" left right
  | .pow => .binary "checked_exp" left right
  | .eq => .binary "eq" left right
  | .ne => .isZero (.binary "eq" left right)
  | .lt => .binary "lt" left right
  | .le => .isZero (.binary "gt" left right)
  | .gt => .binary "gt" left right
  | .ge => .isZero (.binary "lt" left right)
  | .and => .binary "and" left right
  | .or | .other => .binary "or" left right

/-- An expression as a message names it. -/
def sourceOf (e : Expr) : Except Failure String :=
  match e.render? with
  | some source => .ok source
  | none => .error .incomplete

/-! ## Properties -/

/-- Whether a type is that of a record. -/
def isRecord : Ty → Bool
  | .record _ | .anyRecord => true
  | _ => false

namespace Context

/-- The location of a property. -/
def location (x : Context) (pos : Position) (name : String) : Except Failure Storage.Location :=
  match x.layout.location? name with
  | some location => .ok location
  | none => .error (.unresolved pos .property name x.contract.variableNames)

/-- Checks that a property can be used with a number of indices. -/
def checkIndexed (x : Context) (pos : Position) (name : String) (given : Nat) :
    Except Failure Unit := do
  let wanted ←
    match ← x.location pos name with
    | .mapping arity _ => pure arity
    | .array _ => pure 1
    | _ => throw (.unsupported pos (.indexedScalar name))
  if given ≠ wanted then throw (.malformed pos (.entryCount name wanted given))

/-- The code that reads a property of one word. -/
def readProperty (x : Context) (pos : Position) (name : String) : Except Failure Yul.Expr := do
  match ← x.location pos name with
  | .mapping _ _ => throw (.unsupported pos (.wholeRead name "mapping"))
  | .array _ => throw (.unsupported pos (.wholeRead name "array"))
  | _ => return .call (Storage.getter name) []

/-- The code that gives the length of an array. -/
def readLength (x : Context) (pos : Position) (name : String) : Except Failure Yul.Expr := do
  match ← x.location pos name with
  | .array _ => return .call (Storage.lengthGetter name) []
  | _ => throw (.unsupported pos (.lengthOf ("this." ++ name ++ ".length") name))

/-! ## Other contracts -/

/-- The contract of a name; no contract has the empty name. -/
def lookup (x : Context) (name : String) : Option Contract :=
  if name = "" then none else x.registry.get? name

/-- The class of the contract that a receiver refers to, where that is known. -/
def receiverContract? (x : Context) : Expr → Option String
  | .external _ contract _ => some contract
  | .storage _ name =>
    match (x.contract.stateVar? name).map StateVar.type with
    | some (.address contract) => contract
    | _ => none
  | _ => none

/-- The code of a value of the execution environment. -/
def readEnvironment (pos : Position) (space member : String) : Except Failure Yul.Expr :=
  match Environment.member? space member with
  | some m => .ok (.call m.builtin [])
  | none => .error (.unresolved pos (.member space) member (Environment.memberNames space))

/-- The function that calls a method of the executing contract. -/
def internalCall (x : Context) (e : Expr) (target : String) (args : Nat) :
    Except Failure String :=
  match x.contract.method? target with
  | none => .error (.unresolved e.pos .method target x.contract.methodNames)
  | some m =>
    if args ≠ m.params.length then
      .error (.malformed e.pos (.argumentCount target m.params.length args))
    else if isRecord m.returns then do
      throw (.unsupported e.pos (.callValue (← sourceOf e) m.returns))
    else .ok (methodFunction target)

/-- The function that calls a method of another contract. -/
def externalCall (x : Context) (e : Expr) (contract target : String) (args : Nat) :
    Except Failure String :=
  match x.lookup contract with
  | none => .error (.unresolved e.pos .contract contract x.registry.names)
  | some other =>
    match (other.method? target).filter (·.visibility.isExposed) with
    | none => .error (.unresolved e.pos (.methodOf contract) target other.methodNames)
    | some m =>
      if args ≠ m.params.length then
        .error (.malformed e.pos
          (.argumentCount (contract ++ "." ++ target) m.params.length args))
      else if isRecord m.returns then do
        throw (.unsupported e.pos (.callValue (← sourceOf e) m.returns))
      else if !Ty.areWhole (m.params.map Typed.type) then .error .incomplete
      else .ok (callFunction contract m.name)

/-- Checks that a contract can be deployed with a number of arguments. -/
def checkDeploy (x : Context) (pos : Position) (contract : String) (args : Nat) :
    Except Failure Unit :=
  match x.lookup contract with
  | none => .error (.unresolved pos .contract contract x.registry.names)
  | some other =>
    let wanted := other.constructorParams.length
    if args ≠ wanted then .error (.malformed pos (.constructorArguments contract wanted args))
    else .ok ()

/-- The class behind a property that is called, and the code of its address. -/
def storedReceiver (x : Context) (e : Expr) (pos : Position) (name : String) :
    Except Failure (String × Yul.Expr) :=
  match x.contract.stateVar? name with
  | none => .error (.unresolved pos .property name x.contract.variableNames)
  | some v =>
    match v.type with
    | .address (some contract) => do return (contract, ← x.readProperty pos name)
    | _ => do throw (.unsupported e.pos (.notReference (← sourceOf e) name))

/-! ## Expressions -/

mutual
/-- **The code of an expression.** -/
def expr (x : Context) : Expr → Except Failure Yul.Expr
  | .literal pos type text => do return .literal (← literalWord pos type text)
  | .var _ name => .ok (.var (localName name))
  | .storage pos name => x.readProperty pos name
  | .entry pos property indices => do
    x.checkIndexed pos property indices.length
    return .call (Storage.getter property) (← x.exprs indices)
  | .length pos property => x.readLength pos property
  | .binary _ op left right => do
    let left ← x.expr left
    let right ← x.expr right
    return operation op left right
  | .not _ value => do return .isZero (← x.expr value)
  | .this _ => .ok (.call "address" [])
  | .external _ _ address => x.expr address
  | .environment pos space member => readEnvironment pos space member
  | .hash _ inputs => do
    return .call (hashFunction inputs.length) (← x.exprs inputs)
  | e@(.call _ target (.this _) args) => do
    let values ← x.exprs args
    return .call (← x.internalCall e target args.length) values
  | e@(.call _ target (.external _ contract address) args) => do
    let values ← x.exprs args
    let receiver ← x.expr address
    return .call (← x.externalCall e contract target args.length) (receiver :: values)
  | e@(.call _ target (.storage pos name) args) => do
    let values ← x.exprs args
    let (contract, receiver) ← x.storedReceiver e pos name
    return .call (← x.externalCall e contract target args.length) (receiver :: values)
  | e@(.call pos _ _ args) => do
    let _ ← x.exprs args
    throw (.unsupported pos (.callReceiver (← sourceOf e)))
  | .deploy pos contract args => do
    x.checkDeploy pos contract args.length
    return .call (deployFunction contract) (← x.exprs args)
  | e@(.conditional pos _ _ _) => do
    throw (.unsupported pos (.remainingConditional (← sourceOf e)))
  | e@(.record pos _ _) => do throw (.unsupported pos (.objectLiteral (← sourceOf e)))
  | .missing => .error .incomplete

/-- The code of several expressions. -/
def exprs (x : Context) : List Expr → Except Failure (List Yul.Expr)
  | [] => .ok []
  | e :: es => do
    let value ← x.expr e
    return value :: (← x.exprs es)
end

/-- **Whether an expression leaves a word behind** when it is evaluated for its effect. -/
def leavesWord (x : Context) : Expr → Bool
  | .call _ target (.this _) _ =>
    match x.contract.method? target with
    | some m => !m.returns.isVoid
    | none => false
  | .call _ target receiver _ =>
    match (x.receiverContract? receiver).bind x.lookup |>.bind (·.method? target) with
    | some m => !m.returns.isVoid
    | none => true
  | _ => true

end Context

end Emit

end Covenant
