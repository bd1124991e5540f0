import Covenant.Resolve.Conditionals
import Covenant.Resolve.Expressions

/-!
# Resolving statements

Each source statement becomes a list of statements without conditional expressions. A block is
part of the body around it and its locals stay declared, so a later declaration of the same name
is refused; the branches of an `if` keep their locals to themselves.
-/

namespace Covenant

namespace Resolve

/-- What a statement becomes: its statements, the scope behind it, and the number of the next
temporary. -/
structure Resolved where
  body : List Stmt
  scope : Scope
  next : Nat
deriving Inhabited

/-! ## Single statements -/

/-- **The declaration of a local.** Its type is the annotated one, or else that of its value. -/
def declaration (scope : Scope) (pos : Position) (name : String) (type : Option Source.TypeRef)
    (value : Option Source.Expression) : Except Fault (Stmt × Scope) := do
  if scope.locals.has name then throw (.malformed pos (.duplicateLocal name))
  if type.isNone && value.isNone then throw (.malformed pos (.untypedLocal name))
  let value ← value.mapM (expression scope)
  let (type, value) ← match type with
    | some written =>
      let literal := match value with
        | some (.literal _ _ text) => text
        | _ => ""
      let type ← resolveType scope literal written
      pure (type, value.map (retag type))
    | none => pure ((value.map (typeOf scope)).getD .number, value)
  if !type.isWord then throw (.unsupported pos (.wideLocal name type))
  return (.declare pos name type value, scope.withLocal name type)

/-- **A return.** A record is returned as an object literal, any other value as a word. -/
def returnStatement (scope : Scope) (returns : Ty) (pos : Position) :
    Option Source.Expression → Except Fault Stmt
  | none =>
    if returns.isVoid then .ok (.exit pos none)
    else .error (.malformed pos (.missingReturnValue returns))
  | some value => do
    match returns with
    | .void => throw (.malformed pos .returnFromVoid)
    | .record shape =>
      match soleObject? value with
      | some (objectPos, fields) =>
        let fields ← recordFields scope objectPos shape fields
        return .exit pos (some (.record objectPos shape fields))
      | none => throw (.unsupported value.pos (.recordReturn value.render shape.name))
    | _ =>
      if !returns.isWord then throw (.unsupported pos (.wideReturn returns))
      return .exit pos (some (retag returns (← expression scope value)))

/-- **A throw**, of a new error with one message. -/
def throwStatement (scope : Scope) (pos : Position) (value : Source.Expression) :
    Except Fault Stmt :=
  match soleOperand? value with
  | some (.mk _ (.creation _ "Error" (.mk _ args)) []) =>
    match args with
    | [message] => return .throw pos (← expression scope message)
    | _ => .error (.malformed pos (.throwArity args.length))
  | _ => .error (.unsupported value.pos (.thrownValue value.render))

/-- The event that is emitted, and the arguments it is given. -/
def emittedEvent? : Source.Postfix → Option (String × Position × Source.Arguments)
  | .mk _ (.this _) [.member _ event, .call pos arguments] => some (event, pos, arguments)
  | .mk _ (.name _ event) [.call pos arguments] => some (event, pos, arguments)
  | _ => none

/-- **An emission** of a declared event, whose arguments are given as an object literal. -/
def emitStatement (scope : Scope) (pos : Position) : List Source.Expression → Except Fault Stmt
  | [argument] => do
    let some call := soleOperand? argument
      | throw (.unsupported argument.pos (.emittedValue argument.render))
    let some (name, callPos, arguments) := emittedEvent? call
      | throw (.unsupported call.pos (.emittedValue call.render))
    let some event := scope.events.get? name
      | throw { pos := call.pos, cause := .unknownEvent name scope.events.names }
    match arguments.values.map soleObject? with
    | [some (objectPos, fields)] =>
      return .emit pos name (← recordFields scope objectPos event.shape fields)
    | _ => throw (.unsupported callPos (.eventArgument arguments.render name))
  | arguments => .error (.malformed pos (.emitArity arguments.length))

/-- An expression for its effect. The constructor of a base class is not called, and an emission
looks like a call. -/
def effectStatement (scope : Scope) (pos : Position) (value : Source.Expression) :
    Except Fault Stmt :=
  match soleOperand? value with
  | some (.mk _ (.name _ "super") [.call _ _]) => .ok (.skip pos)
  | some (.mk callPos (.name _ "emit") [.call _ (.mk _ arguments)]) =>
    emitStatement scope callPos arguments
  | _ => return .evaluate pos (← expression scope value)

/-- The value that an assignment stores: the new one, or the sum or difference of the current and
the new one. -/
def assigned (pos : Position) (assignment : Source.Assignment) (current value : Expr) : Expr :=
  match assignment with
  | .replace => value
  | .increase => .binary pos .add current value
  | .decrease => .binary pos .sub current value

/-- The indices behind a property, if all steps are indices and there is one. -/
def indexSuffixes? : List Source.Suffix → Option (List Source.Expression)
  | [] => some []
  | .index _ value :: rest => (indexSuffixes? rest).map (value :: ·)
  | _ => none

/-- **An assignment** to a local, to a property or to an entry of one. -/
def assignStatement (scope : Scope) (pos : Position) (target : Source.Expression)
    (assignment : Source.Assignment) (value : Source.Expression) : Except Fault Stmt := do
  let value ← expression scope value
  let invalid : Fault := .unsupported target.pos (.assignmentTarget target.render)
  match soleOperand? target with
  | some (.mk targetPos (.name _ name) []) =>
    match scope.locals.get? name with
    | some type =>
      let stored := assigned pos assignment (.var targetPos name) value
      return .setVariable pos name (retag type stored)
    | none =>
      if scope.constants.has name then throw (.malformed pos (.assignedConstant name))
      throw (.unresolved targetPos .localName name scope.valueNames)
  | some (.mk targetPos (.this _) [.member _ property]) =>
    let stored := assigned pos assignment (.storage targetPos property) value
    match scope.properties.get? property with
    | some type =>
      if !type.isWord then throw (.malformed pos (.wholeAssignment type property))
      return .setProperty pos property (retag type stored)
    | none => return .setProperty pos property stored
  | some (.mk targetPos (.this _) (.member _ property :: suffixes)) =>
    let some indices := indexSuffixes? suffixes | throw invalid
    let indices ← indices.mapM (expression scope)
    checkIndices scope targetPos property indices.length
    let stored := assigned pos assignment (.entry targetPos property indices) value
    return .setEntry pos property indices stored
  | _ => throw invalid

/-! ## Bodies -/

/-- A resolved statement with its conditionals taken out. -/
def finish (scope : Scope) (next : Nat) (s : Stmt) : Resolved :=
  let (body, next) := normalize scope next s
  { body, scope, next }

mutual
/-- **Resolves a statement** of a body that returns a type. -/
def statement (returns : Ty) : Source.Statement → Scope → Nat → Except Fault Resolved
  | .block _ statements, scope, next => body returns statements scope next
  | .declaration pos _ name type value, scope, next => do
    let (s, scope) ← declaration scope pos name type value
    return finish scope next s
  | .ifThen pos condition yes, scope, next => do
    let condition ← expression scope condition
    let yes ← statement returns yes scope next
    return finish scope yes.next (.branch pos condition yes.body [])
  | .ifElse pos condition yes no, scope, next => do
    let condition ← expression scope condition
    let yes ← statement returns yes scope next
    let no ← statement returns no scope yes.next
    return finish scope no.next (.branch pos condition yes.body no.body)
  | .returns pos value, scope, next => do
    return finish scope next (← returnStatement scope returns pos value)
  | .throw pos value, scope, next => do
    return finish scope next (← throwStatement scope pos value)
  | .evaluate pos value, scope, next => do
    return finish scope next (← effectStatement scope pos value)
  | .assign pos target assignment value, scope, next => do
    return finish scope next (← assignStatement scope pos target assignment value)
  | .empty _, scope, next => .ok { body := [], scope, next }

/-- Resolves statements one after another. -/
def body (returns : Ty) : List Source.Statement → Scope → Nat → Except Fault Resolved
  | [], scope, next => .ok { body := [], scope, next }
  | s :: ss, scope, next => do
    let first ← statement returns s scope next
    let rest ← body returns ss first.scope first.next
    return { rest with body := first.body ++ rest.body }
end

end Resolve

end Covenant
