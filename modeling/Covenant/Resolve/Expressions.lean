import Covenant.Resolve.Literals
import Covenant.Resolve.Operators

/-!
# Resolving expressions

Each source expression becomes an expression of the contract, or is refused. Bare names are looked
up among the constants and locals, chains of member accesses, indices and calls are recognised by
their shape, and operator chains become trees.

The parts of an expression are resolved each on its own; the failure of a part is only a failure of
the whole if the whole uses it.
-/

namespace Covenant

namespace Resolve

/-- A step behind a primary, with its parts resolved. -/
inductive Step where
  | member (pos : Position) (name : String)
  | index (value : Except Fault Expr)
  | call (arguments : Except Fault (List Expr)) (count : Nat)

namespace Step

/-- The indices, if all steps are indices. -/
def indices? : List Step → Option (List (Except Fault Expr))
  | [] => some []
  | index value :: steps => (indices? steps).map (value :: ·)
  | _ => none

end Step

/-- All results, or the first failure. -/
def sequence {α : Type} : List (Except Fault α) → Except Fault (List α)
  | [] => .ok []
  | r :: rs => do return (← r) :: (← sequence rs)

/-! ## Names and properties -/

/-- **The value of a bare name**: a constant stands for its value. -/
def name (scope : Scope) (pos : Position) (identifier : String) : Except Fault Expr :=
  match scope.constants.get? identifier with
  | some value => .ok value
  | none =>
    if scope.locals.has identifier then .ok (.var pos identifier)
    else .error (.unresolved pos .localName identifier scope.valueNames)

/-- Compares the indices of an access with the declared type of the property. A property that the
class does not declare itself is left to later checks. -/
def checkIndices (scope : Scope) (pos : Position) (property : String) (given : Nat) :
    Except Fault Unit :=
  let compare (wanted : Nat) : Except Fault Unit :=
    if given = wanted then .ok () else .error (.malformed pos (.indexCount property wanted given))
  match scope.properties.get? property with
  | none => .ok ()
  | some (.mapping keys _) => compare keys.length
  | some (.array _) => compare 1
  | some type => .error (.malformed pos (.notIndexable property type))

/-- The length of a property, which must be an array as far as its type is known. -/
def lengthOf (scope : Scope) (pos lengthPos : Position) (source property : String) :
    Except Fault Expr :=
  match scope.properties.get? property with
  | some (.array _) | none => .ok (.length pos property)
  | some _ => .error (.unsupported lengthPos (.lengthOf source property))

/-- **A chain behind `this`**: the contract itself, a property, an entry of one, its length, or a
call of a method, also of the contract a property refers to. -/
def thisChain (scope : Scope) (pos : Position) (source : String) :
    List Step → Except Fault Expr
  | [] => .ok (.this pos)
  | [.member memberPos property] => .ok (.storage memberPos property)
  | [.member _ method, .call arguments _] => do
    return .call pos method (.this pos) (← arguments)
  | [.member _ property, .member lengthPos "length"] =>
    lengthOf scope pos lengthPos source property
  | [.member memberPos property, .member _ method, .call arguments _] => do
    return .call pos method (.storage memberPos property) (← arguments)
  | .member _ property :: rest =>
    match Step.indices? rest with
    | some indices => do
      let indices ← sequence indices
      checkIndices scope pos property indices.length
      return .entry pos property indices
    | none => .error (.unsupported pos (.propertyAccess source))
  | _ => .error (.unsupported pos (.useOfThis source))

/-- A deployed contract given by its address, and perhaps a call of its method. -/
def externalChain (pos : Position) (source contract : String)
    (arguments : Except Fault (List Expr)) (count : Nat) (rest : List Step) :
    Except Fault Expr := do
  if count ≠ 1 then throw (.malformed pos (.addressArity contract))
  match ← arguments with
  | [address] =>
    let handle : Expr := .external pos contract address
    match rest with
    | [] => return handle
    | [.member _ method, .call arguments _] => return .call pos method handle (← arguments)
    | _ => throw (.unsupported pos (.useOfExternal source))
  | _ => throw (.malformed pos (.addressArity contract))

/-- A value of the execution environment. -/
def environmentChain (pos : Position) (source space : String) : List Step → Except Fault Expr
  | [.member memberPos member] =>
    match Environment.member? space member with
    | some _ => .ok (.environment pos space member)
    | none =>
      .error (.unresolved memberPos (.member space) member (Environment.memberNames space))
  | _ => .error (.unsupported pos (.useOfName source space))

/-- **A chain behind a name**: the value of the name if nothing follows; else a value of the
environment, a hash, or a deployed contract, none of which a local of the same name allows. -/
def nameChain (scope : Scope) (pos : Position) (source identifier : String) (steps : List Step) :
    Except Fault Expr :=
  if steps.isEmpty then name scope pos identifier
  else if scope.locals.has identifier then .error (.unsupported pos (.expression source))
  else if Environment.isSpace identifier then environmentChain pos source identifier steps
  else match identifier, steps with
    | "keccak256", [.call arguments _] => do
      let inputs ← arguments
      if inputs.isEmpty then throw (.malformed pos .hashArity)
      return .hash pos inputs
    | _, .member _ "at" :: .call arguments count :: rest =>
      if scope.contracts.contains identifier then
        externalChain pos source identifier arguments count rest
      else .error (.unsupported pos (.expression source))
    | _, _ => .error (.unsupported pos (.expression source))

/-- A new contract. -/
def creation (scope : Scope) (pos : Position) (className : String)
    (arguments : Except Fault (List Expr)) : Except Fault Expr := do
  if scope.contracts.contains className then
    return .deploy pos className (← arguments)
  else if className = "Error" then throw (.unsupported pos .errorValue)
  else throw (.unresolved pos .contract className scope.contracts)

/-- Puts a sign before a value. The only negation is that of truth values, and it does not matter
which sign writes it. -/
def applySign (scope : Scope) (pos : Position) (source : String) (sign : Source.Sign)
    (value : Expr) : Except Fault Expr :=
  match sign, typeOf scope value with
  | .not, _ => .ok (.not pos value)
  | .minus, .boolean => .ok (.not pos value)
  | .minus, _ => .error (.unsupported pos (.negativeNumber source))

/-! ## Expressions -/

mutual
/-- **Resolves an expression.** -/
def expression (scope : Scope) : Source.Expression → Except Fault Expr
  | .chain _ value => chain scope value
  | .choice pos condition yes no => do
    let condition ← chain scope condition
    let yes ← expression scope yes
    let no ← expression scope no
    return .conditional pos condition yes no

/-- Resolves an operator chain: its operands in order, then its tree. -/
def chain (scope : Scope) : Source.Chain → Except Fault Expr
  | .mk _ first rest => do
    let first ← operand scope first
    let rest ← links scope rest
    return operatorTree first rest

/-- Resolves the operands behind the operators of a chain. -/
def links (scope : Scope) : List Source.Link → Except Fault (List OperatorLink)
  | [] => .ok []
  | .mk pos operator value :: rest => do
    let operand ← operand scope value
    let rest ← links scope rest
    return { pos, operator, operand } :: rest

/-- Resolves a value behind its signs, the last of which is applied first. -/
def operand (scope : Scope) : Source.Operand → Except Fault Expr
  | node@(.mk pos signs value) => do
    let value ← postfixed scope value
    signs.foldrM (applySign scope pos node.render) value

/-- Resolves a primary and the steps behind it. -/
def postfixed (scope : Scope) : Source.Postfix → Except Fault Expr
  | node@(.mk pos primary suffixes) =>
    match primary with
    | .this _ => thisChain scope pos node.render (steps scope suffixes)
    | .name _ identifier => nameChain scope pos node.render identifier (steps scope suffixes)
    | .creation creationPos className (.mk _ values) =>
      if suffixes.isEmpty then creation scope creationPos className (arguments scope values)
      else .error (.unsupported pos (.expression node.render))
    | .number literalPos literal =>
      if suffixes.isEmpty then number literalPos literal
      else .error (.unsupported pos (.expression node.render))
    | .text literalPos value =>
      if suffixes.isEmpty then text literalPos value
      else .error (.unsupported pos (.expression node.render))
    | .truth literalPos value =>
      if suffixes.isEmpty then .ok (truth literalPos value)
      else .error (.unsupported pos (.expression node.render))
    | .parens _ inner =>
      if suffixes.isEmpty then expression scope inner
      else .error (.unsupported pos (.expression node.render))
    | .object objectPos _ =>
      if suffixes.isEmpty then .error (.unsupported objectPos (.objectLiteral primary.render))
      else .error (.unsupported pos (.expression node.render))

/-- Resolves the steps behind a primary, each on its own. -/
def steps (scope : Scope) : List Source.Suffix → List Step
  | [] => []
  | .member pos member :: rest => .member pos member :: steps scope rest
  | .index _ value :: rest => .index (expression scope value) :: steps scope rest
  | .call _ (.mk _ values) :: rest =>
    .call (arguments scope values) values.length :: steps scope rest

/-- Resolves arguments in order. -/
def arguments (scope : Scope) : List Source.Expression → Except Fault (List Expr)
  | [] => .ok []
  | e :: es => do
    let value ← expression scope e
    let rest ← arguments scope es
    return value :: rest
end

/-! ## Records -/

/-- The postfix expression that an expression consists of, if it has no operators. -/
def soleOperand? : Source.Expression → Option Source.Postfix
  | .chain _ (.mk _ (.mk _ [] value) []) => some value
  | _ => none

/-- The object literal that an expression consists of. -/
def soleObject? (e : Source.Expression) : Option (Position × List Source.ObjectField) :=
  match soleOperand? e with
  | some (.mk _ (.object pos fields) []) => some (pos, fields)
  | _ => none

/-- Checks that the keys of an object literal are fields of its interface, each given once. -/
def checkKeys (shape : Interface) (given : List String) :
    List Source.ObjectField → Except Fault Unit
  | [] => .ok ()
  | field :: rest => do
    if given.contains field.key then
      throw (.malformed field.pos (.repeatedField field.key))
    if (shape.index? field.key).isNone then
      throw (.unresolved field.pos (.fieldOf shape.name) field.key shape.fieldNames)
    checkKeys shape (field.key :: given) rest

/-- The value of a field of an object literal. -/
def fieldValue (scope : Scope) : Source.ObjectField → Except Fault Expr
  | .valued _ _ value => expression scope value
  | .shorthand pos key => name scope pos key

/-- **The fields of a record in the declared order**, from an object literal in any order. -/
def recordFields (scope : Scope) (pos : Position) (shape : Interface)
    (fields : List Source.ObjectField) : Except Fault (List Expr) := do
  checkKeys shape [] fields
  shape.fields.mapM fun field =>
    match fields.find? (·.key = field.name) with
    | some given => fieldValue scope given
    | none => throw (.malformed pos (.missingField shape.name field.name))

end Resolve

end Covenant
