import Covenant.Diagnostic.Cause
import Covenant.Environment
import Covenant.Resolve.Scope
import Covenant.Source.Tree.Printer

/-!
# Resolving types

Which contract type an annotation stands for, and which type an expression has where no annotation
says it.
-/

namespace Covenant

namespace Resolve

/-- **Whether a text spells an address**: forty hexadecimal digits behind their mark. -/
def isAddressLiteral (text : String) : Bool :=
  match text.toList with
  | '0' :: 'x' :: digits => digits.length = 40 && digits.all Text.isHexDigit
  | _ => false

/-- An array of as many dimensions as given; there is no array of nothing. -/
def arrayOf (fault : Fault) (item : Ty) : Nat → Except Fault Ty
  | 0 => .ok item
  | dimensions + 1 => if item.isVoid then .error fault else arrayOf fault (.array item) dimensions

/-- The type of a mapping with a key and a value: a mapping in the place of the value adds its
keys. -/
def mappingOf (fault : Fault) (key : Ty) : Ty → Except Fault Ty
  | .mapping keys value => .ok (.mapping (key :: keys) value)
  | .void | .array _ | .record _ | .anyRecord => .error fault
  | value => .ok (.mapping [key] value)

/-- Whether the count of type arguments is wrong. A name that is not built in takes none. -/
def wrongTypeArity (name : String) (given : Nat) : Bool :=
  given ≠ Environment.typeArity name && (Environment.isGenericType name || 0 < given)

/-- The type of a name that is not built in. -/
def declaredType (scope : Scope) (pos : Position) (name : String) : Except Fault Ty :=
  match scope.interfaces.get? name with
  | some shape => .ok (.record shape)
  | none =>
    if scope.contracts.contains name then .ok (.address (some name))
    else .error (.unresolved pos .type name scope.interfaces.names)

mutual
/-- **The type of an annotation.** The literal is the text a value of the type starts with, if it
is given by a string: a string that spells an address is an address. -/
def resolveType (scope : Scope) (literal : String) : Source.TypeRef → Except Fault Ty
  | node@(.mk pos name arguments dimensions) => do
    if wrongTypeArity name arguments.length then
      throw (.malformed pos
        (.typeArity name (Environment.typeArity name) arguments.length))
    let base ← match name, arguments, resolveEach scope arguments with
      | "number", _, _ => pure .number
      | "boolean", _, _ => pure .boolean
      | "string", _, _ => pure .text
      | "void", _, _ => pure .void
      | "address", _, _ => pure (.address none)
      | "bytes", _, _ => pure .bytes
      | "Event", _, _ => throw (.unsupported pos (.eventType node.render))
      | "Record", [key, value], [keyType, valueType] => do
        let k ← keyType
        if !k.isWord then throw { pos := key.pos, cause := .unsupportedType key.render }
        mappingOf { pos := value.pos, cause := .unsupportedType value.render } k (← valueType)
      | "Array", _, [item] => pure (.array (← item))
      | _, _, _ => declaredType scope pos name
    match base with
    | .text =>
      if dimensions = 0 && isAddressLiteral literal then return .address none
      else arrayOf { pos, cause := .unsupportedType node.render } base dimensions
    | _ => arrayOf { pos, cause := .unsupportedType node.render } base dimensions

/-- The types of several annotations, each on its own. -/
def resolveEach (scope : Scope) : List Source.TypeRef → List (Except Fault Ty)
  | [] => []
  | t :: ts => resolveType scope "" t :: resolveEach scope ts
end

/-- The type of an optional annotation; without one there is no value. -/
def resolveType? (scope : Scope) : Option Source.TypeRef → Except Fault Ty
  | none => .ok .void
  | some type => resolveType scope "" type

/-- **The type of an expression**, as far as its scope tells. What cannot be known before
inheritance is resolved, such as the result of a call, counts as a number. -/
def typeOf (scope : Scope) : Expr → Ty
  | .literal _ type _ => type
  | .var _ name => (scope.locals.get? name).getD .number
  | .storage _ name => (scope.properties.get? name).getD .number
  | .entry _ property _ =>
    match scope.properties.get? property with
    | some (.mapping _ value) => value
    | some (.array item) => item
    | _ => .number
  | .binary _ op _ _ => if op.yieldsBoolean then .boolean else .number
  | .not _ _ => .boolean
  | .this _ => .address none
  | .external _ contract _ => .addressOf contract
  | .deploy _ contract _ => .addressOf contract
  | .conditional _ _ yes _ => typeOf scope yes
  | .environment _ space member =>
    match Environment.member? space member with
    | some { type := .address _, .. } => .address none
    | _ => .number
  | .record _ shape _ => .record shape
  | .hash _ _ => .bytes
  | _ => .number

/-- Gives a string literal the type of the place it is put in, where that is one of bytes or an
address. -/
def retag (type : Ty) : Expr → Expr
  | e@(.literal pos .text text) =>
    match type with
    | .bytes | .address _ => .literal pos type text
    | _ => e
  | e => e

end Resolve

end Covenant
