import Covenant.Resolve.Expressions

/-!
# Declarations of a file

The interfaces and constants that a file declares, on top of what it imports.
-/

namespace Covenant

namespace Resolve

/-- **What a file declares.** -/
structure Declarations where
  interfaces : Table Interface := []
  constants : Table Expr := []
  classes : List Source.ClassDecl := []
deriving Inhabited

/-! ## Interfaces -/

/-- The first interface that repeats the name of an earlier one. -/
def repeatedInterface? (seen : List String) :
    List Source.InterfaceDecl → Option Source.InterfaceDecl
  | [] => none
  | d :: rest =>
    if seen.contains d.name then some d else repeatedInterface? (d.name :: seen) rest

/-- The fields of an interface, each of one word. -/
def interfaceFields (scope : Scope) (interface : String) (seen : List String) :
    List Source.InterfaceField → Except Fault (List Parameter)
  | [] => .ok []
  | f :: rest => do
    if seen.contains f.name then
      throw (.malformed f.pos (.duplicateField f.name interface))
    let type ← resolveType scope "" f.type
    if !type.isWord then throw { pos := f.type.pos, cause := .unsupportedType f.type.render }
    return ⟨f.name, type⟩ :: (← interfaceFields scope interface (f.name :: seen) rest)

/-- An interface with its fields. -/
def interface (scope : Scope) (d : Source.InterfaceDecl) : Except Fault Interface := do
  return ⟨d.name, ← interfaceFields scope d.name [] d.fields⟩

/-- **The interfaces of a file.** A field may name any interface of the file, though only to be
refused: it has to hold one word. -/
def interfaces (scope : Scope) (program : Source.Program) : Except Fault (Table Interface) := do
  let declared := program.interfaces
  if let some d := repeatedInterface? [] declared then
    throw (.malformed d.pos (.duplicateInterface d.name))
  let names : Table Interface := declared.map fun d => (d.name, ⟨d.name, []⟩)
  let inner := { scope with interfaces := scope.interfaces.putAll names }
  let resolved ← declared.mapM (interface inner)
  return resolved.map fun i => (i.name, i)

/-! ## Constants -/

/-- Gives a literal the type of its annotation. -/
def annotate (scope : Scope) (written : Source.TypeRef) : Expr → Except Fault Expr
  | .literal pos _ text => do
    let type ← resolveType scope text written
    if type.isWord then return .literal pos type text
    else throw { pos := written.pos, cause := .unsupportedType written.render }
  | e => .ok e

/-- The value of a constant. -/
def constantValue (scope : Scope) (d : Source.ConstantDecl) : Except Fault Expr := do
  if d.kind ≠ .constWord then throw (.unsupported d.pos (.mutableConstant d.name))
  let value ← expression scope d.value
  if value.hasConditional then
    throw (.unsupported d.value.pos (.conditionalConstant d.value.render))
  match d.type with
  | some written => annotate scope written value
  | none => return value

/-- **The constants of a file** in order; each may use those before it. -/
def constants (scope : Scope) : List Source.ConstantDecl → Table Expr →
    Except Fault (Table Expr)
  | [], found => .ok found
  | d :: rest, found => do
    if found.has d.name then throw (.malformed d.pos (.duplicateConstant d.name))
    let value ← constantValue { scope with constants := scope.constants.putAll found } d
    constants scope rest (found.put d.name value)

/-- **The declarations of a file**, and the scope its classes are resolved in. -/
def declarations (scope : Scope) (program : Source.Program) :
    Except Fault (Declarations × Scope) := do
  let interfaces ← interfaces scope program
  let scope := { scope with interfaces := scope.interfaces.putAll interfaces }
  let constants ← constants scope program.constants []
  let scope := { scope with constants := scope.constants.putAll constants }
  return ({ interfaces, constants, classes := program.classes }, scope)

end Resolve

end Covenant
