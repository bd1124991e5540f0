import Covenant.Emit.Expressions

/-!
# Code of statements

A statement becomes a few statements of the assembly language. A value is returned by assigning the
result variables of the function and leaving it.
-/

namespace Covenant

namespace Emit

open Yul.Stmt

/-- The result variables of a function that returns a type: one for each field of a record. -/
def resultVars : Ty → List String
  | .void | .missing | .anyRecord => []
  | .record shape => (List.range shape.fields.length).map fun i => "ret_" ++ toString i
  | _ => ["ret"]

/-- The types of the values that a function returns. -/
def resultTypes : Ty → List Ty
  | .void | .missing | .anyRecord => []
  | .record shape => shape.fields.map Typed.type
  | type => [type]

/-- Refuses to return a record of which the fields are not known. -/
def checkResult : Ty → Except Failure Unit
  | .anyRecord => .error .incomplete
  | _ => .ok ()

namespace Context

/-- Checks that a property can be assigned as a whole here. -/
def checkAssignable (x : Context) (pos : Position) (name : String) : Except Failure Unit := do
  match ← x.location pos name with
  | .scalar _ => return
  | .staged _ _ =>
    if x.creation then return else throw (.malformed pos (.lateReadonlyWrite name))
  | .inlined _ _ => throw (.malformed pos (.lateReadonlyWrite name))
  | .array _ => throw (.unsupported pos (.wholeWrite name "array"))
  | .mapping _ _ => throw (.unsupported pos (.wholeWrite name "mapping"))

/-- **The code that returns a value.** -/
def exit (x : Context) (pos : Position) (returns : Ty) : Expr → Except Failure (List Yul.Stmt)
  | .record _ _ fields => do
    checkResult returns
    let vars := resultVars returns
    if fields.length ≠ vars.length then throw (.malformed pos (.returnMismatch returns))
    let values ← x.exprs fields
    return List.zipWith assign vars values ++ [leave]
  | value => do
    checkResult returns
    match resultVars returns with
    | [result] => return [assign result (← x.expr value), leave]
    | _ => throw (.malformed pos (.returnMismatch returns))

mutual
/-- **The code of a statement** in a function that returns a type. -/
def statement (x : Context) (returns : Ty) : Stmt → Except Failure (List Yul.Stmt)
  | .setProperty pos property value => do
    x.checkAssignable pos property
    return [run (Storage.setter property) [← x.expr value]]
  | .setEntry pos property indices value => do
    x.checkIndexed pos property indices.length
    let indices ← x.exprs indices
    let value ← x.expr value
    return [run (Storage.setter property) (indices ++ [value])]
  | .declare _ name _ none => .ok [Yul.Stmt.declare [localName name] none]
  | .declare _ name _ (some value) => do return [define (localName name) (← x.expr value)]
  | .setVariable _ name value => do return [assign (localName name) (← x.expr value)]
  | .exit _ none => .ok [leave]
  | .exit pos (some value) => x.exit pos returns value
  | .branch _ condition yes no => do
    let condition ← x.expr condition
    let yesCode ← x.statements returns yes
    if no.isEmpty then return [ifThen condition yesCode]
    let noCode ← x.statements returns no
    return [ifZero condition noCode yesCode]
  | .throw _ message => do return [run "revert_error" [← x.expr message]]
  | .emit pos event args =>
    if (x.contract.event? event).isSome then do
      return [run (eventFunction event) (← x.exprs args)]
    else .error (.fault { pos, cause := .unknownEvent event x.contract.eventNames })
  | .evaluate _ value => do
    let code ← x.expr value
    return [if x.leavesWord value then run "pop" [code] else Yul.Stmt.evaluate code]
  | .skip _ => .ok []

/-- The code of a body. -/
def statements (x : Context) (returns : Ty) : List Stmt → Except Failure (List Yul.Stmt)
  | [] => .ok []
  | s :: rest => do
    let code ← x.statement returns s
    return code ++ (← x.statements returns rest)
end

/-- The names of parameters in code. -/
def paramNames (params : List Parameter) : List String :=
  params.map fun p => localName p.name

/-- **The function of a method.** -/
def method (x : Context) (m : Routine) : Except Failure Yul.Function := do
  let body ← x.statements m.returns m.body
  checkResult m.returns
  return {
    name := methodFunction m.name
    params := paramNames m.params
    results := resultVars m.returns
    body }

/-- The function of a constructor. -/
def constructorBody (x : Context) (c : Construction) : Except Failure Yul.Function := do
  return {
    name := "constructor_body"
    params := paramNames c.params
    body := ← x.statements .void c.body }

end Context

end Emit

end Covenant
