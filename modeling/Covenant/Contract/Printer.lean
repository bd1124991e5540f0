import Covenant.Contract.Basic
import Covenant.Text.Quoted

/-!
# Listings of contracts

A contract as indented text, close to its source, with everything resolved that the source leaves
open. The listing of a body is also what shows the result of a transformation.
-/

namespace Covenant

namespace Expr

mutual
/-- **An expression in source form**, with every operator in parentheses. -/
def render : Expr → String
  | literal _ type text =>
    match type with
    | .text => Text.quote text
    | _ => text
  | var _ name => name
  | storage _ name => "this." ++ name
  | entry _ property indices => "this." ++ property ++ renderIndices indices
  | binary _ op left right => "(" ++ left.render ++ " " ++ op.symbol ++ " " ++ right.render ++ ")"
  | not _ value => "!" ++ value.render
  | this _ => "this"
  | external _ contract address => contract ++ ".at(" ++ address.render ++ ")"
  | deploy _ contract args => "new " ++ contract ++ "(" ++ ", ".intercalate (renderAll args) ++ ")"
  | call _ target receiver args =>
    receiver.render ++ "." ++ target ++ "(" ++ ", ".intercalate (renderAll args) ++ ")"
  | conditional _ condition yes no =>
    "(" ++ condition.render ++ " ? " ++ yes.render ++ " : " ++ no.render ++ ")"
  | environment _ space member => space ++ "." ++ member
  | length _ property => "this." ++ property ++ ".length"
  | record _ shape fields =>
    shape.name ++ "\x7b" ++ ", ".intercalate (renderFields shape.fieldNames fields) ++ "\x7d"
  | hash _ inputs => "keccak256(" ++ ", ".intercalate (renderAll inputs) ++ ")"
  | missing => "<nil>"

/-- Several expressions. -/
def renderAll : List Expr → List String
  | [] => []
  | e :: es => e.render :: renderAll es

/-- Indices in brackets. -/
def renderIndices : List Expr → String
  | [] => ""
  | e :: es => "[" ++ e.render ++ "]" ++ renderIndices es

/-- The fields of a record with their names. -/
def renderFields : List String → List Expr → List String
  | _, [] => []
  | names, e :: es => (names.headD "" ++ ": " ++ e.render) :: renderFields names.tail es
end

/-- Whether the expression can be written down: each field of a record in it has a name. -/
def isPrintable (e : Expr) : Bool :=
  e.subexpressions.all fun
    | record _ shape fields => fields.length ≤ shape.fields.length
    | _ => true

/-- The expression in source form, if it can be written down. -/
def render? (e : Expr) : Option String :=
  if e.isPrintable then some e.render else none

end Expr

/-- Whether the types of parameters can be written down. -/
def arePrintable (params : List Parameter) : Bool :=
  params.all (·.type.isPrintable)

/-- Parameters with their types. -/
def renderParams (params : List Parameter) : String :=
  ", ".intercalate (params.map fun p => p.name ++ ": " ++ p.type.render)

namespace Stmt

/-- A line at a depth of two blanks per level. -/
def atDepth (depth : Nat) (line : String) : String :=
  String.ofList (List.replicate (2 * depth) ' ') ++ line

mutual
/-- **The lines of a statement** at a depth. -/
def render (depth : Nat) : Stmt → List String
  | setProperty _ property value => [atDepth depth ("this." ++ property ++ " = " ++ value.render)]
  | declare _ name type none => [atDepth depth ("let " ++ name ++ ": " ++ type.render)]
  | declare _ name type (some value) =>
    [atDepth depth ("let " ++ name ++ ": " ++ type.render ++ " = " ++ value.render)]
  | setVariable _ name value => [atDepth depth (name ++ " = " ++ value.render)]
  | setEntry _ property indices value =>
    [atDepth depth ("this." ++ property ++ Expr.renderIndices indices ++ " = " ++ value.render)]
  | exit _ none => [atDepth depth "return"]
  | exit _ (some value) => [atDepth depth ("return " ++ value.render)]
  | branch _ condition yes no =>
    atDepth depth ("if " ++ condition.render ++ " \x7b") :: renderAll (depth + 1) yes
      ++ (if no.isEmpty then []
        else atDepth depth "\x7d else \x7b" :: renderAll (depth + 1) no)
      ++ [atDepth depth "\x7d"]
  | throw _ message => [atDepth depth ("throw " ++ message.render)]
  | emit _ event args =>
    [atDepth depth ("emit " ++ event ++ "(" ++ ", ".intercalate (Expr.renderAll args) ++ ")")]
  | evaluate _ value => [atDepth depth value.render]
  | skip _ => [atDepth depth "ignore"]

/-- The lines of a body at a depth. -/
def renderAll (depth : Nat) : List Stmt → List String
  | [] => []
  | s :: ss => s.render depth ++ renderAll depth ss
end

/-- Whether a statement itself can be written down. -/
def isPrintable (s : Stmt) : Bool :=
  s.operands.all Expr.isPrintable && match s with
    | declare _ _ type _ => type.isPrintable
    | _ => true

/-- Whether a body can be written down. -/
def isPrintableBody (body : List Stmt) : Bool :=
  (substatementsAll body).all isPrintable

/-- The lines of a body, if it can be written down. -/
def listing? (depth : Nat) (body : List Stmt) : Option (List String) :=
  if isPrintableBody body then some (renderAll depth body) else none

end Stmt

namespace StateVar

/-- The line of a variable. -/
def render (v : StateVar) : String :=
  "VAR " ++ v.visibility.word ++ (if v.immutable then " immutable" else "") ++ " " ++ v.name ++ ": "
    ++ v.type.shown ++ (match v.initial with
      | some value => " = " ++ value.render
      | none => "")

end StateVar

namespace Contract

/-- The lines of a contract. -/
def renderLines (c : Contract) : List String :=
  let heading :=
    if c.bases.isEmpty then "CONTRACT " ++ c.name ++ " (IR)"
    else "CONTRACT " ++ c.name ++ " EXTENDS " ++ ", ".intercalate c.bases ++ " (IR)"
  let events := c.events.map fun e =>
    Stmt.atDepth 1 ("EVENT " ++ e.name ++ "(" ++ renderParams e.params ++ ")")
  let stateVars := c.stateVars.map fun v => Stmt.atDepth 1 v.render
  let construction := match c.construction with
    | none => []
    | some k =>
      Stmt.atDepth 1 ("CONSTRUCTOR(" ++ renderParams k.params ++ ") \x7b")
        :: Stmt.renderAll 2 k.body ++ [Stmt.atDepth 1 "\x7d"]
  let methods := c.methods.flatMap fun m =>
    Stmt.atDepth 1 ("FN " ++ m.visibility.word ++ " " ++ m.mutability.word ++ " " ++ m.name ++ "("
        ++ renderParams m.params ++ "): " ++ m.returns.render ++ " \x7b")
      :: Stmt.renderAll 2 m.body ++ [Stmt.atDepth 1 "\x7d"]
  heading :: events ++ stateVars ++ construction ++ methods

/-- **The listing of a contract.** -/
def render (c : Contract) : String :=
  String.join (c.renderLines.map (· ++ "\n"))

/-- Whether a contract can be written down. -/
def isPrintable (c : Contract) : Bool :=
  c.events.all (arePrintable ·.params)
    && c.stateVars.all (·.initial.all Expr.isPrintable)
    && arePrintable c.constructorParams && Stmt.isPrintableBody c.constructorBody
    && c.methods.all fun m =>
      arePrintable m.params && m.returns.isPrintable && Stmt.isPrintableBody m.body

/-- **The listing of a contract** that may lack some of its parts; there may be none. -/
def listing? (c : Contract) : Option String :=
  if c.isPrintable then some c.render else none

end Contract

end Covenant
