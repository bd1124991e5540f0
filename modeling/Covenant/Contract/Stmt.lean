import Covenant.Contract.Expr

/-!
# Statements of a contract

The statements a body is made of, and what they may do beyond computing values. Only a branch holds
further statements.
-/

namespace Covenant

/-- **A statement.** -/
inductive Stmt where
  /-- Writes a property that holds one word. -/
  | setProperty (pos : Position) (property : String) (value : Expr)
  /-- Declares a local variable; without a value it starts at zero. -/
  | declare (pos : Position) (name : String) (type : Ty) (value : Option Expr)
  | setVariable (pos : Position) (name : String) (value : Expr)
  /-- Writes an entry of a mapping or array property. -/
  | setEntry (pos : Position) (property : String) (indices : List Expr) (value : Expr)
  /-- Leaves the method. -/
  | exit (pos : Position) (value : Option Expr)
  | branch (pos : Position) (condition : Expr) (yes no : List Stmt)
  /-- Reverts with a message. -/
  | throw (pos : Position) (message : Expr)
  /-- Logs an event, with its arguments in the declared order. -/
  | emit (pos : Position) (event : String) (args : List Expr)
  | evaluate (pos : Position) (value : Expr)
  /-- Stands where the constructor of a base class is called, and does nothing. -/
  | skip (pos : Position)
deriving Repr, Inhabited

namespace Stmt

/-- Where the statement stands in the source. -/
def pos : Stmt → Position
  | setProperty pos _ _ => pos
  | declare pos _ _ _ => pos
  | setVariable pos _ _ => pos
  | setEntry pos _ _ _ => pos
  | exit pos _ => pos
  | branch pos _ _ _ => pos
  | throw pos _ => pos
  | emit pos _ _ => pos
  | evaluate pos _ => pos
  | skip pos => pos

/-- The expressions a statement holds itself, without those of the statements in its branches. -/
def operands : Stmt → List Expr
  | setProperty _ _ value => [value]
  | declare _ _ _ value => value.toList
  | setVariable _ _ value => [value]
  | setEntry _ _ indices value => indices ++ [value]
  | exit _ value => value.toList
  | branch _ condition _ _ => [condition]
  | throw _ message => [message]
  | emit _ _ args => args
  | evaluate _ value => [value]
  | skip _ => []

mutual
/-- **The statements within a statement**, itself first and those of its branches in order. -/
def substatements : Stmt → List Stmt
  | s@(branch _ _ yes no) => s :: (substatementsAll yes ++ substatementsAll no)
  | s => [s]

/-- The statements within a body. -/
def substatementsAll : List Stmt → List Stmt
  | [] => []
  | s :: ss => s.substatements ++ substatementsAll ss
end

/-- **The expressions within a body**, at any depth. -/
def expressionsOf (body : List Stmt) : List Expr :=
  (substatementsAll body).flatMap fun s => s.operands.flatMap Expr.subexpressions

/-- **Whether a body is there with all its expressions.** -/
def isWhole (body : List Stmt) : Bool :=
  !(expressionsOf body).any Expr.isMissing

/-- Whether a choice between two values is left anywhere in a body. -/
def hasConditional (body : List Stmt) : Bool :=
  (expressionsOf body).any Expr.isConditional

end Stmt

/-! ## Effects

What a statement may do beyond computing a value: read and write properties, log events, call
methods and create contracts. The effects of a statement include those of its branches and of every
expression it evaluates. -/

/-- **One effect.** -/
inductive Effect where
  | write (property : String)
  | read (property : String)
  | log (event : String)
  /-- A call of a method, on the executing contract or on another one. -/
  | call (pos : Position) (target : String) (internal : Bool)
  | create (contract : String)
deriving DecidableEq, Repr, Inhabited

namespace Effect

/-- The effect in words. -/
def render : Effect → String
  | write property => "storage write " ++ property
  | read property => "storage read " ++ property
  | log event => "log " ++ event
  | call _ target true => "call internal " ++ target
  | call _ target false => "call external " ++ target
  | create contract => "create " ++ contract

/-- The effect of an expression itself, without its parts. -/
def ofExpr? : Expr → Option Effect
  | .storage _ name => some (read name)
  | .entry _ property _ => some (read property)
  | .length _ property => some (read property)
  | .call pos target receiver _ => some (call pos target receiver.isThis)
  | .deploy _ contract _ => some (create contract)
  | _ => none

/-- The effect of a statement itself, without its operands and branches. -/
def ofStmt? : Stmt → Option Effect
  | .setProperty _ property _ => some (write property)
  | .setEntry _ property _ _ => some (write property)
  | .emit _ event _ => some (log event)
  | _ => none

/-- Whether the effect changes the state of the contract. Logs, calls and creations do not. -/
def mutates : Effect → Bool
  | write _ => true
  | _ => false

end Effect

namespace Expr

/-- The effects of an expression, those of the whole before those of its parts. -/
def effects (e : Expr) : List Effect :=
  e.subexpressions.filterMap Effect.ofExpr?

end Expr

namespace Stmt

/-- **The effects of a statement**: its own, then those of its operands, then those of its
branches. -/
def effects (s : Stmt) : List Effect :=
  s.substatements.flatMap fun t => (Effect.ofStmt? t).toList ++ t.operands.flatMap Expr.effects

/-- The effects of a body. -/
def effectsOf (body : List Stmt) : List Effect :=
  body.flatMap effects

/-- The effects of a statement in words; a statement without any is pure. -/
def describeEffects (s : Stmt) : List String :=
  match s.effects with
  | [] => ["pure"]
  | effects => effects.map Effect.render

end Stmt

end Covenant
