import Covenant.Contract.Ty
import Covenant.Source.Position

/-!
# Expressions of a contract

Expressions after names are resolved: each reading of a local, of a property or of the execution
environment is told apart, and each call knows what it is sent to.
-/

namespace Covenant

/-- The binary operators. -/
inductive BinaryOp where
  | add
  | sub
  | mul
  | div
  | mod
  | pow
  | eq
  | ne
  | lt
  | le
  | gt
  | ge
  | and
  | or
  /-- An operator without a spelling: it acts on words as `or` does, and its result is not taken
  for a truth value. -/
  | other
deriving DecidableEq, Repr, Inhabited

namespace BinaryOp

/-- The spelling of an operator. -/
def symbol : BinaryOp → String
  | add => "+"
  | sub => "-"
  | mul => "*"
  | div => "/"
  | mod => "%"
  | pow => "**"
  | eq => "=="
  | ne => "!="
  | lt => "<"
  | le => "<="
  | gt => ">"
  | ge => ">="
  | and => "&&"
  | or => "||"
  | other => "?"

/-- All operators. -/
def all : List BinaryOp :=
  [add, sub, mul, div, mod, pow, eq, ne, lt, le, gt, ge, and, or, other]

/-- The operator of a spelling. -/
def ofSymbol? (s : String) : Option BinaryOp :=
  all.find? (·.symbol = s)

/-- Whether the result is a truth value. -/
def yieldsBoolean : BinaryOp → Bool
  | eq | ne | lt | le | gt | ge | and | or => true
  | _ => false

end BinaryOp

/-- **An expression.** -/
inductive Expr where
  /-- A literal, by its type and canonical text. -/
  | literal (pos : Position) (type : Ty) (text : String)
  /-- A local variable or parameter. -/
  | var (pos : Position) (name : String)
  /-- A property of the contract. -/
  | storage (pos : Position) (name : String)
  /-- An entry of a mapping or array property, outermost index first. -/
  | entry (pos : Position) (property : String) (indices : List Expr)
  | binary (pos : Position) (op : BinaryOp) (left right : Expr)
  | not (pos : Position) (value : Expr)
  /-- The executing contract. -/
  | this (pos : Position)
  /-- A deployed contract, by its class and address. -/
  | external (pos : Position) (contract : String) (address : Expr)
  /-- The address of a new contract. -/
  | deploy (pos : Position) (contract : String) (args : List Expr)
  /-- A call of a method. -/
  | call (pos : Position) (target : String) (receiver : Expr) (args : List Expr)
  /-- The first branch where the condition is not zero, else the second. -/
  | conditional (pos : Position) (condition yes no : Expr)
  /-- A value of the execution environment. -/
  | environment (pos : Position) (space member : String)
  /-- The length of an array property. -/
  | length (pos : Position) (property : String)
  /-- A record, with its fields in the declared order. -/
  | record (pos : Position) (shape : Interface) (fields : List Expr)
  /-- The hash of the words of the inputs. -/
  | hash (pos : Position) (inputs : List Expr)
  /-- An expression that was left out. -/
  | missing
deriving Repr, Inhabited

namespace Expr

/-- Where the expression stands in the source. -/
def pos : Expr → Position
  | literal pos _ _ => pos
  | var pos _ => pos
  | storage pos _ => pos
  | entry pos _ _ => pos
  | binary pos _ _ _ => pos
  | not pos _ => pos
  | this pos => pos
  | external pos _ _ => pos
  | deploy pos _ _ => pos
  | call pos _ _ _ => pos
  | conditional pos _ _ _ => pos
  | environment pos _ _ => pos
  | length pos _ => pos
  | record pos _ _ => pos
  | hash pos _ => pos
  | missing => {}

/-- Whether the expression is the executing contract. -/
def isThis : Expr → Bool
  | this _ => true
  | _ => false

mutual
/-- **The expressions within an expression**, itself first and its parts in the order in which they
are written. A method's receiver stands before its arguments. -/
def subexpressions : Expr → List Expr
  | e@(entry _ _ indices) => e :: subexpressionsAll indices
  | e@(binary _ _ left right) => e :: (left.subexpressions ++ right.subexpressions)
  | e@(not _ value) => e :: value.subexpressions
  | e@(external _ _ address) => e :: address.subexpressions
  | e@(deploy _ _ args) => e :: subexpressionsAll args
  | e@(call _ _ receiver args) => e :: (receiver.subexpressions ++ subexpressionsAll args)
  | e@(conditional _ condition yes no) =>
    e :: (condition.subexpressions ++ yes.subexpressions ++ no.subexpressions)
  | e@(record _ _ fields) => e :: subexpressionsAll fields
  | e@(hash _ inputs) => e :: subexpressionsAll inputs
  | e => [e]

/-- The expressions within several expressions. -/
def subexpressionsAll : List Expr → List Expr
  | [] => []
  | e :: es => e.subexpressions ++ subexpressionsAll es
end

/-- Whether the expression was left out. -/
def isMissing : Expr → Bool
  | missing => true
  | _ => false

/-- Whether the expression is a choice between two values. -/
def isConditional : Expr → Bool
  | conditional _ _ _ _ => true
  | _ => false

/-- Whether a choice between two values stands anywhere within the expression. -/
def hasConditional (e : Expr) : Bool :=
  e.subexpressions.any isConditional

end Expr

end Covenant
