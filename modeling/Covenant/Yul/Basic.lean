import Covenant.Text.Quoted

/-!
# Assembly code

The assembly language contracts are compiled to: expressions over machine words, structured
statements, and functions, with their text. Only the forms that compiled contracts use are here.
-/

namespace Covenant

namespace Yul

/-- **An expression.** Built-in operations and functions are applied alike. -/
inductive Expr where
  /-- A number, as it is written. -/
  | literal (numeral : String)
  /-- The name of an object or of a constant set at construction. -/
  | quoted (name : String)
  | var (name : String)
  | call (function : String) (args : List Expr)
deriving Repr, Inhabited

/-- **A statement.** -/
inductive Stmt where
  | evaluate (value : Expr)
  /-- Declares variables; without a value they start at zero. -/
  | declare (names : List String) (value : Option Expr)
  | assign (name : String) (value : Expr)
  | block (body : List Stmt)
  | ifThen (condition : Expr) (body : List Stmt)
  /-- A condition with one statement, written on one line. -/
  | guard (condition : Expr) (action : Stmt)
  /-- One body for a condition that is zero, another one for all other values. -/
  | ifZero (condition : Expr) (zero other : List Stmt)
  /-- Repeats a body while a condition is not zero, with one statement after each round. -/
  | loop (condition : Expr) (step : Stmt) (body : List Stmt)
  /-- Leaves the function. -/
  | leave
  /-- Leaves the loop. -/
  | stop
deriving Repr, Inhabited

/-- **A function.** Its results are the values of variables when it ends. -/
structure Function where
  name : String
  params : List String := []
  results : List String := []
  body : List Stmt
deriving Repr, Inhabited

/-! ## Short forms -/

namespace Expr

/-- A decimal number. -/
def num (n : Nat) : Expr :=
  literal (toString n)

/-- The operation of a name on two operands. -/
def binary (function : String) (a b : Expr) : Expr :=
  call function [a, b]

/-- The sum of two words. -/
def add (a b : Expr) : Expr :=
  binary "add" a b

/-- The difference of two words. -/
def sub (a b : Expr) : Expr :=
  binary "sub" a b

/-- Whether a word is zero. -/
def isZero (a : Expr) : Expr :=
  call "iszero" [a]

/-- The word at a place of memory. -/
def mload (address : Expr) : Expr :=
  call "mload" [address]

/-- The word in a slot of storage. -/
def sload (slot : Expr) : Expr :=
  call "sload" [slot]

/-- The first free place of memory. -/
def free : Expr :=
  mload (num 64)

end Expr

namespace Stmt

/-- Applies an operation for its effect. -/
def run (function : String) (args : List Expr) : Stmt :=
  evaluate (.call function args)

/-- Declares one variable with a value. -/
def define (name : String) (value : Expr) : Stmt :=
  declare [name] (some value)

/-- Writes a word to memory. -/
def mstore (address value : Expr) : Stmt :=
  run "mstore" [address, value]

/-- Writes a word to storage. -/
def sstore (slot value : Expr) : Stmt :=
  run "sstore" [slot, value]

/-- Undoes everything and returns nothing. -/
def revert : Stmt :=
  run "revert" [.num 0, .num 0]

end Stmt

/-! ## The functions that code applies -/

namespace Expr

mutual
/-- **The names an expression applies**, built-in operations among them. -/
def calls : Expr → List String
  | literal _ => []
  | quoted _ => []
  | var _ => []
  | call function args => function :: callsAll args

/-- The names that several expressions apply. -/
def callsAll : List Expr → List String
  | [] => []
  | e :: es => e.calls ++ callsAll es
end

end Expr

namespace Stmt

mutual
/-- **The names a statement applies.** -/
def calls : Stmt → List String
  | evaluate value => value.calls
  | declare _ (some value) => value.calls
  | declare _ none => []
  | assign _ value => value.calls
  | block body => callsAll body
  | ifThen condition body => condition.calls ++ callsAll body
  | guard condition action => condition.calls ++ action.calls
  | ifZero condition zero other => condition.calls ++ callsAll zero ++ callsAll other
  | loop condition step body => condition.calls ++ step.calls ++ callsAll body
  | leave => []
  | stop => []

/-- The names that several statements apply. -/
def callsAll : List Stmt → List String
  | [] => []
  | s :: ss => s.calls ++ callsAll ss
end

end Stmt

/-- The names that a function applies. -/
def Function.calls (f : Function) : List String :=
  Stmt.callsAll f.body

end Yul

/-! ## Writing assembly code

The text of expressions, statements and functions. A statement is one line or, where it holds other
statements, several; how far the inner lines are set in is for the caller to choose. -/

namespace Yul

namespace Expr

mutual
/-- **The text of an expression.** -/
def render : Expr → String
  | literal numeral => numeral
  | quoted name => Text.quote name
  | var name => name
  | call function args => function ++ "(" ++ ", ".intercalate (renderAll args) ++ ")"

/-- The texts of several expressions. -/
def renderAll : List Expr → List String
  | [] => []
  | e :: es => e.render :: renderAll es
end

end Expr

/-- A statement or several between braces, on one line. -/
def braced (lines : List String) : String :=
  "\x7b " ++ " ".intercalate lines ++ " \x7d"

namespace Stmt

mutual
/-- **The lines of a statement.** Each starts with the margin, which grows by one step for the lines
of a body. -/
def lines (step margin : String) : Stmt → List String
  | evaluate value => [margin ++ value.render]
  | declare names (some value) =>
    [margin ++ "let " ++ ", ".intercalate names ++ " := " ++ value.render]
  | declare names none => [margin ++ "let " ++ ", ".intercalate names]
  | assign name value => [margin ++ name ++ " := " ++ value.render]
  | block body => (margin ++ "\x7b") :: linesAll step (margin ++ step) body ++ [margin ++ "\x7d"]
  | ifThen condition body =>
    (margin ++ "if " ++ condition.render ++ " \x7b") :: linesAll step (margin ++ step) body
      ++ [margin ++ "\x7d"]
  | guard condition action =>
    [margin ++ "if " ++ condition.render ++ " " ++ braced (action.lines "" "")]
  | ifZero condition zero other =>
    (margin ++ "switch " ++ condition.render) :: (margin ++ "case 0 \x7b")
      :: linesAll step (margin ++ step) zero
      ++ (margin ++ "\x7d") :: (margin ++ "default \x7b")
      :: linesAll step (margin ++ step) other ++ [margin ++ "\x7d"]
  | loop condition after body =>
    (margin ++ "for \x7b \x7d " ++ condition.render ++ " " ++ braced (after.lines "" "") ++ " \x7b")
      :: linesAll step (margin ++ step) body ++ [margin ++ "\x7d"]
  | leave => [margin ++ "leave"]
  | stop => [margin ++ "break"]

/-- The lines of several statements. -/
def linesAll (step margin : String) : List Stmt → List String
  | [] => []
  | s :: ss => s.lines step margin ++ linesAll step margin ss
end

/-- A statement on one line. -/
def inline (s : Stmt) : String :=
  braced (s.lines "" "")

end Stmt

/-- How a function is written. -/
inductive Setting where
  /-- On one line. -/
  | inline
  /-- One line per statement, none set in. -/
  | flat
  /-- After a blank line, with the lines of each body set in by four spaces. -/
  | indented
deriving DecidableEq, Repr, Inhabited

namespace Function

/-- The line a function starts with, up to its body. -/
def header (f : Function) : String :=
  "function " ++ f.name ++ "(" ++ ", ".intercalate f.params ++ ")"
    ++ (if f.results.isEmpty then "" else " -> " ++ ", ".intercalate f.results)

/-- **The lines of a function.** -/
def lines (f : Function) : Setting → List String
  | .inline => [f.header ++ " " ++ braced (Stmt.linesAll "" "" f.body)]
  | .flat => (f.header ++ " \x7b") :: Stmt.linesAll "" "" f.body ++ ["\x7d"]
  | .indented =>
    "" :: (f.header ++ " \x7b") :: Stmt.linesAll "    " "    " f.body ++ ["\x7d"]

end Function

end Yul

end Covenant
