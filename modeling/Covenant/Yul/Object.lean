import Covenant.Yul.Basic

/-!
# Assembly objects

A contract becomes an object with the code that creates it and, within, an object with the code
that stays. The contracts that either code deploys are objects within the object whose code does so.
Code is divided into sections, each under a line of comment with its title.
-/

namespace Covenant

namespace Yul

/-- One case of a choice: the value it stands for, a comment, and what is done. -/
structure Case where
  label : String
  comment : String
  body : List Stmt
deriving Repr, Inhabited

/-- One item of code. -/
inductive Item where
  | statement (statement : Stmt)
  | function (setting : Setting) (function : Function)
  /-- A choice by the value of an expression, with one statement where no case applies. -/
  | choice (subject : Expr) (cases : List Case) (fallback : Stmt)
deriving Repr, Inhabited

/-- A part of code with a title. -/
structure Section where
  title : String
  items : List Item
deriving Repr, Inhabited

/-- **The code of an object**, section by section. -/
abbrev Code := List Section

/-- **An object**: a contract's name, the code that creates it, the code that stays, and the objects
that each of the two deploys. -/
inductive Object where
  | mk (name : String) (creation runtime : Code) (byCreation byRuntime : List Object)
deriving Inhabited

/-! ## The functions that code applies and defines -/

namespace Item

/-- The names an item applies. -/
def calls : Item → List String
  | statement s => s.calls
  | function _ f => f.calls
  | choice subject cases fallback =>
    subject.calls ++ cases.flatMap (fun c => Stmt.callsAll c.body) ++ fallback.calls

/-- The names an item defines. -/
def defines : Item → List String
  | function _ f => [f.name]
  | _ => []

end Item

namespace Code

/-- The names that code applies. -/
def calls (code : Code) : List String :=
  code.flatMap fun s => s.items.flatMap Item.calls

/-- The names that code defines. -/
def defines (code : Code) : List String :=
  code.flatMap fun s => s.items.flatMap Item.defines

end Code

/-! ## Text -/

namespace Case

/-- The lines of a case. -/
def lines (c : Case) : List String :=
  ("case " ++ c.label ++ " \x7b") :: ("// " ++ c.comment) :: Stmt.linesAll "" "" c.body
    ++ ["\x7d"]

end Case

namespace Item

/-- The lines of an item. -/
def lines : Item → List String
  | statement s => s.lines "" ""
  | function setting f => f.lines setting
  | choice subject cases fallback =>
    ("switch " ++ subject.render) :: cases.flatMap Case.lines ++ ["default " ++ fallback.inline]

end Item

namespace Section

/-- The lines of a section, its title first. -/
def lines (s : Section) : List String :=
  ("// - " ++ s.title ++ " -") :: s.items.flatMap Item.lines

end Section

namespace Code

/-- The lines of code. -/
def lines (code : Code) : List String :=
  "code \x7b" :: code.flatMap Section.lines ++ ["\x7d"]

end Code

namespace Object

/-- The name of the object with the code that stays. -/
def runtimeName (contract : String) : String :=
  contract ++ "_deployed"

/-- The name of an object. -/
def name : Object → String
  | mk name _ _ _ _ => name

mutual
/-- **The lines of an object.** -/
def lines : Object → List String
  | mk name creation runtime byCreation byRuntime =>
    ("object " ++ Text.quote name ++ " \x7b") :: creation.lines
      ++ ("object " ++ Text.quote (runtimeName name) ++ " \x7b") :: runtime.lines
      ++ linesAll byRuntime ++ "\x7d" :: linesAll byCreation ++ ["\x7d"]

/-- The lines of several objects. -/
def linesAll : List Object → List String
  | [] => []
  | o :: os => o.lines ++ linesAll os
end

/-- **The text of an object.** -/
def render (o : Object) : String :=
  String.join (o.lines.map (· ++ "\n"))

end Object

end Yul

end Covenant
