import Covenant.Source.Position

/-!
# Syntax trees

What a source file says, as it was written: declarations of interfaces, classes and constants, and
the statements and expressions of their bodies. Names are not resolved, operator chains are flat,
and every node knows where it starts.
-/

namespace Covenant

namespace Source

/-! ## Types -/

/-- **A type annotation**: a name, the types it is applied to, and how often it is an array. -/
inductive TypeRef where
  | mk (pos : Position) (name : String) (arguments : List TypeRef) (dimensions : Nat)
deriving Repr, Inhabited

namespace TypeRef

/-- Where the annotation starts. -/
def pos : TypeRef → Position
  | mk pos _ _ _ => pos

/-- The name of the type. -/
def name : TypeRef → String
  | mk _ name _ _ => name

/-- The types the name is applied to. -/
def arguments : TypeRef → List TypeRef
  | mk _ _ arguments _ => arguments

/-- How many pairs of brackets follow. -/
def dimensions : TypeRef → Nat
  | mk _ _ _ dimensions => dimensions

end TypeRef

/-! ## Expressions -/

/-- The operators that stand between two operands. -/
inductive Operator where
  | or
  | and
  | strictEq
  | strictNe
  | eq
  | ne
  | le
  | ge
  | lt
  | gt
  | pow
  | add
  | sub
  | mul
  | div
  | mod
deriving DecidableEq, Repr, Inhabited

/-- The operators that stand before an operand. -/
inductive Sign where
  | not
  | minus
deriving DecidableEq, Repr, Inhabited

mutual
/-- **An expression**: an operator chain, or a choice between two expressions. -/
inductive Expression where
  | chain (pos : Position) (value : Chain)
  | choice (pos : Position) (condition : Chain) (yes no : Expression)

/-- Operands with operators between them; which operator binds tighter is not decided here. -/
inductive Chain where
  | mk (pos : Position) (first : Operand) (links : List Link)

/-- An operator and the operand behind it. -/
inductive Link where
  | mk (pos : Position) (operator : Operator) (operand : Operand)

/-- A value behind its signs. -/
inductive Operand where
  | mk (pos : Position) (signs : List Sign) (value : Postfix)

/-- A primary followed by member accesses, indices and calls. -/
inductive Postfix where
  | mk (pos : Position) (primary : Primary) (suffixes : List Suffix)

/-- One step behind a primary. -/
inductive Suffix where
  | member (pos : Position) (name : String)
  | index (pos : Position) (value : Expression)
  | call (pos : Position) (arguments : Arguments)

/-- The arguments of a call, in parentheses. -/
inductive Arguments where
  | mk (pos : Position) (values : List Expression)

/-- The smallest expressions. -/
inductive Primary where
  | creation (pos : Position) (className : String) (arguments : Arguments)
  | object (pos : Position) (fields : List ObjectField)
  | number (pos : Position) (literal : String)
  | text (pos : Position) (value : String)
  | truth (pos : Position) (value : Bool)
  | this (pos : Position)
  | name (pos : Position) (name : String)
  | parens (pos : Position) (inner : Expression)

/-- A field of an object literal; the shorthand `key` stands for `key: key`. -/
inductive ObjectField where
  | valued (pos : Position) (key : String) (value : Expression)
  | shorthand (pos : Position) (key : String)
end

instance : Inhabited Primary := ⟨.this {}⟩
instance : Inhabited Postfix := ⟨.mk {} default []⟩
instance : Inhabited Operand := ⟨.mk {} [] default⟩
instance : Inhabited Chain := ⟨.mk {} default []⟩
instance : Inhabited Expression := ⟨.chain {} default⟩
instance : Inhabited Arguments := ⟨.mk {} []⟩

namespace Expression

/-- Where the expression starts. -/
def pos : Expression → Position
  | chain pos _ => pos
  | choice pos _ _ _ => pos

end Expression

namespace Chain

/-- Where the chain starts. -/
def pos : Chain → Position
  | mk pos _ _ => pos

end Chain

namespace Operand

/-- Where the operand starts. -/
def pos : Operand → Position
  | mk pos _ _ => pos

end Operand

namespace Postfix

/-- Where the primary starts. -/
def pos : Postfix → Position
  | mk pos _ _ => pos

end Postfix

namespace Suffix

/-- Where the step starts. -/
def pos : Suffix → Position
  | member pos _ => pos
  | index pos _ => pos
  | call pos _ => pos

end Suffix

namespace Arguments

/-- The arguments in order. -/
def values : Arguments → List Expression
  | mk _ values => values

end Arguments

namespace Primary

/-- Where the primary starts. -/
def pos : Primary → Position
  | creation pos _ _ => pos
  | object pos _ => pos
  | number pos _ => pos
  | text pos _ => pos
  | truth pos _ => pos
  | this pos => pos
  | name pos _ => pos
  | parens pos _ => pos

end Primary

namespace ObjectField

/-- Where the field starts. -/
def pos : ObjectField → Position
  | valued pos _ _ => pos
  | shorthand pos _ => pos

/-- The key of the field. -/
def key : ObjectField → String
  | valued _ key _ => key
  | shorthand _ key => key

end ObjectField

/-! ## Statements -/

/-- The words that declare a local variable. -/
inductive DeclarationKind where
  | letWord
  | constWord
  | varWord
deriving DecidableEq, Repr, Inhabited

/-- How a value is assigned: in place of the old one, added to it or taken from it. -/
inductive Assignment where
  | replace
  | increase
  | decrease
deriving DecidableEq, Repr, Inhabited

/-- **A statement.** -/
inductive Statement where
  | block (pos : Position) (statements : List Statement)
  | declaration (pos : Position) (kind : DeclarationKind) (name : String)
      (type : Option TypeRef) (value : Option Expression)
  | ifThen (pos : Position) (condition : Expression) (yes : Statement)
  | ifElse (pos : Position) (condition : Expression) (yes no : Statement)
  | returns (pos : Position) (value : Option Expression)
  | throw (pos : Position) (value : Expression)
  | evaluate (pos : Position) (value : Expression)
  | assign (pos : Position) (target : Expression) (assignment : Assignment) (value : Expression)
  | empty (pos : Position)
deriving Inhabited

namespace Statement

/-- Where the statement starts. -/
def pos : Statement → Position
  | block pos _ => pos
  | declaration pos _ _ _ _ => pos
  | ifThen pos _ _ => pos
  | ifElse pos _ _ _ => pos
  | returns pos _ => pos
  | throw pos _ => pos
  | evaluate pos _ => pos
  | assign pos _ _ _ => pos
  | empty pos => pos

end Statement

/-- Statements in braces. -/
structure Block where
  pos : Position
  statements : List Statement
deriving Inhabited

/-! ## Declarations -/

/-- A parameter of a constructor, method or arrow function. -/
structure Param where
  pos : Position
  name : String
  type : TypeRef
deriving Inhabited

/-- The constructor of a class. -/
structure Constructor where
  pos : Position
  params : List Param
  body : Block
deriving Inhabited

/-- A method; without a return type it returns nothing. -/
structure Method where
  pos : Position
  name : String
  params : List Param
  returns : Option TypeRef
  body : Block
deriving Inhabited

/-- The body of an arrow function. -/
inductive ArrowBody where
  | block (body : Block)
  | value (value : Expression)
deriving Inhabited

/-- An arrow function. -/
structure Arrow where
  pos : Position
  params : List Param
  returns : Option TypeRef
  body : ArrowBody
deriving Inhabited

/-- What a property is initialized with: an arrow function makes it a method. -/
inductive Initializer where
  | arrow (value : Arrow)
  | value (value : Expression)
deriving Inhabited

namespace Initializer

/-- Where the initializer starts. -/
def pos : Initializer → Position
  | .arrow body => body.pos
  | .value body => body.pos

end Initializer

/-- A property. -/
structure Property where
  pos : Position
  name : String
  type : Option TypeRef
  initializer : Option Initializer
deriving Inhabited

/-- The words in front of a member. -/
inductive Modifier where
  | publicWord
  | privateWord
  | protectedWord
  | readonlyWord
  | staticWord
deriving DecidableEq, Repr, Inhabited

/-- What a member declares. -/
inductive MemberBody where
  | constructor (value : Constructor)
  | method (value : Method)
  | property (value : Property)
deriving Inhabited

/-- A member of a class. -/
structure ClassMember where
  pos : Position
  modifiers : List Modifier
  body : MemberBody
deriving Inhabited

/-- A class, with the classes it extends. -/
structure ClassDecl where
  pos : Position
  name : String
  bases : List String
  members : List ClassMember
deriving Inhabited

/-- A field of an interface. -/
structure InterfaceField where
  pos : Position
  name : String
  type : TypeRef
deriving Inhabited

/-- An interface. -/
structure InterfaceDecl where
  pos : Position
  name : String
  fields : List InterfaceField
deriving Inhabited

/-- A constant of a file. The word `let` is read, and refused later. -/
structure ConstantDecl where
  pos : Position
  kind : DeclarationKind
  name : String
  type : Option TypeRef
  value : Expression
deriving Inhabited

/-- What an import takes from a module. -/
inductive ImportClause where
  /-- The listed names. -/
  | names (names : List String)
  /-- Everything, under one name. -/
  | everything (name : String)
  /-- The default export, under a name. -/
  | whole (name : String)
deriving Repr, Inhabited

/-- An import. -/
structure Import where
  pos : Position
  clause : ImportClause
  source : String
deriving Repr, Inhabited

/-- What stands at the top level of a file. -/
inductive Declaration where
  | imports (value : Import)
  | interfaceDecl (value : InterfaceDecl)
  | classDecl (value : ClassDecl)
  | constant (value : ConstantDecl)
deriving Inhabited

/-- A declaration, exported or not. -/
structure Element where
  pos : Position
  exported : Bool
  body : Declaration
deriving Inhabited

/-- **A source file.** -/
structure Program where
  pos : Position
  elements : List Element
deriving Inhabited

namespace Program

/-- The imports of a file, in order. -/
def imports (p : Program) : List Import :=
  p.elements.filterMap fun e => match e.body with
    | .imports value => some value
    | _ => none

/-- The imports of a file are its elements that import. -/
theorem mem_imports {p : Program} {i : Import} :
    i ∈ p.imports ↔ ∃ e ∈ p.elements, e.body = .imports i := by
  rw [imports, List.mem_filterMap]
  refine exists_congr fun e => and_congr_right fun _ => ?_
  cases e.body <;> simp

/-- The interfaces of a file, in order. -/
def interfaces (p : Program) : List InterfaceDecl :=
  p.elements.filterMap fun e => match e.body with
    | .interfaceDecl value => some value
    | _ => none

/-- The classes of a file, in order. -/
def classes (p : Program) : List ClassDecl :=
  p.elements.filterMap fun e => match e.body with
    | .classDecl value => some value
    | _ => none

/-- The constants of a file, in order. -/
def constants (p : Program) : List ConstantDecl :=
  p.elements.filterMap fun e => match e.body with
    | .constant value => some value
    | _ => none

end Program

end Source

end Covenant
