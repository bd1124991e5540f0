import Covenant.Proofs.Syntax.Spelling
import Covenant.Source.Productions

/-!
# What occurs in a tree

`Node` is a piece of a syntax tree that says something by itself: a type, an expression, an operand,
a step or a primary. `Program.nodes` lists those that occur in a file, at any depth.

A tree can be written in a way in which it is never read (a name `true`, an operand that starts with
the text `"!"`); `Node.Legible` says of a node that it is not. Of the objects two things are asked
beside that: their keys are written as identifiers (`hasPlainKeys`), and the last value does not end
in a text that would be taken for an opening brace (`isClosed`).
-/

namespace Covenant

namespace Source

/-- **A piece of a tree that says something by itself.** -/
inductive Node where
  | type (t : TypeRef)
  | expression (e : Expression)
  | operand (o : Operand)
  | suffix (s : Suffix)
  | primary (p : Primary)

/-! ## Types and expressions -/

mutual
/-- The types that occur in a type. -/
def TypeRef.nodes : TypeRef → List Node
  | .mk pos name arguments dimensions =>
    .type (.mk pos name arguments dimensions) :: typesNodes arguments

/-- The types that occur in several types. -/
def typesNodes : List TypeRef → List Node
  | [] => []
  | t :: ts => t.nodes ++ typesNodes ts
end

mutual
/-- **What occurs in an expression.** -/
def Expression.nodes : Expression → List Node
  | .chain pos value => .expression (.chain pos value) :: value.nodes
  | .choice pos condition yes no =>
    .expression (.choice pos condition yes no) :: (condition.nodes ++ (yes.nodes ++ no.nodes))

/-- What occurs in a chain. -/
def Chain.nodes : Chain → List Node
  | .mk _ first links => first.nodes ++ linksNodes links

/-- What occurs behind an operator. -/
def Link.nodes : Link → List Node
  | .mk _ _ operand => operand.nodes

/-- What occurs behind several operators. -/
def linksNodes : List Link → List Node
  | [] => []
  | link :: links => link.nodes ++ linksNodes links

/-- What occurs in an operand. -/
def Operand.nodes : Operand → List Node
  | .mk pos signs value => .operand (.mk pos signs value) :: value.nodes

/-- What occurs in a primary and the steps behind it. -/
def Postfix.nodes : Postfix → List Node
  | .mk _ primary suffixes => primary.nodes ++ suffixesNodes suffixes

/-- What occurs in a step. -/
def Suffix.nodes : Suffix → List Node
  | .member pos name => [.suffix (.member pos name)]
  | .index pos value => .suffix (.index pos value) :: value.nodes
  | .call pos arguments => .suffix (.call pos arguments) :: arguments.nodes

/-- What occurs in several steps. -/
def suffixesNodes : List Suffix → List Node
  | [] => []
  | suffix :: suffixes => suffix.nodes ++ suffixesNodes suffixes

/-- What occurs in arguments. -/
def Arguments.nodes : Arguments → List Node
  | .mk _ values => expressionsNodes values

/-- What occurs in several expressions. -/
def expressionsNodes : List Expression → List Node
  | [] => []
  | e :: es => e.nodes ++ expressionsNodes es

/-- What occurs in a primary. -/
def Primary.nodes : Primary → List Node
  | .creation pos className arguments =>
    .primary (.creation pos className arguments) :: arguments.nodes
  | .object pos fields => .primary (.object pos fields) :: fieldsNodes fields
  | .parens pos inner => .primary (.parens pos inner) :: inner.nodes
  | .number pos literal => [.primary (.number pos literal)]
  | .text pos value => [.primary (.text pos value)]
  | .truth pos value => [.primary (.truth pos value)]
  | .this pos => [.primary (.this pos)]
  | .name pos name => [.primary (.name pos name)]

/-- What occurs in a field. -/
def ObjectField.nodes : ObjectField → List Node
  | .valued _ _ value => value.nodes
  | .shorthand _ _ => []

/-- What occurs in several fields. -/
def fieldsNodes : List ObjectField → List Node
  | [] => []
  | field :: fields => field.nodes ++ fieldsNodes fields
end

/-! ## Statements and declarations -/

mutual
/-- What occurs in a statement. -/
def Statement.nodes : Statement → List Node
  | .block _ statements => statementsNodes statements
  | .declaration _ _ _ type value =>
    type.elim [] TypeRef.nodes ++ value.elim [] Expression.nodes
  | .ifThen _ condition yes => condition.nodes ++ yes.nodes
  | .ifElse _ condition yes no => condition.nodes ++ (yes.nodes ++ no.nodes)
  | .returns _ value => value.elim [] Expression.nodes
  | .throw _ value => value.nodes
  | .evaluate _ value => value.nodes
  | .assign _ target _ value => target.nodes ++ value.nodes
  | .empty _ => []

/-- What occurs in several statements. -/
def statementsNodes : List Statement → List Node
  | [] => []
  | s :: ss => s.nodes ++ statementsNodes ss
end

/-- What occurs in a block. -/
def Block.nodes (b : Block) : List Node :=
  statementsNodes b.statements

/-- The type of a parameter. -/
def Param.nodes (p : Param) : List Node :=
  p.type.nodes

/-- What occurs in a constructor. -/
def Constructor.nodes (c : Constructor) : List Node :=
  c.params.flatMap Param.nodes ++ c.body.nodes

/-- What occurs in a method. -/
def Method.nodes (m : Method) : List Node :=
  m.params.flatMap Param.nodes ++ (m.returns.elim [] TypeRef.nodes ++ m.body.nodes)

/-- What occurs in the body of an arrow function. -/
def ArrowBody.nodes : ArrowBody → List Node
  | .block body => body.nodes
  | .value e => e.nodes

/-- What occurs in an arrow function. -/
def Arrow.nodes (a : Arrow) : List Node :=
  a.params.flatMap Param.nodes ++ (a.returns.elim [] TypeRef.nodes ++ a.body.nodes)

/-- What occurs in an initializer. -/
def Initializer.nodes : Initializer → List Node
  | .arrow a => a.nodes
  | .value e => e.nodes

/-- What occurs in a property. -/
def Property.nodes (p : Property) : List Node :=
  p.type.elim [] TypeRef.nodes ++ p.initializer.elim [] Initializer.nodes

/-- What occurs in a member. -/
def MemberBody.nodes : MemberBody → List Node
  | .constructor value => value.nodes
  | .method value => value.nodes
  | .property value => value.nodes

/-- What occurs in a constant. -/
def ConstantDecl.nodes (d : ConstantDecl) : List Node :=
  d.type.elim [] TypeRef.nodes ++ d.value.nodes

/-- What occurs in a declaration. -/
def Declaration.nodes : Declaration → List Node
  | .imports _ => []
  | .interfaceDecl value => value.fields.flatMap fun f => f.type.nodes
  | .classDecl value => value.members.flatMap fun m => m.body.nodes
  | .constant value => value.nodes

/-- **What occurs in a file.** -/
def Program.nodes (p : Program) : List Node :=
  p.elements.flatMap fun e => e.body.nodes

/-! ## Lists -/

theorem typesNodes_eq (ts : List TypeRef) : typesNodes ts = ts.flatMap TypeRef.nodes := by
  induction ts with
  | nil => rfl
  | cons t ts ih => rw [typesNodes, ih, List.flatMap_cons]

/-- The nodes of a row of links, in the recursion over the tree, are those of each link in turn. -/
theorem linksNodes_eq (links : List Link) : linksNodes links = links.flatMap Link.nodes := by
  induction links with
  | nil => rfl
  | cons link links ih => rw [linksNodes, ih, List.flatMap_cons]

theorem suffixesNodes_eq (suffixes : List Suffix) :
    suffixesNodes suffixes = suffixes.flatMap Suffix.nodes := by
  induction suffixes with
  | nil => rfl
  | cons suffix suffixes ih => rw [suffixesNodes, ih, List.flatMap_cons]

theorem expressionsNodes_eq (es : List Expression) :
    expressionsNodes es = es.flatMap Expression.nodes := by
  induction es with
  | nil => rfl
  | cons e es ih => rw [expressionsNodes, ih, List.flatMap_cons]

/-- The nodes of the fields of an object are those of each field in turn. -/
theorem fieldsNodes_eq (fields : List ObjectField) :
    fieldsNodes fields = fields.flatMap ObjectField.nodes := by
  induction fields with
  | nil => rfl
  | cons field fields ih => rw [fieldsNodes, ih, List.flatMap_cons]

/-- The nodes of the statements of a block are those of each statement in turn. -/
theorem statementsNodes_eq (ss : List Statement) :
    statementsNodes ss = ss.flatMap Statement.nodes := by
  induction ss with
  | nil => rfl
  | cons s ss ih => rw [statementsNodes, ih, List.flatMap_cons]

/-! ## How a node is written -/

/-- The primary that an operand starts with, behind its signs. -/
def Operand.primary : Operand → Primary
  | .mk _ _ (.mk _ primary _) => primary

/-- A text that is read as a sign where an operand starts. -/
def Primary.isSign : Primary → Bool
  | .text _ value => (signWords.lookup value).isSome
  | _ => false

/-- **A node that can be read**: words are spelled as such and taken for no others. -/
def Node.Legible : Node → Prop
  | .type t => Lexer.isIdentifier t.name = true
  | .expression _ => True
  | .operand o => o.primary.isSign = false
  | .suffix (.member _ name) => Lexer.isIdentifier name = true
  | .suffix _ => True
  | .primary (.creation _ className _) => Lexer.isIdentifier className = true
  | .primary (.number _ literal) => Lexer.Numeral literal.toList
  | .primary (.name _ name) =>
    Lexer.isIdentifier name = true ∧ truthWords.lookup name = none ∧ name ≠ "this"
  | .primary _ => True

/-- The keys of an object are identifiers. -/
def Node.hasPlainKeys : Node → Bool
  | .primary (.object _ fields) => fields.all fun field => Lexer.isIdentifier field.key
  | _ => true

/-- A text that is read as an opening brace. -/
def Primary.isOpen : Primary → Bool
  | .text _ value => value = "\x7b"
  | _ => false

/-- A text that is read as an opening brace, with nothing behind it. -/
def Postfix.isOpen : Postfix → Bool
  | .mk _ primary suffixes => suffixes.isEmpty && primary.isOpen

/-- The operand ends in a text that is read as an opening brace. -/
def Operand.isOpen : Operand → Bool
  | .mk _ _ value => value.isOpen

/-- What stands behind the operator ends in a text that is read as an opening brace. -/
def Link.isOpen : Link → Bool
  | .mk _ _ operand => operand.isOpen

/-- The chain ends in a text that is read as an opening brace. -/
def Chain.isOpen : Chain → Bool
  | .mk _ first links => (links.getLast?.map Link.isOpen).getD first.isOpen

/-- **The expression ends in a text that is read as an opening brace.** -/
def Expression.isOpen : Expression → Bool
  | .chain _ value => value.isOpen
  | .choice _ _ _ no => no.isOpen

/-- The value of the field ends in a text that is read as an opening brace. -/
def ObjectField.isOpen : ObjectField → Bool
  | .valued _ _ value => value.isOpen
  | .shorthand _ _ => false

/-- The last value of an object does not run into the closing brace. -/
def Node.isClosed : Node → Bool
  | .primary (.object _ fields) => fields.getLast?.all fun field => !field.isOpen
  | _ => true

end Source

end Covenant
