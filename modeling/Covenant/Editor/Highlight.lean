import Covenant.Environment
import Covenant.Source.Tree
import Covenant.Text.Hex

/-!
# Highlighting

The names in a document and what they stand for, as an editor colours them. A node of the syntax
tree tells only where it starts; a name within it is looked for in the text from there on. Lines
and characters start at zero, and characters count bytes of the line.

Highlights are sent as differences: each is placed by its distance from the one before. Their
numbers are words of 32 bits, and so are the differences.
-/

namespace Covenant

namespace Editor

/-- What a name stands for. -/
inductive Category where
  | space
  | typeName
  | typeParameter
  | function
  | localName
  | parameter
  | property
  | keyword
  | number
  | operator
  | modifier
deriving DecidableEq, Repr, Inhabited

namespace Category

/-- The categories, in the order that gives them their numbers. -/
def all : List Category :=
  [space, typeName, typeParameter, function, localName, parameter, property, keyword, number,
    operator, modifier]

/-- The word for a category. -/
def word : Category → String
  | space => "namespace"
  | typeName => "type"
  | typeParameter => "typeParameter"
  | function => "function"
  | localName => "variable"
  | parameter => "parameter"
  | property => "property"
  | keyword => "keyword"
  | number => "number"
  | operator => "operator"
  | modifier => "modifier"

/-- The number of a category. -/
def index (c : Category) : Nat :=
  all.idxOf c

end Category

/-- The words for what else is said of a name, in the order of their bits. -/
def traitWords : List String :=
  ["declaration", "definition", "readonly", "static", "deprecated", "abstract"]

/-- What else is said of a name. -/
structure Traits where
  declares : Bool := false
  readonly : Bool := false
deriving DecidableEq, Repr, Inhabited

/-- The bits of the traits. -/
def Traits.mask (t : Traits) : Nat :=
  (if t.declares then 1 else 0) + (if t.readonly then 4 else 0)

/-- **A highlighted name.** -/
structure Highlight where
  line : UInt32
  start : UInt32
  length : UInt32
  category : Category
  traits : Traits := {}
deriving DecidableEq, Repr, Inhabited

/-! ## Names in lines -/

/-- The bytes of the lines of a text. -/
def byteLines (text : String) : List (List UInt8) :=
  (text.toList.splitOn '\n').map fun line => Text.bytes (String.ofList line)

/-- Whether a byte can be part of a name. -/
def isWordByte (b : UInt8) : Bool :=
  b = 95 || b = 36 || (48 ≤ b && b ≤ 57) || (97 ≤ b && b ≤ 122) || (65 ≤ b && b ≤ 90)

/-- The place of the first occurrence of a word in bytes. -/
def indexOf? (word : List UInt8) : List UInt8 → Option Nat
  | [] => if word.isEmpty then some 0 else none
  | b :: rest =>
    if word.isPrefixOf (b :: rest) then some 0 else (indexOf? word rest).map (· + 1)

/-- The place of a word that stands alone in a line, from a place on. -/
def findWord? (line word : List UInt8) : Nat → Nat → Option Nat
  | 0, _ => none
  | fuel + 1, start =>
    if line.length ≤ start then none
    else
      match indexOf? word (line.drop start) with
      | none => none
      | some i =>
        let first := start + i
        let stop := first + word.length
        let joined (neighbour : Option UInt8) : Bool := (neighbour.map isWordByte).getD false
        if joined ((line.take first).getLast?) || joined ((line.drop stop).head?) then
          findWord? line word fuel stop
        else some first

/-- Highlights a name that starts at a place. -/
def mark (pos : Position) (name : String) (category : Category) (traits : Traits) :
    List Highlight :=
  if name = "" || pos.line = 0 then []
  else
    [{ line := .ofNat (pos.line - 1), start := .ofNat pos.column - 1
       length := .ofNat name.utf8ByteSize, category, traits }]

/-- **Highlights the first occurrence of a name** from a place on, in its line, and gives the place
behind it. -/
def find (lines : List (List UInt8)) (pos : Position) (name : String) (category : Category)
    (traits : Traits) : List Highlight × Position :=
  let word := Text.bytes name
  let found := if name = "" || pos.line = 0 || pos.column = 0 then none
    else lines[pos.line - 1]?.bind fun line =>
      findWord? line word (line.length + 1) (pos.column - 1)
  match found with
  | none => ([], pos)
  | some start =>
    ([{ line := .ofNat (pos.line - 1), start := .ofNat start, length := .ofNat word.length
        category, traits }],
      { pos with column := start + word.length + 1 })

/-- Highlights several names one behind the other. -/
def findAll (lines : List (List UInt8)) (pos : Position) (category : Category) :
    List String → List Highlight
  | [] => []
  | name :: names =>
    let (found, pos) := find lines pos name category {}
    found ++ findAll lines pos category names

/-! ## Expressions -/

open Source

mutual
/-- The names of a type. -/
def ofType : TypeRef → List Highlight
  | .mk pos name arguments _ => mark pos name .typeName {} ++ ofTypes arguments

/-- The names of several types. -/
def ofTypes : List TypeRef → List Highlight
  | [] => []
  | t :: ts => ofType t ++ ofTypes ts
end

/-- Whether the next step is a call. -/
def callsNext : List Suffix → Bool
  | .call _ _ :: _ => true
  | _ => false

/-- The category of a bare name with steps behind it. -/
def nameCategory (name : String) (suffixes : List Suffix) : Category :=
  if Environment.isSpace name then .space
  else if callsNext suffixes then .function
  else .localName

mutual
/-- **The names of an expression.** -/
def ofExpression (lines : List (List UInt8)) : Expression → List Highlight
  | .chain _ value => ofChain lines value
  | .choice _ condition yes no =>
    ofChain lines condition ++ ofExpression lines yes ++ ofExpression lines no

/-- The names of an operator chain. -/
def ofChain (lines : List (List UInt8)) : Chain → List Highlight
  | .mk _ first links => ofOperand lines first ++ ofLinks lines links

/-- The names of the rest of a chain. -/
def ofLinks (lines : List (List UInt8)) : List Link → List Highlight
  | [] => []
  | .mk _ _ operand :: links => ofOperand lines operand ++ ofLinks lines links

/-- The names of an operand. -/
def ofOperand (lines : List (List UInt8)) : Operand → List Highlight
  | .mk _ _ value => ofPostfix lines value

/-- The names of a primary and of the steps behind it. -/
def ofPostfix (lines : List (List UInt8)) : Postfix → List Highlight
  | .mk _ primary suffixes => ofPrimary lines suffixes primary ++ ofSuffixes lines suffixes

/-- The names of a primary. -/
def ofPrimary (lines : List (List UInt8)) (suffixes : List Suffix) : Primary → List Highlight
  | .name pos name => mark pos name (nameCategory name suffixes) {}
  | .creation pos className arguments =>
    (find lines pos className .typeName {}).1 ++ ofArguments lines arguments
  | .number pos literal => mark pos literal .number {}
  | .parens _ inner => ofExpression lines inner
  | .object _ fields => ofFields lines fields
  | .text _ _ => []
  | .truth _ _ => []
  | .this _ => []

/-- The names of the fields of an object literal. -/
def ofFields (lines : List (List UInt8)) : List ObjectField → List Highlight
  | [] => []
  | .valued pos key value :: fields =>
    mark pos key .property {} ++ ofExpression lines value ++ ofFields lines fields
  | .shorthand pos key :: fields => mark pos key .property {} ++ ofFields lines fields

/-- The names of the steps behind a primary. -/
def ofSuffixes (lines : List (List UInt8)) : List Suffix → List Highlight
  | [] => []
  | .member pos name :: rest =>
    (find lines pos name (if callsNext rest then .function else .property) {}).1
      ++ ofSuffixes lines rest
  | .index _ value :: rest => ofExpression lines value ++ ofSuffixes lines rest
  | .call _ arguments :: rest => ofArguments lines arguments ++ ofSuffixes lines rest

/-- The names of arguments. -/
def ofArguments (lines : List (List UInt8)) : Arguments → List Highlight
  | .mk _ values => ofExpressions lines values

/-- The names of several expressions. -/
def ofExpressions (lines : List (List UInt8)) : List Expression → List Highlight
  | [] => []
  | e :: es => ofExpression lines e ++ ofExpressions lines es
end

/-! ## Statements -/

/-- The names of an optional type. -/
def ofType? (type : Option TypeRef) : List Highlight :=
  (type.map ofType).getD []

/-- The names of an optional expression. -/
def ofExpression? (lines : List (List UInt8)) (value : Option Expression) : List Highlight :=
  (value.map (ofExpression lines)).getD []

/-- What is said of a declared name. -/
def declared (readonly : Bool) : Traits :=
  { declares := true, readonly }

mutual
/-- **The names of a statement.** -/
def ofStatement (lines : List (List UInt8)) : Statement → List Highlight
  | .block _ statements => ofStatements lines statements
  | .declaration pos kind name type value =>
    (find lines pos name .localName (declared (kind = .constWord))).1 ++ ofType? type
      ++ ofExpression? lines value
  | .ifThen _ condition yes => ofExpression lines condition ++ ofStatement lines yes
  | .ifElse _ condition yes no =>
    ofExpression lines condition ++ ofStatement lines yes ++ ofStatement lines no
  | .returns _ value => ofExpression? lines value
  | .throw _ value => ofExpression lines value
  | .evaluate _ value => ofExpression lines value
  | .assign _ target _ value => ofExpression lines target ++ ofExpression lines value
  | .empty _ => []

/-- The names of several statements. -/
def ofStatements (lines : List (List UInt8)) : List Statement → List Highlight
  | [] => []
  | s :: ss => ofStatement lines s ++ ofStatements lines ss
end

/-! ## Declarations -/

/-- The names of parameters. -/
def ofParams (params : List Param) : List Highlight :=
  params.flatMap fun p => mark p.pos p.name .parameter {} ++ ofType p.type

/-- The names of an initializer. -/
def ofInitializer (lines : List (List UInt8)) : Initializer → List Highlight
  | .value value => ofExpression lines value
  | .arrow a =>
    ofParams a.params ++ ofType? a.returns
      ++ (match a.body with
        | .block b => ofStatements lines b.statements
        | .value value => ofExpression lines value)

/-- The word of a modifier. -/
def modifierWord : Modifier → String
  | .publicWord => "public"
  | .privateWord => "private"
  | .protectedWord => "protected"
  | .readonlyWord => "readonly"
  | .staticWord => "static"

/-- The names of a member of a class. -/
def ofMember (lines : List (List UInt8)) (m : ClassMember) : List Highlight :=
  findAll lines m.pos .modifier (m.modifiers.map modifierWord)
    ++ match m.body with
      | .constructor c => ofParams c.params ++ ofStatements lines c.body.statements
      | .method f =>
        mark f.pos f.name .function (declared false) ++ ofParams f.params ++ ofType? f.returns
          ++ ofStatements lines f.body.statements
      | .property p =>
        mark p.pos p.name .property (declared (m.modifiers.contains .readonlyWord))
          ++ ofType? p.type ++ (p.initializer.map (ofInitializer lines)).getD []

/-- The names of a declaration. -/
def ofDeclaration (lines : List (List UInt8)) : Declaration → List Highlight
  | .imports i =>
    match i.clause with
    | .names names => findAll lines i.pos .typeName names
    | .everything name => (find lines i.pos name .space (declared false)).1
    | .whole name => (find lines i.pos name .space (declared false)).1
  | .interfaceDecl i =>
    (find lines i.pos i.name .typeName (declared false)).1
      ++ i.fields.flatMap fun f => mark f.pos f.name .property (declared false) ++ ofType f.type
  | .classDecl c =>
    let (name, pos) := find lines c.pos c.name .typeName (declared false)
    name ++ findAll lines pos .typeName c.bases ++ c.members.flatMap (ofMember lines)
  | .constant c =>
    (find lines c.pos c.name .localName (declared true)).1 ++ ofType? c.type
      ++ ofExpression lines c.value

/-- Whether a highlight does not stand behind another one. -/
def Highlight.notAfter (a b : Highlight) : Bool :=
  a.line < b.line || (a.line = b.line && a.start ≤ b.start)

/-- The highlights of a document, as its tree is walked. -/
def recorded (program : Program) (text : String) : List Highlight :=
  program.elements.flatMap fun e => ofDeclaration (byteLines text) e.body

/-- **The highlights of a document**, in the order of their places. -/
def highlights (program : Program) (text : String) : List Highlight :=
  (recorded program text).mergeSort Highlight.notAfter

/-! ## Differences -/

/-- The five words of a highlight behind another one. -/
def Highlight.delta (h previous : Highlight) : List UInt32 :=
  let lines := h.line - previous.line
  [lines, if lines = 0 then h.start - previous.start else h.start, h.length,
    .ofNat h.category.index, .ofNat h.traits.mask]

/-- The words of highlights behind another one. -/
def deltasFrom (previous : Highlight) : List Highlight → List UInt32
  | [] => []
  | h :: rest => h.delta previous ++ deltasFrom h rest

/-- The place that the first highlight is behind. -/
def Highlight.origin : Highlight :=
  { line := 0, start := 0, length := 0, category := .space }

/-- **Highlights as differences**, five words for each. -/
def deltaWords (hs : List Highlight) : List UInt32 :=
  deltasFrom .origin hs

/-- The numbers that are sent for highlights. -/
def deltas (hs : List Highlight) : List Nat :=
  (deltaWords hs).map UInt32.toNat

end Editor

end Covenant
