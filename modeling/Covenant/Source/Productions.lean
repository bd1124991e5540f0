import Covenant.Source.Grammar
import Covenant.Source.Token.Lexer
import Covenant.Source.Tree

/-!
# The productions of the source language

One production per kind of node. Words of the language are not reserved: a production that asks
for a word takes any token of that value, also a string literal of it, and one that asks for an
identifier takes any identifier.
-/

namespace Covenant

namespace Source

/-- **The named productions**, each with the kind of node it builds. -/
inductive Nonterminal : Type → Type where
  | program : Nonterminal Program
  | element : Nonterminal Element
  | imports : Nonterminal Import
  | interfaceDecl : Nonterminal InterfaceDecl
  | interfaceField : Nonterminal InterfaceField
  | constant : Nonterminal ConstantDecl
  | classDecl : Nonterminal ClassDecl
  | classMember : Nonterminal ClassMember
  | constructor : Nonterminal Constructor
  | method : Nonterminal Method
  | property : Nonterminal Property
  | initializer : Nonterminal Initializer
  | arrow : Nonterminal Arrow
  | param : Nonterminal Param
  | typeRef : Nonterminal TypeRef
  | block : Nonterminal Block
  | statement : Nonterminal Statement
  | declaration : Nonterminal Statement
  | conditional : Nonterminal Statement
  | returns : Nonterminal Statement
  | throws : Nonterminal Statement
  | exprStatement : Nonterminal Statement
  | expression : Nonterminal Expression
  | chain : Nonterminal Chain
  | link : Nonterminal Link
  | operand : Nonterminal Operand
  | postfixed : Nonterminal Postfix
  | suffix : Nonterminal Suffix
  | arguments : Nonterminal Arguments
  | primary : Nonterminal Primary
  | creation : Nonterminal Primary
  | objectLiteral : Nonterminal Primary
  | objectField : Nonterminal ObjectField

/-- Grammars over the productions of the language. -/
abbrev Rule := Grammar Nonterminal

/-! ## Shapes that recur -/

/-- A token of the given value, whatever its class. -/
def word (value : String) : Rule Unit :=
  .token fun t => if t.value = value then some () else none

/-- One of several words, each with its meaning. -/
def oneOf {α : Type} (table : List (String × α)) : Rule α :=
  .token fun t => table.lookup t.value

/-- A token of the given class; its value is kept. -/
def anyOf (kind : TokenKind) : Rule String :=
  .token fun t => if t.kind = kind then some t.value else none

/-- An identifier. -/
def identifier : Rule String := anyOf .identifier

/-- Two grammars of which the first is only checked. -/
def after {α β : Type} (first : Rule α) (second : Rule β) : Rule β :=
  .map Prod.snd (.seq first second)

/-- Two grammars of which the second is only checked. -/
def before {α β : Type} (first : Rule α) (second : Rule β) : Rule α :=
  .map Prod.fst (.seq first second)

/-- A choice from a list of alternatives. -/
def firstOf {α : Type} (alternatives : List (Rule α)) : Rule α :=
  .choice (alternatives.foldr .cons .none)

/-- One or more items with commas between them. -/
def commaList {α : Type} (item : Rule α) : Rule (List α) :=
  .map (fun (head, tail) => head :: tail) (.seq item (.star (after (word ",") item)))

/-- Any number of items with commas between them, and perhaps one behind the last. -/
def looseList {α : Type} (item : Rule α) : Rule (List α) :=
  .map (·.getD []) (.opt (before (commaList item) (.opt (word ","))))

/-- Parameters in parentheses, behind the opening one. -/
def params : Rule (List Param) :=
  before (looseList (.node .param)) (word ")")

/-- An optional type behind a colon. -/
def typeAfterColon : Rule (Option TypeRef) :=
  .opt (after (word ":") (.node .typeRef))

/-! ## Tables of words -/

/-- The words that declare a constant of a file. -/
def constantWords : List (String × DeclarationKind) :=
  [("const", .constWord), ("let", .letWord)]

/-- The words that declare a local variable. -/
def declarationWords : List (String × DeclarationKind) :=
  [("let", .letWord), ("const", .constWord), ("var", .varWord)]

/-- The words in front of a member. -/
def modifierWords : List (String × Modifier) :=
  [("public", .publicWord), ("private", .privateWord), ("protected", .protectedWord),
    ("readonly", .readonlyWord), ("static", .staticWord)]

/-- The operators between operands. -/
def operatorWords : List (String × Operator) :=
  [("||", .or), ("&&", .and), ("===", .strictEq), ("!==", .strictNe), ("==", .eq), ("!=", .ne),
    ("<=", .le), (">=", .ge), ("<", .lt), (">", .gt), ("**", .pow), ("+", .add), ("-", .sub),
    ("*", .mul), ("/", .div), ("%", .mod)]

/-- The operators before an operand. -/
def signWords : List (String × Sign) :=
  [("!", .not), ("-", .minus)]

/-- The operators of an assignment. -/
def assignmentWords : List (String × Assignment) :=
  [("=", .replace), ("+=", .increase), ("-=", .decrease)]

/-- The truth values. -/
def truthWords : List (String × Bool) :=
  [("true", true), ("false", false)]

/-! ## The productions -/

/-- **The grammar of each production**: what it builds once the place of its start is known. -/
def rule : {α : Type} → Nonterminal α → Rule (Position → α)
  | _, .program =>
    .map (fun elements pos => { pos, elements }) (.star (.node .element))
  | _, .element =>
    firstOf
      [.map (fun value pos => { pos, exported := false, body := .imports value })
          (.node .imports),
        .map (fun (mark, body) pos => { pos, exported := mark.isSome, body })
          (.seq (.opt (before (word "export") (.opt (word "default"))))
            (firstOf
              [.map .interfaceDecl (.node .interfaceDecl),
                .map .classDecl (.node .classDecl),
                .map .constant (.node .constant)]))]
  | _, .imports =>
    .map (fun (clause, source) pos => { pos, clause, source })
      (after (word "import")
        (.seq
          (firstOf
            [.map .names
                (after (word "\x7b") (before (looseList identifier) (word "\x7d"))),
              .map .everything (after (word "*") (after (word "as") identifier)),
              .map .whole identifier])
          (after (word "from") (before (anyOf .text) (.opt (word ";"))))))
  | _, .interfaceDecl =>
    .map (fun (name, fields) pos => { pos, name, fields })
      (after (word "interface")
        (.seq identifier
          (after (word "\x7b") (before (.star (.node .interfaceField)) (word "\x7d")))))
  | _, .interfaceField =>
    .map (fun (name, type) pos => { pos, name, type })
      (.seq (before identifier (.opt (word "?")))
        (after (word ":")
          (before (.node .typeRef) (.opt (oneOf [(";", ()), (",", ())])))))
  | _, .constant =>
    .map (fun (kind, name, type, value) pos => { pos, kind, name, type, value })
      (.seq (oneOf constantWords)
        (.seq identifier
          (.seq typeAfterColon
            (after (word "=") (before (.node .expression) (.opt (word ";")))))))
  | _, .classDecl =>
    .map (fun (name, bases, members) pos => { pos, name, bases := bases.getD [], members })
      (after (word "class")
        (.seq identifier
          (.seq (.opt (after (word "extends") (commaList identifier)))
            (after (word "\x7b") (before (.star (.node .classMember)) (word "\x7d"))))))
  | _, .classMember =>
    .map (fun (modifiers, body) pos => { pos, modifiers, body })
      (.seq (.star (oneOf modifierWords))
        (before
          (firstOf
            [.map .constructor (.node .constructor),
              .map .method (.node .method),
              .map .property (.node .property)])
          (.opt (word ";"))))
  | _, .constructor =>
    .map (fun (params, body) pos => { pos, params, body })
      (after (word "constructor") (after (word "(") (.seq params (.node .block))))
  | _, .method =>
    .map (fun (name, params, returns, body) pos => { pos, name, params, returns, body })
      (.seq (before identifier (word "("))
        (.seq params (.seq typeAfterColon (.node .block))))
  | _, .property =>
    .map (fun (name, type, initializer) pos => { pos, name, type, initializer })
      (.seq (before identifier (.opt (oneOf [("?", ()), ("!", ())])))
        (.seq typeAfterColon (.opt (after (word "=") (.node .initializer)))))
  | _, .initializer =>
    .map (fun value _ => value)
      (firstOf [.map .arrow (.node .arrow), .map .value (.node .expression)])
  | _, .arrow =>
    .map (fun (params, returns, body) pos => { pos, params, returns, body })
      (after (word "(")
        (.seq params
          (.seq typeAfterColon
            (after (word "=>")
              (firstOf [.map .block (.node .block), .map .value (.node .expression)])))))
  | _, .param =>
    .map (fun (name, type) pos => { pos, name, type })
      (.seq (before identifier (.opt (word "?"))) (after (word ":") (.node .typeRef)))
  | _, .typeRef =>
    .map (fun (name, arguments, brackets) pos =>
        .mk pos name (arguments.getD []) brackets.length)
      (.seq identifier
        (.seq
          (.opt (after (word "<") (before (commaList (.node .typeRef)) (word ">"))))
          (.star (.seq (word "[") (word "]")))))
  | _, .block =>
    .map (fun statements pos => { pos, statements })
      (after (word "\x7b") (before (.star (.node .statement)) (word "\x7d")))
  | _, .statement =>
    firstOf
      [.map (fun (b : Block) _ => .block b.pos b.statements) (.node .block),
        .map (fun s _ => s) (.node .declaration),
        .map (fun s _ => s) (.node .conditional),
        .map (fun s _ => s) (.node .returns),
        .map (fun s _ => s) (.node .throws),
        .map (fun s _ => s) (.node .exprStatement),
        .map (fun _ pos => .empty pos) (word ";")]
  | _, .declaration =>
    .map (fun (kind, name, type, value) pos => .declaration pos kind name type value)
      (.seq (oneOf declarationWords)
        (.seq identifier
          (.seq typeAfterColon
            (before (.opt (after (word "=") (.node .expression))) (word ";")))))
  | _, .conditional =>
    .map (fun (condition, yes, no) pos =>
        match no with
        | some no => .ifElse pos condition yes no
        | none => .ifThen pos condition yes)
      (after (word "if")
        (after (word "(")
          (.seq (before (.node .expression) (word ")"))
            (.seq (.node .statement) (.opt (after (word "else") (.node .statement)))))))
  | _, .returns =>
    .map (fun value pos => .returns pos value)
      (after (word "return") (before (.opt (.node .expression)) (word ";")))
  | _, .throws =>
    .map (fun value pos => .throw pos value)
      (after (word "throw") (before (.node .expression) (word ";")))
  | _, .exprStatement =>
    .map (fun (target, change) pos =>
        match change with
        | some (assignment, value) => .assign pos target assignment value
        | none => .evaluate pos target)
      (.seq (.node .expression)
        (before (.opt (.seq (oneOf assignmentWords) (.node .expression))) (word ";")))
  | _, .expression =>
    .map (fun (condition, branches) pos =>
        match branches with
        | some (yes, no) => .choice pos condition yes no
        | none => .chain pos condition)
      (.seq (.node .chain)
        (.opt (after (word "?")
          (.seq (.node .expression) (after (word ":") (.node .expression))))))
  | _, .chain =>
    .map (fun (first, links) pos => .mk pos first links)
      (.seq (.node .operand) (.star (.node .link)))
  | _, .link =>
    .map (fun (operator, operand) pos => .mk pos operator operand)
      (.seq (oneOf operatorWords) (.node .operand))
  | _, .operand =>
    .map (fun (signs, value) pos => .mk pos signs value)
      (.seq (.star (oneOf signWords)) (.node .postfixed))
  | _, .postfixed =>
    .map (fun (primary, suffixes) pos => .mk pos primary suffixes)
      (.seq (.node .primary) (.star (.node .suffix)))
  | _, .suffix =>
    firstOf
      [.map (fun name pos => .member pos name) (after (word ".") identifier),
        .map (fun value pos => .index pos value)
          (after (word "[") (before (.node .expression) (word "]"))),
        .map (fun arguments pos => .call pos arguments) (.node .arguments)]
  | _, .arguments =>
    .map (fun values pos => .mk pos values)
      (after (word "(") (before (looseList (.node .expression)) (word ")")))
  | _, .primary =>
    firstOf
      [.map (fun p _ => p) (.node .creation),
        .map (fun p _ => p) (.node .objectLiteral),
        .map (fun literal pos => .number pos literal) (anyOf .number),
        .map (fun value pos => .text pos value) (anyOf .text),
        .map (fun value pos => .truth pos value) (oneOf truthWords),
        .map (fun _ pos => .this pos) (word "this"),
        .map (fun name pos => .name pos name) identifier,
        .map (fun inner pos => .parens pos inner)
          (after (word "(") (before (.node .expression) (word ")")))]
  | _, .creation =>
    .map (fun (className, arguments) pos => .creation pos className arguments)
      (after (word "new") (.seq identifier (.node .arguments)))
  | _, .objectLiteral =>
    .map (fun fields pos => .object pos fields)
      (after (word "\x7b") (before (looseList (.node .objectField)) (word "\x7d")))
  | _, .objectField =>
    .map (fun (key, value) pos =>
        match value with
        | some value => .valued pos key value
        | none => .shorthand pos key)
      (.seq (firstOf [identifier, anyOf .text]) (.opt (after (word ":") (.node .expression))))

/-- **Reads a source file.** No more than the number of productions can start at one token. -/
def parse (file source : String) : Except SyntaxError Program := do
  readAll rule 34 .program (← scan file source)

end Source

end Covenant
