import Covenant.Editor.Highlight
import Covenant.Proofs.Computations
import Covenant.Proofs.Syntax.Reading
import Covenant.Source.Productions
import Covenant.Source.Tree.Printer

/-!
# Derivations of source files

`Derives` is the grammar of the source language as an inductive relation: which rows of tokens each
production stands for, and the node it makes of them. It knows nothing of reading: no order of
alternatives, no lookahead, nothing that is tried and given up. Every token of a row belongs to one
piece of it, and every node holds what its pieces stand for, in order.

Main statement: a text that is read as a file is derived from the production of files, by all of its
tokens, with the tree that the reading gives (`parse_derives`).
-/

namespace Covenant

namespace Source

/-! ## Words -/

/-- The word of a declaration. -/
def DeclarationKind.word : DeclarationKind → String
  | letWord => "let"
  | constWord => "const"
  | varWord => "var"

/-- The spelling of an assignment. -/
def Assignment.symbol : Assignment → String
  | replace => "="
  | increase => "+="
  | decrease => "-="

/-- The word of a truth value. -/
def truthWord (value : Bool) : String :=
  if value then "true" else "false"

/-! ## Shapes -/

/-- A token that stands for a value by its word. -/
inductive Worded {α : Type} (word : α → String) : List Token → α → Prop
  | mk {t : Token} {a : α} (h : t.value = word a) : Worded word [t] a

/-- A token of a class, which stands for its value. -/
inductive OfKind (kind : TokenKind) : List Token → String → Prop
  | mk {t : Token} (h : t.kind = kind) : OfKind kind [t] t.value

/-- At most one token, with one of some values. -/
inductive Mark (values : List String) : List Token → Prop
  | none : Mark values []
  | some {t : Token} (h : t.value ∈ values) : Mark values [t]

section Shapes

variable {α : Type} (R : List Token → α → Prop)

/-- Pieces one behind the other. -/
inductive InRow : List Token → List α → Prop
  | nil : InRow [] []
  | cons {us vs : List Token} {a : α} {as : List α} (head : R us a) (tail : InRow vs as) :
      InRow (us ++ vs) (a :: as)

/-- One or more pieces with commas between them. -/
inductive Separated : List Token → List α → Prop
  | one {ts : List Token} {a : α} (h : R ts a) : Separated ts [a]
  | cons {us vs : List Token} {comma : Token} {a : α} {as : List α} (head : R us a)
      (hcomma : comma.value = ",") (tail : Separated vs as) :
      Separated (us ++ comma :: vs) (a :: as)

/-- Any number of pieces with commas between them, and perhaps one behind the last. -/
inductive Listed : List Token → List α → Prop
  | nil : Listed [] []
  | some {ts us : List Token} {as : List α} (h : Separated R ts as) (hcomma : Mark [","] us) :
      Listed (ts ++ us) as

/-- A piece or nothing. -/
inductive Perhaps : List Token → Option α → Prop
  | none : Perhaps [] none
  | some {ts : List Token} {a : α} (h : R ts a) : Perhaps ts (some a)

/-- A piece behind a word. -/
inductive Behind (word : String) : List Token → α → Prop
  | mk {t : Token} {ts : List Token} {a : α} (hword : t.value = word) (h : R ts a) :
      Behind word (t :: ts) a

/-- A piece between two words. -/
inductive Enclosed (front back : String) : List Token → α → Prop
  | mk {o c : Token} {ts : List Token} {a : α} (hfront : o.value = front) (h : R ts a)
      (hback : c.value = back) : Enclosed front back (o :: ts ++ [c]) a

end Shapes

/-- An export mark, or none. -/
inductive Exported : List Token → Bool → Prop
  | no : Exported [] false
  | yes {t : Token} {us : List Token} (h : t.value = "export") (hdefault : Mark ["default"] us) :
      Exported (t :: us) true

/-- What an import takes. -/
inductive Taken : List Token → ImportClause → Prop
  | names {ts : List Token} {names : List String}
      (h : Enclosed (Listed (OfKind .identifier)) "\x7b" "\x7d" ts names) : Taken ts (.names names)
  | everything {star as name : Token} (hstar : star.value = "*") (has : as.value = "as")
      (hname : name.kind = .identifier) : Taken [star, as, name] (.everything name.value)
  | whole {name : Token} (hname : name.kind = .identifier) : Taken [name] (.whole name.value)

/-- Pairs of brackets, counted. -/
inductive Brackets : List Token → Nat → Prop
  | zero : Brackets [] 0
  | succ {o c : Token} {ts : List Token} {n : Nat} (hfront : o.value = "[") (hback : c.value = "]")
      (h : Brackets ts n) : Brackets (o :: c :: ts) (n + 1)

/-! ## Productions -/

/-- **The derivations of the language**: which rows of tokens each production stands for, and the
node it makes of them. A node starts where its first token stands; a program without any token
starts at the end of the text. -/
inductive Derives (finish : Position) : {α : Type} → Nonterminal α → List Token → α → Prop
  | program {ts elements} (h : InRow (Derives finish .element) ts elements) :
      Derives finish .program ts { pos := startOf finish ts, elements }
  | importElement {ts value} (h : Derives finish .imports ts value) :
      Derives finish .element ts
        { pos := startOf finish ts, exported := false, body := .imports value }
  | interfaceElement {us vs exported value} (hexport : Exported us exported)
      (h : Derives finish .interfaceDecl vs value) :
      Derives finish .element (us ++ vs)
        { pos := startOf finish (us ++ vs), exported, body := .interfaceDecl value }
  | classElement {us vs exported value} (hexport : Exported us exported)
      (h : Derives finish .classDecl vs value) :
      Derives finish .element (us ++ vs)
        { pos := startOf finish (us ++ vs), exported, body := .classDecl value }
  | constantElement {us vs exported value} (hexport : Exported us exported)
      (h : Derives finish .constant vs value) :
      Derives finish .element (us ++ vs)
        { pos := startOf finish (us ++ vs), exported, body := .constant value }
  | imports {t from_ source : Token} {us close clause} (hword : t.value = "import")
      (hclause : Taken us clause) (hfrom : from_.value = "from") (hsource : source.kind = .text)
      (hclose : Mark [";"] close) :
      Derives finish .imports (t :: us ++ from_ :: source :: close)
        { pos := t.pos, clause, source := source.value }
  | interfaceDecl {t name : Token} {us fields} (hword : t.value = "interface")
      (hname : name.kind = .identifier)
      (hfields : Enclosed (InRow (Derives finish .interfaceField)) "\x7b" "\x7d" us fields) :
      Derives finish .interfaceDecl (t :: name :: us) { pos := t.pos, name := name.value, fields }
  | interfaceField {name colon : Token} {mark us close type} (hname : name.kind = .identifier)
      (hmark : Mark ["?"] mark) (hcolon : colon.value = ":")
      (htype : Derives finish .typeRef us type) (hclose : Mark [";", ","] close) :
      Derives finish .interfaceField (name :: mark ++ colon :: us ++ close)
        { pos := name.pos, name := name.value, type }
  | constant {t name equals : Token} {us vs close kind type value}
      (hkind : kind ≠ .varWord) (hword : t.value = kind.word) (hname : name.kind = .identifier)
      (htype : Perhaps (Behind (Derives finish .typeRef) ":") us type)
      (hequals : equals.value = "=") (hvalue : Derives finish .expression vs value)
      (hclose : Mark [";"] close) :
      Derives finish .constant (t :: name :: us ++ equals :: vs ++ close)
        { pos := t.pos, kind, name := name.value, type, value }
  | classDecl {t name : Token} {us vs bases members} (hword : t.value = "class")
      (hname : name.kind = .identifier)
      (hbases : Perhaps (Behind (Separated (OfKind .identifier)) "extends") us bases)
      (hmembers : Enclosed (InRow (Derives finish .classMember)) "\x7b" "\x7d" vs members) :
      Derives finish .classDecl (t :: name :: us ++ vs)
        { pos := t.pos, name := name.value, bases := bases.getD [], members }
  | constructorMember {us vs close modifiers value}
      (hmodifiers : InRow (Worded Editor.modifierWord) us modifiers)
      (h : Derives finish .constructor vs value) (hclose : Mark [";"] close) :
      Derives finish .classMember (us ++ vs ++ close)
        { pos := startOf finish (us ++ vs ++ close), modifiers, body := .constructor value }
  | methodMember {us vs close modifiers value}
      (hmodifiers : InRow (Worded Editor.modifierWord) us modifiers)
      (h : Derives finish .method vs value) (hclose : Mark [";"] close) :
      Derives finish .classMember (us ++ vs ++ close)
        { pos := startOf finish (us ++ vs ++ close), modifiers, body := .method value }
  | propertyMember {us vs close modifiers value}
      (hmodifiers : InRow (Worded Editor.modifierWord) us modifiers)
      (h : Derives finish .property vs value) (hclose : Mark [";"] close) :
      Derives finish .classMember (us ++ vs ++ close)
        { pos := startOf finish (us ++ vs ++ close), modifiers, body := .property value }
  | constructor {t : Token} {us vs params body} (hword : t.value = "constructor")
      (hparams : Enclosed (Listed (Derives finish .param)) "(" ")" us params)
      (hbody : Derives finish .block vs body) :
      Derives finish .constructor (t :: us ++ vs) { pos := t.pos, params, body }
  | method {name : Token} {us vs ws params returns body} (hname : name.kind = .identifier)
      (hparams : Enclosed (Listed (Derives finish .param)) "(" ")" us params)
      (hreturns : Perhaps (Behind (Derives finish .typeRef) ":") vs returns)
      (hbody : Derives finish .block ws body) :
      Derives finish .method (name :: us ++ vs ++ ws)
        { pos := name.pos, name := name.value, params, returns, body }
  | property {name : Token} {mark us vs type initializer} (hname : name.kind = .identifier)
      (hmark : Mark ["?", "!"] mark)
      (htype : Perhaps (Behind (Derives finish .typeRef) ":") us type)
      (hinitializer : Perhaps (Behind (Derives finish .initializer) "=") vs initializer) :
      Derives finish .property (name :: mark ++ us ++ vs)
        { pos := name.pos, name := name.value, type, initializer }
  | arrowInitializer {ts value} (h : Derives finish .arrow ts value) :
      Derives finish .initializer ts (.arrow value)
  | valueInitializer {ts value} (h : Derives finish .expression ts value) :
      Derives finish .initializer ts (.value value)
  | blockArrow {o c sign : Token} {us vs ws params returns body} (hopen : o.value = "(")
      (hparams : Listed (Derives finish .param) us params) (hclose : c.value = ")")
      (hreturns : Perhaps (Behind (Derives finish .typeRef) ":") vs returns)
      (hsign : sign.value = "=>") (hbody : Derives finish .block ws body) :
      Derives finish .arrow (o :: us ++ c :: vs ++ sign :: ws)
        { pos := o.pos, params, returns, body := .block body }
  | valueArrow {o c sign : Token} {us vs ws params returns value} (hopen : o.value = "(")
      (hparams : Listed (Derives finish .param) us params) (hclose : c.value = ")")
      (hreturns : Perhaps (Behind (Derives finish .typeRef) ":") vs returns)
      (hsign : sign.value = "=>") (hvalue : Derives finish .expression ws value) :
      Derives finish .arrow (o :: us ++ c :: vs ++ sign :: ws)
        { pos := o.pos, params, returns, body := .value value }
  | param {name colon : Token} {mark us type} (hname : name.kind = .identifier)
      (hmark : Mark ["?"] mark) (hcolon : colon.value = ":")
      (htype : Derives finish .typeRef us type) :
      Derives finish .param (name :: mark ++ colon :: us)
        { pos := name.pos, name := name.value, type }
  | typeRef {name : Token} {us vs arguments dimensions} (hname : name.kind = .identifier)
      (harguments : Perhaps (Enclosed (Separated (Derives finish .typeRef)) "<" ">") us arguments)
      (hdimensions : Brackets vs dimensions) :
      Derives finish .typeRef (name :: us ++ vs)
        (.mk name.pos name.value (arguments.getD []) dimensions)
  | block {o c : Token} {us statements} (hopen : o.value = "\x7b")
      (h : InRow (Derives finish .statement) us statements) (hclose : c.value = "\x7d") :
      Derives finish .block (o :: us ++ [c]) { pos := o.pos, statements }
  | blockStatement {ts} {body : Block} (h : Derives finish .block ts body) :
      Derives finish .statement ts (.block body.pos body.statements)
  | declarationStatement {ts s} (h : Derives finish .declaration ts s) :
      Derives finish .statement ts s
  | conditionalStatement {ts s} (h : Derives finish .conditional ts s) :
      Derives finish .statement ts s
  | returnStatement {ts s} (h : Derives finish .returns ts s) : Derives finish .statement ts s
  | throwStatement {ts s} (h : Derives finish .throws ts s) : Derives finish .statement ts s
  | exprStatement {ts s} (h : Derives finish .exprStatement ts s) : Derives finish .statement ts s
  | emptyStatement {t : Token} (h : t.value = ";") : Derives finish .statement [t] (.empty t.pos)
  | declaration {t name close : Token} {us vs kind type value} (hword : t.value = kind.word)
      (hname : name.kind = .identifier)
      (htype : Perhaps (Behind (Derives finish .typeRef) ":") us type)
      (hvalue : Perhaps (Behind (Derives finish .expression) "=") vs value)
      (hclose : close.value = ";") :
      Derives finish .declaration (t :: name :: us ++ vs ++ [close])
        (.declaration t.pos kind name.value type value)
  | ifThen {t : Token} {us vs condition yes} (hword : t.value = "if")
      (hcondition : Enclosed (Derives finish .expression) "(" ")" us condition)
      (hyes : Derives finish .statement vs yes) :
      Derives finish .conditional (t :: us ++ vs) (.ifThen t.pos condition yes)
  | ifElse {t other : Token} {us vs ws condition yes no} (hword : t.value = "if")
      (hcondition : Enclosed (Derives finish .expression) "(" ")" us condition)
      (hyes : Derives finish .statement vs yes) (helse : other.value = "else")
      (hno : Derives finish .statement ws no) :
      Derives finish .conditional (t :: us ++ vs ++ other :: ws) (.ifElse t.pos condition yes no)
  | returns {t close : Token} {us value} (hword : t.value = "return")
      (hvalue : Perhaps (Derives finish .expression) us value) (hclose : close.value = ";") :
      Derives finish .returns (t :: us ++ [close]) (.returns t.pos value)
  | throws {t close : Token} {us value} (hword : t.value = "throw")
      (hvalue : Derives finish .expression us value) (hclose : close.value = ";") :
      Derives finish .throws (t :: us ++ [close]) (.throw t.pos value)
  | evaluate {close : Token} {us value} (hvalue : Derives finish .expression us value)
      (hclose : close.value = ";") :
      Derives finish .exprStatement (us ++ [close])
        (.evaluate (startOf finish (us ++ [close])) value)
  | assign {t close : Token} {us vs target assignment value}
      (htarget : Derives finish .expression us target) (hword : t.value = assignment.symbol)
      (hvalue : Derives finish .expression vs value) (hclose : close.value = ";") :
      Derives finish .exprStatement (us ++ t :: vs ++ [close])
        (.assign (startOf finish (us ++ t :: vs ++ [close])) target assignment value)
  | plainExpression {ts value} (h : Derives finish .chain ts value) :
      Derives finish .expression ts (.chain (startOf finish ts) value)
  | choiceExpression {t colon : Token} {us vs ws condition yes no}
      (hcondition : Derives finish .chain us condition) (hword : t.value = "?")
      (hyes : Derives finish .expression vs yes) (hcolon : colon.value = ":")
      (hno : Derives finish .expression ws no) :
      Derives finish .expression (us ++ t :: vs ++ colon :: ws)
        (.choice (startOf finish (us ++ t :: vs ++ colon :: ws)) condition yes no)
  | chain {us vs first links} (hfirst : Derives finish .operand us first)
      (hlinks : InRow (Derives finish .link) vs links) :
      Derives finish .chain (us ++ vs) (.mk (startOf finish (us ++ vs)) first links)
  | link {t : Token} {us operator operand} (hword : t.value = Operator.symbol operator)
      (hoperand : Derives finish .operand us operand) :
      Derives finish .link (t :: us) (.mk t.pos operator operand)
  | operand {us vs signs value} (hsigns : InRow (Worded Sign.symbol) us signs)
      (hvalue : Derives finish .postfixed vs value) :
      Derives finish .operand (us ++ vs) (.mk (startOf finish (us ++ vs)) signs value)
  | postfixed {us vs primary suffixes} (hprimary : Derives finish .primary us primary)
      (hsuffixes : InRow (Derives finish .suffix) vs suffixes) :
      Derives finish .postfixed (us ++ vs) (.mk (startOf finish (us ++ vs)) primary suffixes)
  | memberSuffix {t name : Token} (hword : t.value = ".") (hname : name.kind = .identifier) :
      Derives finish .suffix [t, name] (.member t.pos name.value)
  | indexSuffix {o c : Token} {us value} (hopen : o.value = "[")
      (hvalue : Derives finish .expression us value) (hclose : c.value = "]") :
      Derives finish .suffix (o :: us ++ [c]) (.index o.pos value)
  | callSuffix {ts arguments} (h : Derives finish .arguments ts arguments) :
      Derives finish .suffix ts (.call (startOf finish ts) arguments)
  | arguments {o c : Token} {us values} (hopen : o.value = "(")
      (hvalues : Listed (Derives finish .expression) us values) (hclose : c.value = ")") :
      Derives finish .arguments (o :: us ++ [c]) (.mk o.pos values)
  | creationPrimary {ts p} (h : Derives finish .creation ts p) : Derives finish .primary ts p
  | objectPrimary {ts p} (h : Derives finish .objectLiteral ts p) : Derives finish .primary ts p
  | number {t : Token} (h : t.kind = .number) :
      Derives finish .primary [t] (.number t.pos t.value)
  | text {t : Token} (h : t.kind = .text) : Derives finish .primary [t] (.text t.pos t.value)
  | truth {t : Token} {value : Bool} (h : t.value = truthWord value) :
      Derives finish .primary [t] (.truth t.pos value)
  | this {t : Token} (h : t.value = "this") : Derives finish .primary [t] (.this t.pos)
  | name {t : Token} (h : t.kind = .identifier) :
      Derives finish .primary [t] (.name t.pos t.value)
  | parens {o c : Token} {us inner} (hopen : o.value = "(")
      (h : Derives finish .expression us inner) (hclose : c.value = ")") :
      Derives finish .primary (o :: us ++ [c]) (.parens o.pos inner)
  | creation {t name : Token} {us arguments} (hword : t.value = "new")
      (hname : name.kind = .identifier) (harguments : Derives finish .arguments us arguments) :
      Derives finish .creation (t :: name :: us) (.creation t.pos name.value arguments)
  | objectLiteral {o c : Token} {us fields} (hopen : o.value = "\x7b")
      (hfields : Listed (Derives finish .objectField) us fields) (hclose : c.value = "\x7d") :
      Derives finish .objectLiteral (o :: us ++ [c]) (.object o.pos fields)
  | valuedField {key colon : Token} {us value} (hkey : key.kind = .identifier ∨ key.kind = .text)
      (hcolon : colon.value = ":") (hvalue : Derives finish .expression us value) :
      Derives finish .objectField (key :: colon :: us) (.valued key.pos key.value value)
  | shorthandField {key : Token} (hkey : key.kind = .identifier ∨ key.kind = .text) :
      Derives finish .objectField [key] (.shorthand key.pos key.value)

/-! ## What the grammars of the productions match -/

/-- A file may be without tokens. -/
def Nonterminal.isProgram : {α : Type} → Nonterminal α → Bool
  | _, .program => true
  | _, _ => false

/-- What a production reads: tokens that it derives; a program may be without any. -/
def Reads (finish : Position) {α : Type} (name : Nonterminal α) (ts : List Token)
    (next : Position) (a : α) : Prop :=
  (name.isProgram = false → ts ≠ []) ∧ ((ts = [] → next = finish) → Derives finish name ts a)

section Matches

variable {finish next : Position} {ts : List Token} {α β : Type}

/-- Every production but that of files takes a token at least. -/
theorem reads_iff {name : Nonterminal α} {a : α} (h : name.isProgram = false) :
    Reads finish name ts next a ↔ ts ≠ [] ∧ Derives finish name ts a := by
  constructor
  · rintro ⟨hne, hderives⟩
    exact ⟨hne h, hderives fun hnil => absurd hnil (hne h)⟩
  · rintro ⟨hne, hderives⟩
    exact ⟨fun _ => hne, fun _ => hderives⟩

/-- What a grammar of the language matches. -/
abbrev Fits (finish : Position) (g : Rule α) (ts : List Token) (next : Position) (a : α) : Prop :=
  g.Matches (Reads finish) ts next a

@[simp] theorem fits_node {name : Nonterminal α} {a : α} :
    Fits finish (.node name) ts next a ↔ Reads finish name ts next a :=
  .rfl

/-- What a grammar builds is made of a value that it matches. -/
theorem fits_map {g : Rule α} {f : α → β} {b : β} :
    Fits finish (.map f g) ts next b ↔ ∃ a, Fits finish g ts next a ∧ f a = b :=
  .rfl

/-- The tokens of two grammars in a row fall into those of each; the first ends where the second
starts. -/
theorem fits_seq {g : Rule α} {g' : Rule β} {p : α × β} :
    Fits finish (.seq g g') ts next p ↔
      ∃ us vs, ts = us ++ vs ∧ Fits finish g us (startOf next vs) p.1 ∧
        Fits finish g' vs next p.2 :=
  .rfl

/-- An optional grammar matches no token, or what it is an option of. -/
theorem fits_opt {g : Rule α} {o : Option α} :
    Fits finish (.opt g) ts next o ↔
      (ts = [] ∧ o = none) ∨ ∃ a, Fits finish g ts next a ∧ o = some a :=
  .rfl

theorem fits_star {g : Rule α} {as : List α} :
    Fits finish (.star g) ts next as ↔ Repeated (Fits finish g) ts next as :=
  .rfl

/-- A word is one token of its value, of whatever class. -/
theorem fits_word {v : String} {u : Unit} :
    Fits finish (word v) ts next u ↔ ∃ t, ts = [t] ∧ t.value = v := by
  simp only [Fits, word, Grammar.Matches]
  refine exists_congr fun t => and_congr_right fun _ => ?_
  split <;> simp_all

/-- One of several words is one token that the table knows. -/
theorem fits_oneOf {table : List (String × α)} {a : α} :
    Fits finish (oneOf table) ts next a ↔ ∃ t, ts = [t] ∧ table.lookup t.value = some a :=
  .rfl

/-- A class of tokens matches one token of it, which stands for its value. -/
theorem fits_anyOf {kind : TokenKind} {value : String} :
    Fits finish (anyOf kind) ts next value ↔ OfKind kind ts value := by
  simp only [Fits, anyOf, Grammar.Matches]
  constructor
  · rintro ⟨t, rfl, h⟩
    split at h
    · rename_i hkind
      cases h
      exact .mk hkind
    · cases h
  · rintro ⟨hkind⟩
    exact ⟨_, rfl, if_pos hkind⟩

/-- Of the first grammar only that it matches is kept. -/
theorem fits_after {g : Rule α} {g' : Rule β} {b : β} :
    Fits finish (after g g') ts next b ↔
      ∃ us vs, ts = us ++ vs ∧ (∃ a, Fits finish g us (startOf next vs) a) ∧
        Fits finish g' vs next b := by
  rw [after, fits_map]
  constructor
  · rintro ⟨p, ⟨us, vs, hts, hg, hg'⟩, rfl⟩
    exact ⟨us, vs, hts, ⟨_, hg⟩, hg'⟩
  · rintro ⟨us, vs, hts, ⟨a, hg⟩, hg'⟩
    exact ⟨(a, b), ⟨us, vs, hts, hg, hg'⟩, rfl⟩

/-- Of the second grammar only that it matches is kept. -/
theorem fits_before {g : Rule α} {g' : Rule β} {a : α} :
    Fits finish (before g g') ts next a ↔
      ∃ us vs, ts = us ++ vs ∧ Fits finish g us (startOf next vs) a ∧
        ∃ b, Fits finish g' vs next b := by
  rw [before, fits_map]
  constructor
  · rintro ⟨p, ⟨us, vs, hts, hg, hg'⟩, rfl⟩
    exact ⟨us, vs, hts, hg, _, hg'⟩
  · rintro ⟨us, vs, hts, hg, b, hg'⟩
    exact ⟨(a, b), ⟨us, vs, hts, hg, hg'⟩, rfl⟩

/-- **A choice matches what one of its alternatives matches**: the order in which they are tried is
forgotten. -/
theorem fits_firstOf {gs : List (Rule α)} {a : α} :
    Fits finish (firstOf gs) ts next a ↔ ∃ g ∈ gs, Fits finish g ts next a := by
  rw [firstOf]
  change (gs.foldr Alternatives.cons .none).Matches (Reads finish) ts next a ↔ _
  induction gs with
  | nil => simp [Alternatives.Matches]
  | cons g gs ih => simp [Alternatives.Matches, ih]

/-! ### Shapes that recur -/

/-- A grammar of the language matches nothing but what a relation describes. -/
def Means (finish : Position) (g : Rule α) (R : List Token → α → Prop) : Prop :=
  ∀ ts next a, Fits finish g ts next a → R ts a

variable {g : Rule α} {R : List Token → α → Prop}

/-- A production that is named stands for what it derives. -/
theorem node_means {name : Nonterminal α} (h : name.isProgram = false) :
    Means finish (.node name) (Derives finish name) :=
  fun _ _ _ hfits => ((reads_iff h).1 hfits).2

theorem anyOf_means (kind : TokenKind) : Means finish (anyOf kind) (OfKind kind) :=
  fun _ _ _ h => fits_anyOf.1 h

theorem opt_means (hg : Means finish g R) : Means finish (.opt g) (Perhaps R) := by
  rintro ts next o (⟨rfl, rfl⟩ | ⟨a, h, rfl⟩)
  · exact .none
  · exact .some (hg _ _ _ h)

theorem star_means (hg : Means finish g R) : Means finish (.star g) (InRow R) := by
  intro ts next as h
  induction h with
  | nil => exact .nil
  | cons head _ ih => exact .cons (hg _ _ _ head) ih

/-- A grammar behind a word stands for a row whose first token is that word. -/
theorem behind_means {v : String} (hg : Means finish g R) :
    Means finish (after (word v) g) (Behind R v) := by
  intro ts next a h
  obtain ⟨_, us, rfl, ⟨_, hfirst⟩, hrest⟩ := fits_after.1 h
  obtain ⟨t, rfl, hword⟩ := fits_word.1 hfirst
  exact .mk hword (hg _ _ _ hrest)

/-- A grammar between two words stands for a row that starts and ends with them. -/
theorem enclosed_means {front back : String} (hg : Means finish g R) :
    Means finish (after (word front) (before g (word back))) (Enclosed R front back) := by
  intro ts next a h
  obtain ⟨_, _, rfl, ⟨_, hfirst⟩, hrest⟩ := fits_after.1 h
  obtain ⟨us, _, rfl, hbody, _, hlast⟩ := fits_before.1 hrest
  obtain ⟨o, rfl, hfront⟩ := fits_word.1 hfirst
  obtain ⟨c, rfl, hback⟩ := fits_word.1 hlast
  exact .mk hfront (hg _ _ _ hbody) hback

/-- Items that are read one by one, each further one behind a comma, are a row with commas between
its pieces. -/
theorem commaList_means (hg : Means finish g R) : Means finish (commaList g) (Separated R) := by
  intro ts next as h
  obtain ⟨⟨a, as⟩, ⟨us, vs, rfl, hhead, htail⟩, rfl⟩ := fits_map.1 h
  have hrow := star_means (behind_means (v := ",") hg) vs next as htail
  have hfirst := hg _ _ _ hhead
  clear h hhead htail
  induction hrow generalizing us a with
  | nil => simpa using Separated.one hfirst
  | cons head _ ih =>
    obtain ⟨hcomma, hnext⟩ := head
    simpa using Separated.cons hfirst hcomma (ih _ _ hnext)

/-- A word that may be missing. -/
theorem mark_of_word {value : String} {o : Option Unit}
    (h : Fits finish (.opt (word value)) ts next o) : Mark [value] ts := by
  rcases fits_opt.1 h with ⟨rfl, -⟩ | ⟨_, hfits, -⟩
  · exact .none
  · obtain ⟨t, rfl, hword⟩ := fits_word.1 hfits
    exact .some (by simp [hword])

/-- A list that may be empty, or end in a comma, is read as such. -/
theorem looseList_means (hg : Means finish g R) : Means finish (looseList g) (Listed R) := by
  intro ts next as h
  obtain ⟨o, hlist, rfl⟩ := fits_map.1 h
  rcases fits_opt.1 hlist with ⟨rfl, rfl⟩ | ⟨as, hitems, rfl⟩
  · exact .nil
  · obtain ⟨us, vs, rfl, hitems, _, hcomma⟩ := fits_before.1 hitems
    exact .some (commaList_means hg _ _ _ hitems) (mark_of_word hcomma)

/-- A word that a table gives a meaning is one of its words. -/
theorem mem_keys_of_lookup {table : List (String × α)} {value : String} {a : α}
    (h : table.lookup value = some a) : value ∈ table.map Prod.fst := by
  induction table with
  | nil => cases h
  | cons entry table ih =>
    rw [List.lookup_cons] at h
    split at h
    · rename_i heq
      simp [beq_iff_eq.1 heq]
    · exact List.mem_cons_of_mem _ (ih h)

/-- An optional word without a meaning is a mark. -/
theorem mark_of_oneOf {table : List (String × Unit)} {o : Option Unit}
    (h : Fits finish (.opt (oneOf table)) ts next o) : Mark (table.map Prod.fst) ts := by
  rcases fits_opt.1 h with ⟨rfl, -⟩ | ⟨_, hfits, -⟩
  · exact .none
  · obtain ⟨t, rfl, hword⟩ := fits_oneOf.1 hfits
    exact .some (mem_keys_of_lookup hword)

/-- The words of a table are those of its values. -/
theorem word_of_lookup {table : List (String × α)} {w : α → String}
    (htable : ∀ entry ∈ table, entry.1 = w entry.2) {value : String} {a : α}
    (h : table.lookup value = some a) : (value, a) ∈ table ∧ value = w a := by
  induction table with
  | nil => cases h
  | cons entry table ih =>
    rw [List.lookup_cons] at h
    split at h
    · rename_i heq
      cases h
      have hvalue : value = entry.1 := beq_iff_eq.1 heq
      exact ⟨by simp [hvalue], hvalue.trans (htable _ List.mem_cons_self)⟩
    · obtain ⟨hmem, hword⟩ := ih (fun entry he => htable entry (List.mem_cons_of_mem _ he)) h
      exact ⟨List.mem_cons_of_mem _ hmem, hword⟩

/-- A table that spells each of its values stands for the words of the values. -/
theorem oneOf_means {table : List (String × α)} {word : α → String}
    (htable : ∀ entry ∈ table, entry.1 = word entry.2) :
    Means finish (oneOf table) (Worded word) := by
  intro ts next a h
  obtain ⟨t, rfl, hlookup⟩ := fits_oneOf.1 h
  exact .mk (word_of_lookup htable hlookup).2

/-! ### The productions -/

theorem typeAfterColon_means :
    Means finish typeAfterColon (Perhaps (Behind (Derives finish .typeRef) ":")) :=
  opt_means (behind_means (node_means rfl))

section Productions

/-- A file is a row of elements. -/
theorem program_derives {build : Position → Program}
    (h : Fits finish (rule .program) ts next build) :
    Derives finish .program ts (build (startOf finish ts)) := by
  obtain ⟨elements, helements, rfl⟩ := fits_map.1 h
  exact .program (star_means (node_means rfl) _ _ _ helements)

/-- An element is exported if `export` stands in front of it, with or without a `default`. -/
theorem exported_of_fits {mark : Option Unit}
    (h : Fits finish (.opt (before (word "export") (.opt (word "default")))) ts next mark) :
    Exported ts mark.isSome := by
  rcases fits_opt.1 h with ⟨rfl, rfl⟩ | ⟨_, hmark, rfl⟩
  · exact .no
  · obtain ⟨_, us, rfl, hexport, _, hdefault⟩ := fits_before.1 hmark
    obtain ⟨t, rfl, hword⟩ := fits_word.1 hexport
    exact .yes hword (mark_of_word hdefault)

/-- An element is an import, or a declaration that may be exported. -/
theorem element_derives {build : Position → Element}
    (h : Fits finish (rule .element) ts next build) :
    Derives finish .element ts (build (startOf finish ts)) := by
  replace h := fits_firstOf.1 h
  simp only [fits_firstOf, fits_map, fits_seq, Prod.exists, List.mem_cons,
    List.not_mem_nil, or_false, exists_eq_or_imp, exists_eq_left] at h
  rcases h with ⟨value, h, rfl⟩ | ⟨mark, body, ⟨us, vs, rfl, hmark, hbody⟩, rfl⟩
  · exact .importElement (node_means rfl _ _ _ h)
  · have hexport := exported_of_fits hmark
    rcases hbody with ⟨value, h, rfl⟩ | ⟨value, h, rfl⟩ | ⟨value, h, rfl⟩
    · exact .interfaceElement hexport (node_means rfl _ _ _ h)
    · exact .classElement hexport (node_means rfl _ _ _ h)
    · exact .constantElement hexport (node_means rfl _ _ _ h)

/-- What an import takes: names in braces, everything under one name, or one name. -/
theorem taken_of_fits {clause : ImportClause}
    (h : Fits finish
      (firstOf
        [.map .names (after (word "\x7b") (before (looseList identifier) (word "\x7d"))),
          .map .everything (after (word "*") (after (word "as") identifier)),
          .map .whole identifier]) ts next clause) :
    Taken ts clause := by
  simp only [fits_firstOf, fits_map, List.mem_cons, List.not_mem_nil, or_false, exists_eq_or_imp,
    exists_eq_left] at h
  rcases h with ⟨names, h, rfl⟩ | ⟨name, h, rfl⟩ | ⟨name, h, rfl⟩
  · exact .names (enclosed_means (looseList_means (anyOf_means _)) _ _ _ h)
  · simp only [fits_after, fits_word] at h
    obtain ⟨_, _, rfl, ⟨_, star, rfl, hstar⟩, _, _, rfl, ⟨_, as, rfl, has⟩, hident⟩ := h
    obtain ⟨hname⟩ := fits_anyOf.1 hident
    exact .everything hstar has hname
  · obtain ⟨hname⟩ := fits_anyOf.1 h
    exact .whole hname

/-- An import names what it takes and the text of a module; a semicolon may follow. -/
theorem imports_derives {build : Position → Import}
    (h : Fits finish (rule .imports) ts next build) :
    Derives finish .imports ts (build (startOf finish ts)) := by
  replace h := fits_map.1 h
  simp only [fits_seq, fits_after, fits_before, fits_word, Prod.exists] at h
  obtain ⟨clause, source, ⟨_, _, rfl, ⟨_, t, rfl, hword⟩, us, _, rfl, hclause, _, _, rfl,
    ⟨_, from_, rfl, hfrom⟩, _, close, rfl, htext, _, hclose⟩, rfl⟩ := h
  obtain ⟨hsource⟩ := fits_anyOf.1 htext
  simpa using Derives.imports hword (taken_of_fits hclause) hfrom hsource (mark_of_word hclose)

/-- An interface is a name and fields in braces. -/
theorem interfaceDecl_derives {build : Position → InterfaceDecl}
    (h : Fits finish (rule .interfaceDecl) ts next build) :
    Derives finish .interfaceDecl ts (build (startOf finish ts)) := by
  replace h := fits_map.1 h
  simp only [fits_seq, fits_after (g := word "interface"), fits_word, Prod.exists]
    at h
  obtain ⟨name, fields, ⟨_, _, rfl, ⟨_, t, rfl, hword⟩, _, us, rfl, hident, hfields⟩, rfl⟩ := h
  obtain ⟨hname⟩ := fits_anyOf.1 hident
  exact .interfaceDecl hword hname (enclosed_means (star_means (node_means rfl)) _ _ _ hfields)

/-- A field is a name and a type; a question mark and a separator are passed over. -/
theorem interfaceField_derives {build : Position → InterfaceField}
    (h : Fits finish (rule .interfaceField) ts next build) :
    Derives finish .interfaceField ts (build (startOf finish ts)) := by
  replace h := fits_map.1 h
  simp only [fits_seq, fits_after, fits_before, fits_word, Prod.exists] at h
  obtain ⟨name, type, ⟨_, _, rfl, ⟨_, mark, rfl, hident, _, hmark⟩, _, _, rfl,
    ⟨_, colon, rfl, hcolon⟩, us, close, rfl, htype, _, hclose⟩, rfl⟩ := h
  obtain ⟨hname⟩ := fits_anyOf.1 hident
  simpa using Derives.interfaceField hname (mark_of_word hmark) hcolon
    (node_means rfl _ _ _ htype) (mark_of_oneOf hclose)

/-- A constant is declared by `const` or `let`, with a value. -/
theorem constant_derives {build : Position → ConstantDecl}
    (h : Fits finish (rule .constant) ts next build) :
    Derives finish .constant ts (build (startOf finish ts)) := by
  replace h := fits_map.1 h
  simp only [fits_seq, fits_after, fits_before, fits_word, fits_oneOf, Prod.exists]
    at h
  obtain ⟨kind, name, type, value, ⟨_, _, rfl, ⟨t, rfl, hlookup⟩, _, _, rfl, hident, us, _, rfl,
    htype, _, _, rfl, ⟨_, equals, rfl, hequals⟩, vs, close, rfl, hvalue, _, hclose⟩, rfl⟩ := h
  obtain ⟨hname⟩ := fits_anyOf.1 hident
  obtain ⟨hmem, hword⟩ := word_of_lookup (w := DeclarationKind.word) (by decide) hlookup
  have hkind : kind ≠ .varWord := by
    rintro rfl
    simp [constantWords] at hmem
  simpa using Derives.constant hkind hword hname (typeAfterColon_means _ _ _ htype) hequals
    (node_means rfl _ _ _ hvalue) (mark_of_word hclose)

/-- A class may extend several bases; without `extends` it has none. -/
theorem classDecl_derives {build : Position → ClassDecl}
    (h : Fits finish (rule .classDecl) ts next build) :
    Derives finish .classDecl ts (build (startOf finish ts)) := by
  replace h := fits_map.1 h
  simp only [fits_seq, fits_after (g := word "class"), fits_word, Prod.exists] at h
  obtain ⟨name, bases, members, ⟨_, _, rfl, ⟨_, t, rfl, hword⟩, _, _, rfl, hident, us, vs, rfl,
    hbases, hmembers⟩, rfl⟩ := h
  obtain ⟨hname⟩ := fits_anyOf.1 hident
  simpa using Derives.classDecl hword hname
    (opt_means (behind_means (commaList_means (anyOf_means _))) _ _ _ hbases)
    (enclosed_means (star_means (node_means rfl)) _ _ _ hmembers)

/-- A member has any number of modifiers in front of its body. -/
theorem classMember_derives {build : Position → ClassMember}
    (h : Fits finish (rule .classMember) ts next build) :
    Derives finish .classMember ts (build (startOf finish ts)) := by
  replace h := fits_map.1 h
  simp only [fits_map, fits_seq, fits_before, fits_firstOf, Prod.exists, List.mem_cons,
    List.not_mem_nil, or_false, exists_eq_or_imp, exists_eq_left] at h
  obtain ⟨modifiers, body, ⟨us, _, rfl, hwords, vs, close, rfl, hbody, _, hclose⟩, rfl⟩ := h
  have hmodifiers : InRow (Worded Editor.modifierWord) us modifiers :=
    star_means (oneOf_means (by decide)) _ _ _ hwords
  have hmark := mark_of_word hclose
  rw [← List.append_assoc]
  rcases hbody with ⟨value, h, rfl⟩ | ⟨value, h, rfl⟩ | ⟨value, h, rfl⟩
  · exact .constructorMember hmodifiers (node_means rfl _ _ _ h) hmark
  · exact .methodMember hmodifiers (node_means rfl _ _ _ h) hmark
  · exact .propertyMember hmodifiers (node_means rfl _ _ _ h) hmark

/-- A constructor has no name and no type. -/
theorem constructor_derives {build : Position → Constructor}
    (h : Fits finish (rule .constructor) ts next build) :
    Derives finish .constructor ts (build (startOf finish ts)) := by
  replace h := fits_map.1 h
  simp only [params, fits_seq, fits_after, fits_before, fits_word, Prod.exists] at h
  obtain ⟨params, body, ⟨_, _, rfl, ⟨_, t, rfl, hword⟩, _, _, rfl, ⟨_, o, rfl, hopen⟩, _, vs, rfl,
    ⟨us, _, rfl, hparams, _, c, rfl, hclose⟩, hbody⟩, rfl⟩ := h
  simpa using Derives.constructor hword
    (.mk hopen (looseList_means (node_means rfl) _ _ _ hparams) hclose) (node_means rfl _ _ _ hbody)

/-- A method has parameters, perhaps a type, and a block. -/
theorem method_derives {build : Position → Method} (h : Fits finish (rule .method) ts next build) :
    Derives finish .method ts (build (startOf finish ts)) := by
  replace h := fits_map.1 h
  simp only [params, fits_seq, fits_before, fits_word, Prod.exists] at h
  obtain ⟨name, params, returns, body, ⟨_, _, rfl, ⟨_, _, rfl, hident, _, o, rfl, hopen⟩, _, _, rfl,
    ⟨us, _, rfl, hparams, _, c, rfl, hclose⟩, vs, ws, rfl, hreturns, hbody⟩, rfl⟩ := h
  obtain ⟨hname⟩ := fits_anyOf.1 hident
  simpa using Derives.method hname
    (.mk hopen (looseList_means (node_means rfl) _ _ _ hparams) hclose)
    (typeAfterColon_means _ _ _ hreturns) (node_means rfl _ _ _ hbody)

/-- A property may have a type and an initializer. -/
theorem property_derives {build : Position → Property}
    (h : Fits finish (rule .property) ts next build) :
    Derives finish .property ts (build (startOf finish ts)) := by
  replace h := fits_map.1 h
  simp only [fits_seq, fits_before, Prod.exists] at h
  obtain ⟨name, type, initializer, ⟨_, _, rfl, ⟨_, mark, rfl, hident, _, hmark⟩, us, vs, rfl,
    htype, hinitializer⟩, rfl⟩ := h
  obtain ⟨hname⟩ := fits_anyOf.1 hident
  simpa using Derives.property hname (mark_of_oneOf hmark) (typeAfterColon_means _ _ _ htype)
    (opt_means (behind_means (node_means rfl)) _ _ _ hinitializer)

/-- An initializer is an arrow or a value. -/
theorem initializer_derives {build : Position → Initializer}
    (h : Fits finish (rule .initializer) ts next build) :
    Derives finish .initializer ts (build (startOf finish ts)) := by
  replace h := fits_map.1 h
  simp only [fits_map, fits_firstOf, List.mem_cons, List.not_mem_nil, or_false,
    exists_eq_or_imp, exists_eq_left] at h
  obtain ⟨_, ⟨value, h, rfl⟩ | ⟨value, h, rfl⟩, rfl⟩ := h
  · exact .arrowInitializer (node_means rfl _ _ _ h)
  · exact .valueInitializer (node_means rfl _ _ _ h)

/-- The body of an arrow is a block or one expression. -/
theorem arrow_derives {build : Position → Arrow} (h : Fits finish (rule .arrow) ts next build) :
    Derives finish .arrow ts (build (startOf finish ts)) := by
  replace h := fits_map.1 h
  simp only [params, fits_map, fits_seq, fits_after, fits_before, fits_word, fits_firstOf,
    Prod.exists, List.mem_cons, List.not_mem_nil, or_false, exists_eq_or_imp, exists_eq_left] at h
  obtain ⟨params, returns, body, ⟨_, _, rfl, ⟨_, o, rfl, hopen⟩, _, _, rfl,
    ⟨us, _, rfl, hparams, _, c, rfl, hclose⟩, vs, _, rfl, hreturns, _, ws, rfl,
    ⟨_, sign, rfl, hsign⟩, hbody⟩, rfl⟩ := h
  have hparams' := looseList_means (node_means rfl) _ _ _ hparams
  have hreturns' := typeAfterColon_means _ _ _ hreturns
  rcases hbody with ⟨body, h, rfl⟩ | ⟨value, h, rfl⟩
  · simpa using Derives.blockArrow hopen hparams' hclose hreturns' hsign (node_means rfl _ _ _ h)
  · simpa using Derives.valueArrow hopen hparams' hclose hreturns' hsign (node_means rfl _ _ _ h)

theorem param_derives {build : Position → Param} (h : Fits finish (rule .param) ts next build) :
    Derives finish .param ts (build (startOf finish ts)) := by
  replace h := fits_map.1 h
  simp only [fits_seq, fits_after, fits_before, fits_word, Prod.exists] at h
  obtain ⟨name, type, ⟨_, _, rfl, ⟨_, mark, rfl, hident, _, hmark⟩, _, us, rfl,
    ⟨_, colon, rfl, hcolon⟩, htype⟩, rfl⟩ := h
  obtain ⟨hname⟩ := fits_anyOf.1 hident
  simpa using Derives.param hname (mark_of_word hmark) hcolon (node_means rfl _ _ _ htype)

/-- Pairs of brackets are counted. -/
theorem brackets_of_fits {pairs : List (Unit × Unit)}
    (h : Fits finish (.star (.seq (word "[") (word "]"))) ts next pairs) :
    Brackets ts pairs.length := by
  induction fits_star.1 h with
  | nil => exact .zero
  | cons head _ ih =>
    simp only [fits_seq, fits_word] at head
    obtain ⟨_, _, rfl, ⟨o, rfl, hfront⟩, c, rfl, hback⟩ := head
    exact .succ hfront hback (ih (by assumption))

/-- A type is a name with perhaps arguments, and a bracket pair for each dimension. -/
theorem typeRef_derives {build : Position → TypeRef}
    (h : Fits finish (rule .typeRef) ts next build) :
    Derives finish .typeRef ts (build (startOf finish ts)) := by
  replace h := fits_map.1 h
  simp only [fits_seq, Prod.exists] at h
  obtain ⟨name, arguments, pairs, ⟨_, _, rfl, hident, us, vs, rfl, harguments, hpairs⟩, rfl⟩ := h
  obtain ⟨hname⟩ := fits_anyOf.1 hident
  simpa using Derives.typeRef hname
    (opt_means (enclosed_means (commaList_means (node_means rfl))) _ _ _ harguments)
    (brackets_of_fits hpairs)

theorem block_derives {build : Position → Block} (h : Fits finish (rule .block) ts next build) :
    Derives finish .block ts (build (startOf finish ts)) := by
  obtain ⟨statements, hstatements, rfl⟩ := fits_map.1 h
  obtain ⟨hopen, hrow, hclose⟩ := enclosed_means (star_means (node_means rfl)) _ _ _ hstatements
  exact .block hopen hrow hclose

/-- A statement is of one of seven kinds; a semicolon by itself is the empty one. -/
theorem statement_derives {build : Position → Statement}
    (h : Fits finish (rule .statement) ts next build) :
    Derives finish .statement ts (build (startOf finish ts)) := by
  replace h := fits_firstOf.1 h
  simp only [fits_map, fits_word, List.mem_cons, List.not_mem_nil, or_false,
    exists_eq_or_imp, exists_eq_left] at h
  rcases h with ⟨b, h, rfl⟩ | ⟨s, h, rfl⟩ | ⟨s, h, rfl⟩ | ⟨s, h, rfl⟩ | ⟨s, h, rfl⟩ | ⟨s, h, rfl⟩ |
    ⟨_, ⟨t, rfl, hword⟩, rfl⟩
  · exact .blockStatement (node_means rfl _ _ _ h)
  · exact .declarationStatement (node_means rfl _ _ _ h)
  · exact .conditionalStatement (node_means rfl _ _ _ h)
  · exact .returnStatement (node_means rfl _ _ _ h)
  · exact .throwStatement (node_means rfl _ _ _ h)
  · exact .exprStatement (node_means rfl _ _ _ h)
  · exact .emptyStatement hword

/-- A local variable may be declared without a value. -/
theorem declaration_derives {build : Position → Statement}
    (h : Fits finish (rule .declaration) ts next build) :
    Derives finish .declaration ts (build (startOf finish ts)) := by
  replace h := fits_map.1 h
  simp only [fits_seq, fits_before, fits_word, fits_oneOf, Prod.exists] at h
  obtain ⟨kind, name, type, value, ⟨_, _, rfl, ⟨t, rfl, hlookup⟩, _, _, rfl, hident, us, _, rfl,
    htype, vs, _, rfl, hvalue, _, close, rfl, hclose⟩, rfl⟩ := h
  obtain ⟨hname⟩ := fits_anyOf.1 hident
  obtain ⟨-, hword⟩ := word_of_lookup (w := DeclarationKind.word) (by decide) hlookup
  simpa using Derives.declaration hword hname (typeAfterColon_means _ _ _ htype)
    (opt_means (behind_means (node_means rfl)) _ _ _ hvalue) hclose

/-- A conditional has a second branch if `else` follows the first. -/
theorem conditional_derives {build : Position → Statement}
    (h : Fits finish (rule .conditional) ts next build) :
    Derives finish .conditional ts (build (startOf finish ts)) := by
  replace h := fits_map.1 h
  simp only [fits_seq, fits_after, fits_before, fits_word, fits_opt, Prod.exists]
    at h
  obtain ⟨condition, yes, no, ⟨_, _, rfl, ⟨_, t, rfl, hword⟩, _, _, rfl, ⟨_, o, rfl, hopen⟩, _, _,
    rfl, ⟨us, _, rfl, hcondition, _, c, rfl, hclose⟩, vs, _, rfl, hyes, hno⟩, rfl⟩ := h
  have hparens := Enclosed.mk hopen (node_means rfl _ _ _ hcondition) hclose
  rcases hno with ⟨rfl, rfl⟩ | ⟨no, ⟨_, ws, rfl, ⟨_, other, rfl, helse⟩, hno⟩, rfl⟩
  · simpa using Derives.ifThen hword hparens (node_means rfl _ _ _ hyes)
  · simpa using Derives.ifElse hword hparens (node_means rfl _ _ _ hyes) helse
      (node_means rfl _ _ _ hno)

theorem returns_derives {build : Position → Statement}
    (h : Fits finish (rule .returns) ts next build) :
    Derives finish .returns ts (build (startOf finish ts)) := by
  replace h := fits_map.1 h
  simp only [fits_after, fits_before, fits_word] at h
  obtain ⟨value, ⟨_, _, rfl, ⟨_, t, rfl, hword⟩, us, _, rfl, hvalue, _, close, rfl, hclose⟩,
    rfl⟩ := h
  exact .returns hword (opt_means (node_means rfl) _ _ _ hvalue) hclose

theorem throws_derives {build : Position → Statement}
    (h : Fits finish (rule .throws) ts next build) :
    Derives finish .throws ts (build (startOf finish ts)) := by
  replace h := fits_map.1 h
  simp only [fits_after, fits_before, fits_word] at h
  obtain ⟨value, ⟨_, _, rfl, ⟨_, t, rfl, hword⟩, us, _, rfl, hvalue, _, close, rfl, hclose⟩,
    rfl⟩ := h
  exact .throws hword (node_means rfl _ _ _ hvalue) hclose

/-- An expression in front of an assignment is its target; otherwise it is evaluated. -/
theorem exprStatement_derives {build : Position → Statement}
    (h : Fits finish (rule .exprStatement) ts next build) :
    Derives finish .exprStatement ts (build (startOf finish ts)) := by
  replace h := fits_map.1 h
  simp only [fits_seq, fits_before, fits_word, fits_oneOf, fits_opt, Prod.exists]
    at h
  obtain ⟨target, change, ⟨us, _, rfl, htarget, _, _, rfl, hchange, _, close, rfl, hclose⟩,
    rfl⟩ := h
  have htarget' := node_means rfl _ _ _ htarget
  rcases hchange with ⟨rfl, rfl⟩ | ⟨assignment, value, ⟨_, vs, rfl, ⟨t, rfl, hlookup⟩, hvalue⟩, rfl⟩
  · simpa using Derives.evaluate htarget' hclose
  · obtain ⟨-, hword⟩ := word_of_lookup (w := Assignment.symbol) (by decide) hlookup
    simpa using Derives.assign htarget' hword (node_means rfl _ _ _ hvalue) hclose

/-- An expression is a chain, or a choice between two expressions after one. -/
theorem expression_derives {build : Position → Expression}
    (h : Fits finish (rule .expression) ts next build) :
    Derives finish .expression ts (build (startOf finish ts)) := by
  replace h := fits_map.1 h
  simp only [fits_seq, fits_after, fits_word, fits_opt, Prod.exists] at h
  obtain ⟨condition, branches, ⟨us, _, rfl, hcondition, hbranches⟩, rfl⟩ := h
  have hcondition' := node_means rfl _ _ _ hcondition
  rcases hbranches with ⟨rfl, rfl⟩ | ⟨yes, no, ⟨_, _, rfl, ⟨_, t, rfl, hword⟩, vs, _, rfl, hyes, _,
    ws, rfl, ⟨_, colon, rfl, hcolon⟩, hno⟩, rfl⟩
  · simpa using Derives.plainExpression hcondition'
  · simpa using Derives.choiceExpression hcondition' hword (node_means rfl _ _ _ hyes) hcolon
      (node_means rfl _ _ _ hno)

/-- A chain is an operand and links behind it. -/
theorem chain_derives {build : Position → Chain} (h : Fits finish (rule .chain) ts next build) :
    Derives finish .chain ts (build (startOf finish ts)) := by
  replace h := fits_map.1 h
  simp only [fits_seq, Prod.exists] at h
  obtain ⟨first, links, ⟨us, vs, rfl, hfirst, hlinks⟩, rfl⟩ := h
  exact .chain (node_means rfl _ _ _ hfirst) (star_means (node_means rfl) _ _ _ hlinks)

theorem link_derives {build : Position → Link} (h : Fits finish (rule .link) ts next build) :
    Derives finish .link ts (build (startOf finish ts)) := by
  replace h := fits_map.1 h
  simp only [fits_seq, fits_oneOf, Prod.exists] at h
  obtain ⟨operator, operand, ⟨_, us, rfl, ⟨t, rfl, hlookup⟩, hoperand⟩, rfl⟩ := h
  obtain ⟨-, hword⟩ := word_of_lookup (w := Operator.symbol) (by decide) hlookup
  exact .link hword (node_means rfl _ _ _ hoperand)

/-- An operand is a row of signs and what they stand in front of. -/
theorem operand_derives {build : Position → Operand}
    (h : Fits finish (rule .operand) ts next build) :
    Derives finish .operand ts (build (startOf finish ts)) := by
  replace h := fits_map.1 h
  simp only [fits_seq, Prod.exists] at h
  obtain ⟨signs, value, ⟨us, vs, rfl, hsigns, hvalue⟩, rfl⟩ := h
  exact .operand (star_means (oneOf_means (by decide)) _ _ _ hsigns) (node_means rfl _ _ _ hvalue)

theorem postfixed_derives {build : Position → Postfix}
    (h : Fits finish (rule .postfixed) ts next build) :
    Derives finish .postfixed ts (build (startOf finish ts)) := by
  replace h := fits_map.1 h
  simp only [fits_seq, Prod.exists] at h
  obtain ⟨primary, suffixes, ⟨us, vs, rfl, hprimary, hsuffixes⟩, rfl⟩ := h
  exact .postfixed (node_means rfl _ _ _ hprimary) (star_means (node_means rfl) _ _ _ hsuffixes)

/-- A step is a member, an index or a call. -/
theorem suffix_derives {build : Position → Suffix} (h : Fits finish (rule .suffix) ts next build) :
    Derives finish .suffix ts (build (startOf finish ts)) := by
  replace h := fits_firstOf.1 h
  simp only [fits_map, List.mem_cons, List.not_mem_nil, or_false,
    exists_eq_or_imp, exists_eq_left] at h
  rcases h with ⟨name, h, rfl⟩ | ⟨value, h, rfl⟩ | ⟨arguments, h, rfl⟩
  · obtain ⟨hword, hident⟩ := behind_means (anyOf_means _) _ _ _ h
    obtain ⟨hname⟩ := hident
    exact .memberSuffix hword hname
  · obtain ⟨hopen, hvalue, hclose⟩ := enclosed_means (node_means rfl) _ _ _ h
    exact .indexSuffix hopen hvalue hclose
  · exact .callSuffix (node_means rfl _ _ _ h)

theorem arguments_derives {build : Position → Arguments}
    (h : Fits finish (rule .arguments) ts next build) :
    Derives finish .arguments ts (build (startOf finish ts)) := by
  obtain ⟨values, hfits, rfl⟩ := fits_map.1 h
  obtain ⟨hopen, hvalues, hclose⟩ := enclosed_means (looseList_means (node_means rfl)) _ _ _ hfits
  exact .arguments hopen hvalues hclose

/-- A primary is of one of eight kinds. -/
theorem primary_derives {build : Position → Primary}
    (h : Fits finish (rule .primary) ts next build) :
    Derives finish .primary ts (build (startOf finish ts)) := by
  replace h := fits_firstOf.1 h
  simp only [fits_map, fits_oneOf, fits_word (v := "this"), List.mem_cons,
    List.not_mem_nil, or_false, exists_eq_or_imp, exists_eq_left] at h
  rcases h with ⟨p, h, rfl⟩ | ⟨p, h, rfl⟩ | ⟨literal, h, rfl⟩ | ⟨value, h, rfl⟩ |
    ⟨value, ⟨t, rfl, hlookup⟩, rfl⟩ | ⟨_, ⟨t, rfl, hword⟩, rfl⟩ | ⟨name, h, rfl⟩ | ⟨inner, h, rfl⟩
  · exact .creationPrimary (node_means rfl _ _ _ h)
  · exact .objectPrimary (node_means rfl _ _ _ h)
  · obtain ⟨hkind⟩ := fits_anyOf.1 h
    exact .number hkind
  · obtain ⟨hkind⟩ := fits_anyOf.1 h
    exact .text hkind
  · exact .truth (word_of_lookup (w := truthWord) (by decide) hlookup).2
  · exact .this hword
  · obtain ⟨hkind⟩ := fits_anyOf.1 h
    exact .name hkind
  · obtain ⟨hopen, hinner, hclose⟩ := enclosed_means (node_means rfl) _ _ _ h
    exact .parens hopen hinner hclose

theorem creation_derives {build : Position → Primary}
    (h : Fits finish (rule .creation) ts next build) :
    Derives finish .creation ts (build (startOf finish ts)) := by
  replace h := fits_map.1 h
  simp only [fits_seq, fits_after, fits_word, Prod.exists] at h
  obtain ⟨name, arguments, ⟨_, _, rfl, ⟨_, t, rfl, hword⟩, _, us, rfl, hident, harguments⟩,
    rfl⟩ := h
  obtain ⟨hname⟩ := fits_anyOf.1 hident
  exact .creation hword hname (node_means rfl _ _ _ harguments)

theorem objectLiteral_derives {build : Position → Primary}
    (h : Fits finish (rule .objectLiteral) ts next build) :
    Derives finish .objectLiteral ts (build (startOf finish ts)) := by
  obtain ⟨fields, hfits, rfl⟩ := fits_map.1 h
  obtain ⟨hopen, hfields, hclose⟩ := enclosed_means (looseList_means (node_means rfl)) _ _ _ hfits
  exact .objectLiteral hopen hfields hclose

/-- A key is an identifier or a text. -/
theorem key_of_fits {key : String}
    (h : Fits finish (firstOf [identifier, anyOf .text]) ts next key) :
    ∃ t, ts = [t] ∧ key = t.value ∧ (t.kind = .identifier ∨ t.kind = .text) := by
  simp only [fits_firstOf, List.mem_cons, List.not_mem_nil, or_false, exists_eq_or_imp,
    exists_eq_left] at h
  rcases h with h | h
  · obtain ⟨hkind⟩ := fits_anyOf.1 h
    exact ⟨_, rfl, rfl, .inl hkind⟩
  · obtain ⟨hkind⟩ := fits_anyOf.1 h
    exact ⟨_, rfl, rfl, .inr hkind⟩

/-- A field without a value is a shorthand for the variable of its name. -/
theorem objectField_derives {build : Position → ObjectField}
    (h : Fits finish (rule .objectField) ts next build) :
    Derives finish .objectField ts (build (startOf finish ts)) := by
  replace h := fits_map.1 h
  simp only [fits_seq, fits_after, fits_word, fits_opt, Prod.exists] at h
  obtain ⟨key, value, ⟨_, _, rfl, hfits, hvalue⟩, rfl⟩ := h
  obtain ⟨t, rfl, rfl, hkey⟩ := key_of_fits hfits
  rcases hvalue with ⟨rfl, rfl⟩ | ⟨value, ⟨_, us, rfl, ⟨_, colon, rfl, hcolon⟩, hvalue⟩, rfl⟩
  · exact .shorthandField hkey
  · exact .valuedField hkey hcolon (node_means rfl _ _ _ hvalue)

end Productions

/-- **What the grammar of a production matches, the production derives.** -/
theorem derives_of_fits {name : Nonterminal α} {build : Position → α}
    (h : Fits finish (rule name) ts next build) :
    Derives finish name ts (build (startOf finish ts)) := by
  cases name with
  | program => exact program_derives h
  | element => exact element_derives h
  | imports => exact imports_derives h
  | interfaceDecl => exact interfaceDecl_derives h
  | interfaceField => exact interfaceField_derives h
  | constant => exact constant_derives h
  | classDecl => exact classDecl_derives h
  | classMember => exact classMember_derives h
  | constructor => exact constructor_derives h
  | method => exact method_derives h
  | property => exact property_derives h
  | initializer => exact initializer_derives h
  | arrow => exact arrow_derives h
  | param => exact param_derives h
  | typeRef => exact typeRef_derives h
  | block => exact block_derives h
  | statement => exact statement_derives h
  | declaration => exact declaration_derives h
  | conditional => exact conditional_derives h
  | returns => exact returns_derives h
  | throws => exact throws_derives h
  | exprStatement => exact exprStatement_derives h
  | expression => exact expression_derives h
  | chain => exact chain_derives h
  | link => exact link_derives h
  | operand => exact operand_derives h
  | postfixed => exact postfixed_derives h
  | suffix => exact suffix_derives h
  | arguments => exact arguments_derives h
  | primary => exact primary_derives h
  | creation => exact creation_derives h
  | objectLiteral => exact objectLiteral_derives h
  | objectField => exact objectField_derives h

/-- The grammar of every production but that of files takes a token, whatever it consists of. -/
theorem rule_takes {name : Nonterminal α} (hname : name.isProgram = false) :
    (rule name).Takes (fun {_} name => name.isProgram = false) := by
  cases name with
  | program => cases hname
  | _ =>
    simp [rule, word, oneOf, anyOf, identifier, after, before, firstOf, commaList, params,
      Grammar.Takes, Alternatives.Takes, Nonterminal.isProgram]

/-- **A production reads what its grammar matches.** -/
theorem reads_of_fits {name : Nonterminal α} {build : Position → α}
    (h : Fits finish (rule name) ts next build) :
    Reads finish name ts next (build (startOf next ts)) := by
  refine ⟨fun hname => (rule name).ne_nil_of_matches (fun _ _ _ _ hne hreads => hreads.1 hne)
    (rule_takes hname) h, fun hnext => ?_⟩
  have hstart : startOf next ts = startOf finish ts := by
    cases ts with
    | nil => exact hnext rfl
    | cons t ts => rfl
  rw [hstart]
  exact derives_of_fits h

end Matches

/-- **A text that is read as a file is derived from the production of files**: all its tokens, in
order, are what the tree stands for. -/
theorem parse_derives {file source : String} {program : Program}
    (h : parse file source = .ok program) :
    ∃ stream, scan file source = .ok stream ∧
      Derives stream.finish .program stream.tokens program := by
  obtain ⟨stream, hscan, hread⟩ := bind_eq_ok.1 h
  have hreads := readAll_eq_ok (P := Reads stream.finish) (fun _ _ _ _ hfits => reads_of_fits hfits)
    hread
  exact ⟨stream, hscan, hreads.2 fun _ => rfl⟩

/-- A file in which parts are tried and given up before others are found: a field as a method, an
assignment as a declaration. -/
def counterText : String :=
  "class C \x7b n = 1; f(): void \x7b this.n -= -1; \x7d \x7d"

/-- The text of a counter is read, and derived. -/
theorem parse_derives_counter :
    ∃ program stream, parse "counter.ts" counterText = .ok program ∧
      scan "counter.ts" counterText = .ok stream ∧
      Derives stream.finish .program stream.tokens program := by
  have hsome : (parse "counter.ts" counterText).toOption.isSome := by decide +kernel
  obtain ⟨program, hprogram⟩ := Option.isSome_iff_exists.1 hsome
  have h := toOption_eq_some.1 hprogram
  obtain ⟨stream, hscan, hderives⟩ := parse_derives h
  exact ⟨program, stream, h, hscan, hderives⟩

end Source

end Covenant
