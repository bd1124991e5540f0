import Covenant.Proofs.Computations
import Covenant.Proofs.Syntax.Pairs

/-!
# Texts in source files

Two source files whose tokens differ only in the values of text literals are read alike, unless one
of these values is a word of the grammar: a production that asks for a word also takes a text
literal of that value, so that `"-"` in front of an operand is a sign.

`Alike` relates the two trees: they differ only in positions, and in the values of texts, keys and
imported modules, which are related. Main statements: the readings of both files fail, or both
succeed with trees alike (`parse_alike`); without the condition on the words this does not hold
(`parse_tells_texts_apart`).
-/

namespace Covenant

namespace Source

/-! ## Trees alike -/

/-- **Trees alike**: they differ only in positions, and in the values of texts, keys and imported
modules; these are in the relation `S`. -/
inductive Alike (S : String → String → Prop) : {α : Type} → α → α → Prop
  | program {p p' : Position} {elements elements' : List Element}
      (helements : List.Forall₂ (Alike S) elements elements') :
      Alike S (Program.mk p elements) (Program.mk p' elements')
  | element {p p' : Position} {exported : Bool} {body body' : Declaration}
      (hbody : Alike S body body') :
      Alike S (Element.mk p exported body) (Element.mk p' exported body')
  | importDeclaration {i i' : Import} (h : Alike S i i') :
      Alike S (Declaration.imports i) (Declaration.imports i')
  | interfaceDeclaration {i i' : InterfaceDecl} (h : Alike S i i') :
      Alike S (Declaration.interfaceDecl i) (Declaration.interfaceDecl i')
  | classDeclaration {c c' : ClassDecl} (h : Alike S c c') :
      Alike S (Declaration.classDecl c) (Declaration.classDecl c')
  | constantDeclaration {c c' : ConstantDecl} (h : Alike S c c') :
      Alike S (Declaration.constant c) (Declaration.constant c')
  | imports {p p' : Position} {clause : ImportClause} {source source' : String}
      (hsource : S source source') :
      Alike S (Import.mk p clause source) (Import.mk p' clause source')
  | interfaceDecl {p p' : Position} {name : String} {fields fields' : List InterfaceField}
      (hfields : List.Forall₂ (Alike S) fields fields') :
      Alike S (InterfaceDecl.mk p name fields) (InterfaceDecl.mk p' name fields')
  | interfaceField {p p' : Position} {name : String} {type type' : TypeRef}
      (htype : Alike S type type') :
      Alike S (InterfaceField.mk p name type) (InterfaceField.mk p' name type')
  | constant {p p' : Position} {kind : DeclarationKind} {name : String}
      {type type' : Option TypeRef} {value value' : Expression}
      (htype : Option.Rel (Alike S) type type') (hvalue : Alike S value value') :
      Alike S (ConstantDecl.mk p kind name type value) (ConstantDecl.mk p' kind name type' value')
  | classDecl {p p' : Position} {name : String} {bases : List String}
      {members members' : List ClassMember} (hmembers : List.Forall₂ (Alike S) members members') :
      Alike S (ClassDecl.mk p name bases members) (ClassDecl.mk p' name bases members')
  | classMember {p p' : Position} {modifiers : List Modifier} {body body' : MemberBody}
      (hbody : Alike S body body') :
      Alike S (ClassMember.mk p modifiers body) (ClassMember.mk p' modifiers body')
  | constructorBody {c c' : Constructor} (h : Alike S c c') :
      Alike S (MemberBody.constructor c) (MemberBody.constructor c')
  | methodBody {m m' : Method} (h : Alike S m m') :
      Alike S (MemberBody.method m) (MemberBody.method m')
  | propertyBody {p p' : Property} (h : Alike S p p') :
      Alike S (MemberBody.property p) (MemberBody.property p')
  | constructor {p p' : Position} {params params' : List Param} {body body' : Block}
      (hparams : List.Forall₂ (Alike S) params params') (hbody : Alike S body body') :
      Alike S (Constructor.mk p params body) (Constructor.mk p' params' body')
  | method {p p' : Position} {name : String} {params params' : List Param}
      {returns returns' : Option TypeRef} {body body' : Block}
      (hparams : List.Forall₂ (Alike S) params params')
      (hreturns : Option.Rel (Alike S) returns returns') (hbody : Alike S body body') :
      Alike S (Method.mk p name params returns body) (Method.mk p' name params' returns' body')
  | property {p p' : Position} {name : String} {type type' : Option TypeRef}
      {initializer initializer' : Option Initializer} (htype : Option.Rel (Alike S) type type')
      (hinitializer : Option.Rel (Alike S) initializer initializer') :
      Alike S (Property.mk p name type initializer) (Property.mk p' name type' initializer')
  | arrowInitializer {a a' : Arrow} (h : Alike S a a') :
      Alike S (Initializer.arrow a) (Initializer.arrow a')
  | valueInitializer {e e' : Expression} (h : Alike S e e') :
      Alike S (Initializer.value e) (Initializer.value e')
  | arrow {p p' : Position} {params params' : List Param} {returns returns' : Option TypeRef}
      {body body' : ArrowBody} (hparams : List.Forall₂ (Alike S) params params')
      (hreturns : Option.Rel (Alike S) returns returns') (hbody : Alike S body body') :
      Alike S (Arrow.mk p params returns body) (Arrow.mk p' params' returns' body')
  | blockArrow {b b' : Block} (h : Alike S b b') : Alike S (ArrowBody.block b) (ArrowBody.block b')
  | valueArrow {e e' : Expression} (h : Alike S e e') :
      Alike S (ArrowBody.value e) (ArrowBody.value e')
  | param {p p' : Position} {name : String} {type type' : TypeRef} (htype : Alike S type type') :
      Alike S (Param.mk p name type) (Param.mk p' name type')
  | typeRef {p p' : Position} {name : String} {arguments arguments' : List TypeRef}
      {dimensions : Nat} (harguments : List.Forall₂ (Alike S) arguments arguments') :
      Alike S (TypeRef.mk p name arguments dimensions) (TypeRef.mk p' name arguments' dimensions)
  | block {p p' : Position} {statements statements' : List Statement}
      (hstatements : List.Forall₂ (Alike S) statements statements') :
      Alike S (Block.mk p statements) (Block.mk p' statements')
  | blockStatement {p p' : Position} {b b' : Block} (h : Alike S b b') :
      Alike S (Statement.block p b.statements) (Statement.block p' b'.statements)
  | declaration {p p' : Position} {kind : DeclarationKind} {name : String}
      {type type' : Option TypeRef} {value value' : Option Expression}
      (htype : Option.Rel (Alike S) type type') (hvalue : Option.Rel (Alike S) value value') :
      Alike S (Statement.declaration p kind name type value)
        (Statement.declaration p' kind name type' value')
  | ifThen {p p' : Position} {condition condition' : Expression} {yes yes' : Statement}
      (hcondition : Alike S condition condition') (hyes : Alike S yes yes') :
      Alike S (Statement.ifThen p condition yes) (Statement.ifThen p' condition' yes')
  | ifElse {p p' : Position} {condition condition' : Expression} {yes yes' no no' : Statement}
      (hcondition : Alike S condition condition') (hyes : Alike S yes yes') (hno : Alike S no no') :
      Alike S (Statement.ifElse p condition yes no) (Statement.ifElse p' condition' yes' no')
  | returns {p p' : Position} {value value' : Option Expression}
      (hvalue : Option.Rel (Alike S) value value') :
      Alike S (Statement.returns p value) (Statement.returns p' value')
  | throw {p p' : Position} {value value' : Expression} (hvalue : Alike S value value') :
      Alike S (Statement.throw p value) (Statement.throw p' value')
  | evaluate {p p' : Position} {value value' : Expression} (hvalue : Alike S value value') :
      Alike S (Statement.evaluate p value) (Statement.evaluate p' value')
  | assign {p p' : Position} {target target' : Expression} {assignment : Assignment}
      {value value' : Expression} (htarget : Alike S target target')
      (hvalue : Alike S value value') :
      Alike S (Statement.assign p target assignment value)
        (Statement.assign p' target' assignment value')
  | empty {p p' : Position} : Alike S (Statement.empty p) (Statement.empty p')
  | plain {p p' : Position} {value value' : Chain} (hvalue : Alike S value value') :
      Alike S (Expression.chain p value) (Expression.chain p' value')
  | choice {p p' : Position} {condition condition' : Chain} {yes yes' no no' : Expression}
      (hcondition : Alike S condition condition') (hyes : Alike S yes yes') (hno : Alike S no no') :
      Alike S (Expression.choice p condition yes no) (Expression.choice p' condition' yes' no')
  | chain {p p' : Position} {first first' : Operand} {links links' : List Link}
      (hfirst : Alike S first first') (hlinks : List.Forall₂ (Alike S) links links') :
      Alike S (Chain.mk p first links) (Chain.mk p' first' links')
  | link {p p' : Position} {operator : Operator} {operand operand' : Operand}
      (hoperand : Alike S operand operand') :
      Alike S (Link.mk p operator operand) (Link.mk p' operator operand')
  | operand {p p' : Position} {signs : List Sign} {value value' : Postfix}
      (hvalue : Alike S value value') :
      Alike S (Operand.mk p signs value) (Operand.mk p' signs value')
  | postfixed {p p' : Position} {primary primary' : Primary} {suffixes suffixes' : List Suffix}
      (hprimary : Alike S primary primary')
      (hsuffixes : List.Forall₂ (Alike S) suffixes suffixes') :
      Alike S (Postfix.mk p primary suffixes) (Postfix.mk p' primary' suffixes')
  | member {p p' : Position} {name : String} :
      Alike S (Suffix.member p name) (Suffix.member p' name)
  | index {p p' : Position} {value value' : Expression} (hvalue : Alike S value value') :
      Alike S (Suffix.index p value) (Suffix.index p' value')
  | call {p p' : Position} {arguments arguments' : Arguments}
      (harguments : Alike S arguments arguments') :
      Alike S (Suffix.call p arguments) (Suffix.call p' arguments')
  | arguments {p p' : Position} {values values' : List Expression}
      (hvalues : List.Forall₂ (Alike S) values values') :
      Alike S (Arguments.mk p values) (Arguments.mk p' values')
  | creation {p p' : Position} {className : String} {arguments arguments' : Arguments}
      (harguments : Alike S arguments arguments') :
      Alike S (Primary.creation p className arguments) (Primary.creation p' className arguments')
  | object {p p' : Position} {fields fields' : List ObjectField}
      (hfields : List.Forall₂ (Alike S) fields fields') :
      Alike S (Primary.object p fields) (Primary.object p' fields')
  | number {p p' : Position} {literal : String} :
      Alike S (Primary.number p literal) (Primary.number p' literal)
  | text {p p' : Position} {value value' : String} (hvalue : S value value') :
      Alike S (Primary.text p value) (Primary.text p' value')
  | truth {p p' : Position} {value : Bool} :
      Alike S (Primary.truth p value) (Primary.truth p' value)
  | this {p p' : Position} : Alike S (Primary.this p) (Primary.this p')
  | name {p p' : Position} {name : String} : Alike S (Primary.name p name) (Primary.name p' name)
  | parens {p p' : Position} {inner inner' : Expression} (hinner : Alike S inner inner') :
      Alike S (Primary.parens p inner) (Primary.parens p' inner')
  | valuedField {p p' : Position} {key key' : String} {value value' : Expression}
      (hkey : S key key') (hvalue : Alike S value value') :
      Alike S (ObjectField.valued p key value) (ObjectField.valued p' key' value')
  | shorthandField {p p' : Position} {key key' : String} (hkey : S key key') :
      Alike S (ObjectField.shorthand p key) (ObjectField.shorthand p' key')

/-! ## Tokens alike -/

/-- The words of the grammar, which a production takes whatever the class of the token. -/
def grammarWords : List String :=
  ["export", "default", "import", "as", "from", "interface", "class", "extends", "constructor",
    "if", "else", "return", "throw", "new", "this", "\x7b", "\x7d", "(", ")", "[", "]", "<", ">",
    ",", ";", ":", "?", ".", "=", "=>", "*"] ++
  constantWords.map Prod.fst ++ declarationWords.map Prod.fst ++ modifierWords.map Prod.fst ++
  operatorWords.map Prod.fst ++ signWords.map Prod.fst ++ assignmentWords.map Prod.fst ++
  truthWords.map Prod.fst

/-- **Tokens alike**: they have one class and one value; text literals may have two values that are
no words of the grammar. -/
def Token.Alike (t t' : Token) : Prop :=
  t.kind = t'.kind ∧
    (t.value = t'.value ∨ t.kind = .text ∧ t.value ∉ grammarWords ∧ t'.value ∉ grammarWords)

instance (t t' : Token) : Decidable (t.Alike t') :=
  inferInstanceAs (Decidable (_ ∧ _))

/-- Tokens alike that stand at one place of two rows. -/
def Aligned (pairs : List (Token × Token)) (t t' : Token) : Prop :=
  t.Alike t' ∧ (t, t') ∈ pairs

/-- Values that are equal, or those of text literals at one place of two rows. -/
def Swapped (pairs : List (Token × Token)) (value value' : String) : Prop :=
  value = value' ∨ ∃ p ∈ pairs, p.1.kind = .text ∧ p.1.value = value ∧ p.2.value = value'

/-! ## The pieces of the grammar -/

section Pieces

variable {pairs : List (Token × Token)} {α β : Type} {R : α → α → Prop} {Q : β → β → Prop}

/-- A grammar of the language does not tell tokens alike apart. -/
abbrev Even (pairs : List (Token × Token)) (g : Rule α) (R : α → α → Prop) : Prop :=
  g.Steady (Aligned pairs) (fun {_} _ => Alike (Swapped pairs)) R

/-- Of two tokens alike, one has the value of a word of the grammar only together with the other. -/
theorem Token.Alike.word_iff {t t' : Token} (h : t.Alike t') {value : String}
    (hword : value ∈ grammarWords) : t.value = value ↔ t'.value = value := by
  obtain ⟨-, heq | ⟨-, hvalue, hvalue'⟩⟩ := h
  · rw [heq]
  · exact iff_of_false (fun heq => hvalue (heq ▸ hword)) fun heq => hvalue' (heq ▸ hword)

/-- A word of the grammar is taken on both sides or on neither: the values of texts that differ are
no words of it. -/
theorem word_even {value : String} (hword : value ∈ grammarWords) : Even pairs (word value) Eq := by
  refine token_steady fun t t' ht => ?_
  have hiff : t.value = value ↔ t'.value = value := ht.1.word_iff hword
  by_cases hvalue : t.value = value
  · rw [if_pos hvalue, if_pos (hiff.1 hvalue)]
    exact .some rfl
  · rw [if_neg hvalue, if_neg (mt hiff.2 hvalue)]
    exact .none

/-- A value that is no word of the grammar is in none of its tables. -/
theorem lookup_eq_none {table : List (String × α)}
    (hwords : ∀ entry ∈ table, entry.1 ∈ grammarWords) {value : String} (h : value ∉ grammarWords) :
    table.lookup value = none := by
  refine List.lookup_eq_none_iff.2 fun entry hentry => bne_iff_ne.2 ?_
  rintro rfl
  exact h (hwords entry hentry)

/-- A table of words gives the same meaning on both sides, or none on either. -/
theorem oneOf_even {table : List (String × α)} (hwords : ∀ entry ∈ table, entry.1 ∈ grammarWords) :
    Even pairs (oneOf table) Eq := by
  refine token_steady fun t t' ht => ?_
  obtain ⟨⟨-, heq | ⟨-, hvalue, hvalue'⟩⟩, -⟩ := ht
  · rw [heq]
    cases table.lookup t'.value with
    | none => exact .none
    | some a => exact .some rfl
  · rw [lookup_eq_none hwords hvalue, lookup_eq_none hwords hvalue']
    exact .none

/-- Tokens alike of a class other than the texts have one value. -/
theorem anyOf_even {kind : TokenKind} (hkind : kind ≠ .text) : Even pairs (anyOf kind) Eq := by
  refine token_steady fun t t' ht => ?_
  obtain ⟨⟨hkinds, hvalue⟩, -⟩ := ht
  rw [← hkinds]
  split
  · rename_i h
    obtain heq | ⟨htext, -, -⟩ := hvalue
    · exact .some heq
    · exact absurd (h.symm.trans htext) hkind
  · exact .none

/-- The values of two texts may differ, but they stand at one place of the two rows. -/
theorem text_even : Even pairs (anyOf .text) (Swapped pairs) := by
  refine token_steady fun t t' ht => ?_
  rw [← ht.1.1]
  split
  · rename_i htext
    exact .some (.inr ⟨(t, t'), ht.2, htext, rfl, rfl⟩)
  · exact .none

theorem after_even {g : Rule α} {g' : Rule β} (hg : Even pairs g R) (hg' : Even pairs g' Q) :
    Even pairs (after g g') Q := by
  refine map_steady (seq_steady hg hg') ?_
  rintro _ _ ⟨-, h⟩
  exact h

theorem before_even {g : Rule α} {g' : Rule β} (hg : Even pairs g R) (hg' : Even pairs g' Q) :
    Even pairs (before g g') R := by
  refine map_steady (seq_steady hg hg') ?_
  rintro _ _ ⟨h, -⟩
  exact h

/-- A word in front of a piece makes no difference. -/
theorem behind_even {v : String} {g : Rule α} (hword : v ∈ grammarWords) (hg : Even pairs g R) :
    Even pairs (after (word v) g) R :=
  after_even (word_even hword) hg

/-- A word behind a piece makes no difference. -/
theorem closed_even {v : String} {g : Rule α} (hg : Even pairs g R) (hword : v ∈ grammarWords) :
    Even pairs (before g (word v)) R :=
  before_even hg (word_even hword)

/-- The alternatives are tried in the same order on both sides, so that the same one is taken. -/
theorem firstOf_even {gs : List (Rule α)} (h : ∀ g ∈ gs, Even pairs g R) :
    Even pairs (firstOf gs) R := by
  refine choice_steady ?_
  induction gs with
  | nil => exact none_steady
  | cons g gs ih =>
    obtain ⟨hg, hgs⟩ := List.forall_mem_cons.1 h
    exact cons_steady hg (ih hgs)

/-- Items with commas between them are related one by one. -/
theorem commaList_even {g : Rule α} (hg : Even pairs g R) :
    Even pairs (commaList g) (List.Forall₂ R) := by
  refine map_steady (seq_steady hg (star_steady (behind_even (by decide) hg))) ?_
  rintro _ _ ⟨hhead, htail⟩
  exact .cons hhead htail

/-- A list that may be empty, or end in a comma, is related item by item. -/
theorem looseList_even {g : Rule α} (hg : Even pairs g R) :
    Even pairs (looseList g) (List.Forall₂ R) := by
  refine map_steady (opt_steady (before_even (commaList_even hg)
    (opt_steady (word_even (by decide))))) ?_
  rintro _ _ (hitems | _)
  · exact hitems
  · exact .nil

theorem identifier_even : Even pairs identifier Eq :=
  anyOf_even (by decide)

theorem typeAfterColon_even : Even pairs typeAfterColon (Option.Rel (Alike (Swapped pairs))) :=
  opt_steady (behind_even (by decide) node_steady)

theorem params_even : Even pairs params (List.Forall₂ (Alike (Swapped pairs))) :=
  closed_even (looseList_even node_steady) (by decide)

end Pieces

/-! ## The productions -/

section Productions

variable {pairs : List (Token × Token)}

/-- What is built at two places is alike. -/
def Built {α : Type} (pairs : List (Token × Token)) (build build' : Position → α) : Prop :=
  ∀ p p', Alike (Swapped pairs) (build p) (build' p')

/-- Files are alike when their elements are. -/
theorem program_even : Even pairs (rule .program) (Built pairs) := by
  refine map_steady (star_steady node_steady) ?_
  rintro _ _ helements p p'
  exact .program helements

/-- A declaration is exported on both sides or on neither, as its mark consists of words of the
grammar. -/
theorem element_even : Even pairs (rule .element) (Built pairs) := by
  refine firstOf_even (List.forall_mem_cons.2 ⟨?_, List.forall_mem_singleton.2 ?_⟩)
  · refine map_steady node_steady ?_
    rintro _ _ h p p'
    exact .element (.importDeclaration h)
  · refine map_steady (seq_steady (opt_steady (before_even (word_even (by decide))
      (opt_steady (word_even (by decide))))) (Q := Alike (Swapped pairs)) (firstOf_even ?_)) ?_
    · simp only [List.forall_mem_cons, List.not_mem_nil, false_implies, implies_true, and_true]
      exact ⟨map_steady node_steady fun _ _ h => .interfaceDeclaration h,
        map_steady node_steady fun _ _ h => .classDeclaration h,
        map_steady node_steady fun _ _ h => .constantDeclaration h⟩
    · rintro _ _ ⟨hmark, hbody⟩ p p'
      cases hmark <;> exact .element hbody

/-- The module that is imported is a text, and may be another one on the other side. -/
theorem imports_even : Even pairs (rule .imports) (Built pairs) := by
  refine map_steady (behind_even (by decide) (seq_steady (R := Eq) (firstOf_even ?_)
    (behind_even (by decide) (before_even text_even
      (opt_steady (word_even (by decide))))))) ?_
  · simp only [List.forall_mem_cons, List.not_mem_nil, false_implies, implies_true, and_true]
    refine ⟨map_steady (behind_even (by decide)
        (closed_even (looseList_even identifier_even) (by decide))) ?_,
      map_steady (behind_even (by decide) (behind_even (by decide) identifier_even)) ?_,
      map_steady identifier_even ?_⟩
    · rintro _ _ hnames
      rw [List.forall₂_eq_eq_eq] at hnames
      rw [hnames]
    · rintro _ _ rfl
      rfl
    · rintro _ _ rfl
      rfl
  · rintro _ _ ⟨rfl, hsource⟩ p p'
    exact .imports hsource

theorem interfaceDecl_even : Even pairs (rule .interfaceDecl) (Built pairs) := by
  refine map_steady (behind_even (by decide) (seq_steady identifier_even
    (behind_even (by decide) (closed_even (star_steady node_steady) (by decide))))) ?_
  rintro _ _ ⟨rfl, hfields⟩ p p'
  exact .interfaceDecl hfields

theorem interfaceField_even : Even pairs (rule .interfaceField) (Built pairs) := by
  refine map_steady (seq_steady (before_even identifier_even (opt_steady (word_even (by decide))))
    (behind_even (by decide) (before_even node_steady
      (opt_steady (oneOf_even (by decide)))))) ?_
  rintro _ _ ⟨rfl, htype⟩ p p'
  exact .interfaceField htype

/-- Whether a constant has a type is decided alike, by a colon. -/
theorem constant_even : Even pairs (rule .constant) (Built pairs) := by
  refine map_steady (seq_steady (oneOf_even (by decide)) (seq_steady identifier_even
    (seq_steady typeAfterColon_even (behind_even (by decide)
      (before_even node_steady (opt_steady (word_even (by decide)))))))) ?_
  rintro _ _ ⟨rfl, rfl, htype, hvalue⟩ p p'
  exact .constant htype hvalue

theorem classDecl_even : Even pairs (rule .classDecl) (Built pairs) := by
  refine map_steady (behind_even (by decide) (seq_steady identifier_even (seq_steady
    (opt_steady (behind_even (by decide) (commaList_even identifier_even)))
    (behind_even (by decide) (closed_even (star_steady node_steady) (by decide)))))) ?_
  rintro _ _ ⟨rfl, hbases, hmembers⟩ p p'
  rw [List.forall₂_eq_eq_eq] at hbases
  cases hbases with
  | none => exact .classDecl hmembers
  | some heq => cases heq; exact .classDecl hmembers

/-- Whether a member is a constructor, a method or a property is decided alike on both sides. -/
theorem classMember_even : Even pairs (rule .classMember) (Built pairs) := by
  refine map_steady (seq_steady (star_steady (oneOf_even (by decide))) (before_even
    (R := Alike (Swapped pairs)) (firstOf_even ?_) (opt_steady (word_even (by decide))))) ?_
  · simp only [List.forall_mem_cons, List.not_mem_nil, false_implies, implies_true, and_true]
    exact ⟨map_steady node_steady fun _ _ h => .constructorBody h,
      map_steady node_steady fun _ _ h => .methodBody h,
      map_steady node_steady fun _ _ h => .propertyBody h⟩
  · rintro _ _ ⟨hmodifiers, hbody⟩ p p'
    rw [List.forall₂_eq_eq_eq] at hmodifiers
    cases hmodifiers
    exact .classMember hbody

theorem constructor_even : Even pairs (rule .constructor) (Built pairs) := by
  refine map_steady (behind_even (by decide) (behind_even (by decide)
    (seq_steady params_even node_steady))) ?_
  rintro _ _ ⟨hparams, hbody⟩ p p'
  exact .constructor hparams hbody

theorem method_even : Even pairs (rule .method) (Built pairs) := by
  refine map_steady (seq_steady (closed_even identifier_even (by decide))
    (seq_steady params_even (seq_steady typeAfterColon_even node_steady))) ?_
  rintro _ _ ⟨rfl, hparams, hreturns, hbody⟩ p p'
  exact .method hparams hreturns hbody

/-- Of a property only the types and the values of its initializer may differ, in positions and
texts. -/
theorem property_even : Even pairs (rule .property) (Built pairs) := by
  refine map_steady (seq_steady (before_even identifier_even
    (opt_steady (oneOf_even (by decide)))) (seq_steady typeAfterColon_even
      (opt_steady (behind_even (by decide) node_steady)))) ?_
  rintro _ _ ⟨rfl, htype, hinitializer⟩ p p'
  exact .property htype hinitializer

/-- An opening parenthesis is tried as an arrow on both sides before it is read as a value. -/
theorem initializer_even : Even pairs (rule .initializer) (Built pairs) := by
  refine map_steady (R := Alike (Swapped pairs)) (firstOf_even ?_) fun _ _ h _ _ => h
  simp only [List.forall_mem_cons, List.not_mem_nil, false_implies, implies_true, and_true]
  exact ⟨map_steady node_steady fun _ _ h => .arrowInitializer h,
    map_steady node_steady fun _ _ h => .valueInitializer h⟩

theorem arrow_even : Even pairs (rule .arrow) (Built pairs) := by
  refine map_steady (behind_even (by decide) (seq_steady params_even (seq_steady typeAfterColon_even
    (behind_even (by decide) (R := Alike (Swapped pairs)) (firstOf_even ?_))))) ?_
  · simp only [List.forall_mem_cons, List.not_mem_nil, false_implies, implies_true, and_true]
    exact ⟨map_steady node_steady fun _ _ h => .blockArrow h,
      map_steady node_steady fun _ _ h => .valueArrow h⟩
  · rintro _ _ ⟨hparams, hreturns, hbody⟩ p p'
    exact .arrow hparams hreturns hbody

/-- A parameter has one name on both sides. -/
theorem param_even : Even pairs (rule .param) (Built pairs) := by
  refine map_steady (seq_steady (before_even identifier_even (opt_steady (word_even (by decide))))
    (behind_even (by decide) node_steady)) ?_
  rintro _ _ ⟨rfl, htype⟩ p p'
  exact .param htype

/-- Types alike have one name and as many brackets: there are no texts in them. -/
theorem typeRef_even : Even pairs (rule .typeRef) (Built pairs) := by
  refine map_steady (seq_steady identifier_even (seq_steady
    (opt_steady (behind_even (by decide) (closed_even (commaList_even node_steady) (by decide))))
    (star_steady (seq_steady (word_even (by decide)) (word_even (by decide)))))) ?_
  rintro _ _ ⟨rfl, harguments, hbrackets⟩ p p'
  simp only [hbrackets.length_eq]
  cases harguments with
  | none => exact .typeRef .nil
  | some h => exact .typeRef h

theorem block_even : Even pairs (rule .block) (Built pairs) := by
  refine map_steady (behind_even (by decide) (closed_even (star_steady node_steady) (by decide))) ?_
  rintro _ _ hstatements p p'
  exact .block hstatements

/-- A statement is of one kind on both sides. -/
theorem statement_even : Even pairs (rule .statement) (Built pairs) := by
  refine firstOf_even ?_
  simp only [List.forall_mem_cons, List.not_mem_nil, false_implies, implies_true, and_true]
  exact ⟨map_steady node_steady fun _ _ h _ _ => .blockStatement h,
    map_steady node_steady fun _ _ h _ _ => h, map_steady node_steady fun _ _ h _ _ => h,
    map_steady node_steady fun _ _ h _ _ => h, map_steady node_steady fun _ _ h _ _ => h,
    map_steady node_steady fun _ _ h _ _ => h,
    map_steady (word_even (by decide)) fun _ _ _ _ _ => .empty⟩

theorem declaration_even : Even pairs (rule .declaration) (Built pairs) := by
  refine map_steady (seq_steady (oneOf_even (by decide)) (seq_steady identifier_even
    (seq_steady typeAfterColon_even
      (closed_even (opt_steady (behind_even (by decide) node_steady)) (by decide))))) ?_
  rintro _ _ ⟨rfl, rfl, htype, hvalue⟩ p p'
  exact .declaration htype hvalue

/-- An `else` belongs to the same conditional on both sides. -/
theorem conditional_even : Even pairs (rule .conditional) (Built pairs) := by
  refine map_steady (behind_even (by decide) (behind_even (by decide) (seq_steady
    (closed_even node_steady (by decide)) (seq_steady node_steady
      (opt_steady (behind_even (by decide) node_steady)))))) ?_
  rintro _ _ ⟨hcondition, hyes, hno⟩ p p'
  cases hno with
  | none => exact .ifThen hcondition hyes
  | some hno => exact .ifElse hcondition hyes hno

theorem returns_even : Even pairs (rule .returns) (Built pairs) := by
  refine map_steady (behind_even (by decide) (closed_even (opt_steady node_steady) (by decide))) ?_
  rintro _ _ hvalue p p'
  exact .returns hvalue

theorem throws_even : Even pairs (rule .throws) (Built pairs) := by
  refine map_steady (behind_even (by decide) (closed_even node_steady (by decide))) ?_
  rintro _ _ hvalue p p'
  exact .throw hvalue

/-- An expression is assigned to on both sides, or evaluated on both. -/
theorem exprStatement_even : Even pairs (rule .exprStatement) (Built pairs) := by
  refine map_steady (seq_steady node_steady (before_even
    (opt_steady (seq_steady (oneOf_even (by decide)) node_steady)) (word_even (by decide)))) ?_
  rintro _ _ ⟨htarget, hchange⟩ p p'
  cases hchange with
  | none => exact .evaluate htarget
  | some h =>
    obtain ⟨rfl, hvalue⟩ := h
    exact .assign htarget hvalue

/-- A question mark after a chain makes a choice of it on both sides. -/
theorem expression_even : Even pairs (rule .expression) (Built pairs) := by
  refine map_steady (seq_steady node_steady (opt_steady (behind_even (by decide)
    (seq_steady node_steady (behind_even (by decide) node_steady))))) ?_
  rintro _ _ ⟨hcondition, hbranches⟩ p p'
  cases hbranches with
  | none => exact .plain hcondition
  | some h =>
    obtain ⟨hyes, hno⟩ := h
    exact .choice hcondition hyes hno

/-- Chains alike have as many operands, with the same operators between them. -/
theorem chain_even : Even pairs (rule .chain) (Built pairs) := by
  refine map_steady (seq_steady node_steady (star_steady node_steady)) ?_
  rintro _ _ ⟨hfirst, hlinks⟩ p p'
  exact .chain hfirst hlinks

theorem link_even : Even pairs (rule .link) (Built pairs) := by
  refine map_steady (seq_steady (oneOf_even (by decide)) node_steady) ?_
  rintro _ _ ⟨rfl, hoperand⟩ p p'
  exact .link hoperand

/-- The signs in front of an operand are the same: a text that differs is not taken for a sign. -/
theorem operand_even : Even pairs (rule .operand) (Built pairs) := by
  refine map_steady (seq_steady (star_steady (oneOf_even (by decide))) node_steady) ?_
  rintro _ _ ⟨hsigns, hvalue⟩ p p'
  rw [List.forall₂_eq_eq_eq] at hsigns
  cases hsigns
  exact .operand hvalue

theorem postfixed_even : Even pairs (rule .postfixed) (Built pairs) := by
  refine map_steady (seq_steady node_steady (star_steady node_steady)) ?_
  rintro _ _ ⟨hprimary, hsuffixes⟩ p p'
  exact .postfixed hprimary hsuffixes

/-- The steps behind a primary are of one kind, and a member has one name. -/
theorem suffix_even : Even pairs (rule .suffix) (Built pairs) := by
  refine firstOf_even ?_
  simp only [List.forall_mem_cons, List.not_mem_nil, false_implies, implies_true, and_true]
  refine ⟨map_steady (behind_even (by decide) identifier_even) ?_,
    map_steady (behind_even (by decide) (closed_even node_steady (by decide)))
      fun _ _ h _ _ => .index h,
    map_steady node_steady fun _ _ h _ _ => .call h⟩
  rintro _ _ rfl p p'
  exact .member

theorem arguments_even : Even pairs (rule .arguments) (Built pairs) := by
  refine map_steady
    (behind_even (by decide) (closed_even (looseList_even node_steady) (by decide))) ?_
  rintro _ _ hvalues p p'
  exact .arguments hvalues

/-- A text literal is the only primary whose value may differ. -/
theorem primary_even : Even pairs (rule .primary) (Built pairs) := by
  refine firstOf_even ?_
  simp only [List.forall_mem_cons, List.not_mem_nil, false_implies, implies_true, and_true]
  refine ⟨map_steady node_steady fun _ _ h _ _ => h, map_steady node_steady fun _ _ h _ _ => h,
    map_steady (anyOf_even (by decide)) ?_, map_steady text_even fun _ _ h _ _ => .text h,
    map_steady (oneOf_even (by decide)) ?_,
    map_steady (word_even (by decide)) fun _ _ _ _ _ => .this,
    map_steady identifier_even ?_,
    map_steady (behind_even (by decide) (closed_even node_steady (by decide)))
      fun _ _ h _ _ => .parens h⟩
  · rintro _ _ rfl p p'
    exact .number
  · rintro _ _ rfl p p'
    exact .truth
  · rintro _ _ rfl p p'
    exact .name

/-- One class is created on both sides, from arguments alike. -/
theorem creation_even : Even pairs (rule .creation) (Built pairs) := by
  refine map_steady (behind_even (by decide) (seq_steady identifier_even node_steady)) ?_
  rintro _ _ ⟨rfl, harguments⟩ p p'
  exact .creation harguments

/-- Objects alike have as many fields, in the same order. -/
theorem objectLiteral_even : Even pairs (rule .objectLiteral) (Built pairs) := by
  refine map_steady
    (behind_even (by decide) (closed_even (looseList_even node_steady) (by decide))) ?_
  rintro _ _ hfields p p'
  exact .object hfields

/-- A key that is written as a text may be another one on the other side. -/
theorem objectField_even : Even pairs (rule .objectField) (Built pairs) := by
  refine map_steady (seq_steady (R := Swapped pairs) (firstOf_even ?_)
    (opt_steady (behind_even (by decide) node_steady))) ?_
  · simp only [List.forall_mem_cons, List.not_mem_nil, false_implies, implies_true, and_true]
    exact ⟨identifier_even.mono fun _ _ h => .inl h, text_even⟩
  · rintro _ _ ⟨hkey, hvalue⟩ p p'
    cases hvalue with
    | none => exact .shorthandField hkey
    | some h => exact .valuedField hkey h

end Productions

/-- **No production tells tokens alike apart**, and trees alike are built of trees alike. -/
theorem rule_even {pairs : List (Token × Token)} {α : Type} (name : Nonterminal α) :
    Even pairs (rule name) (Built pairs) := by
  cases name with
  | program => exact program_even
  | element => exact element_even
  | imports => exact imports_even
  | interfaceDecl => exact interfaceDecl_even
  | interfaceField => exact interfaceField_even
  | constant => exact constant_even
  | classDecl => exact classDecl_even
  | classMember => exact classMember_even
  | constructor => exact constructor_even
  | method => exact method_even
  | property => exact property_even
  | initializer => exact initializer_even
  | arrow => exact arrow_even
  | param => exact param_even
  | typeRef => exact typeRef_even
  | block => exact block_even
  | statement => exact statement_even
  | declaration => exact declaration_even
  | conditional => exact conditional_even
  | returns => exact returns_even
  | throws => exact throws_even
  | exprStatement => exact exprStatement_even
  | expression => exact expression_even
  | chain => exact chain_even
  | link => exact link_even
  | operand => exact operand_even
  | postfixed => exact postfixed_even
  | suffix => exact suffix_even
  | arguments => exact arguments_even
  | primary => exact primary_even
  | creation => exact creation_even
  | objectLiteral => exact objectLiteral_even
  | objectField => exact objectField_even

/-- Tokens alike are aligned where they stand. -/
theorem aligned_of_alike {ts ts' : List Token} (h : List.Forall₂ Token.Alike ts ts') :
    List.Forall₂ (Aligned (ts.zip ts')) ts ts' := by
  have hmem : ∀ pairs, (∀ p ∈ ts.zip ts', p ∈ pairs) → List.Forall₂ (Aligned pairs) ts ts' := by
    induction h with
    | nil => exact fun _ _ => .nil
    | cons ht _ ih =>
      intro pairs hpairs
      exact .cons ⟨ht, hpairs _ List.mem_cons_self⟩
        (ih pairs fun p hp => hpairs p (List.mem_cons_of_mem _ hp))
  exact hmem _ fun _ => id

/-- **Text literals that are no words of the grammar are read for what they are**: of two files
whose tokens are alike, either none is accepted, or both are, and the trees are alike, with the
values of text literals that stand at one place where they differ. -/
theorem parse_alike {file source source' : String} {stream stream' : TokenStream}
    (hscan : scan file source = .ok stream) (hscan' : scan file source' = .ok stream')
    (htokens : List.Forall₂ Token.Alike stream.tokens stream'.tokens) :
    (∃ e e', parse file source = .error e ∧ parse file source' = .error e') ∨
    ∃ program program', parse file source = .ok program ∧ parse file source' = .ok program' ∧
      Alike (Swapped (stream.tokens.zip stream'.tokens)) program program' := by
  rw [parse, parse, hscan, hscan', ok_bind, ok_bind]
  exact readAll_agrees (fun name => rule_even name) (aligned_of_alike htokens)

/-- Two files that differ in a key and in a text, both read, with trees alike. -/
theorem parse_alike_keys :
    ∃ stream stream', scan "k.ts" "const x = \x7b'k': 'one'\x7d;" = .ok stream ∧
      scan "k.ts" "const x = \x7b'key': 'two'\x7d;" = .ok stream' ∧
      List.Forall₂ Token.Alike stream.tokens stream'.tokens ∧
      ∃ program program', parse "k.ts" "const x = \x7b'k': 'one'\x7d;" = .ok program ∧
        parse "k.ts" "const x = \x7b'key': 'two'\x7d;" = .ok program' ∧
        Alike (Swapped (stream.tokens.zip stream'.tokens)) program program' := by
  have hcheck :
      ((scan "k.ts" "const x = \x7b'k': 'one'\x7d;").toOption.bind fun stream =>
        (scan "k.ts" "const x = \x7b'key': 'two'\x7d;").toOption.bind fun stream' =>
          (parse "k.ts" "const x = \x7b'k': 'one'\x7d;").toOption.map fun _ =>
            decide (List.Forall₂ Token.Alike stream.tokens stream'.tokens)) = some true := by
    decide +kernel
  simp only [Option.bind_eq_some_iff, Option.map_eq_some_iff, toOption_eq_some,
    decide_eq_true_eq] at hcheck
  obtain ⟨stream, hscan, stream', hscan', program, hparse, htokens⟩ := hcheck
  refine ⟨stream, stream', hscan, hscan', htokens, ?_⟩
  obtain ⟨e, _, herror, -⟩ | h := parse_alike hscan hscan' htokens
  · exact absurd (hparse.symm.trans herror) nofun
  · exact h

/-- **A text literal can be taken for a word**: with `"a"` for its value the constant is accepted,
and with `"-"` it is not, since the literal is read as a sign that no operand follows. -/
theorem parse_tells_texts_apart :
    ∃ stream stream', scan "a.ts" "const x = 'a';" = .ok stream ∧
      scan "a.ts" "const x = '-';" = .ok stream' ∧
      List.Forall₂ (fun t t' => t.kind = t'.kind ∧ (t.value = t'.value ∨ t.kind = .text))
        stream.tokens stream'.tokens ∧
      (∃ program, parse "a.ts" "const x = 'a';" = .ok program) ∧
      ∃ e, parse "a.ts" "const x = '-';" = .error e := by
  have hcheck :
      ((scan "a.ts" "const x = 'a';").toOption.bind fun stream =>
        (scan "a.ts" "const x = '-';").toOption.map fun stream' =>
          decide (List.Forall₂
            (fun t t' : Token => t.kind = t'.kind ∧ (t.value = t'.value ∨ t.kind = .text))
            stream.tokens stream'.tokens)) = some true ∧
      (parse "a.ts" "const x = 'a';").toOption.isSome ∧
      (parse "a.ts" "const x = '-';").toOption.isNone := by
    decide +kernel
  obtain ⟨htokens, haccepted, hrefused⟩ := hcheck
  simp only [Option.bind_eq_some_iff, Option.map_eq_some_iff, toOption_eq_some,
    decide_eq_true_eq] at htokens
  obtain ⟨stream, hscan, stream', hscan', htokens⟩ := htokens
  obtain ⟨program, hprogram⟩ := Option.isSome_iff_exists.1 haccepted
  refine ⟨stream, stream', hscan, hscan', htokens, ⟨program, toOption_eq_some.1 hprogram⟩, ?_⟩
  cases h : parse "a.ts" "const x = '-';" with
  | error e => exact ⟨e, rfl⟩
  | ok program => simp [h, Except.toOption] at hrefused

end Source

end Covenant
