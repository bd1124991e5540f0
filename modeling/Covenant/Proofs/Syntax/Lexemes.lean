import Covenant.Proofs.Syntax.Nodes
import Covenant.Source.Tree.Printer

/-!
# The tokens of a printed tree

`lexemes` says which tokens a type or expression is printed with. The printed text is cut into
exactly these, whatever comes behind it that breaks words: blanks keep operators apart, no two signs
and no sign and what it stands before make another operator, and quoted texts are read back
(`TypeRef.cuts`, `Expression.cuts`).
-/

namespace Covenant

namespace Source

/-! ## Lexemes -/

mutual
/-- **The tokens of a type.** -/
def TypeRef.lexemes : TypeRef → List Lexeme
  | .mk _ name arguments dimensions =>
    .word name :: ((if arguments.isEmpty then []
      else .operator "<" :: (Lexeme.separated (typesLexemes arguments) ++ [.operator ">"])) ++
        (List.replicate dimensions [.mark "[", .mark "]"]).flatten)

/-- The tokens of several types. -/
def typesLexemes : List TypeRef → List (List Lexeme)
  | [] => []
  | t :: ts => t.lexemes :: typesLexemes ts
end

mutual
/-- **The tokens of an expression.** -/
def Expression.lexemes : Expression → List Lexeme
  | .chain _ value => value.lexemes
  | .choice _ condition yes no =>
    condition.lexemes ++ .operator "?" :: (yes.lexemes ++ .mark ":" :: no.lexemes)

/-- The tokens of a chain. -/
def Chain.lexemes : Chain → List Lexeme
  | .mk _ first links => first.lexemes ++ linksLexemes links

/-- The tokens of an operator and the operand behind it. -/
def Link.lexemes : Link → List Lexeme
  | .mk _ operator operand => .operator operator.symbol :: operand.lexemes

/-- The tokens of the rest of a chain. -/
def linksLexemes : List Link → List Lexeme
  | [] => []
  | link :: links => link.lexemes ++ linksLexemes links

/-- The tokens of an operand. -/
def Operand.lexemes : Operand → List Lexeme
  | .mk _ signs value => signs.map (fun sign => .operator sign.symbol) ++ value.lexemes

/-- The tokens of a primary and the steps behind it. -/
def Postfix.lexemes : Postfix → List Lexeme
  | .mk _ primary suffixes => primary.lexemes ++ suffixesLexemes suffixes

/-- The tokens of a step. -/
def Suffix.lexemes : Suffix → List Lexeme
  | .member _ name => [.mark ".", .word name]
  | .index _ value => .mark "[" :: (value.lexemes ++ [.mark "]"])
  | .call _ arguments => arguments.lexemes

/-- The tokens of several steps. -/
def suffixesLexemes : List Suffix → List Lexeme
  | [] => []
  | suffix :: suffixes => suffix.lexemes ++ suffixesLexemes suffixes

/-- The tokens of arguments. -/
def Arguments.lexemes : Arguments → List Lexeme
  | .mk _ values => .mark "(" :: (Lexeme.separated (expressionsLexemes values) ++ [.mark ")"])

/-- The tokens of several expressions. -/
def expressionsLexemes : List Expression → List (List Lexeme)
  | [] => []
  | e :: es => e.lexemes :: expressionsLexemes es

/-- The tokens of a primary. -/
def Primary.lexemes : Primary → List Lexeme
  | .creation _ className arguments => .word "new" :: .word className :: arguments.lexemes
  | .object _ fields =>
    .mark "\x7b" :: (Lexeme.separated (fieldsLexemes fields) ++ [.mark "\x7d"])
  | .number _ literal => [.number literal]
  | .text _ value => [.text value]
  | .truth _ value => [.word (if value then "true" else "false")]
  | .this _ => [.word "this"]
  | .name _ name => [.word name]
  | .parens _ inner => .mark "(" :: (inner.lexemes ++ [.mark ")"])

/-- The tokens of a field. -/
def ObjectField.lexemes : ObjectField → List Lexeme
  | .valued _ key value => .word key :: .mark ":" :: value.lexemes
  | .shorthand _ key => [.word key]

/-- The tokens of several fields. -/
def fieldsLexemes : List ObjectField → List (List Lexeme)
  | [] => []
  | field :: fields => field.lexemes :: fieldsLexemes fields
end

theorem typesLexemes_eq (ts : List TypeRef) : typesLexemes ts = ts.map TypeRef.lexemes := by
  induction ts with
  | nil => rfl
  | cons t ts ih => rw [typesLexemes, ih, List.map_cons]

theorem linksLexemes_eq (links : List Link) : linksLexemes links = links.flatMap Link.lexemes := by
  induction links with
  | nil => rfl
  | cons link links ih => rw [linksLexemes, ih, List.flatMap_cons]

theorem suffixesLexemes_eq (suffixes : List Suffix) :
    suffixesLexemes suffixes = suffixes.flatMap Suffix.lexemes := by
  induction suffixes with
  | nil => rfl
  | cons suffix suffixes ih => rw [suffixesLexemes, ih, List.flatMap_cons]

/-- The tokens of several expressions, in the recursion over the tree, are those of each. -/
theorem expressionsLexemes_eq (es : List Expression) :
    expressionsLexemes es = es.map Expression.lexemes := by
  induction es with
  | nil => rfl
  | cons e es ih => rw [expressionsLexemes, ih, List.map_cons]

theorem fieldsLexemes_eq (fields : List ObjectField) :
    fieldsLexemes fields = fields.map ObjectField.lexemes := by
  induction fields with
  | nil => rfl
  | cons field fields ih => rw [fieldsLexemes, ih, List.map_cons]

/-! ## Texts -/

/-- A text is printed with some tokens: in front of whatever breaks words, it is cut into them. -/
def Prints (text : String) (ls : List Lexeme) : Prop :=
  ∀ rest ms, Lexer.breaks rest = true → Lexer.Cuts rest ms →
    Lexer.Cuts (text.toList ++ rest) (ls ++ ms)

open Lexer

/-- Texts with commas between them start with the first one. -/
theorem exists_toList_intercalate (first : String) (rest : List String) :
    ∃ more, (", ".intercalate (first :: rest)).toList = first.toList ++ more := by
  rw [String.toList_intercalate]
  cases rest with
  | nil => exact ⟨[], by simp [List.intercalate]⟩
  | cons second rest =>
    exact ⟨", ".toList ++ (", ".intercalate (second :: rest)).toList, by
      simp [List.intercalate, String.toList_intercalate]⟩

/-- Pieces with commas between them. -/
theorem cuts_separated {α : Type} {text : α → String} {lexemes : α → List Lexeme} {as : List α}
    (h : ∀ a ∈ as, Prints (text a) (lexemes a)) {rest : List Char} {ms : List Lexeme}
    (hrest : breaks rest = true) (hcuts : Cuts rest ms) :
    Cuts ((", ".intercalate (as.map text)).toList ++ rest)
      (Lexeme.separated (as.map lexemes) ++ ms) := by
  rw [String.toList_intercalate]
  induction as with
  | nil => exact hcuts
  | cons a as ih =>
    rw [List.forall_mem_cons] at h
    cases as with
    | nil => simpa [Lexeme.separated, List.intercalate] using h.1 rest ms hrest hcuts
    | cons b as =>
      have htail : Cuts (',' :: ' ' :: _) (.mark "," :: _) :=
        cuts_mark _ rfl (by decide) (cuts_blank (ih h.2))
      simpa [Lexeme.separated, List.intercalate] using h.1 _ _ rfl htail

/-! ## Types -/

theorem renderAll_eq (ts : List TypeRef) : TypeRef.renderAll ts = ts.map TypeRef.render := by
  induction ts with
  | nil => rfl
  | cons t ts ih => rw [TypeRef.renderAll, ih, List.map_cons]

/-- Pairs of brackets are cut one by one, and break a word in front of them. -/
theorem cuts_brackets (n : Nat) {rest : List Char} {ms : List Lexeme}
    (hrest : breaks rest = true) (hcuts : Cuts rest ms) :
    Cuts ((String.join (List.replicate n "[]")).toList ++ rest)
      ((List.replicate n [.mark "[", .mark "]"]).flatten ++ ms) ∧
    breaks ((String.join (List.replicate n "[]")).toList ++ rest) = true := by
  induction n with
  | zero => exact ⟨hcuts, hrest⟩
  | succ n ih =>
    simp only [String.toList_join, List.replicate_succ, List.flatMap_cons, List.flatten_cons,
      List.append_assoc] at ih ⊢
    exact ⟨cuts_mark _ rfl (by decide) (cuts_mark _ rfl (by decide) ih.1), rfl⟩

/-- A type starts with its name, so an operator in front of it ends there. -/
theorem apart_type {t : TypeRef} (h : isIdentifier t.name = true) (rest : List Char) :
    Apart (t.render.toList ++ rest) := by
  obtain ⟨pos, name, arguments, dimensions⟩ := t
  rw [TypeRef.render]
  simp only [String.toList_append, List.append_assoc]
  exact apart_identifier h _

mutual
/-- **A type is printed with its tokens.** -/
theorem TypeRef.prints (t : TypeRef) (h : ∀ n ∈ t.nodes, n.Legible) :
    Prints t.render t.lexemes := by
  intro rest ms hrest hcuts
  obtain ⟨pos, name, arguments, dimensions⟩ := t
  rw [TypeRef.nodes, List.forall_mem_cons] at h
  obtain ⟨hbrackets, hbreaks⟩ := cuts_brackets dimensions hrest hcuts
  rw [TypeRef.render, TypeRef.lexemes, typesLexemes_eq, renderAll_eq]
  cases arguments with
  | nil =>
    simp only [String.toList_append, List.append_assoc, List.cons_append]
    exact cuts_identifier h.1 hbreaks hbrackets
  | cons t ts =>
    have harguments := types_print (t :: ts) h.2
    have hname : isIdentifier t.name = true := by
      obtain ⟨_, _, _, _⟩ := t
      exact h.2 _ List.mem_cons_self
    -- the opening sign is an operator of its own, since a name follows
    obtain ⟨more, hmore⟩ := exists_toList_intercalate t.render (ts.map TypeRef.render)
    have hopen (rest : List Char) : endsOperator "<"
        ((", ".intercalate ((t :: ts).map TypeRef.render)).toList ++ rest) = true := by
      rw [List.map_cons, hmore, List.append_assoc]
      exact apart_type hname _ "<" (by decide)
    have hclose := cuts_operator (by decide : ">" ∈ operators) (endsOperator_of_breaks hbreaks)
      hbrackets
    simp only [List.isEmpty_cons, Bool.false_eq_true, if_false, String.toList_append,
      List.append_assoc, List.cons_append, List.nil_append]
    exact cuts_identifier h.1 rfl (cuts_operator (by decide) (hopen _)
      (cuts_separated harguments rfl hclose))

/-- Each of several types is printed with its tokens. -/
theorem types_print (ts : List TypeRef) (h : ∀ n ∈ typesNodes ts, n.Legible) :
    ∀ t ∈ ts, Prints t.render t.lexemes := by
  match ts with
  | [] => exact List.forall_mem_nil _
  | t :: ts =>
    rw [typesNodes, List.forall_mem_append] at h
    exact List.forall_mem_cons.2 ⟨t.prints h.1, types_print ts h.2⟩
end

/-! ## Expressions -/

theorem renderExpressions_eq (es : List Expression) :
    renderExpressions es = es.map Expression.render := by
  induction es with
  | nil => rfl
  | cons e es ih => rw [renderExpressions, ih, List.map_cons]

theorem renderFields_eq (fields : List ObjectField) :
    renderFields fields = fields.map ObjectField.render := by
  induction fields with
  | nil => rfl
  | cons field fields ih => rw [renderFields, ih, List.map_cons]

/-- A node that is printed as what it is: it can be read, and its keys need no quotes. -/
def Node.Printable (n : Node) : Prop :=
  n.Legible ∧ n.hasPlainKeys = true

/-- A primary that is legible starts with nothing that an operator goes on with. -/
theorem apart_primary {p : Primary} (h : (Node.primary p).Legible) (rest : List Char) :
    Apart (p.render.toList ++ rest) := by
  cases p with
  | number pos literal => exact apart_number h rest
  | text pos value => exact apart_text value rest
  | name pos name => exact apart_identifier h.1 rest
  | truth pos value =>
    cases value with
    | true => exact apart_identifier (by decide : isIdentifier "true" = true) rest
    | false => exact apart_identifier (by decide : isIdentifier "false" = true) rest
  | this pos => exact apart_identifier (by decide : isIdentifier "this" = true) rest
  | creation pos className arguments =>
    simp only [Primary.render, String.toList_append]
    exact @apart_of_notMem 'n' (by decide) _
  | object pos fields =>
    simp only [Primary.render, String.toList_append]
    exact @apart_of_notMem '\x7b' (by decide) _
  | parens pos inner =>
    simp only [Primary.render, String.toList_append]
    exact @apart_of_notMem '(' (by decide) _

theorem Primary.mem_nodes (p : Primary) : Node.primary p ∈ p.nodes := by
  cases p <;> exact List.mem_cons_self

theorem Operator.symbol_mem (o : Operator) : o.symbol ∈ Lexer.operators := by
  cases o <;> decide

theorem Sign.symbol_mem (s : Sign) : s.symbol ∈ Lexer.operators := by
  cases s <;> decide

/-- Signs in front of something that is no sign stand each by itself. -/
theorem cuts_signs (signs : List Sign) {rest : List Char} {ms : List Lexeme} (hrest : Apart rest)
    (hcuts : Cuts rest ms) :
    Cuts ((String.join (signs.map Sign.symbol)).toList ++ rest)
      (signs.map (fun sign => .operator sign.symbol) ++ ms) := by
  have hsigns : Cuts ((String.join (signs.map Sign.symbol)).toList ++ rest)
      (signs.map (fun sign => .operator sign.symbol) ++ ms) ∧
      Apart ((String.join (signs.map Sign.symbol)).toList ++ rest) := by
    simp only [String.toList_join]
    induction signs with
    | nil => exact ⟨hcuts, hrest⟩
    | cons sign signs ih =>
      simp only [List.map_cons, List.flatMap_cons, List.append_assoc, List.cons_append]
      refine ⟨cuts_operator sign.symbol_mem (ih.2 _ sign.symbol_mem) ih.1, ?_⟩
      cases sign with
      | not => exact @apart_of_notMem '!' (by decide) _
      | minus => exact @apart_of_notMem '-' (by decide) _
  exact hsigns.1

/-- An operator between blanks stands by itself. -/
theorem cuts_between {o : String} (ho : o ∈ operators) {rest : List Char} {ms : List Lexeme}
    (hcuts : Cuts rest ms) : Cuts (' ' :: (o.toList ++ ' ' :: rest)) (.operator o :: ms) :=
  cuts_blank (cuts_operator ho (@apart_of_notMem ' ' (by decide) rest o ho) (cuts_blank hcuts))

mutual
/-- **An expression is printed with its tokens.** -/
theorem Expression.prints (e : Expression) (h : ∀ n ∈ e.nodes, n.Printable) :
    Prints e.render e.lexemes := by
  intro rest ms hrest hcuts
  match e with
  | .chain pos value =>
    rw [Expression.nodes, List.forall_mem_cons] at h
    exact value.prints h.2 rest ms hrest hcuts
  | .choice pos condition yes no =>
    simp only [Expression.nodes, List.forall_mem_cons, List.forall_mem_append] at h
    obtain ⟨-, hcondition, hyes, hno⟩ := h
    have hno := no.prints hno rest ms hrest hcuts
    have hyes := yes.prints hyes _ _ rfl
      (cuts_blank (cuts_mark ":" rfl (by decide) (cuts_blank hno)))
    simp only [Expression.render, Expression.lexemes, String.toList_append, List.append_assoc,
      List.cons_append]
    exact condition.prints hcondition _ _ rfl (cuts_between (by decide : "?" ∈ operators) hyes)

/-- **A chain is printed with its tokens**: there is a blank on both sides of every operator. -/
theorem Chain.prints (c : Chain) (h : ∀ n ∈ c.nodes, n.Printable) :
    Prints c.render c.lexemes := by
  intro rest ms hrest hcuts
  obtain ⟨pos, first, links⟩ := c
  rw [Chain.nodes, List.forall_mem_append] at h
  obtain ⟨hlinks, hbreaks⟩ := links_print links h.2 rest ms hrest hcuts
  rw [Chain.render, Chain.lexemes, String.toList_append, List.append_assoc, List.append_assoc]
  exact first.prints h.1 _ _ hbreaks hlinks

/-- A blank stands in front of each link, so that what is before it ends there. -/
theorem links_print (links : List Link) (h : ∀ n ∈ linksNodes links, n.Printable)
    (rest : List Char) (ms : List Lexeme) (hrest : breaks rest = true) (hcuts : Cuts rest ms) :
    Cuts ((renderLinks links).toList ++ rest) (linksLexemes links ++ ms) ∧
      breaks ((renderLinks links).toList ++ rest) = true := by
  match links with
  | [] => exact ⟨hcuts, hrest⟩
  | .mk pos operator operand :: links =>
    rw [linksNodes, Link.nodes, List.forall_mem_append] at h
    obtain ⟨hlinks, hbreaks⟩ := links_print links h.2 rest ms hrest hcuts
    simp only [renderLinks, Link.render, linksLexemes, Link.lexemes, String.toList_append,
      List.append_assoc, List.cons_append]
    exact ⟨cuts_between operator.symbol_mem (operand.prints h.1 _ _ hbreaks hlinks), rfl⟩

/-- **An operand is printed with its tokens**: every sign is an operator of its own, as no operator
goes on with what stands behind it. -/
theorem Operand.prints (o : Operand) (h : ∀ n ∈ o.nodes, n.Printable) :
    Prints o.render o.lexemes := by
  intro rest ms hrest hcuts
  obtain ⟨pos, signs, value⟩ := o
  rw [Operand.nodes, List.forall_mem_cons] at h
  obtain ⟨hvalue, hapart⟩ := value.prints h.2 rest ms hrest hcuts
  rw [Operand.render, Operand.lexemes, String.toList_append, List.append_assoc, List.append_assoc]
  exact cuts_signs signs hapart hvalue

/-- **A primary and the steps behind it are printed with their tokens.** -/
theorem Postfix.prints (p : Postfix) (h : ∀ n ∈ p.nodes, n.Printable) (rest : List Char)
    (ms : List Lexeme) (hrest : breaks rest = true) (hcuts : Cuts rest ms) :
    Cuts (p.render.toList ++ rest) (p.lexemes ++ ms) ∧ Apart (p.render.toList ++ rest) := by
  obtain ⟨pos, primary, suffixes⟩ := p
  rw [Postfix.nodes, List.forall_mem_append] at h
  obtain ⟨hsuffixes, hbreaks⟩ := suffixes_print suffixes h.2 rest ms hrest hcuts
  rw [Postfix.render, Postfix.lexemes, String.toList_append, List.append_assoc, List.append_assoc]
  exact ⟨primary.prints h.1 _ _ hbreaks hsuffixes,
    apart_primary (h.1 _ primary.mem_nodes).1 _⟩

/-- **A step is printed with its tokens**, and starts with a mark that breaks words. -/
theorem Suffix.prints (s : Suffix) (h : ∀ n ∈ s.nodes, n.Printable) (rest : List Char)
    (ms : List Lexeme) (hrest : breaks rest = true) (hcuts : Cuts rest ms) :
    Cuts (s.render.toList ++ rest) (s.lexemes ++ ms) ∧ breaks (s.render.toList ++ rest) = true := by
  match s with
  | .member pos name =>
    rw [Suffix.nodes, List.forall_mem_singleton] at h
    rw [Suffix.render, String.toList_append]
    exact ⟨cuts_mark _ rfl (by decide) (cuts_identifier h.1 hrest hcuts), rfl⟩
  | .index pos value =>
    rw [Suffix.nodes, List.forall_mem_cons] at h
    have hvalue := value.prints h.2 _ _ rfl (cuts_mark "]" rfl (by decide) hcuts)
    simp only [Suffix.render, Suffix.lexemes, String.toList_append, List.append_assoc,
      List.cons_append, List.nil_append]
    exact ⟨cuts_mark _ rfl (by decide) hvalue, rfl⟩
  | .call pos arguments =>
    rw [Suffix.nodes, List.forall_mem_cons] at h
    exact arguments.prints h.2 rest ms hcuts

theorem suffixes_print (suffixes : List Suffix) (h : ∀ n ∈ suffixesNodes suffixes, n.Printable)
    (rest : List Char) (ms : List Lexeme) (hrest : breaks rest = true) (hcuts : Cuts rest ms) :
    Cuts ((renderSuffixes suffixes).toList ++ rest) (suffixesLexemes suffixes ++ ms) ∧
      breaks ((renderSuffixes suffixes).toList ++ rest) = true := by
  match suffixes with
  | [] => exact ⟨hcuts, hrest⟩
  | suffix :: suffixes =>
    rw [suffixesNodes, List.forall_mem_append] at h
    obtain ⟨hsuffixes, hbreaks⟩ := suffixes_print suffixes h.2 rest ms hrest hcuts
    rw [renderSuffixes, suffixesLexemes, String.toList_append, List.append_assoc,
      List.append_assoc]
    exact suffix.prints h.1 _ _ hbreaks hsuffixes

/-- **Arguments are printed with their tokens**, in parentheses. -/
theorem Arguments.prints (a : Arguments) (h : ∀ n ∈ a.nodes, n.Printable) (rest : List Char)
    (ms : List Lexeme) (hcuts : Cuts rest ms) :
    Cuts (a.render.toList ++ rest) (a.lexemes ++ ms) ∧ breaks (a.render.toList ++ rest) = true := by
  obtain ⟨pos, values⟩ := a
  have hvalues := cuts_separated (expressions_print values h) rfl
    (cuts_mark ")" rfl (by decide) hcuts)
  simp only [Arguments.render, Arguments.lexemes, renderExpressions_eq, expressionsLexemes_eq,
    String.toList_append, List.append_assoc, List.cons_append, List.nil_append]
  exact ⟨cuts_mark _ rfl (by decide) hvalues, rfl⟩

theorem expressions_print (es : List Expression) (h : ∀ n ∈ expressionsNodes es, n.Printable) :
    ∀ e ∈ es, Prints e.render e.lexemes := by
  match es with
  | [] => exact List.forall_mem_nil _
  | e :: es =>
    rw [expressionsNodes, List.forall_mem_append] at h
    exact List.forall_mem_cons.2 ⟨e.prints h.1, expressions_print es h.2⟩

/-- **A primary is printed with its tokens.** -/
theorem Primary.prints (p : Primary) (h : ∀ n ∈ p.nodes, n.Printable) :
    Prints p.render p.lexemes := by
  intro rest ms hrest hcuts
  match p with
  | .creation pos className arguments =>
    rw [Primary.nodes, List.forall_mem_cons] at h
    obtain ⟨harguments, hbreaks⟩ := arguments.prints h.2 rest ms hcuts
    have hname := cuts_identifier h.1.1 hbreaks harguments
    simp only [Primary.render, Primary.lexemes, String.toList_append, List.append_assoc]
    exact cuts_identifier (by decide : isIdentifier "new" = true) rfl (cuts_blank hname)
  | .object pos fields =>
    rw [Primary.nodes, List.forall_mem_cons] at h
    have hfields := cuts_separated (fields_print fields h.1.2 h.2) rfl
      (cuts_blank (cuts_mark "\x7d" rfl (by decide) hcuts))
    simp only [Primary.render, Primary.lexemes, renderFields_eq, fieldsLexemes_eq,
      String.toList_append, List.append_assoc, List.cons_append, List.nil_append]
    exact cuts_mark _ rfl (by decide) (cuts_blank hfields)
  | .number pos literal => exact cuts_number (h _ List.mem_cons_self).1 hrest hcuts
  | .text pos value => exact cuts_text value hcuts
  | .truth pos true => exact cuts_identifier (by decide : isIdentifier "true" = true) hrest hcuts
  | .truth pos false => exact cuts_identifier (by decide : isIdentifier "false" = true) hrest hcuts
  | .this pos => exact cuts_identifier (by decide : isIdentifier "this" = true) hrest hcuts
  | .name pos name => exact cuts_identifier (h _ List.mem_cons_self).1.1 hrest hcuts
  | .parens pos inner =>
    rw [Primary.nodes, List.forall_mem_cons] at h
    have hinner := inner.prints h.2 _ _ rfl (cuts_mark ")" rfl (by decide) hcuts)
    simp only [Primary.render, Primary.lexemes, String.toList_append, List.append_assoc,
      List.cons_append, List.nil_append]
    exact cuts_mark _ rfl (by decide) hinner

/-- **A field is printed with its tokens**, if its key is an identifier. -/
theorem ObjectField.prints (f : ObjectField) (hkey : isIdentifier f.key = true)
    (h : ∀ n ∈ f.nodes, n.Printable) : Prints f.render f.lexemes := by
  intro rest ms hrest hcuts
  match f with
  | .valued pos key value =>
    have hvalue := value.prints h rest ms hrest hcuts
    simp only [ObjectField.render, ObjectField.lexemes, String.toList_append, List.append_assoc,
      List.cons_append]
    exact cuts_identifier hkey rfl (cuts_mark _ rfl (by decide) (cuts_blank hvalue))
  | .shorthand pos key => exact cuts_identifier hkey hrest hcuts

/-- Each of several fields is printed with its tokens. -/
theorem fields_print (fields : List ObjectField)
    (hkeys : (fields.all fun field => isIdentifier field.key) = true)
    (h : ∀ n ∈ fieldsNodes fields, n.Printable) : ∀ f ∈ fields, Prints f.render f.lexemes := by
  match fields with
  | [] => exact List.forall_mem_nil _
  | field :: fields =>
    rw [List.all_cons, Bool.and_eq_true] at hkeys
    rw [fieldsNodes, List.forall_mem_append] at h
    exact List.forall_mem_cons.2 ⟨field.prints hkeys.1 h.1, fields_print fields hkeys.2 h.2⟩
end

end Source

end Covenant
