import Covenant.Proofs.Code.Closure
import Covenant.Proofs.Code.Readonly
import Covenant.Proofs.Formatting.Nesting
import Covenant.Proofs.Literals.Words
import Covenant.Proofs.Syntax.Spelling

/-!
# The words of code

Besides the names that it applies, code is written with words: names of variables, numerals, and
quoted names. Where a contract is spelled, that is where its names are identifiers and its literals
are words of their types, all of these are inert: none holds a brace, breaks a line or begins a
comment. This holds of the code of its bodies (`CodesBody.inert`), of each function that is
generated besides, and of the entries of both pieces.
-/

namespace Covenant

open Source.Lexer (isIdentifier isIdentifierPart)

/-! ## Spelled contracts -/

namespace Ty

mutual
/-- **The names that a type is written with**: those of classes and interfaces. -/
def names : Ty → List String
  | address contract => contract.toList
  | array item => item.names
  | mapping keys value => namesAll keys ++ value.names
  | record shape => [shape.name]
  | _ => []

/-- The names that several types are written with. -/
def namesAll : List Ty → List String
  | [] => []
  | t :: ts => t.names ++ namesAll ts
end

/-- A type is spelled if its names are identifiers. -/
def Spelled (t : Ty) : Prop :=
  ∀ name ∈ t.names, isIdentifier name

end Ty

/-- A parameter is spelled, with its type. -/
structure Typed.Spelled (p : Parameter) : Prop where
  name : isIdentifier p.name
  type : p.type.Spelled

/-- **An expression is spelled**, apart from its parts: a literal is a word of its type, and a name
is an identifier. -/
def Expr.Spelled : Expr → Prop
  | .literal _ type text => WordLiteral type text
  | .var _ name | .storage _ name | .entry _ name _ | .length _ name => isIdentifier name
  | .external _ contract _ | .deploy _ contract _ => isIdentifier contract
  | .call _ target _ _ => isIdentifier target
  | _ => True

namespace Stmt

/-- The name that a statement holds besides its operands. -/
def name? : Stmt → Option String
  | setProperty _ name _ | declare _ name _ _ | setVariable _ name _ | setEntry _ name _ _
  | emit _ name _ => some name
  | _ => none

/-- **A statement is spelled**, apart from its branches. -/
structure Spelled (s : Stmt) : Prop where
  name : ∀ name ∈ s.name?, isIdentifier name
  operands : ∀ e ∈ s.operands, ∀ part ∈ e.subexpressions, part.Spelled

/-- A body is spelled if all statements within it are. -/
def SpelledAll (body : List Stmt) : Prop :=
  ∀ s ∈ substatementsAll body, s.Spelled

end Stmt

/-- A variable is spelled, with its type and its initial value. -/
structure StateVar.Spelled (v : StateVar) : Prop where
  name : isIdentifier v.name
  type : v.type.Spelled
  initial : ∀ e ∈ v.initial, ∀ part ∈ e.subexpressions, part.Spelled

/-- A method is spelled, with its parameters and its body. -/
structure Routine.Spelled (m : Routine) : Prop where
  name : isIdentifier m.name
  params : ∀ p ∈ m.params, p.Spelled
  body : Stmt.SpelledAll m.body

/-- An event is spelled, with its parameters. -/
structure Event.Spelled (e : Event) : Prop where
  name : isIdentifier e.name
  params : ∀ p ∈ e.params, p.Spelled

/-- **A contract is spelled**: all its names are identifiers, and all its literals are words of
their types. -/
structure Contract.Spelled (c : Contract) : Prop where
  name : isIdentifier c.name
  stateVars : ∀ v ∈ c.stateVars, v.Spelled
  params : ∀ p ∈ c.constructorParams, p.Spelled
  body : Stmt.SpelledAll c.constructorBody
  methods : ∀ m ∈ c.methods, m.Spelled
  events : ∀ e ∈ c.events, e.Spelled

/-! ## Inert words -/

namespace Yul

variable {name text : String}

/-- A word of letters, digits, underscores and dollar signs holds no brace, no line break and
nothing that a title is written with. -/
theorem inert_of_isIdentifierPart (h : ∀ c ∈ text.toList, isIdentifierPart c = true) :
    Inert text := by
  have hmarks : ['\x7b', '\x7d', '\n', '/', '-'].all fun c => !isIdentifierPart c := by decide
  intro c hc hmark
  have hmark := List.all_eq_true.1 hmarks c hmark
  rw [h c hc] at hmark
  cases hmark

/-- An identifier consists of such characters. -/
theorem isIdentifierPart_of_isIdentifier (h : isIdentifier name) :
    ∀ c ∈ name.toList, isIdentifierPart c = true := by
  obtain ⟨c, cs, hname, hstart, hrest⟩ := Source.Lexer.exists_of_isIdentifier h
  rw [hname, List.forall_mem_cons]
  refine ⟨?_, hrest⟩
  rw [isIdentifierPart, hstart, Bool.true_or]

/-- **Identifiers are inert.** -/
theorem inert_of_isIdentifier (h : isIdentifier name) : Inert name :=
  inert_of_isIdentifierPart (isIdentifierPart_of_isIdentifier h)

theorem toList_quoteChar_of_isIdentifierPart {c : Char} (h : isIdentifierPart c = true) :
    (Text.quoteChar c).toList = [c] := by
  -- identifiers are ASCII, so each of their characters can be looked at
  have hascii : ∀ n < 128, isIdentifierPart (Char.ofNat n) = true →
      (Text.quoteChar (Char.ofNat n)).toList = [Char.ofNat n] := by
    decide +kernel
  have hlt : c.toNat < 128 := by
    rw [isIdentifierPart, Bool.or_eq_true, Source.Lexer.isIdentifierStart_iff,
      Source.Lexer.isDigit_iff] at h
    omega
  have hc := hascii c.toNat hlt
  rw [Char.ofNat_toNat] at hc
  exact hc h

/-- Quoting such a name adds the quotes only. -/
theorem inert_quote (h : ∀ c ∈ text.toList, isIdentifierPart c = true) :
    Inert (Text.quote text) := by
  have hquote : '"' ∉ ['\x7b', '\x7d', '\n', '/', '-'] := by decide
  intro d hd
  rw [Text.toList_quote, List.mem_cons, List.mem_append, List.mem_singleton, List.mem_flatMap] at hd
  rcases hd with rfl | ⟨c, hc, hd⟩ | rfl
  · exact hquote
  · rw [toList_quoteChar_of_isIdentifierPart (h c hc), List.mem_singleton] at hd
    exact hd ▸ inert_of_isIdentifierPart h c hc
  · exact hquote

/-- A number in decimal digits is inert. -/
theorem inert_toString (n : Nat) : Inert (toString n) := by
  refine inert_of_isIdentifierPart fun c hc => ?_
  rw [Nat.toString_eq_ofList_toDigits, String.toList_ofList] at hc
  have hdigit := Nat.isDigit_of_mem_toDigits (by omega) (by omega) hc
  rw [isIdentifierPart, hdigit, Bool.or_true]

/-- A name behind a stem. -/
theorem inert_prefixed {stem : String} (hstem : Inert stem) (hname : isIdentifier name) :
    Inert (stem ++ name) :=
  Text.avoids_append.2 ⟨hstem, inert_of_isIdentifier hname⟩

/-- A number behind a stem. -/
theorem inert_numbered {stem : String} (hstem : Inert stem) (n : Nat) :
    Inert (stem ++ toString n) :=
  Text.avoids_append.2 ⟨hstem, inert_toString n⟩

/-- Hexadecimal digits behind their mark are inert. -/
theorem inert_hexDigits {digits : List Char} (h : digits.all Text.isHexDigit) :
    Inert ("0x" ++ String.ofList digits) := by
  refine Text.avoids_append.2 ⟨by decide, inert_of_isIdentifierPart fun c hc => ?_⟩
  rw [String.toList_ofList] at hc
  refine Source.Lexer.isIdentifierPart_of_isHexPart ?_
  rw [Source.Lexer.isHexPart, List.all_eq_true.1 h c hc, Bool.true_or]

/-- Bytes in hexadecimal digits are inert. -/
theorem inert_hexBytes (bytes : List UInt8) : Inert ("0x" ++ Text.hexBytes bytes) :=
  inert_hexDigits (Emit.hexBytes_digits bytes).1

theorem inert_hexNat (n : Nat) : Inert ("0x" ++ Text.hexNat n) := by
  refine inert_hexDigits (List.all_eq_true.2 ?_)
  exact Text.isHexDigit_of_foldlM (Text.natOfHexDigits?_toDigits n)

/-- **Numerals are inert.** -/
theorem inert_of_isWordNumeral {word : String} (h : Emit.IsWordNumeral word) : Inert word := by
  cases h with
  | decimal => exact inert_toString _
  | hexadecimal _ _ hdigits => exact inert_hexDigits hdigits

/-! ## Words within code -/

/-- Words that are all inert. -/
def InertAll (words : List String) : Prop :=
  ∀ word ∈ words, Inert word

section InertAll

variable {word : String} {words more : List String}

@[simp] theorem inertAll_nil : InertAll [] :=
  List.forall_mem_nil _

@[simp] theorem inertAll_cons : InertAll (word :: words) ↔ Inert word ∧ InertAll words :=
  List.forall_mem_cons

@[simp] theorem inertAll_append : InertAll (words ++ more) ↔ InertAll words ∧ InertAll more :=
  List.forall_mem_append

end InertAll

/-- **A function whose text is plain**: what it applies and its words are inert. -/
structure Function.Plain (f : Function) : Prop where
  calls : InertAll f.calls
  words : InertAll f.words

theorem Function.Plain.item {f : Function} (h : f.Plain) (setting : Setting) :
    (Item.function setting f).Plain :=
  ⟨h.calls, h.words⟩

@[simp] theorem Expr.wordsAll_append (first second : List Expr) :
    wordsAll (first ++ second) = wordsAll first ++ wordsAll second := by
  induction first with
  | nil => rfl
  | cons e first ih => rw [List.cons_append, wordsAll, wordsAll, ih, List.append_assoc]

@[simp] theorem Stmt.wordsAll_append (first second : List Stmt) :
    wordsAll (first ++ second) = wordsAll first ++ wordsAll second := by
  induction first with
  | nil => rfl
  | cons s first ih => rw [List.cons_append, wordsAll, wordsAll, ih, List.append_assoc]

@[simp] theorem Expr.wordsAll_vars (names : List String) : wordsAll (names.map var) = names := by
  induction names with
  | nil => rfl
  | cons name names ih => rw [List.map_cons, wordsAll, ih, words, List.singleton_append]

/-- The words of expressions are inert if those of each one are. -/
theorem Expr.inertAll_wordsAll {es : List Expr} :
    InertAll (wordsAll es) ↔ ∀ e ∈ es, InertAll e.words := by
  induction es with
  | nil => exact iff_of_true inertAll_nil (List.forall_mem_nil _)
  | cons e es ih => rw [wordsAll, inertAll_append, ih, List.forall_mem_cons]

/-- The words of statements are inert if those of each one are. -/
theorem Stmt.inertAll_wordsAll {body : List Stmt} :
    InertAll (wordsAll body) ↔ ∀ s ∈ body, InertAll s.words := by
  induction body with
  | nil => exact iff_of_true inertAll_nil (List.forall_mem_nil _)
  | cons s body ih => rw [wordsAll, inertAll_append, ih, List.forall_mem_cons]

end Yul

namespace Emit

open Yul (Inert InertAll inertAll_nil inertAll_cons inertAll_append inert_of_isIdentifier
  inert_prefixed inert_numbered)

/-! ## Bodies -/

/-- The name of a local in code is inert, as its own is. -/
theorem inert_localName {name : String} (h : isIdentifier name) : Inert (localName name) :=
  inert_prefixed (by decide) h

theorem inertAll_resultVars (returns : Ty) : InertAll (resultVars returns) := by
  cases returns with
  | void | missing | anyRecord => exact inertAll_nil
  | record shape =>
    exact List.forall_mem_map.2 fun i _ => inert_numbered (by decide) i
  | _ => exact List.forall_mem_singleton.2 (by decide)

/-- The words of an operation are those of its operands: the function that it applies is not among
them. -/
theorem words_operation (op : BinaryOp) (left right : Yul.Expr) :
    (operation op left right).words = left.words ++ right.words := by
  cases op <;> simp [operation, Yul.Expr.binary, Yul.Expr.isZero, Yul.Expr.words, Yul.Expr.wordsAll]

section Bodies

variable {x : Context}

/-- **The code of an expression has inert words.** -/
theorem Codes.inert {e : Expr} {y : Yul.Expr} (h : Codes x e y)
    (hspelled : ∀ part ∈ e.subexpressions, part.Spelled) : InertAll y.words := by
  induction e using Expr.induction generalizing y with
  | h e ih =>
    rw [Expr.subexpressions_eq, List.forall_mem_cons] at hspelled
    obtain ⟨hself, hparts⟩ := hspelled
    -- the parts are spelled with the expression, so their code has inert words
    have hpart {part : Expr} {code : Yul.Expr} (hpart : part ∈ e.parts)
        (hcode : Codes x part code) : InertAll code.words :=
      ih part hpart hcode fun sub hsub => hparts sub (List.mem_flatMap.2 ⟨part, hpart, hsub⟩)
    have heach {es : List Expr} {codes : List Yul.Expr} (hes : es ⊆ e.parts)
        (hcodes : CodesEach x es codes) : InertAll (Yul.Expr.wordsAll codes) := by
      refine Yul.Expr.inertAll_wordsAll.2 fun code hcode => ?_
      obtain ⟨part, hmem, hcode⟩ := hcodes.exists_of_mem code hcode
      exact hpart (hes hmem) hcode
    cases h with
    | literal hword =>
      have hnumeral := (writtenAsWord hself _).numeral _ hword
      exact inertAll_cons.2 ⟨Yul.inert_of_isWordNumeral hnumeral, inertAll_nil⟩
    | var => exact inertAll_cons.2 ⟨inert_localName hself, inertAll_nil⟩
    | storage | length | this | environment => exact inertAll_nil
    | binary hleft hright =>
      rw [words_operation]
      exact inertAll_append.2
        ⟨hpart (by simp [Expr.parts]) hleft, hpart (by simp [Expr.parts]) hright⟩
    | not hvalue => exact inertAll_append.2 ⟨hpart (by simp [Expr.parts]) hvalue, inertAll_nil⟩
    | external haddress => exact hpart (by simp [Expr.parts]) haddress
    | entry _ _ hes | hash hes | deploy _ _ hes => exact heach (List.Subset.refl _) hes
    | call hreceiver _ _ hargs =>
      have hargs := heach (List.subset_cons_self _ _) hargs
      rw [Yul.Expr.words, Yul.Expr.wordsAll_append, inertAll_append]
      refine ⟨?_, hargs⟩
      cases hreceiver with
      | own => exact inertAll_nil
      | external _ _ _ haddress =>
        have haddress := hpart List.mem_cons_self (.external haddress)
        exact inertAll_append.2 ⟨haddress, inertAll_nil⟩
      | stored _ _ _ _ _ hproperty =>
        have hproperty := hpart List.mem_cons_self hproperty
        exact inertAll_append.2 ⟨hproperty, inertAll_nil⟩

/-- The codes of spelled expressions are inert, one by one. -/
theorem CodesEach.inert {es : List Expr} {ys : List Yul.Expr} (h : CodesEach x es ys)
    (hspelled : ∀ e ∈ es, ∀ part ∈ e.subexpressions, part.Spelled) :
    InertAll (Yul.Expr.wordsAll ys) := by
  refine Yul.Expr.inertAll_wordsAll.2 fun y hy => ?_
  obtain ⟨e, he, hcode⟩ := h.exists_of_mem y hy
  exact hcode.inert (hspelled e he)

mutual
/-- **The code of a statement has inert words.** -/
theorem CodesStmt.inert {returns : Ty} : ∀ {s : Stmt} {code : List Yul.Stmt},
    CodesStmt x returns s code → (∀ t ∈ s.substatements, t.Spelled) →
      InertAll (Yul.Stmt.wordsAll code)
  | s, _, h, hspelled => by
    have hself : s ∈ s.substatements := by
      rw [Stmt.substatements_eq]
      exact List.mem_cons_self
    obtain ⟨hname, hoperands⟩ := hspelled s hself
    have hone {stmt : Yul.Stmt} (h : InertAll stmt.words) :
        InertAll (Yul.Stmt.wordsAll [stmt]) :=
      inertAll_append.2 ⟨h, inertAll_nil⟩
    cases h with
    | exit | skip => exact inertAll_nil
    | blank => exact hone (inertAll_cons.2 ⟨inert_localName (hname _ rfl), inertAll_nil⟩)
    | declare hvalue | setVariable hvalue =>
      have hvalue := hvalue.inert (hoperands _ (by simp [Stmt.operands]))
      exact hone (inertAll_cons.2 ⟨inert_localName (hname _ rfl), hvalue⟩)
    | setProperty _ _ hvalue | throw hvalue =>
      have hvalue := hvalue.inert (hoperands _ (by simp [Stmt.operands]))
      exact hone (inertAll_append.2 ⟨hvalue, inertAll_nil⟩)
    | setEntry _ _ hindices hvalue =>
      have hindices := hindices.inert fun e he => hoperands e (List.mem_append_left _ he)
      have hvalue := hvalue.inert (hoperands _ (by simp [Stmt.operands]))
      refine hone ?_
      rw [Yul.Stmt.run, Yul.Stmt.words, Yul.Expr.words, Yul.Expr.wordsAll_append]
      exact inertAll_append.2 ⟨hindices, inertAll_append.2 ⟨hvalue, inertAll_nil⟩⟩
    | exitWord hreturns hvalue =>
      have hvalue := hvalue.inert (hoperands _ (by simp [Stmt.operands]))
      have hresult := inertAll_resultVars returns
      rw [hreturns, inertAll_cons] at hresult
      have hassign := inertAll_cons.2 ⟨hresult.1, hvalue⟩
      exact inertAll_append.2 ⟨hassign, hone inertAll_nil⟩
    | @exitRecord _ recordPos shape fields ys _ hfields =>
      -- the fields stand within the record that is returned
      have hfields := hfields.inert fun e he part hpart => by
        refine hoperands _ (List.mem_singleton.2 rfl) part ?_
        rw [Expr.subexpressions_eq]
        exact List.mem_cons_of_mem _ (List.mem_flatMap.2 ⟨e, he, hpart⟩)
      rw [Yul.Stmt.wordsAll_append, inertAll_append, Yul.Stmt.inertAll_wordsAll]
      refine ⟨fun s hs => ?_, hone inertAll_nil⟩
      obtain ⟨i, hi, rfl⟩ := List.getElem_of_mem hs
      rw [List.getElem_zipWith]
      exact inertAll_cons.2 ⟨inertAll_resultVars returns _ (List.getElem_mem _),
        Yul.Expr.inertAll_wordsAll.1 hfields _ (List.getElem_mem _)⟩
    | ifThen hcondition hyes =>
      have hcondition := hcondition.inert (hoperands _ (by simp [Stmt.operands]))
      have hyes := hyes.inert fun t ht => hspelled t (by simp [Stmt.substatements, ht])
      exact hone (inertAll_append.2 ⟨hcondition, hyes⟩)
    | ifElse _ hcondition hyes hno =>
      have hcondition := hcondition.inert (hoperands _ (by simp [Stmt.operands]))
      have hyes := hyes.inert fun t ht => hspelled t (by simp [Stmt.substatements, ht])
      have hno := hno.inert fun t ht => hspelled t (by simp [Stmt.substatements, ht])
      exact hone (inertAll_append.2 ⟨inertAll_append.2 ⟨hcondition, hno⟩, hyes⟩)
    | emit _ hargs => exact hone (hargs.inert hoperands)
    | evaluate hvalue =>
      have hvalue := hvalue.inert (hoperands _ (by simp [Stmt.operands]))
      refine hone ?_
      split
      · exact inertAll_append.2 ⟨hvalue, inertAll_nil⟩
      · exact hvalue

/-- **The code of a body has inert words.** -/
theorem CodesBody.inert {returns : Ty} : ∀ {body : List Stmt} {code : List Yul.Stmt},
    CodesBody x returns body code → Stmt.SpelledAll body → InertAll (Yul.Stmt.wordsAll code)
  | _, _, .nil, _ => inertAll_nil
  | _, _, .cons h hrest, hspelled => by
    rw [Stmt.SpelledAll, Stmt.substatementsAll, List.forall_mem_append] at hspelled
    rw [Yul.Stmt.wordsAll_append, inertAll_append]
    exact ⟨h.inert hspelled.1, hrest.inert hspelled.2⟩
end

end Bodies

/-! ## Generated definitions -/

section Definitions

open Yul.Expr Yul.Stmt

attribute [local simp] Yul.Function.words Yul.Stmt.words Yul.Stmt.wordsAll Yul.Expr.words
  Yul.Expr.wordsAll define run mstore sstore revert add sub isZero mload sload free num binary
  revertIf panicIf

@[local simp] theorem inert_repr (n : Nat) : Inert n.repr :=
  Yul.inert_toString n

/-- The variables of generated definitions. -/
@[simp] theorem inert_variables :
    Inert "ptr" ∧ Inert "ret" ∧ Inert "addr" ∧ Inert "size" ∧ Inert "target" ∧ Inert "base" ∧
      Inert "slot" ∧ Inert "value" ∧ Inert "index" ∧ Inert "length" ∧ Inert "hash" ∧
      Inert "args" ∧ Inert "args_size" ∧ Inert "runtime" ∧ Inert "runtime_size" := by
  decide +kernel

/-- Names that are made of a stem and a number are inert with the stem. -/
theorem inertAll_numbered {stem : String} (h : Inert stem) (count : Nat) :
    InertAll (Storage.numbered stem count) :=
  List.forall_mem_map.2 fun _ _ => inert_numbered h _

@[simp] theorem inertAll_argNames (count : Nat) : InertAll (argNames count) :=
  inertAll_numbered (by decide) count

@[simp] theorem inert_endName (number : Nat) : Inert (endName number) :=
  inert_numbered (by decide) number

/-- The parameters of a function are inert if those of the method are spelled right. -/
theorem inertAll_paramNames {params : List Parameter} (h : ∀ p ∈ params, p.Spelled) :
    InertAll (Context.paramNames params) :=
  List.forall_mem_map.2 fun p hp => inert_localName (h p hp).name

section Encoding

variable {stop : String} {start : Yul.Expr} {values : List (Ty × Yul.Expr)}
  (hstart : InertAll start.words)
include hstart

theorem inert_head (index : Nat) : InertAll (head start index).words := by
  unfold head
  split
  · exact hstart
  · simpa using hstart

/-- The words of encoded values are those of the values, and places in memory. -/
theorem inert_encodeFrom (hstop : Inert stop) (hvalues : ∀ value ∈ values, InertAll value.2.words)
    (index : Nat) : InertAll (Yul.Stmt.wordsAll (encodeFrom stop start index values)) := by
  induction values generalizing index with
  | nil => exact inertAll_nil
  | cons value rest ih =>
    rw [List.forall_mem_cons] at hvalues
    have hhead := inert_head hstart index
    rw [encodeFrom, Yul.Stmt.wordsAll_append, inertAll_append, encodeOne]
    refine ⟨?_, ih hvalues.2 (index + 1)⟩
    split
    · simp [hstart, hstop, hhead, hvalues.1]
    · simp [hhead, hvalues.1]

/-- **An encoding has inert words** if its place and its values have. -/
theorem inert_encode (hstop : Inert stop) (hvalues : ∀ value ∈ values, InertAll value.2.words) :
    InertAll (Yul.Stmt.wordsAll (encode stop start values)) := by
  have hrest := inert_encodeFrom hstart hstop hvalues 0
  simp [encode, hstart, hstop, hrest]

end Encoding

/-- Variables with inert names are encoded with inert words. -/
theorem inert_encodeVars (types : List Ty) {names : List String} {start : Yul.Expr}
    (hstart : InertAll start.words) (hnames : InertAll names) (number : Nat) :
    InertAll (Yul.Stmt.wordsAll (encode (endName number) start (typedVars types names))) := by
  refine inert_encode hstart (inert_endName number) fun value hvalue => ?_
  obtain ⟨name, hname, hvar⟩ := List.mem_map.1 (List.of_mem_zip hvalue).2
  rw [← hvar]
  exact inertAll_cons.2 ⟨hnames name hname, inertAll_nil⟩

theorem inert_decodeCalldata (type : Ty) (place : Nat) :
    InertAll (decodeCalldata type place).words := by
  unfold decodeCalldata
  split <;> simp

theorem inert_decodeMemory (type : Ty) {start head : Yul.Expr} (hstart : InertAll start.words)
    (hhead : InertAll head.words) : InertAll (decodeMemory type start head).words := by
  unfold decodeMemory
  split <;> simp [hstart, hhead]

theorem inert_selector (signature : String) : Inert (Abi.selector signature) :=
  Yul.inert_hexBytes _

theorem inert_topic (signature : String) : Inert (Abi.topic signature) :=
  Yul.inert_hexBytes _

/-- The function that calls another contract has no words but its own name and numbers. -/
theorem inert_callDefinition {contract : String} {m : Routine}
    (hname : Inert (callFunction contract m.name)) (number : Nat) :
    InertAll (callDefinition contract m number).words := by
  have hresults := inertAll_resultVars m.returns
  have hselector := inert_selector (Abi.methodSignature m)
  have hresult : InertAll (decodeMemory m.returns (var "ptr") (var "ptr")).words :=
    inert_decodeMemory m.returns (by simp) (by simp)
  unfold callDefinition
  split
  · simp [hname, hresults, hselector, inert_encodeVars]
  · simp [hname, hresults, hselector, inert_encodeVars, hresult]

/-- The function that deploys a contract also holds the name of its object. -/
theorem inert_deployDefinition {c : Contract} (hname : isIdentifier c.name) (number : Nat) :
    InertAll (deployDefinition c number).words := by
  have hfunction : Inert (deployFunction c.name) :=
    inert_prefixed (by decide) hname
  have hquoted := Yul.inert_quote (Yul.isIdentifierPart_of_isIdentifier hname)
  simp [deployDefinition, hfunction, hquoted, inert_encodeVars]

/-- The function of an event holds the topic as a number, whatever the event is called. -/
theorem inert_eventDefinition {e : Event} (h : e.Spelled) (number : Nat) :
    InertAll (eventDefinition e number).words := by
  have hfunction : Inert (eventFunction e.name) :=
    inert_prefixed (by decide) h.name
  have hparams := inertAll_paramNames h.params
  have htopic := inert_topic (Abi.eventSignature e)
  have hstart : InertAll (var "ptr").words := by simp
  have hencode := inert_encodeVars (e.params.map Typed.type) hstart hparams number
  simp [eventDefinition, hfunction, hparams, htopic, hencode]

theorem inert_hashDefinition (count : Nat) : InertAll (hashDefinition count).words := by
  have hname : Inert (hashFunction count) :=
    inert_numbered (by decide) count
  have hwords : InertAll (Storage.numbered "word" count) := inertAll_numbered (by decide) count
  have hstores : InertAll (Yul.Stmt.wordsAll ((Storage.numbered "word" count).mapIdx fun i word =>
      mstore (add (var "ptr") (num (32 * i))) (var word))) := by
    refine Yul.Stmt.inertAll_wordsAll.2 fun s hs => ?_
    obtain ⟨i, hi, rfl⟩ := List.mem_mapIdx.1 hs
    simp [hwords _ (List.getElem_mem hi)]
  simpa [hashDefinition, hname, hwords] using hstores

theorem inert_entrySlotFunction (arity : Nat) :
    InertAll (Storage.entrySlotFunction arity).words := by
  have hname : Inert (Storage.entrySlot arity) :=
    inert_numbered (by decide) arity
  have hkeys : InertAll (Storage.numbered "key" arity) := inertAll_numbered (by decide) arity
  have hhashes : InertAll
      (Yul.Stmt.wordsAll ((Storage.numbered "key" arity).reverse.flatMap Storage.hashKey)) := by
    refine Yul.Stmt.inertAll_wordsAll.2 fun s hs => ?_
    obtain ⟨key, hkey, hs⟩ := List.mem_flatMap.1 hs
    have hkey := hkeys key (List.mem_reverse.1 hkey)
    have hall : ∀ s ∈ Storage.hashKey key, InertAll s.words := by
      simp [Storage.hashKey, hkey]
    exact hall s hs
  simp [Storage.entrySlotFunction, hname, hkeys, hhashes]

/-- The shared functions are inert, each by itself. -/
theorem inert_shared : ∀ f ∈ shared, InertAll f.words := by
  have hall : ∀ f ∈ shared, ∀ word ∈ f.words, Inert word := by decide +kernel
  exact hall

/-- **The functions of a variable have inert words.** -/
theorem inert_accessor {creation : Bool} {cell : Storage.Cell} (hname : isIdentifier cell.name)
    (hnumeral : ∀ source word, cell.location = .inlined source word → Inert word) :
    ∀ f ∈ accessorFunctions creation cell, InertAll f.words := by
  have hgetter : Inert (Storage.getter cell.name) := inert_prefixed (by decide) hname
  have hsetter : Inert (Storage.setter cell.name) := inert_prefixed (by decide) hname
  have hlength : Inert (Storage.lengthGetter cell.name) := inert_prefixed (by decide) hname
  unfold accessorFunctions Storage.accessors
  cases hlocation : cell.location with
  | scalar slot =>
    simp [Storage.reader, Storage.writer, Yul.Item.function?, Storage.decimal, hgetter, hsetter]
  | array slot =>
    have hbound := Yul.inert_hexNat Storage.maxArrayIndex.toNat
    have hcode : Inert "0x32" := by decide
    simp [Yul.Item.function?, Storage.arrayLength, Storage.arrayGet, Storage.arraySet,
      Storage.decimal, Storage.hexadecimal, Storage.beyond, indexCode, hlength, hgetter, hsetter,
      hbound, hcode]
  | mapping arity bucket =>
    have hbase := Yul.inert_hexNat (Storage.Location.base arity bucket).toNat
    have hkeys : InertAll (Storage.keyNames arity) := by
      unfold Storage.keyNames
      split
      · exact List.forall_mem_singleton.2 (by decide)
      · exact inertAll_numbered (by decide) arity
    simp [Storage.reader, Storage.writer, Yul.Item.function?, Storage.hexadecimal, hgetter, hsetter,
      hkeys, hbase]
  | inlined source word =>
    simp [Storage.reader, Yul.Item.function?, hgetter, hnumeral source word hlocation]
  | staged source index =>
    have hquoted := Yul.inert_quote (Yul.isIdentifierPart_of_isIdentifier hname)
    cases creation with
    | true => simp [Storage.reader, Storage.writer, Yul.Item.function?, hgetter, hsetter]
    | false => simp [Storage.reader, Yul.Item.function?, hgetter, hquoted]

/-! ## Entries -/

theorem inert_decoding (r : Route) : InertAll (Yul.Stmt.wordsAll r.decoding) := by
  unfold Route.decoding
  rw [Yul.Stmt.wordsAll_append, Yul.Stmt.wordsAll_append, inertAll_append, inertAll_append,
    and_assoc]
  refine ⟨?_, ?_, Yul.Stmt.inertAll_wordsAll.2 fun s hs => ?_⟩
  · split <;> simp
  · split <;> simp
  · obtain ⟨i, hi, rfl⟩ := List.mem_mapIdx.1 hs
    have hname := inertAll_argNames _ _ (List.of_mem_zip (List.getElem_mem hi)).2
    exact inertAll_cons.2 ⟨hname, inert_decodeCalldata _ _⟩

theorem inert_answering (r : Route) (number : Nat) :
    InertAll (Yul.Stmt.wordsAll (r.answering number)) := by
  have hresults : InertAll r.resultNames := inertAll_numbered (by decide) _
  have hstart : InertAll (var "ptr").words := by simp
  have hencode := inert_encodeVars r.outputs hstart hresults number
  unfold Route.answering
  split
  · simp [Route.invocation]
  · simp [Route.invocation, hresults, hencode]

/-- **The dispatcher has inert words** if the signatures of its routes are inert. -/
theorem inert_dispatcher {routes : List Route} (hroutes : ∀ r ∈ routes, Inert r.signature) :
    ∀ item ∈ dispatcher routes, InertAll item.words := by
  have hcases (number : Nat) : ∀ c ∈ casesFrom number routes, InertAll c.words := by
    induction routes generalizing number with
    | nil => exact List.forall_mem_nil _
    | cons r rest ih =>
      rw [List.forall_mem_cons] at hroutes
      rw [casesFrom, List.forall_mem_cons]
      have hbody : InertAll (Yul.Stmt.wordsAll (r.decoding ++ r.answering number)) := by
        rw [Yul.Stmt.wordsAll_append, inertAll_append]
        exact ⟨inert_decoding r, inert_answering r number⟩
      -- the label is a numeral, and the comment is the signature
      exact ⟨inertAll_cons.2 ⟨inert_selector _, inertAll_cons.2 ⟨hroutes.1, hbody⟩⟩,
        ih hroutes.2 _⟩
  have hchoice : InertAll ((casesFrom 1 routes).flatMap Yul.Case.words) := by
    intro word hword
    obtain ⟨c, hc, hword⟩ := List.mem_flatMap.1 hword
    exact hcases 1 c hc word hword
  unfold dispatcher
  split
  · simp [Yul.Item.words]
  · simp [Yul.Item.words, hchoice]

/-- A constructor asks for the size of the object of its contract, by name. -/
theorem inert_constructorArguments {contract : String} (hname : isIdentifier contract)
    (types : List Ty) :
    InertAll (Yul.Stmt.wordsAll (Context.constructorArguments contract types)) := by
  have hquoted := Yul.inert_quote (Yul.isIdentifierPart_of_isIdentifier hname)
  unfold Context.constructorArguments
  split
  · exact inertAll_nil
  · rw [Yul.Stmt.wordsAll_append, inertAll_append]
    refine ⟨by simp [hquoted], Yul.Stmt.inertAll_wordsAll.2 fun s hs => ?_⟩
    obtain ⟨i, hi, rfl⟩ := List.mem_mapIdx.1 hs
    have hname := inertAll_argNames _ _ (List.of_mem_zip (List.getElem_mem hi)).2
    have hargs : InertAll (var "args").words := by simp
    exact inertAll_cons.2 ⟨hname, inert_decodeMemory _ hargs (inert_head hargs i)⟩

/-- The name of a runtime object is an identifier with a suffix, and inert in its quotes. -/
theorem inert_quote_runtimeName {contract : String} (h : isIdentifier contract) :
    Inert (Text.quote (Yul.Object.runtimeName contract)) := by
  refine Yul.inert_quote ?_
  rw [Yul.Object.runtimeName, String.toList_append, List.forall_mem_append]
  exact ⟨Yul.isIdentifierPart_of_isIdentifier h, List.all_eq_true.1 (by decide)⟩

/-- **The end of a constructor is inert**: it holds the names of the object and of the variables
that are kept in the code. -/
theorem inert_returnRuntime {x : Context} (hname : isIdentifier x.contract.name)
    (hcells : ∀ cell ∈ x.layout.cells, isIdentifier cell.name) :
    InertAll (Yul.Stmt.wordsAll x.returnRuntime) := by
  have hquoted := inert_quote_runtimeName hname
  unfold Context.returnRuntime
  rw [Yul.Stmt.wordsAll_append, Yul.Stmt.wordsAll_append, inertAll_append, inertAll_append,
    and_assoc]
  refine ⟨by simp [hquoted], Yul.Stmt.inertAll_wordsAll.2 fun s hs => ?_, by simp⟩
  obtain ⟨cell, hcell, hs⟩ := List.mem_filterMap.1 hs
  have hcell := Yul.inert_quote (Yul.isIdentifierPart_of_isIdentifier (hcells cell hcell))
  split at hs
  · cases hs
    simp [hcell]
  · cases hs

/-- **The code that creates a contract begins with inert words.** -/
theorem inert_creationEntry {x : Context} {prologue : List Yul.Stmt}
    (hname : isIdentifier x.contract.name)
    (hcells : ∀ cell ∈ x.layout.cells, isIdentifier cell.name)
    (hprologue : InertAll (Yul.Stmt.wordsAll prologue)) :
    InertAll (Yul.Stmt.wordsAll (creationEntry x prologue)) := by
  have harguments := inert_constructorArguments hname
    (x.contract.constructorParams.map Typed.type)
  have hreturn := inert_returnRuntime hname hcells
  have hinvoke : InertAll (Yul.Stmt.wordsAll
      (x.contract.construction.toList.map Context.invokeConstructor)) := by
    refine Yul.Stmt.inertAll_wordsAll.2 (List.forall_mem_map.2 fun k _ => ?_)
    simp [Context.invokeConstructor]
  simp [creationEntry, harguments, hprologue, hinvoke, hreturn]

end Definitions

/-! ## Signatures -/

mutual
/-- A type is written in words that are inert, by induction on the type. -/
theorem inert_render : ∀ {t : Ty}, t.Spelled → Inert t.render
  | .void, _ | .boolean, _ | .number, _ | .address none, _ | .bytes, _ | .text, _ | .anyRecord, _
  | .missing, _ => by decide
  | .address (some contract), h => by
    rw [Ty.render]
    simp only [Text.avoids_append]
    exact ⟨⟨by decide, inert_of_isIdentifier (h contract (List.mem_singleton.2 rfl))⟩, by decide⟩
  | .array item, h => Text.avoids_append.2 ⟨inert_render (t := item) h, by decide⟩
  | .mapping keys value, h => by
    rw [Ty.Spelled, Ty.names, List.forall_mem_append] at h
    exact inert_renderMapping h.1 (inert_render (t := value) h.2)
  | .record shape, h => inert_of_isIdentifier (h shape.name (List.mem_singleton.2 rfl))

theorem inert_renderMapping : ∀ {keys : List Ty} {value : String},
    (∀ name ∈ Ty.namesAll keys, isIdentifier name) → Inert value →
      Inert (Ty.renderMapping keys value)
  | [], _, _, hvalue => hvalue
  | key :: keys, _, h, hvalue => by
    rw [Ty.namesAll, List.forall_mem_append] at h
    rw [Ty.renderMapping]
    simp only [Text.avoids_append]
    exact ⟨⟨⟨⟨by decide, inert_render h.1⟩, by decide⟩, inert_renderMapping h.2 hvalue⟩, by decide⟩
end

/-- The name of a type in a signature is inert. -/
theorem inert_typeName : ∀ {t : Ty}, t.Spelled → Inert (Abi.typeName t)
  | .array item, h => Text.avoids_append.2 ⟨inert_typeName (t := item) h, by decide⟩
  | .number, _ | .boolean, _ | .bytes, _ | .text, _ | .anyRecord, _ => by decide
  | .address _, _ => (by decide : Inert "address")
  | .record _, _ => (by decide : Inert "tuple")
  | .void, h | .mapping _ _, h | .missing, h => inert_render h

/-- A signature is inert, if the names in it are identifiers. -/
theorem inert_signature {name : String} {types : List Ty} (hname : isIdentifier name)
    (htypes : ∀ t ∈ types, t.Spelled) : Inert (Abi.signature name types) := by
  have htypes : Inert (",".intercalate (types.map Abi.typeName)) := by
    refine Text.avoids_intercalate (by decide) (List.forall_mem_map.2 fun t ht => ?_)
    exact inert_typeName (htypes t ht)
  unfold Abi.signature
  simp only [Text.avoids_append]
  exact ⟨⟨⟨inert_of_isIdentifier hname, by decide⟩, htypes⟩, by decide⟩

/-- Types whose names are identifiers are spelled right. -/
theorem spelled_of_namesAll {types : List Ty} (h : ∀ name ∈ Ty.namesAll types, isIdentifier name) :
    ∀ t ∈ types, t.Spelled := by
  induction types with
  | nil => exact List.forall_mem_nil _
  | cons t types ih =>
    rw [Ty.namesAll, List.forall_mem_append] at h
    exact List.forall_mem_cons.2 ⟨h.1, ih h.2⟩

/-- **Every route of a spelled contract has an inert signature.** -/
theorem inert_routes {c : Contract} (h : c.Spelled) : ∀ r ∈ routes c, Inert r.signature := by
  rw [routes, List.forall_mem_append, List.forall_mem_map, List.forall_mem_map]
  refine ⟨fun v hv => ?_, fun m hm => ?_⟩
  · have hv := h.stateVars v (List.mem_of_mem_filter hv)
    refine inert_signature hv.name ?_
    unfold Abi.getterInputs
    split
    · rename_i keys value htype
      have htype := htype ▸ hv.type
      rw [Ty.Spelled, Ty.names, List.forall_mem_append] at htype
      exact spelled_of_namesAll htype.1
    · exact List.forall_mem_singleton.2 (List.forall_mem_nil _)
    · exact List.forall_mem_nil _
  · have hm := h.methods m (List.mem_of_mem_filter hm)
    exact inert_signature hm.name (List.forall_mem_map.2 fun p hp => (hm.params p hp).type)

end Emit

end Covenant
