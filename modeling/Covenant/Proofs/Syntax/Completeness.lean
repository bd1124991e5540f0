import Covenant.Proofs.Syntax.Acceptance
import Covenant.Proofs.Syntax.Lexemes
import Covenant.Proofs.Syntax.Texts

/-!
# Trees are read back from their tokens

The tokens of a type or expression are read as that tree, up to positions, in front of every token
that may stand behind one (`TypeRef.readBack`, `Expression.readBack`). The proof follows the
productions: each is found on the tokens of its node, and the alternatives that are tried before
give up within two tokens. The nesting that a reading needs is bounded by the number of tokens: no
more than eight productions start at one.
-/

namespace Covenant

namespace Source

/-! ## What may stand behind a tree -/

/-- What may stand behind a type. -/
def typeEnds : List String := [",", ">", ";"]

/-- What may stand behind a field of an object. -/
def fieldEnds : List String := [",", "\x7d"]

/-- What may stand behind an expression. -/
def expressionEnds : List String := [":", ",", ")", "]", "\x7d", ";"]

/-- What may stand behind an operator chain. -/
def chainEnds : List String := "?" :: expressionEnds

/-- What may stand behind an operand. -/
def operandEnds : List String := operatorWords.map Prod.fst ++ chainEnds

/-- What may stand behind a primary. -/
def primaryEnds : List String := [".", "[", "("] ++ operandEnds

/-- **One of some operators or marks follows**, and no closing brace if what is in front of it ends
in a text that is read as an opening one. -/
def Follows (words : List String) (isOpen : Bool) (after : List Lexeme) : Prop :=
  ∃ l rest, after = l :: rest ∧ (l.kind = .operator ∨ l.kind = .punctuation) ∧ l.value ∈ words ∧
    (isOpen = true → l.value ≠ "\x7d")

namespace Follows

variable {words words' : List String} {isOpen : Bool} {after : List Lexeme}

/-- An operator in front of the rest is what follows. -/
theorem operator {v : String} (hv : v ∈ words) (hclosed : isOpen = true → v ≠ "\x7d") :
    Follows words isOpen (.operator v :: after) :=
  ⟨_, _, rfl, .inl rfl, hv, hclosed⟩

theorem mark {v : String} (hv : v ∈ words) (hclosed : isOpen = true → v ≠ "\x7d") :
    Follows words isOpen (.mark v :: after) :=
  ⟨_, _, rfl, .inr rfl, hv, hclosed⟩

/-- More may follow. -/
theorem mono (h : Follows words isOpen after) (hwords : words ⊆ words') :
    Follows words' isOpen after := by
  obtain ⟨l, rest, hafter, hkind, hvalue, hclosed⟩ := h
  exact ⟨l, rest, hafter, hkind, hwords hvalue, hclosed⟩

theorem value_mem (h : Follows words isOpen after) : ∀ l ∈ after.head?, l.value ∈ words := by
  obtain ⟨l, rest, rfl, -, hvalue, -⟩ := h
  rintro _ ⟨⟩
  exact hvalue

/-- What follows is no word that may not stand there. -/
theorem value_ne (h : Follows words isOpen after) {v : String} (hv : v ∉ words) :
    ∀ l ∈ after.head?, l.value ≠ v :=
  fun l hl hvalue => hv (hvalue ▸ h.value_mem l hl)

/-- What follows is neither a word nor a text, so no key and no operand. -/
theorem kind_ne (h : Follows words isOpen after) :
    ∀ l ∈ after.head?, l.kind ≠ .identifier ∧ l.kind ≠ .text := by
  obtain ⟨l, rest, rfl, hkind, -, -⟩ := h
  rintro _ ⟨⟩
  rcases hkind with hkind | hkind <;> rw [hkind] <;> decide

/-- Behind a text that is read as an opening brace there stands no closing one. -/
theorem closed (h : Follows words isOpen after) (hopen : isOpen = true) :
    ∀ l ∈ after.head?, l.value ≠ "\x7d" := by
  obtain ⟨l, rest, rfl, -, -, hclosed⟩ := h
  rintro _ ⟨⟩
  exact hclosed hopen

end Follows

/-! ## Productions on the tokens of a node -/

section ReadBack

variable {α : Type} {name : Nonterminal α} {slack : Nat} {Before : List Lexeme → Prop}
  {ls : List Lexeme} {a : α}

/-- **A node is read from its tokens**, in front of what may follow it, if productions may nest
eight times as deep as there are tokens; productions that others start with need less. -/
def ReadBack (name : Nonterminal α) (slack : Nat) (Before : List Lexeme → Prop) (ls : List Lexeme)
    (a : α) : Prop :=
  ∀ fuel after, 8 * ls.length ≤ fuel + slack → Before after →
    Accepts (reader fuel (.node name)) ls after (Alike Eq a)

/-- A node is read from its tokens if its grammar takes them, one production further in. -/
theorem readBack_of_rule (hne : ls ≠ []) (hslack : slack ≤ 7)
    (h : ∀ fuel after, 8 * ls.length ≤ fuel + 1 + slack → Before after →
      Accepts (reader fuel (rule name)) ls after fun build => ∀ pos, Alike Eq a (build pos)) :
    ReadBack name slack Before ls a := by
  intro fuel after hfuel hafter
  have hlength := List.length_pos_iff.2 hne
  obtain ⟨fuel, rfl⟩ : ∃ f, fuel = f + 1 := ⟨fuel - 1, by omega⟩
  exact accepts_node (h fuel after hfuel hafter)

end ReadBack

section Pieces

variable {α β : Type} {fuel k : Nat} {g : Rule α} {g' : Rule β} {ls after : List Lexeme}
  {Q : α → Prop} {Q' : β → Prop}

/-- A sequence of which the second part takes nothing. -/
theorem accepts_alone (h : Accepts (reader fuel g) ls after Q)
    (h' : Accepts (reader fuel g') [] after Q') :
    Accepts (reader fuel (.seq g g')) ls after fun p => Q p.1 ∧ Q' p.2 := by
  have hboth : Accepts (reader fuel (.seq g g')) (ls ++ []) after _ := accepts_seq h h'
  rwa [List.append_nil] at hboth

/-- A token and what stands behind it. -/
theorem accepts_first {l : Lexeme} (h : Accepts (reader fuel g) [l] (ls ++ after) Q)
    (h' : Accepts (reader fuel g') ls after Q') :
    Accepts (reader fuel (.seq g g')) (l :: ls) after fun p => Q p.1 ∧ Q' p.2 :=
  accepts_seq h h'

end Pieces

/-! ## Types -/

/-- A type has a token at least. -/
theorem TypeRef.lexemes_ne_nil (t : TypeRef) : t.lexemes ≠ [] := by
  cases t
  exact List.cons_ne_nil _ _

/-- The pairs of brackets behind a type are counted, up to where none follows. -/
theorem accepts_brackets {fuel : Nat} (n : Nat) {after : List Lexeme}
    (h : ∀ l ∈ after.head?, l.value ≠ "[") :
    Accepts (reader fuel (.star (.seq (word "[") (word "]"))))
      (List.replicate n [.mark "[", .mark "]"]).flatten after (·.length = n) := by
  have hstar : Accepts (reader fuel (.star (.seq (word "[") (word "]"))))
      ((List.replicate n ()).flatMap fun _ => [.mark "[", .mark "]"]) after
      (List.Forall₂ (fun _ _ => True) (List.replicate n ())) :=
    accepts_star (fun _ _ _ (_ : True) => (accepts_seq (accepts_word rfl) (accepts_word rfl)).mono
      fun _ _ => trivial) (fun _ _ => List.cons_ne_nil _ _) (fun _ _ _ _ _ => trivial)
      (fun _ _ => trivial) (misses_seq (misses_word h)) (Nat.zero_le _)
  rw [List.flatMap, List.map_replicate] at hstar
  refine hstar.mono fun as has => ?_
  rw [← has.length_eq, List.length_replicate]

/-- Arguments of a type stand between signs that are operators of their own. -/
theorem accepts_typeArguments {fuel : Nat} {arguments : List TypeRef} {after : List Lexeme}
    (h : ∀ t ∈ arguments, ∀ after, Follows typeEnds false after →
      Accepts (reader fuel (.node .typeRef)) t.lexemes after (Alike Eq t))
    (hafter : ∀ l ∈ after.head?, l.value ≠ "<") :
    Accepts (reader fuel (.opt (Source.after (word "<")
      (before (commaList (.node .typeRef)) (word ">")))))
      (if arguments.isEmpty then [] else .operator "<" ::
        (Lexeme.separated (arguments.map TypeRef.lexemes) ++ [.operator ">"])) after
      fun o => List.Forall₂ (Alike Eq) arguments (o.getD []) := by
  cases arguments with
  | nil =>
    refine (readOptional_misses (misses_behind hafter) (Nat.zero_le _)).mono ?_
    rintro _ rfl
    exact .nil
  | cons t ts =>
    refine (readOptional_accepts (accepts_behind rfl (accepts_closed rfl (accepts_commaList h
      (fun _ _ _ => .mark (by decide) fun _ => by decide)
      (fun _ _ => .operator (by decide) fun _ => by decide)
      (by rintro _ ⟨⟩; decide))))).mono ?_
    rintro _ ⟨as, rfl, has⟩
    exact has

mutual
/-- **A type is read from its tokens.** -/
theorem TypeRef.readBack (t : TypeRef) :
    ReadBack .typeRef 0 (Follows typeEnds false) t.lexemes t := by
  refine readBack_of_rule t.lexemes_ne_nil (by omega) fun fuel after hfuel hafter => ?_
  obtain ⟨pos, name, arguments, dimensions⟩ := t
  rw [TypeRef.lexemes, typesLexemes_eq] at hfuel ⊢
  have harguments (t : TypeRef) (ht : t ∈ arguments) (after : List Lexeme)
      (hafter : Follows typeEnds false after) :
      Accepts (reader fuel (.node .typeRef)) t.lexemes after (Alike Eq t) := by
    refine types_readBack arguments t ht fuel after ?_ hafter
    have hle := Lexeme.length_le_separated (List.mem_map_of_mem (f := TypeRef.lexemes) ht)
    have hne : arguments.isEmpty = false := by
      cases arguments with
      | nil => cases ht
      | cons => rfl
    simp only [hne, Bool.false_eq_true, if_false, List.length_cons, List.length_append] at hfuel
    omega
  -- without arguments the reading goes on with the brackets
  have hopen : ∀ l ∈ ((List.replicate dimensions [Lexeme.mark "[", .mark "]"]).flatten ++
      after).head?, l.value ≠ "<" := by
    cases dimensions with
    | zero => exact hafter.value_ne (by decide)
    | succ n =>
      rintro _ ⟨⟩
      decide
  refine accepts_map (accepts_first (accepts_anyOf rfl)
    (accepts_seq (accepts_typeArguments harguments hopen)
      (accepts_brackets dimensions (hafter.value_ne (by decide))))) ?_
  rintro ⟨name, arguments', brackets⟩ ⟨rfl, harguments, rfl⟩ pos'
  exact .typeRef harguments

/-- Each of several types is read back. -/
theorem types_readBack (ts : List TypeRef) :
    ∀ t ∈ ts, ReadBack .typeRef 0 (Follows typeEnds false) t.lexemes t := by
  match ts with
  | [] => exact List.forall_mem_nil _
  | t :: ts => exact List.forall_mem_cons.2 ⟨t.readBack, types_readBack ts⟩
end

/-! ## Primaries that are one token -/

section Primaries

variable {fuel : Nat} {after : List Lexeme}

/-- Without the word there is no creation, and what is none behind the word is given up there. -/
theorem misses_creation {l : Lexeme}
    (h : l.value = "new" → ∀ l' ∈ after.head?, l'.kind ≠ .identifier) :
    Misses (reader fuel (.node .creation)) 1 (l :: after) := by
  refine misses_node fun fuel => misses_map ?_
  by_cases hl : l.value = "new"
  · exact misses_map (misses_seq_second (accepts_word hl) (misses_seq (misses_anyOf (h hl))))
  · exact (misses_behind (by rintro _ ⟨⟩; exact hl)).mono (Nat.zero_le 1)

/-- Without an opening brace there is no object, and what is none behind it is given up there. -/
theorem misses_object {l : Lexeme}
    (h : l.value = "\x7b" → ∀ l' ∈ after.head?, (l'.kind ≠ .identifier ∧ l'.kind ≠ .text) ∧
      l'.value ≠ "\x7d") :
    Misses (reader fuel (.node .objectLiteral)) 1 (l :: after) := by
  refine misses_node fun fuel => misses_map ?_
  by_cases hl : l.value = "\x7b"
  · have hfield : Misses (reader fuel (.node .objectField)) 0 after := by
      refine misses_node fun fuel => misses_map (misses_seq (misses_firstOf ?_ (Nat.zero_le _)))
      simp only [List.forall_mem_cons, List.not_mem_nil, false_implies, implies_true, and_true]
      exact ⟨misses_anyOf fun l' hl' => (h hl l' hl').1.1,
        misses_anyOf fun l' hl' => (h hl l' hl').1.2⟩
    exact misses_map (misses_seq_second (accepts_word hl) (misses_map (misses_seq_second
      (accepts_emptyList hfield) (misses_word fun l' hl' => (h hl l' hl').2))))
  · exact (misses_behind (by rintro _ ⟨⟩; exact hl)).mono (Nat.zero_le 1)

/-- A primary of one token: neither a creation nor an object is found on it. -/
theorem accepts_single {l : Lexeme} {p : Primary} {gs : List (Rule (Position → Primary))}
    (hnew : l.value = "new" → ∀ l' ∈ after.head?, l'.kind ≠ .identifier)
    (hbrace : l.value = "\x7b" → ∀ l' ∈ after.head?, (l'.kind ≠ .identifier ∧ l'.kind ≠ .text) ∧
      l'.value ≠ "\x7d")
    (h : Chooses fuel gs [l] after fun build => ∀ pos, Alike Eq p (build pos)) :
    Accepts (reader fuel (firstOf (.map (fun p _ => p) (.node .creation) ::
      .map (fun p _ => p) (.node .objectLiteral) :: gs))) [l] after
      fun build => ∀ pos, Alike Eq p (build pos) :=
  accepts_firstOf (chooses_tail (misses_map (misses_creation hnew)) (by decide)
    (chooses_tail (misses_map (misses_object hbrace)) (by decide) h))

/-- No expression starts with a closing parenthesis. -/
theorem misses_expression : Misses (reader fuel (.node .expression)) 0 (.mark ")" :: after) := by
  have hprimary (fuel : Nat) :
      Misses (reader fuel (.node .primary)) 0 (.mark ")" :: after) := by
    refine misses_node fun fuel => misses_firstOf (k := 1) ?_ (by decide)
    simp only [List.forall_mem_cons, List.not_mem_nil, false_implies, implies_true, and_true]
    refine ⟨misses_map (misses_creation fun h => absurd h (by decide)),
      misses_map (misses_object fun h => absurd h (by decide)),
      (misses_map (misses_anyOf ?_)).mono (Nat.zero_le 1),
      (misses_map (misses_anyOf ?_)).mono (Nat.zero_le 1),
      (misses_map (misses_oneOf ?_)).mono (Nat.zero_le 1),
      (misses_map (misses_word ?_)).mono (Nat.zero_le 1),
      (misses_map (misses_anyOf ?_)).mono (Nat.zero_le 1),
      (misses_map (misses_behind ?_)).mono (Nat.zero_le 1)⟩ <;> rintro _ ⟨⟩ <;> decide
  have hoperand (fuel : Nat) :
      Misses (reader fuel (.node .operand)) 0 (.mark ")" :: after) := by
    refine misses_node fun fuel => misses_map ?_
    have hsigns : Accepts (reader fuel (.star (oneOf signWords))) [] (.mark ")" :: after)
        (· = []) :=
      fun s hs => readMany_misses (misses_oneOf (by rintro _ ⟨⟩; decide)) (Nat.zero_le _) _ s hs
    have hseq : Misses (reader fuel (.seq (.star (oneOf signWords)) (.node .postfixed)))
        (0 + 0) ([] ++ .mark ")" :: after) :=
      misses_seq_second hsigns (misses_node fun fuel => misses_map (misses_seq (hprimary fuel)))
    exact hseq
  exact misses_node fun fuel => misses_map (misses_seq (misses_node fun fuel =>
    misses_map (misses_seq (hoperand fuel))))

/-- No field starts with a closing brace. -/
theorem misses_objectField :
    Misses (reader fuel (.node .objectField)) 0 (.mark "\x7d" :: after) := by
  refine misses_node fun fuel => misses_map (misses_seq (misses_firstOf ?_ (Nat.zero_le _)))
  simp only [List.forall_mem_cons, List.not_mem_nil, false_implies, implies_true, and_true]
  refine ⟨misses_anyOf ?_, misses_anyOf ?_⟩ <;> rintro _ ⟨⟩ <;> decide

end Primaries

/-! ## Expressions -/

/-- A node that is read as what it is: it can be read, and an object is closed. -/
def Node.Readable (n : Node) : Prop :=
  n.Legible ∧ n.isClosed = true

theorem Arguments.lexemes_ne_nil (a : Arguments) : a.lexemes ≠ [] := by
  cases a
  exact List.cons_ne_nil _ _

theorem Primary.lexemes_ne_nil (p : Primary) : p.lexemes ≠ [] := by
  cases p <;> exact List.cons_ne_nil _ _

theorem Suffix.lexemes_ne_nil (s : Suffix) : s.lexemes ≠ [] := by
  cases s with
  | call pos arguments => exact arguments.lexemes_ne_nil
  | _ => exact List.cons_ne_nil _ _

theorem Postfix.lexemes_ne_nil (p : Postfix) : p.lexemes ≠ [] := by
  cases p with
  | mk pos primary suffixes =>
    exact List.append_ne_nil_of_left_ne_nil primary.lexemes_ne_nil _

theorem Operand.lexemes_ne_nil (o : Operand) : o.lexemes ≠ [] := by
  cases o with
  | mk pos signs value => exact List.append_ne_nil_of_right_ne_nil _ value.lexemes_ne_nil

theorem Chain.lexemes_ne_nil (c : Chain) : c.lexemes ≠ [] := by
  cases c with
  | mk pos first links => exact List.append_ne_nil_of_left_ne_nil first.lexemes_ne_nil _

/-- An expression has a token at least, so that fuel is spent on one. -/
theorem Expression.lexemes_ne_nil (e : Expression) : e.lexemes ≠ [] := by
  cases e with
  | chain pos value => exact value.lexemes_ne_nil
  | choice pos condition yes no =>
    exact List.append_ne_nil_of_left_ne_nil condition.lexemes_ne_nil _

/-- A numeral is no word that starts with another character than a digit. -/
theorem ne_of_numeral {literal v : String} (h : Lexer.Numeral literal.toList)
    (hv : (v.toList.head?.all fun c => !c.isDigit) = true) : literal ≠ v := by
  rintro rfl
  obtain ⟨c, cs, hlist, hc⟩ := h.exists_digit
  simp [hlist, hc] at hv

/-- Only two words are signs. -/
theorem lookup_sign_of_ne {v : String} (h : v ≠ "!") (h' : v ≠ "-") :
    signWords.lookup v = none := by
  simp [List.lookup_eq_none_iff, signWords, h, h']

/-- What an operand starts with behind its signs is not read as a sign. -/
theorem lookup_sign {p : Primary} (hsign : p.isSign = false) (h : (Node.primary p).Legible)
    (after : List Lexeme) :
    ∀ l ∈ (p.lexemes ++ after).head?, signWords.lookup l.value = none := by
  cases p with
  | number pos literal =>
    rintro _ ⟨⟩
    exact lookup_sign_of_ne (ne_of_numeral h (by decide)) (ne_of_numeral h (by decide))
  | text pos value =>
    rintro _ ⟨⟩
    exact Option.isNone_iff_eq_none.1 (Option.isSome_eq_false_iff.1 hsign)
  | name pos name =>
    rintro _ ⟨⟩
    refine lookup_sign_of_ne ?_ ?_ <;> rintro rfl <;> exact absurd h.1 (by decide)
  | truth pos value => cases value <;> rintro _ ⟨⟩ <;> decide
  | _ =>
    rintro _ ⟨⟩
    decide

theorem Arguments.exists_lexemes (a : Arguments) : ∃ rest, a.lexemes = .mark "(" :: rest := by
  cases a
  exact ⟨_, rfl⟩

/-- A step may stand behind a primary. -/
theorem Suffix.follows (s : Suffix) {isOpen : Bool} {suffixes : List Suffix}
    {after : List Lexeme} :
    Follows primaryEnds isOpen ((s :: suffixes).flatMap Suffix.lexemes ++ after) := by
  cases s with
  | member pos name => exact .mark (v := ".") (by decide) fun _ => by decide
  | index pos value => exact .mark (v := "[") (by decide) fun _ => by decide
  | call pos arguments =>
    obtain ⟨rest, hrest⟩ := arguments.exists_lexemes
    rw [List.flatMap_cons, Suffix.lexemes, hrest]
    exact .mark (by decide) fun _ => by decide

/-- A truth value is found by its word. -/
theorem lookup_truth (value : Bool) :
    truthWords.lookup (if value then "true" else "false") = some value := by
  cases value <;> decide

/-- An operator is found by its symbol: no two have the same. -/
theorem Operator.lookup_symbol (o : Operator) : operatorWords.lookup o.symbol = some o := by
  cases o <;> decide

theorem Operator.symbol_mem_ends (o : Operator) : o.symbol ∈ operandEnds := by
  cases o <;> decide

theorem Operator.symbol_ne_brace (o : Operator) : o.symbol ≠ "\x7d" := by
  cases o <;> decide

theorem Sign.lookup_symbol (s : Sign) : signWords.lookup s.symbol = some s := by
  cases s <;> decide

/-- No operator may stand behind a chain. -/
theorem lookup_operator_ends : ∀ v ∈ chainEnds, operatorWords.lookup v = none := by
  decide

/-- No piece has more tokens than all of them. -/
theorem length_le_flatMap {α : Type} {f : α → List Lexeme} {a : α} {as : List α} (h : a ∈ as) :
    (f a).length ≤ (as.flatMap f).length := by
  obtain ⟨front, back, rfl⟩ := List.append_of_mem h
  simp only [List.flatMap_append, List.flatMap_cons, List.length_append]
  omega

/-- A creation is read from its tokens, if its arguments are. -/
theorem creation_readBack {pos : Position} {className : String} {arguments : Arguments}
    (h : ReadBack .arguments 7 (fun _ => True) arguments.lexemes arguments) :
    ReadBack .creation 6 (fun _ => True) (.word "new" :: .word className :: arguments.lexemes)
      (Primary.creation pos className arguments) := by
  refine readBack_of_rule (List.cons_ne_nil _ _) (by omega) fun fuel after hfuel _ => ?_
  simp only [List.length_cons] at hfuel
  refine accepts_map (accepts_behind rfl (accepts_first (accepts_anyOf rfl)
    (h fuel after (by omega) trivial))) ?_
  rintro ⟨className', arguments'⟩ ⟨rfl, harguments⟩ pos'
  exact .creation harguments

/-- An object is read from its tokens, if its fields are and the last one does not end in a text
that is read as an opening brace: the closing brace behind it would be taken for the end of that
one. -/
theorem object_readBack {pos : Position} {fields : List ObjectField}
    (h : ∀ field ∈ fields,
      ReadBack .objectField 7 (Follows fieldEnds field.isOpen) field.lexemes field)
    (hclosed : (Node.primary (.object pos fields)).isClosed = true) :
    ReadBack .objectLiteral 6 (fun _ => True)
      (.mark "\x7b" :: (Lexeme.separated (fieldsLexemes fields) ++ [.mark "\x7d"]))
      (Primary.object pos fields) := by
  refine readBack_of_rule (List.cons_ne_nil _ _) (by omega) fun fuel after hfuel _ => ?_
  rw [fieldsLexemes_eq] at hfuel ⊢
  simp only [List.length_cons, List.length_append, List.length_nil] at hfuel
  refine accepts_map (accepts_behind rfl (accepts_closed rfl (accepts_looseList
    (fun field hfield after (hafter : Follows fieldEnds field.isOpen after) =>
      h field hfield fuel after ?_ hafter)
    (fun _ _ _ => .mark (by decide) fun _ => by decide) ?_ ?_ misses_objectField)))
    fun _ hfields pos' => .object hfields
  · have := Lexeme.length_le_separated (List.mem_map_of_mem (f := ObjectField.lexemes) hfield)
    omega
  · intro field hfield
    have hlast : field.isOpen = false := by
      rw [Node.isClosed, hfield] at hclosed
      simpa using hclosed
    exact .mark (by decide) fun hopen => absurd (hlast.symm.trans hopen) Bool.false_ne_true
  · rintro _ ⟨⟩
    decide

mutual
/-- **An expression is read from its tokens.** -/
theorem Expression.readBack (e : Expression) (h : ∀ n ∈ e.nodes, n.Readable) :
    ReadBack .expression 0 (Follows expressionEnds e.isOpen) e.lexemes e := by
  refine readBack_of_rule e.lexemes_ne_nil (by omega) fun fuel after hfuel hafter => ?_
  match e with
  | .chain pos value =>
    rw [Expression.nodes, List.forall_mem_cons] at h
    rw [Expression.lexemes] at hfuel ⊢
    refine accepts_map (accepts_alone (value.readBack h.2 fuel after (by omega)
      (hafter.mono (by decide))) (readOptional_misses
        (misses_behind (hafter.value_ne (by decide))) (Nat.zero_le _))) ?_
    rintro ⟨condition, branches⟩ ⟨hvalue, rfl⟩ pos'
    exact .plain hvalue
  | .choice pos condition yes no =>
    simp only [Expression.nodes, List.forall_mem_cons, List.forall_mem_append] at h
    obtain ⟨-, hcondition, hyes, hno⟩ := h
    simp only [Expression.lexemes, List.length_append, List.length_cons] at hfuel ⊢
    refine accepts_map (accepts_seq
      (condition.readBack hcondition fuel _ (by omega) (.operator (by decide) fun _ => by decide))
      (readOptional_accepts (accepts_behind rfl (accepts_seq
        (yes.readBack hyes fuel _ (by omega) (.mark (by decide) fun _ => by decide))
        (accepts_behind rfl (no.readBack hno fuel after (by omega) hafter)))))) ?_
    rintro ⟨condition', branches⟩ ⟨hcondition', ⟨yes', no'⟩, rfl, hyes', hno'⟩ pos'
    exact .choice hcondition' hyes' hno'

/-- **A chain is read back**: each operand ends where an operator follows, and the last one where
none does. -/
theorem Chain.readBack (c : Chain) (h : ∀ n ∈ c.nodes, n.Readable) :
    ReadBack .chain 1 (Follows chainEnds c.isOpen) c.lexemes c := by
  refine readBack_of_rule c.lexemes_ne_nil (by omega) fun fuel after hfuel hafter => ?_
  obtain ⟨pos, first, links⟩ := c
  rw [Chain.nodes, List.forall_mem_append] at h
  rw [Chain.lexemes, linksLexemes_eq] at hfuel ⊢
  rw [List.length_append] at hfuel
  have hfirst := List.length_pos_iff.2 first.lexemes_ne_nil
  have hends : Follows operandEnds first.isOpen (links.flatMap Link.lexemes ++ after) := by
    cases links with
    | nil => exact hafter.mono (by decide)
    | cons link links =>
      obtain ⟨pos, operator, operand⟩ := link
      exact .operator operator.symbol_mem_ends fun _ => operator.symbol_ne_brace
  refine accepts_map (accepts_seq (first.readBack h.1 fuel _ (by omega) hends)
    (accepts_star (fun link hlink after (hafter : Follows operandEnds link.isOpen after) =>
      links_readBack links h.2 link hlink fuel after ?_ hafter) ?_ ?_ ?_ ?_ (Nat.zero_le _))) ?_
  · have := length_le_flatMap (f := Link.lexemes) hlink
    omega
  · rintro ⟨pos, operator, operand⟩ -
    exact List.cons_ne_nil _ _
  · rintro link - ⟨pos, operator, operand⟩ - after
    exact .operator operator.symbol_mem_ends fun _ => operator.symbol_ne_brace
  · intro link hlink
    rw [Chain.isOpen, hlink] at hafter
    exact hafter.mono (by decide)
  · refine misses_node fun fuel => misses_map (misses_seq (misses_oneOf fun l hl => ?_))
    exact lookup_operator_ends l.value (hafter.value_mem l hl)
  · rintro ⟨first', links'⟩ ⟨hfirst', hlinks'⟩ pos'
    exact .chain hfirst' hlinks'

/-- **A link is read back**: the operator by its symbol, the operand behind it. -/
theorem Link.readBack (l : Link) (h : ∀ n ∈ l.nodes, n.Readable) :
    ReadBack .link 2 (Follows operandEnds l.isOpen) l.lexemes l := by
  obtain ⟨pos, operator, operand⟩ := l
  refine readBack_of_rule (List.cons_ne_nil _ _) (by omega) fun fuel after hfuel hafter => ?_
  rw [Link.lexemes, List.length_cons] at hfuel
  refine accepts_map (accepts_first (accepts_oneOf operator.lookup_symbol)
    (operand.readBack h fuel after (by omega) hafter)) ?_
  rintro ⟨operator', operand'⟩ ⟨rfl, hoperand⟩ pos'
  exact .link hoperand

/-- Each of several links is read back. -/
theorem links_readBack (links : List Link) (h : ∀ n ∈ linksNodes links, n.Readable) :
    ∀ l ∈ links, ReadBack .link 2 (Follows operandEnds l.isOpen) l.lexemes l := by
  match links with
  | [] => exact List.forall_mem_nil _
  | link :: links =>
    rw [linksNodes, List.forall_mem_append] at h
    exact List.forall_mem_cons.2 ⟨link.readBack h.1, links_readBack links h.2⟩

/-- **An operand is read back**: its primary starts with no sign, so the signs end where they
should. -/
theorem Operand.readBack (o : Operand) (h : ∀ n ∈ o.nodes, n.Readable) :
    ReadBack .operand 3 (Follows operandEnds o.isOpen) o.lexemes o := by
  refine readBack_of_rule o.lexemes_ne_nil (by omega) fun fuel after hfuel hafter => ?_
  obtain ⟨pos, signs, value⟩ := o
  rw [Operand.nodes, List.forall_mem_cons] at h
  have hsign : ∀ l ∈ (value.lexemes ++ after).head?, signWords.lookup l.value = none := by
    obtain ⟨pos, primary, suffixes⟩ := value
    rw [Postfix.lexemes, List.append_assoc]
    exact lookup_sign h.1.1 (h.2 _ (List.mem_append_left _ primary.mem_nodes)).1 _
  rw [Operand.lexemes, List.length_append] at hfuel
  rw [Operand.lexemes, List.map_eq_flatMap]
  refine accepts_map (accepts_seq (accepts_star (R := Eq) (fun sign _ after (_ : True) =>
    (accepts_oneOf sign.lookup_symbol).mono fun _ h => h.symm) (fun _ _ => List.cons_ne_nil _ _)
      (fun _ _ _ _ _ => trivial) (fun _ _ => trivial) (misses_oneOf hsign) (Nat.zero_le _))
    (value.readBack h.2 fuel after (by omega) hafter)) ?_
  rintro ⟨signs', value'⟩ ⟨hsigns, hvalue⟩ pos'
  rw [List.forall₂_eq_eq_eq] at hsigns
  cases hsigns
  exact .operand hvalue

/-- **A primary and the steps behind it are read back**: what follows the last one starts no further
step. -/
theorem Postfix.readBack (p : Postfix) (h : ∀ n ∈ p.nodes, n.Readable) :
    ReadBack .postfixed 4 (Follows operandEnds p.isOpen) p.lexemes p := by
  refine readBack_of_rule p.lexemes_ne_nil (by omega) fun fuel after hfuel hafter => ?_
  obtain ⟨pos, primary, suffixes⟩ := p
  rw [Postfix.nodes, List.forall_mem_append] at h
  rw [Postfix.lexemes, suffixesLexemes_eq] at hfuel ⊢
  rw [List.length_append] at hfuel
  have hprimary := List.length_pos_iff.2 primary.lexemes_ne_nil
  have hends : Follows primaryEnds primary.isOpen (suffixes.flatMap Suffix.lexemes ++ after) := by
    cases suffixes with
    | nil => exact hafter.mono (by decide)
    | cons suffix suffixes => exact suffix.follows
  refine accepts_map (accepts_seq (primary.readBack h.1 fuel _ (by omega) hends)
    (accepts_star (fun suffix hsuffix after (_ : True) =>
      suffixes_readBack suffixes h.2 suffix hsuffix fuel after ?_ trivial)
      (fun suffix _ => suffix.lexemes_ne_nil) (fun _ _ _ _ _ => trivial) (fun _ _ => trivial)
      ?_ (Nat.zero_le _))) ?_
  · have := length_le_flatMap (f := Suffix.lexemes) hsuffix
    omega
  · refine misses_node fun fuel => misses_firstOf ?_ (Nat.zero_le _)
    simp only [List.forall_mem_cons, List.not_mem_nil, false_implies, implies_true, and_true]
    exact ⟨misses_map (misses_behind (hafter.value_ne (by decide))),
      misses_map (misses_behind (hafter.value_ne (by decide))),
      misses_map (misses_node fun fuel =>
        misses_map (misses_behind (hafter.value_ne (by decide))))⟩
  · rintro ⟨primary', suffixes'⟩ ⟨hprimary', hsuffixes'⟩ pos'
    exact .postfixed hprimary' hsuffixes'

/-- **A step is read back**, whatever follows it, as it ends by itself. -/
theorem Suffix.readBack (s : Suffix) (h : ∀ n ∈ s.nodes, n.Readable) :
    ReadBack .suffix 5 (fun _ => True) s.lexemes s := by
  refine readBack_of_rule s.lexemes_ne_nil (by omega) fun fuel after hfuel _ => ?_
  match s with
  | .member pos name =>
    refine accepts_firstOf (chooses_head (accepts_map (accepts_behind rfl (accepts_anyOf rfl)) ?_))
    rintro _ rfl pos'
    exact .member
  | .index pos value =>
    rw [Suffix.nodes, List.forall_mem_cons] at h
    simp only [Suffix.lexemes, List.length_cons, List.length_append, List.length_nil] at hfuel
    refine accepts_firstOf (chooses_tail (misses_map (misses_behind ?_)) (Nat.zero_le _)
      (chooses_head (accepts_map (accepts_behind rfl (accepts_closed rfl
        (value.readBack h.2 fuel _ (by omega) (.mark (by decide) fun _ => by decide)))) ?_)))
    · rintro _ ⟨⟩
      decide
    · exact fun _ hvalue pos' => .index hvalue
  | .call pos arguments =>
    rw [Suffix.nodes, List.forall_mem_cons] at h
    rw [Suffix.lexemes] at hfuel ⊢
    obtain ⟨rest, hrest⟩ := arguments.exists_lexemes
    refine accepts_firstOf (chooses_tail (misses_map (misses_behind ?_)) (Nat.zero_le _)
      (chooses_tail (misses_map (misses_behind ?_)) (Nat.zero_le _)
      (chooses_head (accepts_map (arguments.readBack h.2 fuel after (by omega) trivial) ?_))))
    · rw [hrest]
      rintro _ ⟨⟩
      decide
    · rw [hrest]
      rintro _ ⟨⟩
      decide
    · exact fun _ harguments pos' => .call harguments

theorem suffixes_readBack (suffixes : List Suffix) (h : ∀ n ∈ suffixesNodes suffixes, n.Readable) :
    ∀ s ∈ suffixes, ReadBack .suffix 5 (fun _ => True) s.lexemes s := by
  match suffixes with
  | [] => exact List.forall_mem_nil _
  | suffix :: suffixes =>
    rw [suffixesNodes, List.forall_mem_append] at h
    exact List.forall_mem_cons.2 ⟨suffix.readBack h.1, suffixes_readBack suffixes h.2⟩

/-- **Arguments are read back**, whatever follows the parenthesis behind them. -/
theorem Arguments.readBack (a : Arguments) (h : ∀ n ∈ a.nodes, n.Readable) :
    ReadBack .arguments 7 (fun _ => True) a.lexemes a := by
  refine readBack_of_rule a.lexemes_ne_nil (by omega) fun fuel after hfuel _ => ?_
  obtain ⟨pos, values⟩ := a
  rw [Arguments.lexemes, expressionsLexemes_eq] at hfuel ⊢
  simp only [List.length_cons, List.length_append, List.length_nil] at hfuel
  refine accepts_map (accepts_behind rfl (accepts_closed rfl (accepts_looseList
    (fun e he after (hafter : Follows expressionEnds e.isOpen after) =>
      expressions_readBack values h e he fuel after ?_ hafter)
    (fun _ _ _ => .mark (by decide) fun _ => by decide)
    (fun _ _ => .mark (by decide) fun _ => by decide) ?_ misses_expression)))
    fun _ hvalues pos' => .arguments hvalues
  · have := Lexeme.length_le_separated (List.mem_map_of_mem (f := Expression.lexemes) he)
    omega
  · rintro _ ⟨⟩
    decide

/-- Each of several expressions is read back. -/
theorem expressions_readBack (es : List Expression) (h : ∀ n ∈ expressionsNodes es, n.Readable) :
    ∀ e ∈ es, ReadBack .expression 0 (Follows expressionEnds e.isOpen) e.lexemes e := by
  match es with
  | [] => exact List.forall_mem_nil _
  | e :: es =>
    rw [expressionsNodes, List.forall_mem_append] at h
    exact List.forall_mem_cons.2 ⟨e.readBack h.1, expressions_readBack es h.2⟩

/-- **A primary is read back**: what is tried before its own alternative misses it. -/
theorem Primary.readBack (p : Primary) (h : ∀ n ∈ p.nodes, n.Readable) :
    ReadBack .primary 5 (Follows primaryEnds p.isOpen) p.lexemes p := by
  refine readBack_of_rule p.lexemes_ne_nil (by omega) fun fuel after hfuel hafter => ?_
  -- Each form is the first alternative of the rule that does not miss its first lexeme, so the
  -- cases differ in how many alternatives are passed over.
  match p with
  | .creation pos className arguments =>
    rw [Primary.nodes, List.forall_mem_cons] at h
    rw [Primary.lexemes] at hfuel ⊢
    exact accepts_firstOf (chooses_head (accepts_map
      (creation_readBack (arguments.readBack h.2) fuel after (by omega) trivial)
      fun _ hp _ => hp))
  | .object pos fields =>
    rw [Primary.nodes, List.forall_mem_cons] at h
    rw [Primary.lexemes] at hfuel ⊢
    exact accepts_firstOf
      (chooses_tail (misses_map (misses_creation fun h => absurd h (by decide))) (by decide)
      (chooses_head (accepts_map
        (object_readBack (fields_readBack fields h.2) h.1.2 fuel after (by omega) trivial)
        fun _ hp _ => hp)))
  | .number pos literal =>
    have hliteral : Lexer.Numeral literal.toList := (h _ (Primary.mem_nodes _)).1
    refine accepts_single (fun hnew => absurd hnew (ne_of_numeral hliteral (by decide)))
      (fun hbrace => absurd hbrace (ne_of_numeral hliteral (by decide)))
      (chooses_head (accepts_map (accepts_anyOf rfl) ?_))
    rintro _ rfl pos'
    exact .number
  | .text pos value =>
    refine accepts_single (fun _ l hl => (hafter.kind_ne l hl).1)
      (fun hbrace l hl => ⟨hafter.kind_ne l hl, hafter.closed (decide_eq_true hbrace) l hl⟩)
      (chooses_tail (misses_map (misses_class rfl)) (Nat.zero_le _)
      (chooses_head (accepts_map (accepts_anyOf rfl) ?_)))
    rintro _ rfl pos'
    exact .text rfl
  | .truth pos value =>
    refine accepts_single (fun h => by cases value <;> exact absurd h (by decide))
      (fun h => by cases value <;> exact absurd h (by decide))
      (chooses_tail (misses_map (misses_class rfl)) (Nat.zero_le _)
      (chooses_tail (misses_map (misses_class rfl)) (Nat.zero_le _)
      (chooses_head (accepts_map (accepts_oneOf (lookup_truth value)) ?_))))
    rintro _ rfl pos'
    exact .truth
  | .this pos =>
    exact accepts_single (fun h => absurd h (by decide)) (fun h => absurd h (by decide))
      (chooses_tail (misses_map (misses_class rfl)) (Nat.zero_le _)
      (chooses_tail (misses_map (misses_class rfl)) (Nat.zero_le _)
      (chooses_tail (misses_map (misses_oneOf (forall_head (by decide)))) (Nat.zero_le _)
      (chooses_head (accepts_map (accepts_word rfl) fun _ _ _ => .this)))))
  | .name pos name =>
    obtain ⟨hname, htruth, hthis⟩ := (h _ (Primary.mem_nodes _)).1
    refine accepts_single (fun _ l hl => (hafter.kind_ne l hl).1) ?_
      (chooses_tail (misses_map (misses_class rfl)) (Nat.zero_le _)
      (chooses_tail (misses_map (misses_class rfl)) (Nat.zero_le _)
      (chooses_tail (misses_map (misses_oneOf (forall_head htruth))) (Nat.zero_le _)
      (chooses_tail (misses_map (misses_word (forall_head hthis))) (Nat.zero_le _)
      (chooses_head (accepts_map (accepts_anyOf rfl) ?_))))))
    · rintro rfl
      exact absurd hname (by decide)
    · rintro _ rfl pos'
      exact .name
  | .parens pos inner =>
    rw [Primary.nodes, List.forall_mem_cons] at h
    simp only [Primary.lexemes, List.length_cons, List.length_append, List.length_nil]
      at hfuel ⊢
    refine accepts_firstOf
      (chooses_tail (misses_map (misses_creation fun h => absurd h (by decide))) (by decide)
      (chooses_tail (misses_map (misses_object fun h => absurd h (by decide))) (by decide)
      (chooses_tail (misses_map (misses_anyOf (forall_head (by decide)))) (Nat.zero_le _)
      (chooses_tail (misses_map (misses_anyOf (forall_head (by decide)))) (Nat.zero_le _)
      (chooses_tail (misses_map (misses_oneOf (forall_head (by decide)))) (Nat.zero_le _)
      (chooses_tail (misses_map (misses_word (forall_head (by decide)))) (Nat.zero_le _)
      (chooses_tail (misses_map (misses_anyOf (forall_head (by decide)))) (Nat.zero_le _)
      (chooses_head (accepts_map (accepts_behind rfl (accepts_closed rfl
        (inner.readBack h.2 fuel _ (by omega) (.mark (by decide) fun _ => by decide)))) ?_)))))))))
    exact fun _ hinner _ => .parens hinner

/-- **A field is read back**: its key, and the value if a colon stands behind it. -/
theorem ObjectField.readBack (f : ObjectField) (h : ∀ n ∈ f.nodes, n.Readable) :
    ReadBack .objectField 7 (Follows fieldEnds f.isOpen) f.lexemes f := by
  have hne : f.lexemes ≠ [] := by cases f <;> exact List.cons_ne_nil _ _
  refine readBack_of_rule hne (by omega) fun fuel after hfuel hafter => ?_
  match f with
  | .valued pos key value =>
    simp only [ObjectField.lexemes, List.length_cons] at hfuel
    refine accepts_map (accepts_first (accepts_firstOf (chooses_head (accepts_anyOf rfl)))
      (readOptional_accepts (accepts_behind rfl
        (value.readBack h fuel after (by omega) (hafter.mono (by decide)))))) ?_
    rintro ⟨key', value'⟩ ⟨rfl, e, rfl, hvalue⟩ pos'
    exact .valuedField rfl hvalue
  | .shorthand pos key =>
    refine accepts_map (accepts_alone (accepts_firstOf (chooses_head (accepts_anyOf rfl)))
      (readOptional_misses (misses_behind (hafter.value_ne (by decide))) (Nat.zero_le _))) ?_
    rintro ⟨key', value'⟩ ⟨rfl, rfl⟩ pos'
    exact .shorthandField rfl

/-- Each of several fields is read back. -/
theorem fields_readBack (fields : List ObjectField) (h : ∀ n ∈ fieldsNodes fields, n.Readable) :
    ∀ f ∈ fields, ReadBack .objectField 7 (Follows fieldEnds f.isOpen) f.lexemes f := by
  match fields with
  | [] => exact List.forall_mem_nil _
  | field :: fields =>
    rw [fieldsNodes, List.forall_mem_append] at h
    exact List.forall_mem_cons.2 ⟨field.readBack h.1, fields_readBack fields h.2⟩
end

end Source

end Covenant
