import Covenant.Proofs.Syntax.Quoting

/-!
# How tokens are spelled

A token without its place is a `Lexeme`. `Cuts` says into which lexemes a text is cut, wherever it
starts. The lexer takes the longest spelling, so a word or number ends only in front of a character
that it could not go on with (`breaks`), and an operator in front of one that makes no longer
operator or a comment (`endsOperator`); punctuation and quoted texts end by themselves. There is one
lemma for each kind of token.

The other way round, what the lexer has cut as a word or a number is spelled like one
(`spelled_of_scan`).
-/

namespace Covenant

namespace Source

/-- **A token without its place.** -/
structure Lexeme where
  kind : TokenKind
  value : String
deriving DecidableEq, Repr

namespace Lexeme

/-- An identifier or another word. -/
def word (value : String) : Lexeme := ⟨.identifier, value⟩

/-- A number. -/
def number (value : String) : Lexeme := ⟨.number, value⟩

/-- A text. -/
def text (value : String) : Lexeme := ⟨.text, value⟩

/-- An operator. -/
def operator (value : String) : Lexeme := ⟨.operator, value⟩

/-- A punctuation mark. -/
def mark (value : String) : Lexeme := ⟨.punctuation, value⟩

/-- Several rows with commas between them. -/
def separated (rows : List (List Lexeme)) : List Lexeme :=
  [mark ","].intercalate rows

/-- Behind the first row, every further one stands after a comma. -/
theorem separated_cons (row : List Lexeme) (rows : List (List Lexeme)) :
    separated (row :: rows) = row ++ rows.flatMap (mark "," :: ·) := by
  induction rows generalizing row with
  | nil => simp [separated, List.intercalate]
  | cons next rows ih => simpa [separated, List.intercalate] using ih next

/-- No row is longer than all of them with commas between. -/
theorem length_le_separated {rows : List (List Lexeme)} {row : List Lexeme} (h : row ∈ rows) :
    row.length ≤ (separated rows).length := by
  induction rows with
  | nil => cases h
  | cons first rows ih =>
    rw [separated_cons, List.length_append]
    rcases List.mem_cons.1 h with rfl | h
    · omega
    · cases rows with
      | nil => cases h
      | cons next rows =>
        have hle := ih h
        rw [separated_cons] at hle
        rw [List.flatMap_cons, List.cons_append, List.length_cons]
        omega

end Lexeme

/-- What a token is, wherever it stands. -/
def Token.lexeme (t : Token) : Lexeme :=
  ⟨t.kind, t.value⟩

namespace Lexer

/-! ## The cut -/

/-- **A text is cut into some lexemes**, wherever it starts. -/
def Cuts (cs : List Char) (ls : List Lexeme) : Prop :=
  ∀ pos, ∃ stream, scanFrom pos cs = .ok stream ∧ stream.tokens.map Token.lexeme = ls

/-- Nothing is left to cut at the end. -/
theorem cuts_nil : Cuts [] [] := by
  intro pos
  exact ⟨_, by rw [scanFrom], rfl⟩

/-- **The lexer at a run that is a token**: the token is cut off, and the rest is cut behind it. -/
theorem scanFrom_token {cs : List Char} {kind : TokenKind}
    (h : classify? cs = some (.token kind)) (pos : Position) :
    scanFrom pos cs =
      let n := (RunKind.token kind).span cs
      match tokenOf kind (cs.take n) pos,
        scanFrom (pos.advance (cs.take n)) (cs.drop n) with
      | .ok token, .ok stream => .ok { stream with tokens := token :: stream.tokens }
      | .ok _, .error e => .error e
      | .error e, _ => .error e := by
  cases cs with
  | nil => cases h
  | cons c rest =>
    rw [scanFrom]
    split
    · rename_i hnone
      cases h.symm.trans hnone
    · rename_i found hfound
      cases h.symm.trans hfound
      rfl

/-- Comments and blanks are passed over. -/
theorem scanFrom_skip {cs : List Char} {k : RunKind} (h : classify? cs = some k)
    (hk : ∀ kind, k ≠ .token kind) (pos : Position) :
    scanFrom pos cs = scanFrom (pos.advance (cs.take (k.span cs))) (cs.drop (k.span cs)) := by
  cases cs with
  | nil => cases h
  | cons c rest =>
    rw [scanFrom]
    split
    · rename_i hnone
      cases h.symm.trans hnone
    · rename_i found hfound
      cases h.symm.trans hfound
      cases k with
      | token kind => exact absurd rfl (hk kind)
      | comment => rfl
      | blank => rfl

/-- A run of the text that is a token, in front of the rest. -/
theorem cuts_token {run rest : List Char} {kind : TokenKind} {value : String} {ls : List Lexeme}
    (hclass : classify? (run ++ rest) = some (.token kind))
    (hspan : (RunKind.token kind).span (run ++ rest) = run.length)
    (hvalue : ∀ pos, tokenOf kind run pos = .ok { kind, value, pos }) (hrest : Cuts rest ls) :
    Cuts (run ++ rest) (⟨kind, value⟩ :: ls) := by
  intro pos
  obtain ⟨stream, hstream, hls⟩ := hrest (pos.advance run)
  refine ⟨{ stream with tokens := { kind, value, pos } :: stream.tokens }, ?_, ?_⟩
  · rw [scanFrom_token hclass, hspan]
    simp only [List.take_left, List.drop_left, hvalue, hstream]
  · rw [← hls]
    rfl

/-! ## Characters -/

/-- Nothing that a word or number goes on with, or that makes another operator of `>`. -/
def breaks (rest : List Char) : Bool :=
  rest.head?.all fun c => !isIdentifierPart c && !"=*/".toList.contains c

/-- Nothing that makes a longer operator or a comment of an operator. -/
def endsOperator (o : String) (rest : List Char) : Bool :=
  rest.head?.all fun c =>
    !"*/".toList.contains c && operators.all fun o' => !(o.toList ++ [c]).isPrefixOf o'.toList

/-- A word starts with a letter, an underscore or a dollar sign. -/
theorem isIdentifierStart_iff {c : Char} : isIdentifierStart c = true ↔
    (65 ≤ c.toNat ∧ c.toNat ≤ 90) ∨ (97 ≤ c.toNat ∧ c.toNat ≤ 122) ∨ c.toNat = 95 ∨
      c.toNat = 36 := by
  have halpha : c.isAlpha = (decide (c.val ≥ 'A'.val ∧ c.val ≤ 'Z'.val) ||
      (c.val ≥ 'a'.val && c.val ≤ 'z'.val)) := rfl
  simp [isIdentifierStart, halpha, UInt32.le_iff_toNat_le, or_assoc, ← Char.toNat_inj]

theorem isDigit_iff {c : Char} : c.isDigit = true ↔ 48 ≤ c.toNat ∧ c.toNat ≤ 57 := by
  simp [Char.isDigit, UInt32.le_iff_toNat_le]

/-- Characters inside and outside of a class differ. -/
theorem ne_of_class {part : Char → Bool} {c d : Char} (hc : part c = true)
    (hd : part d = false) : c ≠ d := by
  rintro rfl
  cases hc.symm.trans hd

/-- A word could go on wherever a decimal number does. -/
theorem isIdentifierPart_of_isDecimalPart {c : Char} (h : isDecimalPart c = true) :
    isIdentifierPart c = true := by
  rcases (by simpa [isDecimalPart] using h : c.isDigit = true ∨ c = '_') with h | rfl
  · rw [isIdentifierPart, h, Bool.or_true]
  · decide

/-- A word could go on wherever a hexadecimal number does. -/
theorem isIdentifierPart_of_isHexPart {c : Char} (h : isHexPart c = true) :
    isIdentifierPart c = true := by
  rcases (by simpa [isHexPart] using h : Text.isHexDigit c = true ∨ c = '_') with h | rfl
  · obtain ⟨v, hv⟩ := Option.isSome_iff_exists.1 h
    simp only [Text.hexValue?] at hv
    rw [isIdentifierPart, Bool.or_eq_true, isIdentifierStart_iff, isDigit_iff]
    grind
  · decide

/-! ## Which class decides -/

/-- A comment starts with a slash. -/
theorem comment_eq_zero {c : Char} (h : c ≠ '/') (rest : List Char) : comment (c :: rest) = 0 := by
  unfold comment
  split <;> simp_all

/-- A text starts with a quote. -/
theorem text_eq_zero {c : Char} (h : c ≠ '"') (h' : c ≠ '\'') (rest : List Char) :
    text (c :: rest) = 0 := by
  simp [text, h, h']

theorem decimal_eq_zero {c : Char} (h : c.isDigit = false) (rest : List Char) :
    decimal (c :: rest) = 0 := by
  simp [decimal, h]

/-- A number of either base starts with a digit. -/
theorem number_eq_zero {c : Char} (h : c.isDigit = false) (rest : List Char) :
    number (c :: rest) = 0 := by
  have hzero : c ≠ '0' := by
    rintro rfl
    exact absurd h (by decide)
  unfold number
  split
  · simp_all
  · exact decimal_eq_zero h rest

/-- Nothing that starts in another way is a word. -/
theorem identifier_eq_zero {c : Char} (h : isIdentifierStart c = false) (rest : List Char) :
    identifier (c :: rest) = 0 := by
  simp [identifier, h]

/-! ## Words -/

/-- A text that is an identifier. -/
def isIdentifier (s : String) : Bool :=
  match s.toList with
  | c :: cs => isIdentifierStart c && cs.all isIdentifierPart
  | [] => false

/-- The characters of an identifier: one that starts a word, and parts of words. -/
theorem exists_of_isIdentifier {s : String} (h : isIdentifier s = true) :
    ∃ c cs, s.toList = c :: cs ∧ isIdentifierStart c = true ∧
      ∀ d ∈ cs, isIdentifierPart d = true := by
  unfold isIdentifier at h
  split at h
  · rename_i c cs hs
    rw [Bool.and_eq_true, List.all_eq_true] at h
    exact ⟨c, cs, hs, h⟩
  · cases h

/-- A run of characters of a class of parts ends in front of what breaks words. -/
theorem takeWhile_append {part : Char → Bool}
    (hpart : ∀ c, part c = true → isIdentifierPart c = true) {run rest : List Char}
    (hrun : ∀ c ∈ run, part c = true) (hrest : breaks rest = true) :
    (run ++ rest).takeWhile part = run := by
  rw [List.takeWhile_append_of_pos hrun]
  cases rest with
  | nil => simp
  | cons c rest =>
    have hc : part c ≠ true := fun hc => by simp [breaks, hpart c hc] at hrest
    rw [List.takeWhile_cons_of_neg hc, List.append_nil]

/-- **An identifier is cut as a word** in front of a text that does not go on with it. -/
theorem cuts_identifier {name : String} {rest : List Char} {ls : List Lexeme}
    (h : isIdentifier name = true) (hrest : breaks rest = true) (hcuts : Cuts rest ls) :
    Cuts (name.toList ++ rest) (.word name :: ls) := by
  obtain ⟨c, cs, hname, hc, hcs⟩ := exists_of_isIdentifier h
  have hspan : identifier (name.toList ++ rest) = name.toList.length := by
    rw [hname, List.cons_append, identifier, if_pos hc, takeWhile_append (fun _ => id) hcs hrest,
      List.length_cons, Nat.add_comm]
  have hdigit : c.isDigit = false := by
    have hstart := isIdentifierStart_iff.1 hc
    rw [← Bool.not_eq_true, isDigit_iff]
    omega
  refine cuts_token ?_ hspan (fun pos => ?_) hcuts
  · have hclass : identifier (c :: (cs ++ rest)) ≠ 0 := by
      simp only [hname, List.cons_append, List.length_cons] at hspan
      omega
    simp [hname, classify?, RunKind.order, RunKind.span,
      comment_eq_zero (ne_of_class hc (by decide)),
      text_eq_zero (ne_of_class hc (by decide)) (ne_of_class hc (by decide)),
      number_eq_zero hdigit, hclass]
  · simp [tokenOf]

/-! ## Numbers -/

/-- **How a number is spelled**: decimal, or hexadecimal behind its mark. -/
inductive Numeral : List Char → Prop
  | decimal {c : Char} {cs : List Char} (hc : c.isDigit = true)
      (hcs : ∀ d ∈ cs, isDecimalPart d = true) : Numeral (c :: cs)
  | hexadecimal {x : Char} {cs : List Char} (hx : x = 'x' ∨ x = 'X') (hne : cs ≠ [])
      (hcs : ∀ d ∈ cs, isHexPart d = true) : Numeral ('0' :: x :: cs)

/-- A numeral starts with a digit, in either base. -/
theorem Numeral.exists_digit {run : List Char} (h : Numeral run) :
    ∃ c cs, run = c :: cs ∧ c.isDigit = true := by
  cases h with
  | decimal hc _ => exact ⟨_, _, rfl, hc⟩
  | hexadecimal => exact ⟨_, _, rfl, by decide⟩

/-- Without an `x` behind the first digit a number is decimal. -/
theorem number_eq_decimal {cs : List Char} (h : ∀ x ∈ cs.tail.head?, x ≠ 'x' ∧ x ≠ 'X') :
    number cs = decimal cs := by
  unfold number
  split
  · rename_i x rest
    have hx := h x rfl
    simp [hx]
  · rfl

/-- The run of a number ends with the numeral, if the text behind it does not go on with it. -/
theorem number_append {run rest : List Char} (h : Numeral run) (hrest : breaks rest = true) :
    number (run ++ rest) = run.length := by
  cases h with
  | @decimal c cs hc hcs =>
    rw [number_eq_decimal, List.cons_append, decimal, if_pos hc,
      takeWhile_append (fun _ => isIdentifierPart_of_isDecimalPart) hcs hrest, List.length_cons,
      Nat.add_comm]
    intro x hx
    cases cs with
    | nil =>
      cases rest with
      | nil => cases hx
      | cons d rest =>
        obtain rfl : d = x := Option.some.inj hx
        constructor <;> rintro rfl <;> exact absurd hrest (by simp [breaks]; decide)
    | cons d cs =>
      obtain rfl : d = x := Option.some.inj hx
      have hd := hcs d List.mem_cons_self
      constructor <;> rintro rfl <;> exact absurd hd (by decide)
  | @hexadecimal x cs hx hne hcs =>
    have hdigits : (cs ++ rest).takeWhile isHexPart = cs :=
      takeWhile_append (fun _ => isIdentifierPart_of_isHexPart) hcs hrest
    have hcond : ((x = 'x' || x = 'X') && decide (cs.length ≠ 0)) = true := by simp [hx, hne]
    simp only [List.cons_append, number, hdigits]
    rw [if_pos hcond, List.length_cons, List.length_cons, Nat.add_comm]

/-- **A numeral is cut as a number**, in front of a text that does not go on with it. -/
theorem cuts_number {literal : String} {rest : List Char} {ls : List Lexeme}
    (h : Numeral literal.toList) (hrest : breaks rest = true) (hcuts : Cuts rest ls) :
    Cuts (literal.toList ++ rest) (.number literal :: ls) := by
  have hspan := number_append h hrest
  refine cuts_token ?_ hspan (fun pos => ?_) hcuts
  · obtain ⟨c, cs, hliteral, hc⟩ := h.exists_digit
    have hclass : number (c :: (cs ++ rest)) ≠ 0 := by
      simp only [hliteral, List.cons_append, List.length_cons] at hspan
      omega
    simp [hliteral, classify?, RunKind.order, RunKind.span,
      comment_eq_zero (ne_of_class hc (by decide)),
      text_eq_zero (ne_of_class hc (by decide)) (ne_of_class hc (by decide)), hclass]
  · simp [tokenOf]

/-! ## Operators -/

/-- The character behind an operator neither starts a comment with it nor makes a longer operator.
-/
theorem endsOperator_cons {o : String} {c : Char} {rest : List Char} :
    endsOperator o (c :: rest) = true ↔ c ≠ '*' ∧ c ≠ '/' ∧
      ∀ o' ∈ operators, ¬ o.toList ++ [c] <+: o'.toList := by
  simp [endsOperator, and_assoc, ← List.isPrefixOf_iff_prefix]

/-- A text that no operator in front of it goes on with. -/
def Apart (cs : List Char) : Prop :=
  ∀ o ∈ operators, endsOperator o cs = true

/-- No operator goes on with a character but these. -/
theorem apart_of_notMem {c : Char} (hc : c ∉ "=*&|>/".toList) (rest : List Char) :
    Apart (c :: rest) := by
  intro o ho
  have htail : ∀ o' ∈ operators, o'.toList.tail.all "=*&|>/".toList.contains = true := by decide
  have hne : ∀ o ∈ operators, o.toList ≠ [] := by decide
  refine endsOperator_cons.2 ⟨?_, ?_, fun o' ho' hprefix => hc ?_⟩
  · rintro rfl
    exact hc (by decide)
  · rintro rfl
    exact hc (by decide)
  · obtain ⟨more, hmore⟩ := hprefix
    obtain ⟨d, ds, hlist⟩ := List.exists_cons_of_ne_nil (hne o ho)
    refine List.contains_iff_mem.1 (List.all_eq_true.1 (htail o' ho') c ?_)
    rw [← hmore, hlist]
    simp

/-- Characters of a class without those that go on an operator keep apart from any operator. -/
theorem apart_of_class {part : Char → Bool} {c : Char} (hc : part c = true)
    (hpart : ("=*&|>/".toList.all fun d => !part d) = true) (rest : List Char) :
    Apart (c :: rest) :=
  apart_of_notMem (fun h => by simpa [hc] using List.all_eq_true.1 hpart c h) rest

theorem apart_identifier {name : String} (h : isIdentifier name = true) (rest : List Char) :
    Apart (name.toList ++ rest) := by
  obtain ⟨c, cs, hname, hc, -⟩ := exists_of_isIdentifier h
  rw [hname]
  exact apart_of_class hc (by decide) _

theorem apart_number {literal : String} (h : Numeral literal.toList) (rest : List Char) :
    Apart (literal.toList ++ rest) := by
  obtain ⟨c, cs, hliteral, hc⟩ := h.exists_digit
  rw [hliteral]
  exact apart_of_class hc (by decide) _

/-- A quoted text keeps apart from any operator, by its quote. -/
theorem apart_text (value : String) (rest : List Char) :
    Apart ((Text.quote value).toList ++ rest) := by
  rw [Text.toList_quote]
  exact apart_of_notMem (by decide) _

/-- The closing sign of a type goes on with nothing that breaks words. -/
theorem endsOperator_of_breaks {rest : List Char} (h : breaks rest = true) :
    endsOperator ">" rest = true := by
  cases rest with
  | nil => rfl
  | cons c rest =>
    obtain ⟨-, hc⟩ : isIdentifierPart c = false ∧ c ≠ '=' ∧ c ≠ '*' ∧ c ≠ '/' := by
      simpa [breaks] using h
    have hnext : ∀ o ∈ operators, o.toList.head? = some '>' →
        (o.toList.tail.all fun d => d = '=') = true := by
      decide
    refine endsOperator_cons.2 ⟨hc.2.1, hc.2.2, fun o ho hprefix => hc.1 ?_⟩
    obtain ⟨more, hmore⟩ := hprefix
    have htail := List.all_eq_true.1 (hnext o ho (by rw [← hmore]; rfl)) c
      (by rw [← hmore]; exact List.mem_cons_self)
    exact of_decide_eq_true htail

/-- An operator that does not go on is the first of the table that fits. -/
theorem operator_append {o : String} (ho : o ∈ operators) {rest : List Char}
    (hrest : endsOperator o rest = true) : operator (o.toList ++ rest) = o.toList.length := by
  have hprefix : ∀ o' ∈ operators,
      o'.toList.isPrefixOf (o.toList ++ rest) = o'.toList.isPrefixOf o.toList := by
    intro o' ho'
    rw [Bool.eq_iff_iff, List.isPrefixOf_iff_prefix, List.isPrefixOf_iff_prefix]
    refine ⟨fun h => ?_, fun h => h.trans (List.prefix_append _ _)⟩
    rcases List.prefix_or_prefix_of_prefix h (List.prefix_append _ _) with hshort | ⟨more, hmore⟩
    · exact hshort
    · rw [← hmore, List.prefix_append_right_inj] at h
      cases more with
      | nil => exact ⟨[], by rw [← hmore, List.append_nil, List.append_nil]⟩
      | cons c more =>
        obtain ⟨rest, rfl⟩ := h
        refine absurd ⟨more, ?_⟩ ((endsOperator_cons.1 hrest).2.2 o' ho')
        rw [List.append_assoc, List.singleton_append, hmore]
  have hself : ∀ o ∈ operators, operator o.toList = o.toList.length := by decide
  have hfind : operators.find? (fun o' => o'.toList.isPrefixOf (o.toList ++ rest)) =
      operators.find? fun o' => o'.toList.isPrefixOf o.toList := by
    rw [← List.head?_filter, ← List.head?_filter, List.filter_congr hprefix]
  rw [← hself o ho, operator, operator, hfind]

/-- No operator starts like a token of a class that is tried before. -/
theorem operators_start : ∀ o ∈ operators, ∃ c cs, o.toList = c :: cs ∧ c ≠ '"' ∧ c ≠ '\'' ∧
    c.isDigit = false ∧ isIdentifierStart c = false ∧ (c = '/' → cs = []) := by
  have h : ∀ o ∈ operators, (match o.toList with
      | c :: cs => decide (c ≠ '"' ∧ c ≠ '\'' ∧ c.isDigit = false ∧ isIdentifierStart c = false ∧
          (c ≠ '/' ∨ cs = []))
      | [] => false) = true := by
    decide
  intro o ho
  have := h o ho
  split at this
  · rename_i c cs hlist
    obtain ⟨hquote, hquote', hdigit, hstart, hslash⟩ := of_decide_eq_true this
    exact ⟨c, cs, hlist, hquote, hquote', hdigit, hstart,
      fun h => hslash.resolve_left (by simp [h])⟩
  · cases this

/-- **An operator is cut as such**: the longest one that fits, where the text behind makes none that
is longer, and no comment. -/
theorem cuts_operator {o : String} (ho : o ∈ operators) {rest : List Char} {ls : List Lexeme}
    (hrest : endsOperator o rest = true) (hcuts : Cuts rest ls) :
    Cuts (o.toList ++ rest) (.operator o :: ls) := by
  have hspan := operator_append ho hrest
  refine cuts_token ?_ hspan (fun pos => ?_) hcuts
  · obtain ⟨c, cs, hlist, hquote, hquote', hdigit, hstart, hslash⟩ := operators_start o ho
    have hcomment : comment (c :: (cs ++ rest)) = 0 := by
      by_cases hc : c = '/'
      · obtain rfl := hslash hc
        cases rest with
        | nil => simp [comment]
        | cons d rest =>
          have hd := endsOperator_cons.1 hrest
          unfold comment
          split <;> simp_all
      · exact comment_eq_zero hc _
    have hclass : operator (c :: (cs ++ rest)) ≠ 0 := by
      simp only [hlist, List.cons_append, List.length_cons] at hspan
      omega
    simp [hlist, classify?, RunKind.order, RunKind.span, hcomment, text_eq_zero hquote hquote',
      number_eq_zero hdigit, identifier_eq_zero hstart, hclass]
  · simp [tokenOf]

/-! ## Punctuation, quoted texts and blanks -/

/-- Nothing that starts with a character of no operator is an operator. -/
theorem operator_eq_zero {c : Char}
    (h : operators.all fun o => o.toList.head?.any fun d => d ≠ c) (rest : List Char) :
    operator (c :: rest) = 0 := by
  have hfind : operators.find? (fun o => o.toList.isPrefixOf (c :: rest)) = none := by
    refine List.find?_eq_none.2 fun o ho => ?_
    have hhead := List.all_eq_true.1 h o ho
    cases hlist : o.toList with
    | nil => simp [hlist] at hhead
    | cons d ds =>
      have hd : d ≠ c := by simpa [hlist] using hhead
      simp [hd]
  rw [operator, hfind]
  rfl

/-- A character that no comment, text, number, word or operator starts with. -/
def startsNone (c : Char) : Bool :=
  decide (c ≠ '/' ∧ c ≠ '"' ∧ c ≠ '\'' ∧ c.isDigit = false ∧ isIdentifierStart c = false) &&
    operators.all fun o => o.toList.head?.any fun d => d ≠ c

/-- At a character that starts nothing else, only blanks and punctuation are left. -/
theorem eq_zero_of_startsNone {c : Char} (h : startsNone c = true) (rest : List Char) :
    comment (c :: rest) = 0 ∧ text (c :: rest) = 0 ∧ number (c :: rest) = 0 ∧
      identifier (c :: rest) = 0 ∧ operator (c :: rest) = 0 := by
  rw [startsNone, Bool.and_eq_true] at h
  obtain ⟨hslash, hquote, hquote', hdigit, hstart⟩ := of_decide_eq_true h.1
  exact ⟨comment_eq_zero hslash rest, text_eq_zero hquote hquote' rest, number_eq_zero hdigit rest,
    identifier_eq_zero hstart rest, operator_eq_zero h.2 rest⟩

/-- **A punctuation mark is cut by itself**, whatever stands behind it. -/
theorem cuts_mark (v : String) {c : Char} (hv : v.toList = [c])
    (hc : c ∈ "\x7b\x7d[]():;,.".toList) {rest : List Char} {ls : List Lexeme}
    (hcuts : Cuts rest ls) : Cuts (c :: rest) (.mark v :: ls) := by
  have hmarks : "\x7b\x7d[]():;,.".toList.all startsNone = true := by decide
  obtain ⟨hcomment, htext, hnumber, hidentifier, hoperator⟩ :=
    eq_zero_of_startsNone (List.all_eq_true.1 hmarks c hc) rest
  have hspan : punctuation (c :: rest) = 1 := if_pos (by simpa using hc)
  have hvalue : String.ofList [c] = v := by rw [← hv, String.ofList_toList]
  refine @cuts_token [c] rest .punctuation v ls ?_ hspan (fun pos => ?_) hcuts
  · simp [classify?, RunKind.order, RunKind.span, hcomment, htext, hnumber, hidentifier, hoperator,
      hspan]
  · rw [← hvalue]
    rfl

/-- **A quoted text is cut as its value**: the quotes end where they should, and every escape is
undone. -/
theorem cuts_text (value : String) {rest : List Char} {ls : List Lexeme} (hcuts : Cuts rest ls) :
    Cuts ((Text.quote value).toList ++ rest) (.text value :: ls) := by
  have hspan := text_quote value rest
  refine cuts_token ?_ hspan (fun pos => ?_) hcuts
  · have hcomment : comment ((Text.quote value).toList ++ rest) = 0 := by
      rw [Text.toList_quote]
      exact comment_eq_zero (by decide) _
    have hclass : text ((Text.quote value).toList ++ rest) ≠ 0 := by
      rw [hspan, Text.toList_quote]
      exact Nat.succ_ne_zero _
    simp only [classify?, RunKind.order, List.find?_cons, RunKind.span, hcomment, ne_eq,
      not_true_eq_false, decide_false, hclass, not_false_eq_true, decide_true]
  · rw [tokenOf, Text.unquote?_quote]

theorem advance_append (pos : Position) (run more : List Char) :
    pos.advance (run ++ more) = (pos.advance run).advance more :=
  List.foldl_append

/-- What separates tokens. -/
def isBlank (c : Char) : Bool :=
  c = ' ' || c = '\t' || c = '\r' || c = '\n'

/-- A run of blanks goes to the first character that is none. -/
theorem blank_eq (cs : List Char) : blank cs = (cs.takeWhile isBlank).length :=
  rfl

theorem classify?_blank {c : Char} (hc : isBlank c = true) (rest : List Char) :
    classify? (c :: rest) = some .blank := by
  have hblanks : ([' ', '\t', '\r', '\n'].all fun c =>
      startsNone c && !"\x7b\x7d[]():;,.".toList.contains c) = true := by
    decide
  have hclass := List.all_eq_true.1 hblanks c (by simpa [isBlank, or_assoc] using hc)
  rw [Bool.and_eq_true, Bool.not_eq_true'] at hclass
  obtain ⟨hcomment, htext, hnumber, hidentifier, hoperator⟩ := eq_zero_of_startsNone hclass.1 rest
  have hspan : blank (c :: rest) ≠ 0 := by
    rw [blank_eq, List.takeWhile_cons_of_pos hc]
    exact Nat.succ_ne_zero _
  have hpunctuation : punctuation (c :: rest) = 0 :=
    if_neg (by rw [hclass.2]; exact Bool.false_ne_true)
  simp [classify?, RunKind.order, RunKind.span, hcomment, htext, hnumber, hidentifier, hoperator,
    hpunctuation, hspan]

/-- A blank is passed over, also in front of more of them. -/
theorem cuts_blank {rest : List Char} {ls : List Lexeme} (hcuts : Cuts rest ls) :
    Cuts (' ' :: rest) ls := by
  intro pos
  have hblank : blank (' ' :: rest) = blank rest + 1 := rfl
  obtain ⟨stream, hstream, hls⟩ := hcuts (pos.advance [' '])
  refine ⟨stream, ?_, hls⟩
  rw [scanFrom_skip (classify?_blank rfl rest) (by rintro _ ⟨⟩), RunKind.span, hblank,
    List.take_succ_cons, List.drop_succ_cons, ← hstream]
  cases rest with
  | nil => rfl
  | cons d rest =>
    by_cases hd : isBlank d = true
    · rw [scanFrom_skip (classify?_blank hd rest) (by rintro _ ⟨⟩), ← advance_append]
      rfl
    · have hzero : blank (d :: rest) = 0 := by
        rw [blank_eq, List.takeWhile_cons_of_neg hd, List.length_nil]
      rw [hzero]
      rfl

/-! ## What was cut -/

theorem take_takeWhile (part : Char → Bool) (cs : List Char) :
    cs.take (cs.takeWhile part).length = cs.takeWhile part :=
  (List.prefix_iff_eq_take.1 (List.takeWhile_prefix part)).symm

theorem of_mem_takeWhile {part : Char → Bool} {cs : List Char} :
    ∀ c ∈ cs.takeWhile part, part c = true :=
  List.all_eq_true.1 List.all_takeWhile

/-- What the lexer cuts as a word is an identifier. -/
theorem isIdentifier_take {cs : List Char} (h : identifier cs ≠ 0) :
    isIdentifier (String.ofList (cs.take (identifier cs))) = true := by
  cases cs with
  | nil => exact absurd rfl h
  | cons c rest =>
    by_cases hc : isIdentifierStart c = true
    · have hspan : identifier (c :: rest) = (rest.takeWhile isIdentifierPart).length + 1 := by
        rw [identifier, if_pos hc, Nat.add_comm]
      rw [hspan, List.take_succ_cons, take_takeWhile, isIdentifier, String.toList_ofList]
      simp only [hc, Bool.true_and, List.all_takeWhile]
    · exact absurd (if_neg hc) h

theorem numeral_take_decimal {cs : List Char} (h : decimal cs ≠ 0) :
    Numeral (cs.take (decimal cs)) := by
  cases cs with
  | nil => exact absurd rfl h
  | cons c rest =>
    by_cases hc : c.isDigit = true
    · have hspan : decimal (c :: rest) = (rest.takeWhile isDecimalPart).length + 1 := by
        rw [decimal, if_pos hc, Nat.add_comm]
      rw [hspan, List.take_succ_cons, take_takeWhile]
      exact .decimal hc of_mem_takeWhile
    · exact absurd (if_neg hc) h

/-- What the lexer cuts as a number is a numeral, of the base its start says. -/
theorem numeral_take {cs : List Char} (h : number cs ≠ 0) : Numeral (cs.take (number cs)) := by
  generalize hn : number cs = n at h ⊢
  unfold number at hn
  split at hn
  · rename_i x rest
    dsimp only at hn
    split at hn
    · rename_i hcond
      rw [Bool.and_eq_true, decide_eq_true_eq, ← Nat.pos_iff_ne_zero, List.length_pos_iff] at hcond
      rw [← hn, Nat.add_comm, List.take_succ_cons, List.take_succ_cons, take_takeWhile]
      exact .hexadecimal (by simpa using hcond.1) hcond.2 of_mem_takeWhile
    · subst hn
      exact numeral_take_decimal h
  · subst hn
    exact numeral_take_decimal h

end Lexer

/-- **A word or number is spelled like one.** -/
def Token.Spelled (t : Token) : Prop :=
  (t.kind = .identifier → Lexer.isIdentifier t.value = true) ∧
    (t.kind = .number → Lexer.Numeral t.value.toList)

namespace Lexer

/-- A token that the lexer makes of a run is spelled right. -/
theorem spelled_of_tokenOf {cs : List Char} {kind : TokenKind} {pos : Position} {t : Token}
    (h : (RunKind.token kind).span cs ≠ 0)
    (ht : tokenOf kind (cs.take ((RunKind.token kind).span cs)) pos = .ok t) : t.Spelled := by
  cases kind with
  | identifier =>
    cases ht
    exact ⟨fun _ => isIdentifier_take h, by rintro ⟨⟩⟩
  | number =>
    cases ht
    exact ⟨by rintro ⟨⟩, fun _ => String.toList_ofList ▸ numeral_take h⟩
  | text =>
    rw [tokenOf] at ht
    split at ht
    · cases ht
      constructor <;> rintro ⟨⟩
    · cases ht
  | operator =>
    cases ht
    constructor <;> rintro ⟨⟩
  | punctuation =>
    cases ht
    constructor <;> rintro ⟨⟩

/-- Every token of a stream is spelled right, by the recursion of the lexer. -/
theorem spelled_of_scanFrom {pos : Position} {cs : List Char} {stream : TokenStream}
    (h : scanFrom pos cs = .ok stream) : ∀ t ∈ stream.tokens, t.Spelled := by
  -- by strong induction on what is left: every class has a span of one character at least
  induction hn : cs.length using Nat.strongRecOn generalizing pos cs stream with
  | ind n ih =>
    subst hn
    cases hclass : classify? cs with
    | none =>
      cases cs with
      | nil =>
        rw [scanFrom] at h
        cases h
        exact List.forall_mem_nil _
      | cons c rest =>
        rw [scanFrom] at h
        split at h
        · cases h
        · rename_i hfound
          cases hclass.symm.trans hfound
    | some k =>
      have hspan := span_pos_of_classify? hclass
      have hlt : (cs.drop (k.span cs)).length < cs.length := by
        have hne : 0 < cs.length := by
          cases cs with
          | nil => cases hclass
          | cons c rest => exact Nat.succ_pos _
        rw [List.length_drop]
        omega
      cases k with
      | token kind =>
        rw [scanFrom_token hclass] at h
        dsimp only at h
        split at h
        · rename_i t more ht hmore
          cases h
          rw [List.forall_mem_cons]
          exact ⟨spelled_of_tokenOf (Nat.pos_iff_ne_zero.1 hspan) ht, ih _ hlt hmore rfl⟩
        · cases h
        · cases h
      -- comments and blanks give no token
      | comment =>
        rw [scanFrom_skip hclass (by rintro _ ⟨⟩)] at h
        exact ih _ hlt h rfl
      | blank =>
        rw [scanFrom_skip hclass (by rintro _ ⟨⟩)] at h
        exact ih _ hlt h rfl

end Lexer

/-- **The words and numbers of a file are spelled like such.** -/
theorem spelled_of_scan {file source : String} {stream : TokenStream}
    (h : scan file source = .ok stream) : ∀ t ∈ stream.tokens, t.Spelled :=
  Lexer.spelled_of_scanFrom h

end Source

end Covenant
