import Covenant.Emit.Literal
import Covenant.Proofs.Execution.Numeral
import Covenant.Proofs.Machine.Memory
import Covenant.Resolve.Literals

/-!
# Literals that are words

A literal is kept by its type and its text. Which texts stand for a word depends on the type, and
those that do are written as one number of the assembly (`Emit.writtenAsWord`): a decimal
numeral, or hexadecimal digits for one word.

A number stands for itself, a truth value for zero or one, an address for the number of its digits.
A text is packed from the left, its bytes in order, and so is a byte string that is spelled in
hexadecimal digits. Where code has a numeral for a literal, it is that of this word
(`Emit.ofNumeral_literalWord`).
-/

namespace Covenant

/-- **A literal is a word** of its type. An address is checked when it is written. -/
def WordLiteral : Ty → String → Prop
  | .number, text => ∃ n < Resolve.wordBound, text = toString n
  | .boolean, text => text = "true" ∨ text = "false"
  | .text, text => text.utf8ByteSize ≤ 32
  | .bytes, text => Emit.isHexWord 64 text ∨ text.utf8ByteSize ≤ 32
  | .address _, _ => True
  | _, _ => False

namespace Emit

/-- **A number of the assembly that fits in a word**: a decimal numeral without leading zeros, or up
to sixty-four hexadecimal digits behind their mark. -/
inductive IsWordNumeral : String → Prop
  | decimal {n : Nat} (h : n < Resolve.wordBound) : IsWordNumeral (toString n)
  | hexadecimal {digits : List Char} (hsome : digits ≠ []) (hlength : digits.length ≤ 64)
      (hdigits : digits.all Text.isHexDigit) : IsWordNumeral ("0x" ++ String.ofList digits)

/-! ## Hexadecimal digits -/

theorem toNat_lt_of_isHexDigit {c : Char} (h : Text.isHexDigit c) : c.toNat < 128 := by
  rw [Text.isHexDigit, Text.hexValue?] at h
  simp only [Bool.and_eq_true, decide_eq_true_eq] at h
  refine Nat.lt_of_not_le fun hlarge => ?_
  rw [if_neg (by omega), if_neg (by omega), if_neg (by omega)] at h
  cases h

theorem isHexDigit_toLower {c : Char} (h : Text.isHexDigit c) : Text.isHexDigit c.toLower := by
  have hall : ∀ n < 128, Text.isHexDigit (Char.ofNat n) →
      Text.isHexDigit (Char.ofNat n).toLower := by
    decide
  have hc := hall c.toNat (toNat_lt_of_isHexDigit h)
  rw [Char.ofNat_toNat] at hc
  exact hc h

theorem all_toLower {cs : List Char} (h : cs.all Text.isHexDigit) :
    (cs.map Char.toLower).all Text.isHexDigit := by
  rw [List.all_eq_true] at h ⊢
  intro c hc
  obtain ⟨d, hd, rfl⟩ := List.mem_map.1 hc
  exact isHexDigit_toLower (h d hd)

theorem isHexDigit_hexDigit {n : Nat} (h : n < 16) : Text.isHexDigit (Text.hexDigit n) := by
  have hall : ∀ n < 16, Text.isHexDigit (Text.hexDigit n) := by decide
  exact hall n h

theorem hexBytes_digits (bs : List UInt8) :
    (bs.flatMap Text.hexByte).all Text.isHexDigit ∧
      (bs.flatMap Text.hexByte).length = 2 * bs.length := by
  induction bs with
  | nil => exact ⟨rfl, rfl⟩
  | cons b bs ih =>
    have hb := b.toNat_lt
    have hhigh := isHexDigit_hexDigit (n := b.toNat / 16) (by omega)
    have hlow := isHexDigit_hexDigit (n := b.toNat % 16) (by omega)
    refine ⟨?_, ?_⟩
    · simp [Text.hexByte, hhigh, hlow, ih.1]
    · simp only [List.flatMap_cons, Text.hexByte, List.length_append, ih.2, List.length_cons,
        List.length_nil]
      omega

theorem padWord_ofList (digits : List Char) : padWord (String.ofList digits) =
    "0x" ++ String.ofList (digits ++ List.replicate (64 - digits.length) '0') := by
  rw [padWord, String.ofList_append, String.append_assoc, String.length_ofList]
  rfl

/-- Digits that are filled up are as many as a word has. -/
theorem isWordNumeral_padWord {digits : List Char} (hlength : digits.length ≤ 64)
    (hdigits : digits.all Text.isHexDigit) : IsWordNumeral (padWord (String.ofList digits)) := by
  rw [padWord_ofList]
  have hall : (digits ++ List.replicate (64 - digits.length) '0').length = 64 := by
    rw [List.length_append, List.length_replicate]
    omega
  refine .hexadecimal (fun hnil => ?_) (Nat.le_of_eq hall) ?_
  · rw [hnil] at hall
    cases hall
  · rw [List.all_append, hdigits, List.all_replicate]
    split <;> rfl

/-- Some digits behind `0x`, and not too many. -/
theorem isHexWord_iff {maxDigits : Nat} {text : String} :
    isHexWord maxDigits text ↔ ∃ digits, text.toList = '0' :: 'x' :: digits ∧ digits ≠ [] ∧
      digits.length ≤ maxDigits ∧ digits.all Text.isHexDigit := by
  unfold isHexWord
  split
  · rename_i digits h
    simp [h, and_assoc]
  · rename_i h
    refine ⟨fun hfalse => (nomatch hfalse), fun ⟨digits, heq, _⟩ => ?_⟩
    exact absurd heq (h digits)

/-! ## Words -/

/-- A text of at most 32 bytes is a word. -/
theorem textWord_isWordNumeral {text : String} (h : text.utf8ByteSize ≤ 32) :
    ∃ word, textWord text = .ok word ∧ IsWordNumeral word := by
  unfold textWord
  split
  · exact ⟨_, rfl, .decimal (n := 0) (by decide)⟩
  · rw [if_neg (show ¬wordBytes < text.utf8ByteSize from Nat.not_lt.2 h)]
    obtain ⟨hdigits, hlength⟩ := hexBytes_digits (Text.bytes text)
    have hsize : (Text.bytes text).length = text.utf8ByteSize := by simp [Text.bytes]
    exact ⟨_, rfl, isWordNumeral_padWord (by omega) hdigits⟩

theorem hexWord_isWordNumeral {text : String} (h : isHexWord 64 text) :
    IsWordNumeral (padWord (lowerCase (text.drop 2).toString)) := by
  obtain ⟨digits, htext, -, hlength, hdigits⟩ := isHexWord_iff.1 h
  have hdrop : (text.drop 2).toString.toList = digits := by simp [htext]
  rw [lowerCase, hdrop]
  exact isWordNumeral_padWord (by rwa [List.length_map]) (all_toLower hdigits)

theorem address_isWordNumeral {text : String} (h : isHexWord 40 text) :
    IsWordNumeral (lowerCase text) := by
  obtain ⟨digits, htext, hsome, hlength, hdigits⟩ := isHexWord_iff.1 h
  have hlower : lowerCase text = "0x" ++ String.ofList (digits.map Char.toLower) := by
    apply String.toList_inj.1
    simp [lowerCase, htext]
  rw [hlower]
  exact .hexadecimal (by simpa using hsome) (by rw [List.length_map]; omega) (all_toLower hdigits)

/-- **A literal is written as a word**: it is one, is never too long to be packed, and if it is
written at all, then as one number. -/
structure WrittenAsWord (pos : Position) (type : Ty) (text : String) : Prop where
  word : WordLiteral type text
  packed : ∀ long, literalWord pos type text ≠ .error (.overlong long)
  numeral : ∀ word, literalWord pos type text = .ok word → IsWordNumeral word

theorem WrittenAsWord.of_ok {pos : Position} {type : Ty} {text word : String}
    (h : WordLiteral type text) (hok : literalWord pos type text = .ok word)
    (hword : IsWordNumeral word) : WrittenAsWord pos type text where
  word := h
  packed long hlong := by rw [hok] at hlong; cases hlong
  numeral other hother := by
    rw [hok] at hother
    exact Except.ok.inj hother ▸ hword

/-- **What is a word is written as one.** -/
theorem writtenAsWord {type : Ty} {text : String} (h : WordLiteral type text) (pos : Position) :
    WrittenAsWord pos type text := by
  cases type with
  | number =>
    obtain ⟨n, hn, rfl⟩ := h
    exact .of_ok ⟨n, hn, rfl⟩ rfl (.decimal hn)
  | boolean =>
    rcases h with rfl | rfl
    · exact .of_ok (.inl rfl) rfl (.decimal (n := 1) (by decide))
    · exact .of_ok (.inr rfl) rfl (.decimal (n := 0) (by decide))
  | text =>
    obtain ⟨word, hok, hword⟩ := textWord_isWordNumeral h
    exact .of_ok h hok hword
  | bytes =>
    by_cases hhex : isHexWord (2 * wordBytes) text
    · exact .of_ok h (if_pos hhex) (hexWord_isWordNumeral hhex)
    · obtain ⟨word, hok, hword⟩ := textWord_isWordNumeral (h.resolve_left hhex)
      exact .of_ok h ((if_neg hhex).trans hok) hword
  | address contract =>
    by_cases haddress : isHexWord 40 text && text.length = 42
    · have hhex := (Bool.and_eq_true_iff.1 haddress).1
      exact .of_ok h (if_pos haddress) (address_isWordNumeral hhex)
    · -- what spells no address is refused, so there is no word to speak of
      have herror : literalWord pos (.address contract) text =
          .error (.malformed pos (.notAddress text)) := if_neg haddress
      refine ⟨h, fun long hlong => ?_, fun word hword => ?_⟩
      · rw [herror] at hlong
        cases hlong
      · rw [herror] at hword
        cases hword
  | _ => exact h.elim

end Emit

/-! ## What literals mean -/

/-- The number of some hexadecimal digits. -/
def hexNumber (digits : List Char) : Nat :=
  digits.foldl (fun n c => 16 * n + (Text.hexValue? c).getD 0) 0

/-- The word of a text, its bytes from the left and zeros behind them. -/
def Word.ofText (text : String) : Word :=
  Word.ofBytes (Text.bytes text ++ List.replicate (32 - (Text.bytes text).length) 0)

/-- **The word that a literal stands for.** -/
def literalMeaning : Ty → String → Word
  | .number, text => BitVec.ofNat 256 (Nat.ofDigitChars 10 text.toList 0)
  | .boolean, text => Word.truth (text = "true")
  | .address _, text => BitVec.ofNat 256 (hexNumber (text.toList.drop 2))
  | .bytes, text =>
    if Emit.isHexWord 64 text then
      let digits := text.toList.drop 2
      BitVec.ofNat 256 (hexNumber digits * 16 ^ (64 - digits.length))
    else Word.ofText text
  | _, text => Word.ofText text

namespace Emit

/-! ## Hexadecimal numbers -/

theorem hexValue?_lt {c : Char} {v : Nat} (h : Text.hexValue? c = some v) : v < 16 := by
  unfold Text.hexValue? at h
  dsimp only at h
  split at h
  · cases h
    simp_all
    omega
  split at h
  · cases h
    simp_all
    omega
  split at h
  · cases h
    simp_all
    omega
  · cases h

/-- Hexadecimal digits are read one by one. -/
theorem foldlM_digits {digits : List Char} (h : digits.all Text.isHexDigit) (n : Nat) :
    digits.foldlM (fun n c => (Text.digit? 16 c).map (16 * n + ·)) n
      = some (digits.foldl (fun n c => 16 * n + (Text.hexValue? c).getD 0) n) := by
  induction digits generalizing n with
  | nil => rfl
  | cons c digits ih =>
    rw [List.all_cons, Bool.and_eq_true] at h
    obtain ⟨v, hv⟩ := Option.isSome_iff_exists.1 h.1
    have hdigit : Text.digit? 16 c = some v := by
      rw [Text.digit?, hv]
      simp [hexValue?_lt hv]
    simp only [List.foldlM_cons, List.foldl_cons, hdigit, hv, Option.map_some, Option.getD_some]
    exact ih h.2 _

/-- A numeral in hexadecimal digits is the word of their number. -/
theorem ofNumeral_hex {digits : List Char} (hsome : digits ≠ [])
    (h : digits.all Text.isHexDigit) :
    Word.ofNumeral ("0x" ++ String.ofList digits) = BitVec.ofNat 256 (hexNumber digits) := by
  have hlist : ("0x" ++ String.ofList digits).toList = '0' :: 'x' :: digits := by simp
  rw [Word.ofNumeral, hlist, Word.numberOf, Text.digits?, if_neg (by simpa using hsome),
    foldlM_digits h, Option.getD_some, hexNumber]

/-- Zeros behind digits count for powers of the base. -/
theorem hexNumber_zeros (digits : List Char) (k : Nat) :
    hexNumber (digits ++ List.replicate k '0') = hexNumber digits * 16 ^ k := by
  induction k with
  | zero => simp
  | succ k ih =>
    have hzero : Text.hexValue? '0' = some 0 := by decide
    rw [hexNumber] at ih
    rw [List.replicate_succ', ← List.append_assoc, hexNumber, List.foldl_append, ih]
    simp only [List.foldl_cons, List.foldl_nil, hzero, Option.getD_some, Nat.pow_succ]
    grind

theorem hexValue?_toLower {c : Char} (h : Text.isHexDigit c) :
    Text.hexValue? c.toLower = Text.hexValue? c := by
  have hall : ∀ n < 128, Text.isHexDigit (Char.ofNat n) →
      Text.hexValue? (Char.ofNat n).toLower = Text.hexValue? (Char.ofNat n) := by
    decide
  have hc := hall c.toNat (toNat_lt_of_isHexDigit h)
  rw [Char.ofNat_toNat] at hc
  exact hc h

theorem hexNumber_toLower {digits : List Char} (h : digits.all Text.isHexDigit) :
    hexNumber (digits.map Char.toLower) = hexNumber digits := by
  have hfold (n : Nat) : (digits.map Char.toLower).foldl
      (fun n c => 16 * n + (Text.hexValue? c).getD 0) n
      = digits.foldl (fun n c => 16 * n + (Text.hexValue? c).getD 0) n := by
    induction digits generalizing n with
    | nil => rfl
    | cons c digits ih =>
      rw [List.all_cons, Bool.and_eq_true] at h
      simp only [List.map_cons, List.foldl_cons, hexValue?_toLower h.1, ih h.2]
  exact hfold 0

/-- Two digits for each byte give the number of the bytes. -/
theorem hexNumber_hexByte (bs : List UInt8) :
    hexNumber (bs.flatMap Text.hexByte) = bs.foldl (fun n b => 256 * n + b.toNat) 0 := by
  have hdigit : ∀ n < 16, Text.hexValue? (Text.hexDigit n) = some n := by decide
  have hfold (n : Nat) : (bs.flatMap Text.hexByte).foldl
      (fun n c => 16 * n + (Text.hexValue? c).getD 0) n
      = bs.foldl (fun n b => 256 * n + b.toNat) n := by
    induction bs generalizing n with
    | nil => rfl
    | cons b bs ih =>
      have hb := b.toNat_lt
      simp only [List.flatMap_cons, List.foldl_append, Text.hexByte, List.foldl_cons,
        List.foldl_nil, hdigit (b.toNat / 16) (by omega), hdigit (b.toNat % 16) (by omega),
        Option.getD_some, ih]
      congr 1
      omega
  exact hfold 0

/-- Zeros behind bytes count for powers of two hundred and fifty-six. -/
theorem ofBytes_zeros (bs : List UInt8) (k : Nat) :
    Word.ofBytes (bs ++ List.replicate k 0)
      = BitVec.ofNat 256 (bs.foldl (fun n b => 256 * n + b.toNat) 0 * 256 ^ k) := by
  have hfold (n : Nat) : (List.replicate k (0 : UInt8)).foldl (fun n b => 256 * n + b.toNat) n
      = n * 256 ^ k := by
    induction k generalizing n with
    | zero => simp
    | succ k ih =>
      rw [List.replicate_succ, List.foldl_cons, ih, Nat.pow_succ]
      simp
      grind
  rw [Word.ofBytes, List.foldl_append, hfold]

/-! ## Numerals of literals -/

/-- Digits filled up from the right are the number of the digits at the left of a word. -/
theorem ofNumeral_padWord {digits : List Char} (hlength : digits.length ≤ 64)
    (h : digits.all Text.isHexDigit) :
    Word.ofNumeral (padWord (String.ofList digits))
      = BitVec.ofNat 256 (hexNumber digits * 16 ^ (64 - digits.length)) := by
  have hsome : digits ++ List.replicate (64 - digits.length) '0' ≠ [] := by
    intro hnil
    have hlist := congrArg List.length hnil
    rw [List.length_append, List.length_replicate, List.length_nil] at hlist
    omega
  have hall : (digits ++ List.replicate (64 - digits.length) '0').all Text.isHexDigit := by
    rw [List.all_append, h, List.all_replicate]
    split <;> rfl
  rw [padWord_ofList, ofNumeral_hex hsome hall, hexNumber_zeros]

/-- A text is the word of its bytes, from the highest on. -/
theorem ofNumeral_textWord {text word : String} (hok : textWord text = .ok word) :
    Word.ofNumeral word = Word.ofText text := by
  unfold textWord at hok
  split at hok
  · rename_i hempty
    cases hok
    rw [hempty]
    decide
  split at hok
  · cases hok
  · rename_i hlong
    cases hok
    obtain ⟨hdigits, hlength⟩ := hexBytes_digits (Text.bytes text)
    have hsize : (Text.bytes text).length = text.utf8ByteSize := by simp [Text.bytes]
    have hle : text.utf8ByteSize ≤ 32 := Nat.not_lt.1 hlong
    rw [Text.hexBytes, ofNumeral_padWord (by omega) hdigits, hlength, hexNumber_hexByte,
      Word.ofText, ofBytes_zeros]
    congr 2
    rw [show 64 - 2 * (Text.bytes text).length = 2 * (32 - (Text.bytes text).length) by omega,
      Nat.pow_mul]

/-- **The numeral of a literal stands for the word that the literal means.** -/
theorem ofNumeral_literalWord {pos : Position} {type : Ty} {text word : String}
    (h : WordLiteral type text) (hok : literalWord pos type text = .ok word) :
    Word.ofNumeral word = literalMeaning type text := by
  cases type with
  | number =>
    obtain ⟨n, -, rfl⟩ := h
    cases hok
    rw [Word.ofNumeral_decimal, literalMeaning, Nat.toString_eq_ofList_toDigits,
      String.toList_ofList, Nat.ofDigitChars_ten_toDigits]
  | boolean =>
    rcases h with rfl | rfl
    · cases hok
      decide
    · cases hok
      decide
  | text => exact ofNumeral_textWord hok
  | bytes =>
    unfold literalWord at hok
    dsimp only at hok
    split at hok
    · -- digits are padded on the right: bytes stand from the left of a word
      rename_i hhex
      cases hok
      obtain ⟨digits, htext, -, hlength, hdigits⟩ := isHexWord_iff.1 hhex
      have hdrop : (text.drop 2).toString.toList = digits := by simp [htext]
      have hhex : isHexWord 64 text := hhex
      rw [lowerCase, hdrop, ofNumeral_padWord (by rwa [List.length_map]) (all_toLower hdigits),
        hexNumber_toLower hdigits, List.length_map, literalMeaning, if_pos hhex]
      simp [htext]
    · rename_i hhex
      exact (ofNumeral_textWord hok).trans (if_neg hhex).symm
  | address contract =>
    unfold literalWord at hok
    dsimp only at hok
    split at hok
    · -- an address has all its digits, and is not padded
      rename_i haddress
      cases hok
      obtain ⟨digits, htext, hsome, -, hdigits⟩ :=
        isHexWord_iff.1 (Bool.and_eq_true_iff.1 haddress).1
      have hlower : lowerCase text = "0x" ++ String.ofList (digits.map Char.toLower) := by
        apply String.toList_inj.1
        simp [lowerCase, htext]
      rw [hlower, ofNumeral_hex (by simpa using hsome) (all_toLower hdigits),
        hexNumber_toLower hdigits, literalMeaning]
      simp [htext]
    · cases hok
  | _ => exact h.elim

end Emit

end Covenant
