import Covenant.Source.Token.Lexer
import Mathlib.Algebra.Group.Nat.Defs

/-!
# Quoted texts are read back

A quoted text is a literal of the language: the lexer takes all of it, whatever comes behind it, and
it denotes the text that was quoted. Both hold of one character after the other: `quoteChar` writes
a character as itself, or as an escape that denotes it and whose digits are no quotes
(`quoteChar_cases`).

Main statements: `unquote?_quote`, `text_quote`.
-/

namespace Covenant

namespace Text

/-! ## Hexadecimal digits -/

/-- A digit is read as the value it was written for. -/
theorem hexValue?_digitChar {d : Nat} (h : d < 16) : hexValue? d.digitChar = some d := by
  revert d
  decide

/-- The digits of a number denote it. -/
theorem natOfHexDigits?_toDigits (n : Nat) : natOfHexDigits? (Nat.toDigits 16 n) = some n := by
  induction n using Nat.strongRecOn with
  | ind n ih =>
    by_cases hn : n < 16
    · simp [Nat.toDigits_of_lt_base hn, natOfHexDigits?, hexValue?_digitChar hn]
    · have hlast := hexValue?_digitChar (Nat.mod_lt n (by decide : 0 < 16))
      have hfront := ih (n / 16) (by omega)
      simp only [natOfHexDigits?] at hfront
      rw [Nat.toDigits_of_base_le (by decide) (by omega), natOfHexDigits?, List.foldlM_append,
        hfront]
      simp only [Option.bind_eq_bind, Option.bind_some, List.foldlM_cons, List.foldlM_nil, hlast,
        Option.map_some, Option.pure_def, Option.some.injEq]
      omega

theorem natOfHexDigits?_zeros (k : Nat) (digits : List Char) :
    natOfHexDigits? (List.replicate k '0' ++ digits) = natOfHexDigits? digits := by
  induction k with
  | zero => rfl
  | succ k ih =>
    rw [List.replicate_succ, List.cons_append, natOfHexDigits?, List.foldlM_cons]
    exact ih

/-- Zeros in front change no number. -/
theorem natOfHexDigits?_hexPadded (width n : Nat) :
    natOfHexDigits? (hexPadded width n).toList = some n := by
  rw [hexPadded, String.toList_ofList, natOfHexDigits?_zeros, natOfHexDigits?_toDigits]

theorem length_hexPadded {width n : Nat} (hwidth : 0 < width) (hn : n < 16 ^ width) :
    (hexPadded width n).toList.length = width := by
  have := (Nat.length_toDigits_le_iff (b := 16) (by decide) hwidth).2 hn
  rw [hexPadded, String.toList_ofList, List.length_append, List.length_replicate]
  omega

/-- What denotes a number consists of digits. -/
theorem isHexDigit_of_foldlM {digits : List Char} {n m : Nat}
    (h : digits.foldlM (fun n c => (hexValue? c).map (16 * n + ·)) n = some m) :
    ∀ c ∈ digits, isHexDigit c = true := by
  induction digits generalizing n with
  | nil => exact List.forall_mem_nil _
  | cons d digits ih =>
    rw [List.foldlM_cons, Option.bind_eq_bind, Option.bind_eq_some_iff] at h
    obtain ⟨k, hk, hrest⟩ := h
    obtain ⟨v, hv, -⟩ := Option.map_eq_some_iff.1 hk
    rw [List.forall_mem_cons]
    exact ⟨by rw [isHexDigit, hv]; rfl, ih hrest⟩

theorem isHexDigit_hexPadded (width n : Nat) :
    ∀ c ∈ (hexPadded width n).toList, isHexDigit c = true :=
  isHexDigit_of_foldlM (natOfHexDigits?_hexPadded width n)

theorem leadingHex?_hexPadded {width n : Nat} (hwidth : 0 < width) (hn : n < 16 ^ width)
    (rest : List Char) : leadingHex? width ((hexPadded width n).toList ++ rest) = some n := by
  have hlength := length_hexPadded hwidth hn
  have htake : ((hexPadded width n).toList ++ rest).take width = (hexPadded width n).toList :=
    List.take_left' hlength
  rw [leadingHex?, htake, if_pos hlength, natOfHexDigits?_hexPadded]

/-! ## One character -/

theorem toNat_lt (c : Char) : c.toNat < 0x110000 := by
  rcases c.valid with h | ⟨-, h⟩
  · exact Nat.lt_trans h (by decide)
  · exact h

theorem charOfCode?_toNat (c : Char) : charOfCode? c.toNat = some c := by
  have hvalid : c.toNat < 0xd800 ∨ 0xdfff < c.toNat ∧ c.toNat < 0x110000 := c.valid
  rw [charOfCode?, if_pos (by simpa using hvalid), Char.ofNat_toNat]

theorem eq_of_toNat {c : Char} {n : Nat} (h : c.toNat = n) : c = Char.ofNat n := by
  rw [← h, Char.ofNat_toNat]

/-- The short escape of a control character denotes it. -/
theorem escape?_controlEscape {c e : Char} (h : controlEscape? c = some e) (rest : List Char) :
    e ≠ '\n' ∧ escape? '"' e rest = some (c, 0) := by
  unfold controlEscape? at h
  split at h <;> first
    | (rename_i hc; cases h; exact ⟨by decide, by rw [eq_of_toNat hc]; rfl⟩)
    | cases h

/-- **A character is written as itself, or as an escape that denotes it**: a letter and digits
behind a backslash. -/
theorem quoteChar_cases (c : Char) :
    ((quoteChar c).toList = [c] ∧ c ≠ '"' ∧ c ≠ '\\') ∨
    ∃ e digits, (quoteChar c).toList = '\\' :: e :: digits ∧ e ≠ '\n' ∧
      (∀ d ∈ digits, isHexDigit d = true) ∧
      ∀ rest, escape? '"' e (digits ++ rest) = some (c, digits.length) := by
  unfold quoteChar
  split
  · rename_i hc
    refine .inr ⟨c, [], String.toList_ofList, ?_⟩
    rcases (by simpa using hc : c = '"' ∨ c = '\\') with rfl | rfl
    · exact ⟨by decide, List.forall_mem_nil _, fun _ => rfl⟩
    · exact ⟨by decide, List.forall_mem_nil _, fun _ => rfl⟩
  rename_i hc
  split
  · exact .inl ⟨by simp, by simpa using hc⟩
  right
  have hcode := charOfCode?_toNat c
  split
  · -- control characters that have a letter of their own
    rename_i e he
    exact ⟨e, [], String.toList_ofList, (escape?_controlEscape he []).1, List.forall_mem_nil _,
      fun rest => (escape?_controlEscape he rest).2⟩
  · -- all others are escaped by their code, in the fewest of two, four and eight digits
    split
    · rename_i hlt
      refine ⟨'x', (hexPadded 2 c.toNat).toList, by simp, by decide,
        isHexDigit_hexPadded 2 c.toNat, fun rest => ?_⟩
      rw [length_hexPadded (by decide) (by omega), escape?,
        leadingHex?_hexPadded (by decide) (by omega), Option.map_some, Char.ofNat_toNat]
    · split
      · rename_i hlt
        refine ⟨'u', (hexPadded 4 c.toNat).toList, by simp, by decide,
          isHexDigit_hexPadded 4 c.toNat, fun rest => ?_⟩
        rw [length_hexPadded (by decide) (by omega), escape?,
          leadingHex?_hexPadded (by decide) (by omega), Option.bind_some, hcode, Option.map_some]
      · have hlt := toNat_lt c
        refine ⟨'U', (hexPadded 8 c.toNat).toList, by simp, by decide,
          isHexDigit_hexPadded 8 c.toNat, fun rest => ?_⟩
        rw [length_hexPadded (by decide) (by omega), escape?,
          leadingHex?_hexPadded (by decide) (by omega), Option.bind_some, hcode, Option.map_some]

/-! ## A literal -/

/-- Digits are neither quotes nor backslashes. -/
theorem plain_of_isHexDigit {d : Char} (h : isHexDigit d = true) : d ≠ '"' ∧ d ≠ '\\' := by
  constructor <;> rintro rfl <;> exact absurd h (by decide)

theorem decodeBody?_cons {c : Char} (hquote : c ≠ '"') (hslash : c ≠ '\\') (rest : List Char) :
    decodeBody? '"' (c :: rest) = (decodeBody? '"' rest).map (c :: ·) := by
  rw [decodeBody?, if_neg hquote]
  all_goals simp [hslash]

/-- **Decoding undoes the quoting of one character**, be it written as itself or as an escape. -/
theorem decodeBody?_quoteChar (c : Char) (rest : List Char) :
    decodeBody? '"' ((quoteChar c).toList ++ rest) = (decodeBody? '"' rest).map (c :: ·) := by
  rcases quoteChar_cases c with ⟨heq, hquote, hslash⟩ | ⟨e, digits, heq, -, -, hescape⟩
  · rw [heq]
    exact decodeBody?_cons hquote hslash rest
  · rw [heq, List.cons_append, List.cons_append, decodeBody?, hescape, Option.bind_eq_bind,
      Option.bind_some]
    dsimp only
    rw [List.drop_left]
    cases decodeBody? '"' rest <;> rfl

/-- So it does for a whole text. -/
theorem decodeBody?_quote (cs : List Char) :
    decodeBody? '"' (cs.flatMap fun c => (quoteChar c).toList) = some cs := by
  induction cs with
  | nil => rw [List.flatMap_nil, decodeBody?]
  | cons c cs ih => rw [List.flatMap_cons, decodeBody?_quoteChar, ih, Option.map_some]

end Text

namespace Source

namespace Lexer

open Text

theorem literalEnd?_cons {c : Char} (hquote : c ≠ '"') (hslash : c ≠ '\\') (rest : List Char) :
    literalEnd? '"' (c :: rest) = (literalEnd? '"' rest).map (· + 1) := by
  rw [literalEnd?.eq_def]
  simp [hquote, hslash]

theorem literalEnd?_digits {digits : List Char} (h : ∀ d ∈ digits, isHexDigit d = true)
    (rest : List Char) :
    literalEnd? '"' (digits ++ rest) = (literalEnd? '"' rest).map (· + digits.length) := by
  induction digits with
  | nil => simp
  | cons d digits ih =>
    rw [List.forall_mem_cons] at h
    obtain ⟨hquote, hslash⟩ := plain_of_isHexDigit h.1
    rw [List.cons_append, literalEnd?_cons hquote hslash, ih h.2, Option.map_map]
    rfl

/-- The end of a literal is not found within a quoted character. -/
theorem literalEnd?_quoteChar (c : Char) (rest : List Char) :
    literalEnd? '"' ((quoteChar c).toList ++ rest) =
      (literalEnd? '"' rest).map (· + (quoteChar c).toList.length) := by
  rcases quoteChar_cases c with ⟨heq, hquote, hslash⟩ | ⟨e, digits, heq, hline, hdigits, -⟩
  · rw [heq]
    exact literalEnd?_cons hquote hslash rest
  · rw [heq, List.cons_append, List.cons_append, literalEnd?, if_neg hline,
      literalEnd?_digits hdigits, Option.map_map]
    rfl

/-- **A quoted text ends at its own quote**, and at none that it holds. -/
theorem literalEnd?_quote (cs rest : List Char) :
    literalEnd? '"' ((cs.flatMap fun c => (quoteChar c).toList) ++ '"' :: rest) =
      some ((cs.flatMap fun c => (quoteChar c).toList).length + 1) := by
  induction cs with
  | nil => simp [literalEnd?]
  | cons c cs ih =>
    rw [List.flatMap_cons, List.append_assoc, literalEnd?_quoteChar, ih, Option.map_some,
      List.length_append]
    congr 1
    omega

end Lexer

end Source

namespace Text

theorem toList_quote (s : String) :
    (quote s).toList = '"' :: ((s.toList.flatMap fun c => (quoteChar c).toList) ++ ['"']) := by
  simp [quote, List.flatMap_map]

/-- **A quoted text denotes the text that was quoted.** -/
theorem unquote?_quote (s : String) : unquote? (quote s).toList = some s := by
  rw [toList_quote, unquote?, List.dropLast_concat, decodeBody?_quote, Option.map_some,
    String.ofList_toList]

end Text

/-- **A quoted text is one literal**, whatever comes behind it. -/
theorem Source.Lexer.text_quote (s : String) (rest : List Char) :
    text ((Text.quote s).toList ++ rest) = (Text.quote s).toList.length := by
  rw [Text.toList_quote, List.cons_append, List.append_assoc, List.singleton_append, text,
    literalEnd?_quote]
  simp

end Covenant
