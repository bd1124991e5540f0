import Covenant.Proofs.Syntax.Spelling
import Covenant.Resolve.Literals
import Mathlib.Data.Nat.Digits.Defs

/-!
# Number literals denote their numbers

A number literal is a run of digits, with a mark in front where the base is sixteen, and with
separators among them. The number it denotes depends on its digits alone (`denoted`). Reading it
gives the decimal numeral of this number, unless the number does not fit in a word or no digit is
left once the mark and the separators are gone.
-/

namespace Covenant

namespace Resolve

open Source

/-! ## What a literal denotes -/

/-- The value of a digit of either case: its place among the sixteen digits. -/
def digitValue (c : Char) : Nat :=
  "0123456789abcdef".toList.idxOf c.toLower

/-- Whether a literal begins with the mark of base sixteen. -/
def isMarked : List Char → Bool
  | '0' :: x :: _ => x = 'x' || x = 'X'
  | _ => false

/-- The base of the digits of a literal. -/
def literalBase (literal : List Char) : Nat :=
  if isMarked literal then 16 else 10

/-- **The digits of a literal**, without its mark and its separators. -/
def literalDigits (literal : List Char) : List Char :=
  (if isMarked literal then literal.drop 2 else literal).filter (· ≠ '_')

/-- **The number that the digits of a literal denote**, the first digit being the highest. -/
def denoted (literal : List Char) : Nat :=
  Nat.ofDigits (literalBase literal) ((literalDigits literal).map digitValue).reverse

/-! ## Reading digits -/

theorem sub_eq_digitValue {c : Char} (h : c.isDigit = true) : c.toNat - 48 = digitValue c := by
  have hall : ∀ n < 58, 48 ≤ n → n - 48 = digitValue (Char.ofNat n) := by decide
  have hrange := Lexer.isDigit_iff.1 h
  have hc := hall c.toNat (by omega) hrange.1
  rwa [Char.ofNat_toNat] at hc

theorem hexValue?_eq_digitValue {c : Char} (h : Text.isHexDigit c = true) :
    Text.hexValue? c = some (digitValue c) := by
  have hall : ∀ n < 103, Text.isHexDigit (Char.ofNat n) = true →
      Text.hexValue? (Char.ofNat n) = some (digitValue (Char.ofNat n)) := by
    decide
  have hsmall : c.toNat < 103 := by
    obtain ⟨v, hv⟩ := Option.isSome_iff_exists.1 h
    simp only [Text.hexValue?] at hv
    grind
  have hc := hall c.toNat hsmall
  rw [Char.ofNat_toNat] at hc
  exact hc h

/-- **Reading digits one by one gives the number they denote**: what was read before counts for as
many powers of the base as digits follow. -/
theorem foldlM_digits_eq {base : Nat} {step : Nat → Char → Option Nat} {digits : List Char}
    (h : ∀ c ∈ digits, ∀ n, step n c = some (base * n + digitValue c)) (n : Nat) :
    digits.foldlM step n =
      some (Nat.ofDigits base (digits.map digitValue).reverse + base ^ digits.length * n) := by
  induction digits generalizing n with
  | nil => simp
  | cons c digits ih =>
    rw [List.forall_mem_cons] at h
    have hrest := ih h.2 (base * n + digitValue c)
    rw [List.foldlM_cons, h.1 n, Option.bind_eq_bind, Option.bind_some, hrest, List.map_cons,
      Nat.ofDigits_reverse_cons, List.length_map, List.length_cons, Nat.pow_succ]
    congr 1
    grind

theorem decimalValue?_eq {digits : List Char} (h : ∀ c ∈ digits, c.isDigit = true) :
    decimalValue? digits =
      if digits = [] then none
      else some (Nat.ofDigits 10 (digits.map digitValue).reverse) := by
  have hstep : ∀ c ∈ digits, ∀ n : Nat,
      (if c.isDigit then some (10 * n + (c.toNat - 48)) else none) =
        some (10 * n + digitValue c) := by
    intro c hc n
    rw [if_pos (h c hc), sub_eq_digitValue (h c hc)]
  have hread := foldlM_digits_eq hstep 0
  rw [decimalValue?, hread, Nat.mul_zero, Nat.add_zero]
  simp only [List.isEmpty_iff]

theorem hexValue?_eq {digits : List Char} (h : ∀ c ∈ digits, Text.isHexDigit c = true) :
    hexValue? digits =
      if digits = [] then none
      else some (Nat.ofDigits 16 (digits.map digitValue).reverse) := by
  have hstep : ∀ c ∈ digits, ∀ n : Nat,
      (Text.hexValue? c).map (16 * n + ·) = some (16 * n + digitValue c) := by
    intro c hc n
    rw [hexValue?_eq_digitValue (h c hc), Option.map_some]
  have hread := foldlM_digits_eq hstep 0
  rw [hexValue?, Text.natOfHexDigits?, hread, Nat.mul_zero, Nat.add_zero]
  simp only [List.isEmpty_iff]

/-! ## Reading literals -/

theorem isDigit_of_mem_filter {cs : List Char} (h : ∀ c ∈ cs, Lexer.isDecimalPart c = true) :
    ∀ c ∈ cs.filter (· ≠ '_'), c.isDigit = true := by
  intro c hc
  obtain ⟨hmem, hplain⟩ := List.mem_filter.1 hc
  have hpart := h c hmem
  simp_all [Lexer.isDecimalPart]

theorem isHexDigit_of_mem_filter {cs : List Char} (h : ∀ c ∈ cs, Lexer.isHexPart c = true) :
    ∀ c ∈ cs.filter (· ≠ '_'), Text.isHexDigit c = true := by
  intro c hc
  obtain ⟨hmem, hplain⟩ := List.mem_filter.1 hc
  have hpart := h c hmem
  simp_all [Lexer.isHexPart]

/-- Digits without a mark are decimal ones. -/
theorem literalValue?_decimal {literal : List Char}
    (h : ∀ c ∈ literal, Lexer.isDecimalPart c = true) :
    literalValue? literal = decimalValue? (literal.filter (· ≠ '_')) := by
  have hdigits := isDigit_of_mem_filter h
  rw [literalValue?]
  generalize literal.filter (· ≠ '_') = digits at hdigits
  split
  · exact absurd (hdigits 'x' (by simp)) (by decide)
  · exact absurd (hdigits 'X' (by simp)) (by decide)
  · rfl

/-- **A spelled literal denotes the number of its digits**, and none if it has no digits. -/
theorem literalValue?_eq {literal : List Char} (h : Lexer.Numeral literal) :
    literalValue? literal =
      if literalDigits literal = [] then none else some (denoted literal) := by
  cases h with
  | @decimal c cs hc hcs =>
    have hparts : ∀ d ∈ c :: cs, Lexer.isDecimalPart d = true := by
      rw [List.forall_mem_cons, Lexer.isDecimalPart, hc]
      exact ⟨rfl, hcs⟩
    have hmark : isMarked (c :: cs) = false := by
      unfold isMarked
      split
      · -- a mark is neither a digit nor a separator
        rename_i x rest heq
        have hx : Lexer.isDecimalPart x = true := hparts x (by simp [heq])
        have hne : x ≠ 'x' ∧ x ≠ 'X' := by
          constructor <;> rintro rfl <;> exact absurd hx (by decide)
        simp [hne]
      · rfl
    rw [literalValue?_decimal hparts, decimalValue?_eq (isDigit_of_mem_filter hparts), denoted,
      literalDigits, literalBase, hmark]
    rfl
  | @hexadecimal x cs hx hne hcs =>
    have hmark : isMarked ('0' :: x :: cs) = true := by
      rw [isMarked]
      simpa using hx
    have hfilter : ('0' :: x :: cs).filter (· ≠ '_') = '0' :: x :: cs.filter (· ≠ '_') := by
      rcases hx with rfl | rfl <;> rfl
    have hvalue : literalValue? ('0' :: x :: cs) = hexValue? (cs.filter (· ≠ '_')) := by
      rw [literalValue?, hfilter]
      rcases hx with rfl | rfl <;> rfl
    rw [hvalue, hexValue?_eq (isHexDigit_of_mem_filter hcs), denoted, literalDigits, literalBase,
      hmark]
    rfl

/-- What a spelled literal is read as: the first thing that is wrong with it, or its number. -/
theorem number_eq {literal : List Char} (h : Lexer.Numeral literal) (pos : Position) :
    number pos (String.ofList literal) =
      if literalDigits literal = [] then
        .error (.malformed pos (.malformedNumber (String.ofList literal)))
      else if denoted literal < 2 ^ 256 then
        .ok (.literal pos .number (toString (denoted literal)))
      else .error (.malformed pos (.numericOverflow (String.ofList literal))) := by
  have hbound : wordBound = 2 ^ 256 := rfl
  rw [number, String.toList_ofList, literalValue?_eq h, hbound]
  by_cases hnone : literalDigits literal = []
  · rw [if_pos hnone, if_pos hnone]
  · rw [if_neg hnone, if_neg hnone]

/-- **Number literals denote their numbers.** Whatever the lexer takes for a number at the front of
a text, of any length and with separators anywhere: it is read as the decimal numeral of the number
that its digits denote exactly where it has a digit and the number fits in a word, it is refused as
too large exactly where the number does not fit, and it is refused as malformed exactly where it has
no digit. -/
theorem number_denotes {literal rest : List Char} (pos : Position) (hsome : literal ≠ [])
    (hmatch : Lexer.number (literal ++ rest) = literal.length) :
    (number pos (String.ofList literal) = .ok (.literal pos .number (toString (denoted literal))) ↔
      literalDigits literal ≠ [] ∧ denoted literal < 2 ^ 256) ∧
    (number pos (String.ofList literal) =
        .error (.malformed pos (.numericOverflow (String.ofList literal))) ↔
      2 ^ 256 ≤ denoted literal) ∧
    (number pos (String.ofList literal) =
        .error (.malformed pos (.malformedNumber (String.ofList literal))) ↔
      literalDigits literal = []) := by
  have hlength : literal.length ≠ 0 := mt List.length_eq_zero_iff.1 hsome
  have hspelled := Lexer.numeral_take (hmatch ▸ hlength)
  rw [hmatch, List.take_left] at hspelled
  rw [number_eq hspelled]
  by_cases hnone : literalDigits literal = []
  · -- without digits the number is zero, which is not too large
    have hzero : denoted literal = 0 := by
      rw [denoted, hnone]
      rfl
    have hfits : ¬ 2 ^ 256 ≤ denoted literal := by
      rw [hzero]
      decide
    simp only [hnone, if_true, ne_eq, not_true_eq_false, false_and, hfits, iff_false]
    exact ⟨nofun, by simp [Fault.malformed], trivial⟩
  · rw [if_neg hnone]
    by_cases hfits : denoted literal < 2 ^ 256
    · simp only [hfits, if_true, hnone, ne_eq, not_false_eq_true, true_and,
        Nat.not_le_of_lt hfits, iff_false]
      exact ⟨nofun, nofun⟩
    · simp only [hfits, if_false, hnone, and_false, iff_false, Nat.le_of_not_lt hfits]
      exact ⟨nofun, trivial, by simp [Fault.malformed]⟩

/-- A literal of each kind: one that fits, the first that does not, and one without digits. -/
theorem number_denotes_limits :
    number {} "0xFF_fF_" = .ok (.literal {} .number "65535") ∧
      number {} ("0X1" ++ String.ofList (List.replicate 64 '0')) =
        .error (.malformed {}
          (.numericOverflow ("0X1" ++ String.ofList (List.replicate 64 '0')))) ∧
      number {} "0x__" = .error (.malformed {} (.malformedNumber "0x__")) := by
  refine ⟨?_, ?_, ?_⟩
  · exact (@number_denotes "0xFF_fF_".toList [';'] {} (by decide)
      (by decide)).1.2 (by decide)
  · exact (@number_denotes ('0' :: 'X' :: '1' :: List.replicate 64 '0') [] {}
      (by decide) (by decide)).2.1.2 (by decide +kernel)
  · exact (@number_denotes "0x__".toList [' '] {} (by decide)
      (by decide)).2.2.2 (by decide)

end Resolve

end Covenant
