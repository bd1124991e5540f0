import Covenant.Emit.Literal
import Covenant.Storage.Layout
import Covenant.Text.Numeral

/-!
# The words of numerals

Words stand for truth values and for numbers. Code names words by numerals: decimal digits, or
hexadecimal ones behind `0x`. What is written for a number in either base reads back as that number,
so a numeral in generated code stands for the word it was made from.
-/

namespace Covenant

namespace Text

/-- Reading more digits goes on from the number so far. -/
theorem digits?_append_singleton {base m : Nat} {cs : List Char} {c : Char}
    (hcs : digits? base cs = some m) :
    digits? base (cs ++ [c]) = (digit? base c).map (base * m + ·) := by
  have hne : cs ≠ [] := by
    rintro rfl
    simp [digits?] at hcs
  simp only [digits?, List.isEmpty_iff, hne, if_false] at hcs
  simp [digits?, List.foldlM_append, hcs]

/-- The digit written for a value reads back as the value. -/
theorem digit?_digitChar {base d : Nat} (hbase : base ≤ 16) (hd : d < base) :
    digit? base d.digitChar = some d := by
  have hsmall : ∀ d < 16, hexValue? d.digitChar = some d := by decide
  simp [digit?, hsmall d (by omega), hd]

/-- **A numeral reads back as its number.** -/
theorem digits?_toDigits {base : Nat} (hone : 1 < base) (hbase : base ≤ 16) (n : Nat) :
    digits? base (Nat.toDigits base n) = some n := by
  induction n using Nat.strongRecOn with
  | ind n ih =>
    rcases Nat.lt_or_ge n base with hlt | hge
    · rw [Nat.toDigits_of_lt_base hlt]
      simp [digits?, digit?_digitChar hbase hlt]
    · have hdiv : n / base < n := Nat.div_lt_self (by omega) hone
      rw [Nat.toDigits_of_base_le hone hge, digits?_append_singleton (ih _ hdiv),
        digit?_digitChar hbase (Nat.mod_lt _ (by omega))]
      simp [Nat.div_add_mod]

/-- Names that end in a number differ if the numbers do. -/
theorem append_toString_injective {stem : String} {m n : Nat}
    (h : stem ++ toString m = stem ++ toString n) : m = n := by
  have hlist := congrArg String.toList h
  simp only [String.toList_append, List.append_cancel_left_eq, Nat.toString_eq_ofList_toDigits,
    String.toList_ofList] at hlist
  have hnumber := congrArg (Nat.ofDigitChars 10 · 0) hlist
  simpa only [Nat.ofDigitChars_ten_toDigits] using hnumber

end Text

namespace Word

/-- The word of a truth value. -/
def truth (b : Bool) : Word :=
  if b then 1 else 0

/-- The number of a numeral; a text that is none stands for zero. -/
def numberOf (numeral : List Char) : Nat :=
  match numeral with
  | '0' :: 'x' :: digits => (Text.digits? 16 digits).getD 0
  | digits => (Text.digits? 10 digits).getD 0

/-- **The word of a numeral.** -/
def ofNumeral (numeral : String) : Word :=
  BitVec.ofNat 256 (numberOf numeral.toList)

/-- **The word of a literal** of a contract. -/
def ofLiteral (type : Ty) (text : String) : Word :=
  match Emit.literalWord {} type text with
  | .ok numeral => ofNumeral numeral
  | .error _ => 0

/-- No decimal numeral has the mark of a hexadecimal one. -/
theorem numberOf_toDigits (n : Nat) : numberOf (Nat.toDigits 10 n) = n := by
  have hread : Text.digits? 10 (Nat.toDigits 10 n) = some n :=
    Text.digits?_toDigits (by omega) (by omega) n
  have hmark : ∀ rest, Nat.toDigits 10 n ≠ '0' :: 'x' :: rest := by
    intro rest h
    have hx : 'x' ∈ Nat.toDigits 10 n := by simp [h]
    exact absurd (Nat.isDigit_of_mem_toDigits (by omega) (by omega) hx) (by decide)
  unfold numberOf
  split
  · rename_i rest h
    exact absurd h (hmark rest)
  · rw [hread, Option.getD_some]

theorem ofNumeral_decimal (n : Nat) : ofNumeral (toString n) = BitVec.ofNat 256 n := by
  rw [ofNumeral, Nat.toString_eq_ofList_toDigits, String.toList_ofList, numberOf_toDigits]

theorem ofNumeral_hexNat (n : Nat) :
    ofNumeral ("0x" ++ Text.hexNat n) = BitVec.ofNat 256 n := by
  have hlist : ("0x" ++ Text.hexNat n).toList = '0' :: 'x' :: Nat.toDigits 16 n := by
    simp [Text.hexNat]
  rw [ofNumeral, hlist, numberOf, Text.digits?_toDigits (by omega) (by omega), Option.getD_some]

end Word

end Covenant
