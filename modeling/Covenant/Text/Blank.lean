/-!
# Blank characters

White space in the wide sense of Unicode, and the trimming of a text on both sides. The lexer and
the section markers of generated code use narrower classes of their own.
-/

namespace Covenant

namespace Text

/-- White space: the ASCII blanks, the next-line and no-break spaces, and the Unicode spaces and
line separators. -/
def isBlank (c : Char) : Bool :=
  let n := c.toNat
  (0x09 ≤ n && n ≤ 0x0d) || n == 0x20 || n == 0x85 || n == 0xa0 || n == 0x1680
    || (0x2000 ≤ n && n ≤ 0x200a) || n == 0x2028 || n == 0x2029 || n == 0x202f || n == 0x205f
    || n == 0x3000

/-- Drops the characters of a class at both ends. -/
def trimWhere (p : Char → Bool) (cs : List Char) : List Char :=
  ((cs.dropWhile p).reverse.dropWhile p).reverse

/-- **Drops the blank characters** at both ends. -/
def trimChars (cs : List Char) : List Char :=
  trimWhere isBlank cs

end Text

end Covenant
