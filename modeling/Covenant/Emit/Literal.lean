import Covenant.Contract.Expr
import Covenant.Diagnostic.Cause
import Covenant.Text.Hex

/-!
# The words of literals

Every literal is one machine word. A text is packed from the left, its bytes in order; so is a byte
string that is spelled in hexadecimal digits.
-/

namespace Covenant

namespace Emit

/-- The number of bytes in a machine word. -/
def wordBytes : Nat := 32

/-- Whether a text is a hexadecimal numeral with a bounded number of digits. -/
def isHexWord (maxDigits : Nat) (text : String) : Bool :=
  match text.toList with
  | '0' :: 'x' :: digits =>
    !digits.isEmpty && digits.length ≤ maxDigits && digits.all Text.isHexDigit
  | _ => false

/-- A text in lower case, as far as it is ASCII. -/
def lowerCase (text : String) : String :=
  String.ofList (text.toList.map Char.toLower)

/-- Digits filled up with zeros on the right to a whole word. -/
def padWord (digits : String) : String :=
  "0x" ++ digits ++ String.ofList (List.replicate (2 * wordBytes - digits.length) '0')

/-- **The word of a text.** The empty text is zero. -/
def textWord (text : String) : Except Failure String :=
  if text = "" then .ok "0"
  else if wordBytes < text.utf8ByteSize then .error (.overlong text)
  else .ok (padWord (Text.hexBytes (Text.bytes text)))

/-- **The word of a literal.** -/
def literalWord (pos : Position) (type : Ty) (text : String) : Except Failure String :=
  match type with
  | .number => .ok text
  | .boolean => .ok (if text = "true" then "1" else "0")
  | .address _ =>
    if isHexWord 40 text && text.length = 42 then .ok (lowerCase text)
    else .error (.malformed pos (.notAddress text))
  | .bytes =>
    if isHexWord (2 * wordBytes) text then .ok (padWord (lowerCase (text.drop 2).toString))
    else textWord text
  | _ => textWord text

end Emit

end Covenant
