import Covenant.Graph
import Covenant.Yul.Basic

/-!
# Shared functions

The functions that the code of every contract may need: arithmetic that refuses to overflow, ways to
revert, and the packing of texts. Code holds the ones it applies and the ones those apply in turn.

A text is one word, its bytes from the left. Its length is the number of bytes before the first
zero.
-/

namespace Covenant

namespace Emit

open Yul Yul.Expr Yul.Stmt

/-! ## Ways to end -/

/-- The code for a result that does not fit in a word. -/
def overflowCode : Yul.Expr := literal "0x11"

/-- The code for a division by zero. -/
def divisionCode : Yul.Expr := literal "0x12"

/-- The code for an index that is out of range. -/
def indexCode : Yul.Expr := literal "0x32"

/-- Reverts with a code. -/
def panicError : Function where
  name := "panic_error"
  params := ["code"]
  body :=
    [mstore (num 0) (binary "shl" (num 224) (literal "0x4e487b71")),
      mstore (num 4) (var "code"),
      run "revert" [num 0, num 36]]

/-- Reverts with a code if a condition is not zero. -/
def panicIf (condition code : Yul.Expr) : Yul.Stmt :=
  guard condition (run "panic_error" [code])

/-- Reverts if a condition is not zero. -/
def revertIf (condition : Yul.Expr) : Yul.Stmt :=
  guard condition revert

/-- Reverts with what a call returned. -/
def revertForward : Function where
  name := "revert_forward"
  body :=
    [run "returndatacopy" [num 0, num 0, call "returndatasize" []],
      run "revert" [num 0, call "returndatasize" []]]

/-- Reverts with a message. -/
def revertError : Function where
  name := "revert_error"
  params := ["message"]
  body :=
    [define "ptr" free,
      mstore (var "ptr") (binary "shl" (num 224) (literal "0x08c379a0")),
      mstore (add (var "ptr") (num 4)) (num 32),
      define "end" (binary "abi_encode_string" (add (var "ptr") (num 36)) (var "message")),
      run "revert" [var "ptr", sub (var "end") (var "ptr")]]

/-- Reverts if the call came with money. -/
def requireNoValue : Function where
  name := "require_no_value"
  body := [revertIf (call "callvalue" [])]

/-- Reverts if the call came with less than a number of bytes. -/
def requireCalldata : Function where
  name := "require_calldata"
  params := ["size"]
  body := [revertIf (binary "lt" (call "calldatasize" []) (var "size"))]

/-! ## Memory -/

/-- Sets a number of bytes of memory aside. -/
def allocate : Function where
  name := "allocate"
  params := ["size"]
  results := ["ptr"]
  body := [assign "ptr" free, mstore (num 64) (add (var "ptr") (var "size"))]

/-! ## Arithmetic -/

/-- The sum, if it fits in a word. -/
def checkedAdd : Function where
  name := "checked_add"
  params := ["x", "y"]
  results := ["sum"]
  body :=
    [assign "sum" (add (var "x") (var "y")),
      panicIf (binary "lt" (var "sum") (var "x")) overflowCode]

/-- The difference, if it is not negative. -/
def checkedSub : Function where
  name := "checked_sub"
  params := ["x", "y"]
  results := ["diff"]
  body :=
    [panicIf (binary "lt" (var "x") (var "y")) overflowCode,
      assign "diff" (sub (var "x") (var "y"))]

/-- The product, if it fits in a word. -/
def checkedMul : Function where
  name := "checked_mul"
  params := ["x", "y"]
  results := ["product"]
  body :=
    [assign "product" (binary "mul" (var "x") (var "y")),
      panicIf
        (isZero
          (binary "or" (isZero (var "x"))
            (binary "eq" (binary "div" (var "product") (var "x")) (var "y"))))
        overflowCode]

/-- What an operation that divides gives, if the divisor is not zero. -/
def checkedDivision (name result operation : String) : Function where
  name
  params := ["x", "y"]
  results := [result]
  body :=
    [panicIf (isZero (var "y")) divisionCode,
      assign result (binary operation (var "x") (var "y"))]

/-- The quotient, if the divisor is not zero. -/
def checkedDiv : Function :=
  checkedDivision "checked_div" "quotient" "div"

/-- The remainder, if the divisor is not zero. -/
def checkedMod : Function :=
  checkedDivision "checked_mod" "remainder" "mod"

/-- The power, if it fits in a word. The base is squared only while a bit of the exponent is still
to come, so a square that is too large but not needed does no harm. -/
def checkedExp : Function where
  name := "checked_exp"
  params := ["base", "exponent"]
  results := ["power"]
  body :=
    [assign "power" (num 1),
      loop (var "exponent") (assign "exponent" (binary "shr" (num 1) (var "exponent")))
        [guard (binary "and" (var "exponent") (num 1))
            (assign "power" (binary "checked_mul" (var "power") (var "base"))),
          guard (binary "gt" (var "exponent") (num 1))
            (assign "base" (binary "checked_mul" (var "base") (var "base")))]]

/-! ## Values from outside -/

/-- The value, if it is an address. -/
def validateAddress : Function where
  name := "validate_address"
  params := ["value"]
  results := ["cleaned"]
  body := [revertIf (binary "shr" (num 160) (var "value")), assign "cleaned" (var "value")]

/-- The value, if it is a truth value. -/
def validateBool : Function where
  name := "validate_bool"
  params := ["value"]
  results := ["cleaned"]
  body := [revertIf (binary "gt" (var "value") (num 1)), assign "cleaned" (var "value")]

/-! ## Texts -/

/-- The number of bytes before the first zero. -/
def stringLength : Function where
  name := "string_length"
  params := ["word"]
  results := ["length"]
  body :=
    [loop (binary "lt" (var "length") (num 32))
        (assign "length" (add (var "length") (num 1)))
        [guard (isZero (binary "byte" (var "length") (var "word"))) stop]]

/-- Writes a text: its length, then its word unless it is empty. -/
def abiEncodeString : Function where
  name := "abi_encode_string"
  params := ["pos", "word"]
  results := ["end"]
  body :=
    [define "length" (call "string_length" [var "word"]),
      mstore (var "pos") (var "length"),
      mstore (add (var "pos") (num 32)) (var "word"),
      assign "end"
        (add (add (var "pos") (num 32))
          (binary "mul" (isZero (isZero (var "length"))) (num 32)))]

/-- The bytes of a text of a given length that is read from a place. -/
def maskedText (load : Yul.Expr → Yul.Expr) : Yul.Expr :=
  binary "and" (load (add (var "offset") (num 32)))
    (binary "shl" (binary "mul" (num 8) (sub (num 32) (var "length"))) (call "not" [num 0]))

/-- Reads a text of the call's arguments. -/
def decodeStringCalldata : Function where
  name := "decode_string_calldata"
  params := ["head"]
  results := ["word"]
  body :=
    [define "offset" (add (num 4) (call "calldataload" [var "head"])),
      define "length" (call "calldataload" [var "offset"]),
      revertIf (binary "gt" (var "length") (num 32)),
      assign "word" (maskedText fun place => call "calldataload" [place])]

/-- Reads a text from memory. -/
def decodeStringMemory : Function where
  name := "decode_string_memory"
  params := ["start", "head"]
  results := ["word"]
  body :=
    [define "offset" (add (var "start") (mload (var "head"))),
      define "length" (mload (var "offset")),
      revertIf (binary "gt" (var "length") (num 32)),
      assign "word" (maskedText mload)]

/-! ## The whole collection -/

/-- **The shared functions**, in the order of their names. -/
def shared : List Function :=
  [abiEncodeString, allocate, checkedAdd, checkedDiv, checkedExp, checkedMod, checkedMul,
    checkedSub, decodeStringCalldata, decodeStringMemory, panicError, requireCalldata,
    requireNoValue, revertError, revertForward, stringLength, validateAddress, validateBool]

/-- **The shared functions that code needs**, if it applies the given names: those, and those they
apply in turn. -/
def sharedFor (names : List String) : List Function :=
  let needed := Graph.reachable (shared.map fun f => (f.name, f.calls)) [] names
  shared.filter fun f => needed.contains f.name

end Emit

end Covenant
