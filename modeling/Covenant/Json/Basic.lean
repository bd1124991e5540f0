import Covenant.Text.Hex

/-!
# JSON values

Interface descriptions are written as JSON, and the assembler is spoken to in JSON. Objects keep
the order of their members; a number keeps the text it was written with, since no part of the
program computes with one it has read.
-/

namespace Covenant

/-- **A JSON value.** -/
inductive Json where
  | null
  | bool (value : Bool)
  | number (literal : String)
  | string (value : String)
  | array (items : List Json)
  | object (members : List (String × Json))
deriving Repr, Inhabited

namespace Json

/-- An integer. -/
def int (n : Int) : Json :=
  number (toString n)

/-- A natural number. -/
def nat (n : Nat) : Json :=
  number (toString n)

/-- A list of texts. -/
def strings (values : List String) : Json :=
  array (values.map string)

/-- The members of an object; none of any other value. -/
def members : Json → List (String × Json)
  | object members => members
  | _ => []

/-- The value of a member. Of several members of one name the last counts. -/
def get? (j : Json) (key : String) : Option Json :=
  (j.members.reverse.find? (·.1 = key)).map Prod.snd

/-- The text of a string. -/
def text? : Json → Option String
  | string value => some value
  | _ => none

/-- The items of an array. -/
def items? : Json → Option (List Json)
  | array items => some items
  | _ => none

/-- The truth value of a boolean. -/
def bool? : Json → Option Bool
  | bool value => some value
  | _ => none

/-- The value of a number that is written as an integer. -/
def int? : Json → Option Int
  | number literal => literal.toInt?
  | _ => none

end Json

/-! ## Writing JSON

Two layouts: on one line without blanks, and indented by two blanks per level. Strings are safe to
embed in a web page: angle brackets, ampersands and the two Unicode line separators are escaped. -/

namespace Json

/-- One character inside a string. -/
def escapeChar (c : Char) : String :=
  match c with
  | '"' => "\\\""
  | '\\' => "\\\\"
  | '\n' => "\\n"
  | '\r' => "\\r"
  | '\t' => "\\t"
  | _ =>
    let n := c.toNat
    if n = 0x08 then "\\b"
    else if n = 0x0c then "\\f"
    else if n < 0x20 || n = 0x3c || n = 0x3e || n = 0x26 || n = 0x2028 || n = 0x2029 then
      "\\u" ++ Text.hexPadded 4 n
    else c.toString

/-- A text as a JSON string. -/
def quoted (s : String) : String :=
  "\"" ++ String.join (s.toList.map escapeChar) ++ "\""

mutual
/-- **A value on one line**, without blanks. -/
def compact : Json → String
  | null => "null"
  | bool true => "true"
  | bool false => "false"
  | number literal => literal
  | string value => quoted value
  | array items => "[" ++ ",".intercalate (compactItems items) ++ "]"
  | object members => "\x7b" ++ ",".intercalate (compactMembers members) ++ "\x7d"

/-- The items of an array, each on one line. -/
def compactItems : List Json → List String
  | [] => []
  | item :: rest => compact item :: compactItems rest

/-- The members of an object, each on one line. -/
def compactMembers : List (String × Json) → List String
  | [] => []
  | (key, value) :: rest => (quoted key ++ ":" ++ compact value) :: compactMembers rest
end

/-- Lines between brackets, one level deeper; brackets around nothing stay together. -/
def bracketed (opening closing margin : String) : List String → String
  | [] => opening ++ closing
  | lines =>
    opening ++ "\n" ++ ",\n".intercalate (lines.map (margin ++ "  " ++ ·)) ++ "\n" ++ margin
      ++ closing

mutual
/-- **A value on several lines**, indented by two blanks per level beyond a margin. -/
def indented (margin : String) : Json → String
  | array items => bracketed "[" "]" margin (indentedItems (margin ++ "  ") items)
  | object members => bracketed "\x7b" "\x7d" margin (indentedMembers (margin ++ "  ") members)
  | null => "null"
  | bool true => "true"
  | bool false => "false"
  | number literal => literal
  | string value => quoted value

/-- The items of an array, indented. -/
def indentedItems (margin : String) : List Json → List String
  | [] => []
  | item :: rest => indented margin item :: indentedItems margin rest

/-- The members of an object, indented. -/
def indentedMembers (margin : String) : List (String × Json) → List String
  | [] => []
  | (key, value) :: rest =>
    (quoted key ++ ": " ++ indented margin value) :: indentedMembers margin rest
end

end Json

end Covenant
