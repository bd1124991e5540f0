import Covenant.Config.Yaml.Node
import Covenant.Text.Base64
import Covenant.Text.Numeral
import Covenant.Text.Utf8

/-!
# What scalars stand for

A plain scalar stands for nothing, a truth value, a number or a point in time if it is spelled like
one, and for its text if not. A tag can ask for one of these; a scalar in quotes is a text unless a
tag says otherwise.
-/

namespace Covenant

namespace Yaml

/-- **What a scalar stands for.** -/
inductive Value where
  | nothing
  | truth (b : Bool)
  | whole (n : Int)
  /-- A fraction, by the integer its whole part is read as, if it is read as one. -/
  | fraction (whole : Option Int)
  | moment
  | text (s : String)
deriving DecidableEq, Repr, Inhabited

/-- The tag of a value. -/
def Value.tag : Value → String
  | nothing => "!!null"
  | truth _ => "!!bool"
  | whole _ => "!!int"
  | fraction _ => "!!float"
  | moment => "!!timestamp"
  | text _ => "!!str"

/-! ## Points in time -/

/-- Reads a number of one or two digits that is at most so large. -/
def twoDigits? (most : Nat) (cs : List Char) : Option (Nat × List Char) :=
  let digits := (cs.take 2).takeWhile Char.isDigit
  match Text.digits? 10 digits with
  | some n => if n ≤ most then some (n, cs.drop digits.length) else none
  | none => none

/-- Passes a character. -/
def passed? (c : Char) : List Char → Option (List Char)
  | d :: rest => if c = d then some rest else none
  | [] => none

/-- The number of days of a month. -/
def daysOf (year month : Nat) : Nat :=
  if month = 2 then
    if year % 4 = 0 && (year % 100 ≠ 0 || year % 400 = 0) then 29 else 28
  else if [4, 6, 9, 11].contains month then 30
  else 31

/-- Passes a date: a year of four digits, a month and a day. -/
def date? (cs : List Char) : Option (List Char) := do
  let digits := cs.takeWhile Char.isDigit
  let year ← if digits.length = 4 then Text.digits? 10 digits else none
  let rest ← passed? '-' (cs.drop 4)
  let (month, rest) ← twoDigits? 12 rest
  let rest ← passed? '-' rest
  let (day, rest) ← twoDigits? 31 rest
  if month ≠ 0 && day ≠ 0 && day ≤ daysOf year month then some rest else none

/-- Passes a time of day; the seconds may have a fraction. -/
def clock? (cs : List Char) : Option (List Char) := do
  let (_, rest) ← twoDigits? 23 cs
  let rest ← passed? ':' rest
  let (_, rest) ← twoDigits? 59 rest
  let rest ← passed? ':' rest
  let (_, rest) ← twoDigits? 59 rest
  match rest with
  | point :: digit :: tail =>
    if (point = '.' || point = ',') && digit.isDigit then return tail.dropWhile Char.isDigit
    else return rest
  | rest => return rest

/-- Whether a text tells how far a clock is from the universal time. -/
def isZone : List Char → Bool
  | ['Z'] => true
  | [sign, a, b, colon, c, d] =>
    (sign = '+' || sign = '-') && colon = ':'
      && (Text.digits? 10 [a, b]).any (· ≤ 24) && (Text.digits? 10 [c, d]).any (· ≤ 60)
  | _ => false

/-- **Whether a text tells a point in time**: a date, alone or with a time of day. -/
def isMoment (text : String) : Bool :=
  match date? text.toList with
  | none => false
  | some [] => true
  | some (c :: rest) =>
    if c = 'T' || c = 't' then (clock? rest).any isZone
    else c = ' ' && (clock? (rest.dropWhile (· = ' '))) = some []

/-! ## Plain scalars -/

/-- The values that have a spelling of their own. -/
def wordValue? (text : String) : Option Value :=
  if ["", "~", "null", "Null", "NULL"].contains text then some .nothing
  else if ["true", "True", "TRUE"].contains text then some (.truth true)
  else if ["false", "False", "FALSE"].contains text then some (.truth false)
  else if [".nan", ".NaN", ".NAN", ".inf", ".Inf", ".INF", "+.inf", "+.Inf", "+.INF"].contains text
    then some (.fraction none)
  else if ["-.inf", "-.Inf", "-.INF"].contains text then some (.fraction (some Text.leastInt))
  else none

/-- An integer that 64 bits hold, with a sign or without. -/
def wordOfInt? (n : Int) : Option Value :=
  if Text.leastInt ≤ n && n ≤ 18446744073709551615 then some (.whole n) else none

/-- The integer of a numeral without separators. Only one without a sign may use all 64 bits for
its digits. -/
def wholeValue? (cs : List Char) : Option Value := do
  let (negative, digits) := Text.unsigned cs
  let n ← Text.natural? digits
  if digits = cs then wordOfInt? n else (Text.bounded? (Text.signed negative n)).map .whole

/-- The fraction of a numeral. -/
def fractionValue? (cs : List Char) : Option Value := do
  let (negative, digits) := Text.unsigned cs
  let whole ← (← Text.decimal? digits).whole?
  return .fraction (Text.wordOfWhole? negative whole)

/-- The digits behind the mark of a base, with a sign in front of them or in front of the mark. -/
def markedValue? : List Char → Option Value
  | '0' :: 'b' :: rest => behindMark 2 rest
  | '0' :: 'o' :: rest => behindMark 8 rest
  | '-' :: '0' :: 'b' :: rest => (Text.digits? 2 rest).bind negated
  | '-' :: '0' :: 'o' :: rest => (Text.digits? 8 rest).bind negated
  | _ => none
where
  negated (n : Nat) : Option Value :=
    (Text.bounded? (-(n : Int))).map .whole
  behindMark (base : Nat) (cs : List Char) : Option Value := do
    let (negative, digits) := Text.unsigned cs
    let n ← Text.digits? base digits
    if digits = cs then wordOfInt? n else (Text.bounded? (Text.signed negative n)).map .whole

/-- **What a plain scalar stands for**, which may be a point in time. Separators between the digits
of a number do not count. -/
def Value.ofPlain (takesMoments : Bool) (text : String) : Value :=
  match wordValue? text with
  | some value => value
  | none =>
    match text.toList with
    | [] => .nothing
    | c :: rest =>
      if c = '.' then
        let digits := (c :: rest).filter (· ≠ '_')
        if Text.hasFitSeparators (c :: rest) then (fractionValue? digits).getD (.text text)
        else .text text
      else if c = '+' || c = '-' || c.isDigit then
        if takesMoments && isMoment text then .moment
        else
          let digits := (c :: rest).filter (· ≠ '_')
          (((wholeValue? digits).or (fractionValue? digits)).or (markedValue? digits)).getD
            (.text text)
      else .text text

/-! ## Tagged scalars -/

/-- **Why a scalar does not stand for what its tag asks for.** -/
inductive Mismatch where
  | otherTag (found text asked : String)
  | badBase64
deriving DecidableEq, Repr, Inhabited

/-- The wording of a mismatch. -/
def Mismatch.message : Mismatch → String
  | otherTag found text asked =>
    "yaml: cannot decode " ++ found ++ " \x60" ++ text ++ "\x60 as a " ++ asked
  | badBase64 => "yaml: !!binary value contains invalid base64 data"

/-- **What a scalar stands for.** A whole number can be a fraction; unknown tags stand for texts. -/
def Value.ofScalar (tag : String) (isPlain : Bool) (text : String) : Except Mismatch Value :=
  if tag = "" then .ok (if isPlain then .ofPlain true text else .text text)
  else if tag = "!!binary" then
    match Text.Base64.decode? text with
    | some bytes => .ok (.text (Text.ofBytes bytes))
    | none => .error .badBase64
  else if ["!!bool", "!!int", "!!float", "!!null", "!!timestamp"].contains tag then
    match tag, Value.ofPlain (tag = "!!timestamp") text with
    | "!!float", .whole n =>
      if n ≤ Text.greatestInt then
        let rounded := (Text.wholeOfQuotient? n.natAbs 1).getD n.natAbs
        .ok (.fraction (Text.wordOfWhole? (n < 0) rounded))
      else .error (.otherTag "!!int" text tag)
    | _, value => if value.tag = tag then .ok value else .error (.otherTag value.tag text tag)
  else .ok (.text text)

/-- The tag of a node: the one that is written, or else the one of what it stands for. -/
def Node.tag : Node → String
  | scalar _ tag isPlain text =>
    if tag ≠ "" then tag
    else if !isPlain then "!!str"
    else if text = "<<" then "!!merge"
    else (Value.ofPlain true text).tag
  | sequence _ tag _ => if tag = "" then "!!seq" else tag
  | mapping _ tag _ => if tag = "" then "!!map" else tag
  | reference .. => ""

end Yaml

end Covenant
