import Covenant.Json.Basic
import Covenant.Text.Quoted

/-!
# Reading JSON

A strict reader: blanks between the parts, nothing behind the value. An escaped surrogate without
its partner reads as the replacement character. Arrays and objects nest up to a fixed depth.
-/

namespace Covenant

namespace Json

namespace Parser

/-- Drops the blanks of JSON. -/
def skipBlanks (cs : List Char) : List Char :=
  cs.dropWhile fun c => c = ' ' || c = '\t' || c = '\n' || c = '\r'

/-- The character that stands for a lone surrogate. -/
def replacement : Char := Char.ofNat 0xfffd

/-- The character of an escape by code, and how many characters it takes behind the letter: a high
surrogate takes a low one that follows it. -/
def unicodeEscape? (rest : List Char) : Option (Char × Nat) := do
  let high ← Text.leadingHex? 4 rest
  if 0xd800 ≤ high && high < 0xdc00 then
    match rest.drop 4 with
    | '\\' :: 'u' :: tail =>
      match Text.leadingHex? 4 tail with
      | some low =>
        if 0xdc00 ≤ low && low < 0xe000 then
          return (Char.ofNat (0x10000 + (high - 0xd800) * 0x400 + (low - 0xdc00)), 10)
        else return (replacement, 4)
      | none => return (replacement, 4)
    | _ => return (replacement, 4)
  else return ((Text.charOfCode? high).getD replacement, 4)

/-- The character of an escape, and how many characters it takes behind its letter. -/
def escape? (c : Char) (rest : List Char) : Option (Char × Nat) :=
  match c with
  | '"' => some ('"', 0)
  | '\\' => some ('\\', 0)
  | '/' => some ('/', 0)
  | 'b' => some (Char.ofNat 0x08, 0)
  | 'f' => some (Char.ofNat 0x0c, 0)
  | 'n' => some ('\n', 0)
  | 'r' => some ('\r', 0)
  | 't' => some ('\t', 0)
  | 'u' => unicodeEscape? rest
  | _ => none

/-- A string behind its opening quote; `read` holds what was read, last character first. -/
def stringBody? (read : List Char) (cs : List Char) : Option (String × List Char) :=
  match cs with
  | [] => none
  | '"' :: rest => some (String.ofList read.reverse, rest)
  | '\\' :: [] => none
  | '\\' :: c :: rest =>
    match escape? c rest with
    | some (d, taken) => stringBody? (d :: read) (rest.drop taken)
    | none => none
  | c :: rest => if c.toNat < 0x20 then none else stringBody? (c :: read) rest
termination_by cs.length
decreasing_by all_goals simp; try omega

/-- Digits at the front, at least one. -/
def digits? (cs : List Char) : Option (List Char × List Char) :=
  let digits := cs.takeWhile Char.isDigit
  if digits.isEmpty then none else some (digits, cs.dropWhile Char.isDigit)

/-- An optional part of a number: its mark, then what `body?` reads. -/
def optionalPart? (marks : List Char) (body? : List Char → Option (List Char × List Char))
    (cs : List Char) : Option (List Char × List Char) :=
  match cs with
  | c :: rest =>
    if marks.contains c then (body? rest).map fun (part, rest) => (c :: part, rest)
    else some ([], cs)
  | [] => some ([], cs)

/-- Digits behind an optional sign. -/
def signedDigits? : List Char → Option (List Char × List Char)
  | c :: rest =>
    if c = '+' || c = '-' then (digits? rest).map fun (part, rest) => (c :: part, rest)
    else digits? (c :: rest)
  | [] => none

/-- The whole part of a number: a zero stands alone. -/
def wholePart? : List Char → Option (List Char × List Char)
  | '0' :: rest => some (['0'], rest)
  | cs => digits? cs

/-- A number, kept as it is written. -/
def number? (cs : List Char) : Option (Json × List Char) := do
  let (sign, cs) := match cs with
    | '-' :: rest => (['-'], rest)
    | _ => ([], cs)
  let (whole, cs) ← wholePart? cs
  let (fraction, cs) ← optionalPart? ['.'] digits? cs
  let (exponent, cs) ← optionalPart? ['e', 'E'] signedDigits? cs
  return (.number (String.ofList (sign ++ whole ++ fraction ++ exponent)), cs)

/-- How deep arrays and objects may nest. -/
def maxDepth : Nat := 10000

mutual
/-- A value, which has at most `fuel` parts one behind the other, in which arrays and objects nest
at most `depth` deep. -/
def value? (fuel depth : Nat) (cs : List Char) : Option (Json × List Char) :=
  match fuel with
  | 0 => none
  | fuel + 1 =>
    match skipBlanks cs with
    | 'n' :: 'u' :: 'l' :: 'l' :: rest => some (.null, rest)
    | 't' :: 'r' :: 'u' :: 'e' :: rest => some (.bool true, rest)
    | 'f' :: 'a' :: 'l' :: 's' :: 'e' :: rest => some (.bool false, rest)
    | '"' :: rest => (stringBody? [] rest).map fun (s, rest) => (.string s, rest)
    | '[' :: rest =>
      if depth = 0 then none
      else
        match skipBlanks rest with
        | ']' :: rest => some (.array [], rest)
        | rest => (items? fuel (depth - 1) rest).map fun (items, rest) => (.array items, rest)
    | '\x7b' :: rest =>
      if depth = 0 then none
      else
        match skipBlanks rest with
        | '\x7d' :: rest => some (.object [], rest)
        | rest =>
          (members? fuel (depth - 1) rest).map fun (members, rest) => (.object members, rest)
    | cs => number? cs

/-- The items of an array that is not empty, and its closing bracket. -/
def items? (fuel depth : Nat) (cs : List Char) : Option (List Json × List Char) :=
  match fuel with
  | 0 => none
  | fuel + 1 => do
    let (item, cs) ← value? fuel depth cs
    match skipBlanks cs with
    | ',' :: rest =>
      let (items, rest) ← items? fuel depth rest
      return (item :: items, rest)
    | ']' :: rest => return ([item], rest)
    | _ => none

/-- The members of an object that is not empty, and its closing brace. -/
def members? (fuel depth : Nat) (cs : List Char) : Option (List (String × Json) × List Char) :=
  match fuel with
  | 0 => none
  | fuel + 1 =>
    match skipBlanks cs with
    | '"' :: rest => do
      let (key, rest) ← stringBody? [] rest
      match skipBlanks rest with
      | ':' :: rest =>
        let (value, rest) ← value? fuel depth rest
        match skipBlanks rest with
        | ',' :: rest =>
          let (members, rest) ← members? fuel depth rest
          return ((key, value) :: members, rest)
        | '\x7d' :: rest => return ([(key, value)], rest)
        | _ => none
      | _ => none
    | _ => none
end

end Parser

/-- **Reads a text as one JSON value.** -/
def parse? (text : String) : Option Json :=
  let cs := text.toList
  match Parser.value? (cs.length + 1) Parser.maxDepth cs with
  | some (value, rest) => if (Parser.skipBlanks rest).isEmpty then some value else none
  | none => none

end Json

end Covenant
