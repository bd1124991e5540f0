import Covenant.Json.Parser

/-!
# Replies of the assembler

The assembler replies in JSON, with remarks or with the bytecode of the objects it found. A reply is
read member by member into what the members before it have left, so that a member that is repeated
adds to the earlier ones. Members that are not known are passed over, and a known one has to be of
its kind wherever it stands. Names of members count whatever their case.
-/

namespace Covenant

namespace Build

/-- A character without its case, as far as it can be told from a letter of ASCII. -/
def foldCase (c : Char) : Char :=
  if c.toNat = 0x17f then 's' else if c.toNat = 0x212a then 'k' else c.toLower

/-- Whether two names differ by case only; one of them is in ASCII. -/
def sameName (a b : String) : Bool :=
  a.toList.map foldCase = b.toList.map foldCase

/-- Reads a text; nothing leaves the old one. -/
def readText (old : String) : Json → Option String
  | .null => some old
  | .string value => some value
  | _ => none

/-- Reads the members of an object, each into what those before it have left; nothing leaves the
old value. -/
def readMembers {α : Type} (step : α → String → Json → Option α) (old : α) : Json → Option α
  | .null => some old
  | .object members => members.foldlM (fun value (name, member) => step value name member) old
  | _ => none

/-- Reads a member of an object that has one known member. -/
def readMember {α : Type} (known : String) (read : α → Json → Option α) (old : α) :
    Json → Option α :=
  readMembers (fun value name member =>
    if sameName name known then read value member else some value) old

/-- Reads the entries of a table, the latest first. An entry takes the place of an older one of the
same name, and nothing empties the table. -/
def readEntries {α : Type} (read : Json → Option α) (old : List (String × α)) :
    Json → Option (List (String × α))
  | .null => some []
  | .object members =>
    members.foldlM (fun entries (name, member) => do return (name, ← read member) :: entries) old
  | _ => none

/-! ## Remarks -/

/-- What the assembler has to say about its input. -/
structure Remark where
  severity : String := ""
  message : String := ""
  formatted : String := ""
deriving DecidableEq, Repr, Inhabited

namespace Remark

/-- The text of a remark; the formatted message goes before the plain one. -/
def text (r : Remark) : String :=
  if r.formatted = "" then r.message else r.formatted

/-- Reads a remark. -/
def read (old : Remark) : Json → Option Remark :=
  readMembers (fun r name member =>
    if sameName name "severity" then
      (readText r.severity member).map fun severity => { r with severity }
    else if sameName name "message" then
      (readText r.message member).map fun message => { r with message }
    else if sameName name "formattedMessage" then
      (readText r.formatted member).map fun formatted => { r with formatted }
    else some r) old

end Remark

/-- A list of remarks in a row of places, of which only the first ones count. A place behind them
still holds the remark that it had in an earlier, longer list. -/
structure Remarks where
  places : List Remark := []
  count : Nat := 0
deriving Inhabited

namespace Remarks

/-- The remarks that count. -/
def toList (r : Remarks) : List Remark :=
  r.places.take r.count

/-- Reads remarks, each into its place; an empty list clears all places. -/
def read (old : Remarks) : Json → Option Remarks
  | .null => some {}
  | .array [] => some {}
  | .array items => do
    let read ← items.zipIdx.mapM fun (item, i) => ((old.places[i]?).getD {}).read item
    return { places := read ++ old.places.drop items.length, count := items.length }
  | _ => none

end Remarks

/-! ## Replies -/

/-- **A reply**: the remarks, and for each file the bytecode of its objects, the latest first. -/
structure Reply where
  remarks : Remarks := {}
  files : List (String × List (String × String)) := []
deriving Inhabited

namespace Reply

/-- Reads the bytecode of an object. -/
def readBytecode : Json → Option String :=
  readMember "evm" (readMember "bytecode" (readMember "object" readText)) ""

/-- Reads a reply; repeated members add to the old ones. -/
def read : Json → Option Reply :=
  readMembers (fun r name member =>
    if sameName name "errors" then
      (r.remarks.read member).map fun remarks => { r with remarks }
    else if sameName name "contracts" then
      (readEntries (readEntries readBytecode []) r.files member).map fun files => { r with files }
    else some r) {}

/-- **Reads the text of a reply**, if it is one. -/
def parse? (text : String) : Option Reply :=
  (Json.parse? text).bind read

/-- The texts of the errors among the remarks. -/
def errors (r : Reply) : List String :=
  (r.remarks.toList.filter (·.severity = "error")).map Remark.text

/-- **The bytecode of a file**: of the object of a name, or else of the first object by name. -/
def bytecode? (r : Reply) (file name : String) : Option String :=
  let objects := (r.files.lookup file).getD []
  (objects.lookup name).or
    (((objects.map Prod.fst).mergeSort (· ≤ ·)).head?.bind fun first => objects.lookup first)

end Reply

end Build

end Covenant
