import Covenant.Editor.Highlight

/-!
# Completion

What can be written at a place of a document. Behind the name of a part of the execution environment
and a dot these are its values; anywhere else they are the parts themselves and the intrinsic
functions.
-/

namespace Covenant

namespace Editor

/-- What an item stands for. -/
inductive ItemKind where
  | function
  | space
  | property
deriving DecidableEq, Repr, Inhabited

/-- **An item of a completion**: its label, what it stands for, its type and what it does. -/
structure Item where
  label : String
  kind : ItemKind
  detail : String := ""
  doc : Option String := none
deriving DecidableEq, Repr, Inhabited

/-- **The items at a place.** -/
structure Completions where
  /-- Whether there are more items than these. -/
  isIncomplete : Bool := false
  items : List Item
deriving DecidableEq, Repr, Inhabited

/-- The number of a kind of items. -/
def ItemKind.number : ItemKind → Nat
  | function => 3
  | space => 9
  | property => 10

/-- The bytes of a line before a character of it. -/
def lineBefore (text : String) (line character : Nat) : List UInt8 :=
  ((byteLines text)[line]?.getD []).take character

/-- **The name before the last dot**, if nothing but a name stands behind the dot. -/
def nameBeforeDot? (before : List UInt8) : Option (List UInt8) :=
  match before.reverse.dropWhile isWordByte with
  | dot :: rest => if dot = 46 then some (rest.takeWhile isWordByte).reverse else none
  | [] => none

/-- The values behind a part of the environment. -/
def memberItems (space : String) : List Item :=
  (Environment.members space).map fun m =>
    { label := m.name, kind := .property, detail := m.type.render, doc := some m.doc }

/-- The parts of the environment and the intrinsic functions. -/
def topItems : List Item :=
  (Environment.spaceNames.map fun s => { label := s, kind := .space })
    ++ Environment.functions.map fun (name, doc) =>
      { label := name, kind := .function, doc := some doc }

/-- **The completions at a place.** -/
def complete (text : String) (line character : Nat) : List Item :=
  let space := (nameBeforeDot? (lineBefore text line character)).bind fun name =>
    Environment.spaceNames.find? fun s => Text.bytes s = name
  match space with
  | some space => memberItems space
  | none => topItems

end Editor

end Covenant
