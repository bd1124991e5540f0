import Covenant.Emit.Shared
import Covenant.Storage.Layout
import Covenant.Yul.Object

/-!
# Access to storage

Each variable is read and written through functions of its own, named for it. They alone know where
it lives. The entry of a mapping is found by hashing: starting from the base word, each key is put
in front of the word so far and the two are hashed, the last key first.
-/

namespace Covenant

namespace Storage

open Yul Yul.Expr Yul.Stmt

/-- The name of the function that reads a variable. -/
def getter (name : String) : String :=
  "get_" ++ name

/-- The name of the function that writes a variable. -/
def setter (name : String) : String :=
  "set_" ++ name

/-- The name of the function that gives the length of an array. -/
def lengthGetter (name : String) : String :=
  "length_" ++ name

/-- The name of the function that finds the entries of mappings with a number of keys. -/
def entrySlot (arity : Nat) : String :=
  "mapping_slot_" ++ toString arity

/-- The first place of memory for values that are set at construction. -/
def stagingStart : Nat := 128

/-- The place of memory for a value that is set at construction. -/
def stagingAddress (index : Nat) : Nat :=
  stagingStart + 32 * index

/-- A word in decimal digits. -/
def decimal (w : Word) : Yul.Expr :=
  num w.toNat

/-- A word in hexadecimal digits. -/
def hexadecimal (w : Word) : Yul.Expr :=
  .literal ("0x" ++ Text.hexNat w.toNat)

/-- Numbered names, from one on. -/
def numbered (stem : String) (count : Nat) : List String :=
  (List.range count).map fun i => stem ++ toString (i + 1)

/-- The names of the keys of a mapping's entry. A mapping without keys has one without a name. -/
def keyNames (arity : Nat) : List String :=
  if arity = 0 then [""] else numbered "key" arity

/-! ## Mappings -/

/-- Hashes one key onto the word so far. -/
def hashKey (key : String) : List Yul.Stmt :=
  [mstore (num 0) (var key), mstore (num 32) (var "slot"),
    assign "slot" (binary "keccak256" (num 0) (num 64))]

/-- **The slot of an entry**, by the base word and the keys. -/
def entrySlotFunction (arity : Nat) : Function where
  name := entrySlot arity
  params := "base" :: numbered "key" arity
  results := ["slot"]
  body := assign "slot" (var "base") :: (numbered "key" arity).reverse.flatMap hashKey

/-! ## Variables -/

/-- A function that only gives a value. -/
def reader (name : String) (params : List String) (value : Yul.Expr) : Item :=
  .function .inline { name, params, results := ["value"], body := [assign "value" value] }

/-- A function that only stores a value. -/
def writer (name : String) (params : List String) (action : Yul.Stmt) : Item :=
  .function .inline { name, params := params ++ ["value"], body := [action] }

/-- Whether the index is not below the length. -/
def beyond (slot : Word) : Yul.Expr :=
  isZero (binary "lt" (var "index") (sload (decimal slot)))

/-- The length of an array. -/
def arrayLength (name : String) (slot : Word) : Function where
  name := lengthGetter name
  results := ["length"]
  body := [assign "length" (sload (decimal slot))]

/-- **Reading an element** is refused from the length on. -/
def arrayGet (name : String) (slot : Word) : Function where
  name := getter name
  params := ["index"]
  results := ["value"]
  body :=
    [Emit.panicIf (beyond slot) Emit.indexCode,
      assign "value" (sload (add (decimal (Location.elements slot)) (var "index")))]

/-- **Writing an element** from the length on makes the array longer; only an index beyond the
region of the array is refused. -/
def arraySet (name : String) (slot : Word) : Function where
  name := setter name
  params := ["index", "value"]
  body :=
    [Emit.panicIf (binary "gt" (var "index") (hexadecimal maxArrayIndex)) Emit.indexCode,
      guard (beyond slot) (sstore (decimal slot) (add (var "index") (num 1))),
      sstore (add (decimal (Location.elements slot)) (var "index")) (var "value")]

/-- **The functions of a variable.** A readonly variable can be written only in the code that
creates the contract. -/
def accessors (creation : Bool) (cell : Cell) : List Item :=
  let name := cell.name
  match cell.location with
  | .scalar slot =>
    [reader (getter name) [] (sload (decimal slot)),
      writer (setter name) [] (sstore (decimal slot) (var "value"))]
  | .array slot =>
    [.function .inline (arrayLength name slot), .function .flat (arrayGet name slot),
      .function .flat (arraySet name slot)]
  | .mapping arity bucket =>
    let keys := keyNames arity
    let slot := call (entrySlot arity) (hexadecimal (Location.base arity bucket) :: keys.map var)
    [reader (getter name) keys (sload slot), writer (setter name) keys (sstore slot (var "value"))]
  | .inlined _ word => [reader (getter name) [] (.literal word)]
  | .staged _ index =>
    if creation then
      [reader (getter name) [] (mload (num (stagingAddress index))),
        writer (setter name) [] (mstore (num (stagingAddress index)) (var "value"))]
    else [reader (getter name) [] (call "loadimmutable" [quoted name])]

end Storage

end Covenant
