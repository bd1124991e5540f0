import Covenant.Contract.Basic
import Covenant.Contract.Printer
import Covenant.Emit.Literal

/-!
# Storage layout

Where the variables of a contract live. One cursor walks over them in the order of their
declarations:

* a **scalar** takes one slot;
* an **array** takes a slot for its length and, from the next one on, a region for its elements;
  the cursor moves far enough that the region never meets the next variable;
* a **mapping** takes no slot. Its entries are found by hashing their keys onto a base word that
  tells mappings apart by their number of keys and their order;
* a **readonly** variable takes no slot either. It has exactly one source for its value. A literal
  is written into the code; any other value is kept in memory while the contract is created, and
  becomes part of its code.
-/

namespace Covenant

/-- A machine word. -/
abbrev Word := BitVec 256

namespace Storage

/-- How far the cursor moves past an array. -/
def arrayStride : Word := 1 <<< 128

/-- The largest index of an array: its element is just below the next variable. -/
def maxArrayIndex : Word := arrayStride - 2

/-- **Where a variable lives.** -/
inductive Location where
  | scalar (slot : Word)
  /-- An array, by the slot of its length. -/
  | array (slot : Word)
  /-- A mapping, by its number of keys and its number among the mappings with as many. -/
  | mapping (arity bucket : Nat)
  /-- A readonly variable with a literal for its value, and the word of the literal. -/
  | inlined (source : Expr) (word : String)
  /-- A readonly variable that gets its value at construction, and its number among those. -/
  | staged (source : Expr) (index : Nat)
deriving Repr, Inhabited

/-- A variable and where it lives. -/
structure Cell where
  owner : StateVar
  location : Location
deriving Repr, Inhabited

/-- **The layout of a contract**: its cells in order, and the cursor after the last one. -/
structure Layout where
  cells : List Cell
  next : Word
deriving Repr, Inhabited

/-! ## Parts of a layout -/

namespace Location

/-- The slot of the first element of an array whose length is in the given slot. -/
def elements (slot : Word) : Word :=
  slot + 1

/-- The base word of a mapping. -/
def base (arity bucket : Nat) : Word :=
  BitVec.ofNat 256 arity <<< 128 ||| BitVec.ofNat 256 bucket

/-- The word for the kind of a location. -/
def kind : Location → String
  | scalar _ => "scalar"
  | array _ => "array"
  | mapping _ _ => "mapping"
  | inlined _ _ | staged _ _ => "immutable"

/-- The slots that no other variable may take. -/
def claims : Location → List Word
  | scalar slot => [slot]
  | array slot => [slot, elements slot]
  | _ => []

/-- The number of keys, for a mapping. -/
def arity? : Location → Option Nat
  | mapping arity _ => some arity
  | _ => none

/-- Whether the value is set at construction. -/
def isStaged : Location → Bool
  | staged _ _ => true
  | _ => false

/-- Whether the value is a literal in the code. -/
def isInlined : Location → Bool
  | inlined _ _ => true
  | _ => false

end Location

namespace Cell

/-- The name of the variable. -/
def name (c : Cell) : String :=
  c.owner.name

end Cell

/-- The number of mappings with a number of keys among some cells. -/
def bucketCount (cells : List Cell) (arity : Nat) : Nat :=
  cells.countP (·.location.arity? = some arity)

/-- The number of variables set at construction among some cells. -/
def stagedCount (cells : List Cell) : Nat :=
  cells.countP (·.location.isStaged)

namespace Layout

/-- The numbers of keys that mappings of the layout have, in the order of their first use. -/
def arities (l : Layout) : List Nat :=
  (l.cells.filterMap (·.location.arity?)).eraseDups

/-- The number of variables set at construction. -/
def staged (l : Layout) : Nat :=
  stagedCount l.cells

/-- Where the variable of a name lives; among several the last one. -/
def location? (l : Layout) (name : String) : Option Location :=
  (l.cells.reverse.find? (·.name = name)).map Cell.location

end Layout

/-! ## Planning -/

/-- The values that a body assigns to a property, at any depth. -/
def assignments (name : String) (body : List Stmt) : List Expr :=
  (Stmt.substatementsAll body).filterMap fun
    | .setProperty _ property value => if property = name then some value else none
    | _ => none

/-- The sources of the value of a readonly variable: its initial value and what the constructor
assigns to it. -/
def sources (c : Contract) (v : StateVar) : List Expr :=
  v.initial.toList ++ assignments v.name c.constructorBody

/-- The first method that assigns a property, with the first value it assigns. -/
def firstWriter? (c : Contract) (name : String) : Option (Routine × Expr) :=
  c.methods.findSome? fun m => (assignments name m.body).head?.map (m, ·)

/-- **The location of a readonly variable.** No method may assign it, and it has one source. -/
def placeImmutable (c : Contract) (earlier : List Cell) (v : StateVar) :
    Except Failure Location :=
  match firstWriter? c v.name, sources c v with
  | some (m, value), _ =>
    if value.isMissing then .error .incomplete
    else .error (.malformed value.pos (.readonlyWrite v.name m.name))
  | none, [source@(.literal pos type text)] => do
    let word ← Emit.literalWord pos type text
    return .inlined source word
  | none, [source] => .ok (.staged source (stagedCount earlier))
  | none, sources => .error (.malformed v.pos (.immutableSource v.name sources.length))

/-- Refuses a slot that an earlier variable has taken. -/
def claim (earlier : List Cell) (v : StateVar) (slot : Word) : Except Failure Unit :=
  match earlier.find? (·.location.claims.contains slot) with
  | some other => .error (.malformed v.pos (.slotClash other.name v.name slot.toNat))
  | none => .ok ()

/-- **The location of a variable** after some others, and the cursor behind it. -/
def place (c : Contract) (earlier : List Cell) (cursor : Word) (v : StateVar) :
    Except Failure (Location × Word) :=
  match v.type with
  | .mapping keys _ =>
    .ok (.mapping keys.length (bucketCount earlier keys.length), cursor)
  | .array _ => do
    claim earlier v cursor
    claim earlier v (Location.elements cursor)
    return (.array cursor, cursor + arrayStride)
  | _ =>
    if v.immutable then do
      let location ← placeImmutable c earlier v
      return (location, cursor)
    else do
      claim earlier v cursor
      return (.scalar cursor, cursor + 1)

/-- Places variables one after the other. -/
def placeAll (c : Contract) (earlier : List Cell) (cursor : Word) :
    List StateVar → Except Failure Layout
  | [] => .ok { cells := earlier, next := cursor }
  | v :: rest => do
    let (location, cursor) ← place c earlier cursor v
    placeAll c (earlier ++ [{ owner := v, location }]) cursor rest

/-- **The layout of a contract.** -/
def plan (c : Contract) : Except Failure Layout :=
  placeAll c [] 0 c.stateVars

/-! ## Text -/

/-- The line of a cell. -/
def Cell.render (c : Cell) : String :=
  match c.location with
  | .scalar slot => c.name ++ ": scalar slot " ++ toString slot.toNat
  | .array slot => c.name ++ ": array slot " ++ toString slot.toNat
  | .mapping arity bucket =>
    c.name ++ ": mapping arity " ++ toString arity ++ " bucket " ++ toString bucket
  | .inlined source _ | .staged source _ => c.name ++ ": immutable " ++ source.render

/-- Whether the source of a cell, if it has one, can be written down. -/
def Cell.isPrintable (c : Cell) : Bool :=
  match c.location with
  | .inlined source _ | .staged source _ => source.isPrintable
  | _ => true

/-- Whether a layout can be written down. -/
def Layout.isPrintable (l : Layout) : Bool :=
  l.cells.all Cell.isPrintable

/-- **The layout as text**, a line for each variable and one for the cursor. -/
def Layout.render (l : Layout) : String :=
  String.join
    (l.cells.map (·.render ++ "\n") ++ ["next: " ++ toString l.next.toNat ++ "\n"])

end Storage

end Covenant
