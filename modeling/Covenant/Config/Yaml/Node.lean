/-!
# Documents as trees

A document is a tree of scalars, sequences and mappings. A node can carry a name, and other places
can refer to it; it may even hold such a place itself. So a reference tells the number of a node,
and the document keeps the named nodes by number.
-/

namespace Covenant

namespace Yaml

/-- **A node.** Lines count from one, and a tag is empty if none is written. -/
inductive Node where
  | scalar (line : Nat) (tag : String) (isPlain : Bool) (text : String)
  | sequence (line : Nat) (tag : String) (items : List Node)
  | mapping (line : Nat) (tag : String) (entries : List (Node × Node))
  /-- A place that refers to the node of a number. No two references have the same place. -/
  | reference (line place : Nat) (name : String) (target : Nat)
deriving Repr, Inhabited

/-- **A document**: a tree, and the nodes that are referred to. -/
structure Document where
  root : Node
  shared : List (Nat × Node) := []
deriving Repr, Inhabited

namespace Node

/-- What stands where nothing is written. -/
def nothing (line : Nat) : Node :=
  scalar line "" true ""

/-- The line of a node. -/
def line : Node → Nat
  | scalar line .. | sequence line .. | mapping line .. | reference line .. => line

/-- Whether a key asks for the entries of other mappings. -/
def isMerge : Node → Bool
  | scalar _ tag isPlain text =>
    text = "<<" && (tag = "!!merge" || (tag = "" && isPlain))
  | _ => false

/-- The text that tells two keys apart: that of a scalar, the name of a reference, and nothing for
the others. -/
def label : Node → String
  | scalar _ _ _ text => text
  | reference _ _ name _ => name
  | _ => ""

/-- Whether two keys cannot be told apart. -/
def isSameKey : Node → Node → Bool
  | scalar _ _ _ a, scalar _ _ _ b => a = b
  | reference _ _ a _, reference _ _ b _ => a = b
  | sequence .., sequence .. | mapping .., mapping .. => true
  | _, _ => false

end Node

end Yaml

end Covenant
