import Covenant.Contract.Stmt

/-!
# Contracts

A contract is one class with its names resolved: its properties, methods and events, the classes it
extends, and what its methods may do to its state as far as that is known. The contracts of a build
are known to each other by name.
-/

namespace Covenant

/-- Who may use a member. -/
inductive Visibility where
  | exposed
  | hidden
deriving DecidableEq, Repr, Inhabited

/-- What a method may do to the state of its contract. -/
inductive Mutability where
  | unknown
  | view
  | payable
deriving DecidableEq, Repr, Inhabited

/-- The constructor of a contract. -/
structure Construction where
  pos : Position := {}
  params : List Parameter := []
  body : List Stmt := []
deriving Repr, Inhabited

/-- A state variable of a contract. -/
structure StateVar where
  pos : Position := {}
  name : String
  type : Ty
  initial : Option Expr := none
  visibility : Visibility := .exposed
  immutable : Bool := false
deriving Repr, Inhabited

/-- A method of a contract. -/
structure Routine where
  pos : Position := {}
  name : String
  returns : Ty
  visibility : Visibility := .exposed
  mutability : Mutability := .unknown
  params : List Parameter := []
  body : List Stmt := []
deriving Repr, Inhabited

/-- An event; its parameters are the fields of an interface. -/
structure Event where
  pos : Position := {}
  name : String
  shape : Interface
deriving Repr, Inhabited

/-- **A contract.** -/
structure Contract where
  pos : Position := {}
  name : String
  file : String := ""
  bases : List String := []
  construction : Option Construction := none
  stateVars : List StateVar := []
  methods : List Routine := []
  events : List Event := []
deriving Repr, Inhabited

namespace Visibility

/-- The word for a visibility. -/
def word : Visibility → String
  | .exposed => "public"
  | .hidden => "private"

/-- Whether a member can be reached from outside. -/
def isExposed : Visibility → Bool
  | .exposed => true
  | .hidden => false

end Visibility

namespace Mutability

/-- The word for a mutability. -/
def word : Mutability → String
  | unknown => "unknown"
  | view => "view"
  | payable => "payable"

end Mutability

namespace Event

/-- The parameters of an event. -/
def params (e : Event) : List Parameter :=
  e.shape.fields

end Event

namespace Contract

/-- The variable of a name. -/
def stateVar? (c : Contract) (name : String) : Option StateVar :=
  c.stateVars.find? (·.name = name)

/-- The method of a name. -/
def method? (c : Contract) (name : String) : Option Routine :=
  c.methods.find? (·.name = name)

/-- The event of a name. -/
def event? (c : Contract) (name : String) : Option Event :=
  c.events.find? (·.name = name)

/-- The names of the variables, in order. -/
def variableNames (c : Contract) : List String :=
  c.stateVars.map StateVar.name

/-- The names of the methods, in order. -/
def methodNames (c : Contract) : List String :=
  c.methods.map Routine.name

/-- The names of the events, in order. -/
def eventNames (c : Contract) : List String :=
  c.events.map Event.name

/-- The parameters of the constructor, none if there is no constructor. -/
def constructorParams (c : Contract) : List Parameter :=
  (c.construction.map Construction.params).getD []

/-- The body of the constructor, empty if there is no constructor. -/
def constructorBody (c : Contract) : List Stmt :=
  (c.construction.map Construction.body).getD []

end Contract

/-! ## The contracts of a build

The contracts of a build are known to each other by name. Where two have one name, the later one
is meant. -/

/-- **The contracts of a build**, in order. -/
structure Registry where
  contracts : List Contract := []
deriving Inhabited

/-- Names in ascending order, each once. -/
def sortedNames (names : List String) : List String :=
  (names.mergeSort (· ≤ ·)).eraseDups

namespace Registry

/-- The contract of a name. -/
def get? (r : Registry) (name : String) : Option Contract :=
  r.contracts.reverse.find? (·.name = name)

/-- The names of the contracts, in ascending order. -/
def names (r : Registry) : List String :=
  sortedNames (r.contracts.map Contract.name)

/-- Puts a contract in the place of the first one of its name. -/
def putFirst (c : Contract) : List Contract → List Contract
  | [] => []
  | d :: rest => if d.name = c.name then c :: rest else d :: putFirst c rest

/-- Puts a contract in the place of the one of its name. -/
def put (r : Registry) (c : Contract) : Registry :=
  { contracts := (putFirst c r.contracts.reverse).reverse }

end Registry

end Covenant
