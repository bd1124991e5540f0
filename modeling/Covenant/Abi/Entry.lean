import Covenant.Abi.Selector
import Covenant.Json.Basic

/-!
# Interface descriptions

How a contract is used from outside, as a list of entries: its events, its constructor, the getters
of its variables and its methods.
-/

namespace Covenant

namespace Abi

/-- A parameter of an entry. -/
structure EntryParam where
  name : String := ""
  type : String
  indexed : Bool := false
deriving DecidableEq, Repr, Inhabited

/-- **An entry of an interface description.** -/
inductive Entry where
  | function (name : String) (inputs outputs : List EntryParam) (stateMutability : String)
  | constructor (inputs : List EntryParam) (stateMutability : String)
  | event (name : String) (inputs : List EntryParam) (anonymous : Bool)
deriving DecidableEq, Repr, Inhabited

/-- The fields of an entry whose kind is given by a word. -/
structure EntryFields where
  kind : String := ""
  name : String := ""
  inputs : List EntryParam := []
  outputs : List EntryParam := []
  stateMutability : String := ""
  anonymous : Bool := false
deriving DecidableEq, Repr, Inhabited

namespace EntryFields

/-- The entry with these fields; fields that its kind does not have are left out. An unknown kind
is refused with a message. -/
def entry (f : EntryFields) : Except String Entry :=
  match f.kind with
  | "function" => .ok (.function f.name f.inputs f.outputs f.stateMutability)
  | "constructor" => .ok (.constructor f.inputs f.stateMutability)
  | "event" => .ok (.event f.name f.inputs f.anonymous)
  | kind => .error ("abi: unknown entry type " ++ Text.quote kind)

end EntryFields

/-! ## The description of a contract -/

/-- The parameters of an entry for parameters of a contract. -/
def entryParams (params : List Parameter) : List EntryParam :=
  params.map fun p => { name := p.name, type := typeName p.type }

/-- The inputs of a getter: the index of an array has a name. -/
def getterParams (v : StateVar) : List EntryParam :=
  match v.type with
  | .array _ => [{ name := "index", type := "uint256" }]
  | _ => (getterInputs v).map fun t => { type := typeName t }

/-- The outputs of a method: none, the fields of a record, or one value. -/
def outputs : Ty → List EntryParam
  | .void | .missing => []
  | .record shape => entryParams shape.fields
  | type => [{ type := typeName type }]

/-- The word for what a method may do to the state. -/
def stateMutability (m : Routine) : String :=
  if m.mutability = .view then "view" else "payable"

/-- **The interface description of a contract.** -/
def project (c : Contract) : List Entry :=
  c.events.map (fun e => .event e.name (entryParams e.params) false)
    ++ (c.construction.map fun k => .constructor (entryParams k.params) "nonpayable").toList
    ++ (getters c).map (fun v =>
      .function v.name (getterParams v) [{ type := typeName (getterOutput v) }] "view")
    ++ (exposedMethods c).map fun m =>
      .function m.name (entryParams m.params) (outputs m.returns) (stateMutability m)

/-! ## As JSON -/

/-- A parameter as JSON; only those of events say whether they are indexed. -/
def EntryParam.json (ofEvent : Bool) (p : EntryParam) : Json :=
  .object ([("name", .string p.name), ("type", .string p.type)]
    ++ if ofEvent then [("indexed", .bool p.indexed)] else [])

/-- An entry as JSON. -/
def Entry.json : Entry → Json
  | function name inputs outputs stateMutability =>
    .object [("type", .string "function"), ("name", .string name),
      ("inputs", .array (inputs.map (EntryParam.json false))),
      ("outputs", .array (outputs.map (EntryParam.json false))),
      ("stateMutability", .string stateMutability)]
  | constructor inputs stateMutability =>
    .object [("type", .string "constructor"),
      ("inputs", .array (inputs.map (EntryParam.json false))),
      ("stateMutability", .string stateMutability)]
  | event name inputs anonymous =>
    .object [("type", .string "event"), ("name", .string name),
      ("inputs", .array (inputs.map (EntryParam.json true))),
      ("anonymous", .bool anonymous)]

/-- **The text of the interface description of a contract.** -/
def render (c : Contract) : String :=
  (Json.array ((project c).map Entry.json)).indented ""

/-- Whether what a method returns can be described. -/
def hasOutputs : Ty → Bool
  | .missing => true
  | .anyRecord => false
  | .record shape => Ty.areWhole (shape.fields.map Typed.type)
  | type => type.isWhole

/-- Whether all types that the interface description of a contract names are there. -/
def isDescribable (c : Contract) : Bool :=
  hasSignatures c && c.events.all hasEventSignature
    && Ty.areWhole (c.constructorParams.map Typed.type)
    && (getters c).all (fun v => (getterOutput v).isWhole)
    && (exposedMethods c).all fun m => hasOutputs m.returns

/-- **The interface description of a contract** that may lack some of its parts; there may be
none. -/
def description? (c : Contract) : Option String :=
  if isDescribable c then some (render c) else none

end Abi

end Covenant
