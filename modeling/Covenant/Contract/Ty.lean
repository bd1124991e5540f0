/-!
# Contract types

The types a contract computes with. A value of most types is one machine word; arrays, mappings and
records only occur as the types of properties, event payloads and results.
-/

namespace Covenant

/-- A name with its type. -/
structure Typed (τ : Type) where
  name : String
  type : τ
deriving Repr, Inhabited

/-- A named list of fields. -/
structure Shape (τ : Type) where
  name : String
  fields : List (Typed τ)
deriving Repr, Inhabited

/-- **A contract type.** An address may name the class of the contract behind it; a record has the
shape of a declared interface. -/
inductive Ty where
  | void
  | boolean
  | number
  | address (contract : Option String)
  | bytes
  | text
  | array (item : Ty)
  | mapping (keys : List Ty) (value : Ty)
  | record (shape : Shape Ty)
  /-- Some record, of which nothing is known. -/
  | anyRecord
  /-- A type that was left out. -/
  | missing
deriving Repr, Inhabited

/-- A parameter of a method, constructor or event, or a field of an interface. -/
abbrev Parameter := Typed Ty

/-- A declared interface. -/
abbrev Interface := Shape Ty

namespace Ty

/-- The address of a contract of a class; the empty name stands for no class. -/
def addressOf (contract : String) : Ty :=
  address (if contract = "" then none else some contract)

mutual
/-- The type as it is written in source code. -/
def render : Ty → String
  | void => "void"
  | boolean => "boolean"
  | number => "number"
  | address none => "address"
  | address (some contract) => "address<" ++ contract ++ ">"
  | bytes => "bytes"
  | text => "string"
  | array item => item.render ++ "[]"
  | mapping keys value => renderMapping keys value.render
  | record shape => shape.name
  | anyRecord => "<interface>"
  | missing => "void"

/-- One level of nesting per key, around the text of the value. -/
def renderMapping : List Ty → String → String
  | [], value => value
  | key :: keys, value => "Record<" ++ key.render ++ ", " ++ renderMapping keys value ++ ">"
end

/-- Whether there is no value of the type. -/
def isVoid : Ty → Bool
  | void | missing => true
  | _ => false

mutual
/-- **Whether the type is there with all its parts.** What a record holds is not a part of it. -/
def isWhole : Ty → Bool
  | missing => false
  | array item => item.isWhole
  | mapping keys value => areWhole keys && value.isWhole
  | _ => true

/-- Whether all types of a list are there. -/
def areWhole : List Ty → Bool
  | [] => true
  | t :: ts => t.isWhole && areWhole ts
end

/-- The type as it is written in source code, if it is there with all its parts. -/
def render? (t : Ty) : Option String :=
  if t.isWhole then some t.render else none

/-- Whether the type can be written down. One that was left out altogether reads as `void`. -/
def isPrintable : Ty → Bool
  | missing => true
  | t => t.isWhole

/-- The type as a message shows it, also where it was left out. -/
def shown (t : Ty) : String :=
  if t.isWhole then t.render
  else
    match t with
    | missing => "%!s(<nil>)"
    | _ => "%!s(PANIC=String method: runtime error: "
      ++ "invalid memory address or nil pointer dereference)"

/-- **Whether a value of the type is one machine word.** -/
def isWord : Ty → Bool
  | boolean | number | address _ | bytes | text => true
  | _ => false

mutual
/-- **Whether two types agree.** The class behind an address does not matter, and records agree if
their interfaces have one name. A type that was left out agrees with none. -/
def same : Ty → Ty → Bool
  | void, void => true
  | boolean, boolean => true
  | number, number => true
  | bytes, bytes => true
  | text, text => true
  | address _, address _ => true
  | array a, array b => same a b
  | mapping ks v, mapping ls w => same v w && sameAll ks ls
  | record s, record t => s.name = t.name
  | _, _ => false

/-- Whether two lists of types agree item by item. -/
def sameAll : List Ty → List Ty → Bool
  | [], [] => true
  | a :: as, b :: bs => same a b && sameAll as bs
  | _, _ => false
end

end Ty

namespace Shape

/-- The position of a field in its interface. -/
def index? {τ : Type} (shape : Shape τ) (name : String) : Option Nat :=
  shape.fields.findIdx? (·.name = name)

/-- The names of the fields, in order. -/
def fieldNames {τ : Type} (shape : Shape τ) : List String :=
  shape.fields.map Typed.name

end Shape

end Covenant
