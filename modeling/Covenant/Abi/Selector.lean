import Covenant.Contract.Basic
import Covenant.Diagnostic.Cause
import Covenant.Keccak

/-!
# Signatures and selectors

A function is called by its selector: the first four bytes of the hash of its signature. An event
is logged under the whole hash of its own. Every exposed variable has a getter, which is a function
like any other.
-/

namespace Covenant

namespace Abi

/-- The spelling of a type in a signature. -/
def typeName : Ty → String
  | .number => "uint256"
  | .boolean => "bool"
  | .address _ => "address"
  | .bytes => "bytes32"
  | .text => "string"
  | .array item => typeName item ++ "[]"
  | .record _ | .anyRecord => "tuple"
  | t => t.render

/-- **The signature of a function or event.** -/
def signature (name : String) (types : List Ty) : String :=
  name ++ "(" ++ ",".intercalate (types.map typeName) ++ ")"

/-- The hash of a signature. -/
def topicBytes (signature : String) : List UInt8 :=
  keccak256 (Text.bytes signature)

/-- **The selector of a signature**: four bytes. -/
def selectorBytes (signature : String) : List UInt8 :=
  (topicBytes signature).take 4

/-- A selector as a literal. -/
def selector (signature : String) : String :=
  "0x" ++ Text.hexBytes (selectorBytes signature)

/-- The hash of a signature as a literal. -/
def topic (signature : String) : String :=
  "0x" ++ Text.hexBytes (topicBytes signature)

/-- The types that the getter of a variable takes. -/
def getterInputs (v : StateVar) : List Ty :=
  match v.type with
  | .mapping keys _ => keys
  | .array _ => [.number]
  | _ => []

/-- The type that the getter of a variable returns. -/
def getterOutput (v : StateVar) : Ty :=
  match v.type with
  | .mapping _ value => value
  | .array item => item
  | type => type

/-- The variables that have a getter. -/
def getters (c : Contract) : List StateVar :=
  c.stateVars.filter (·.visibility.isExposed)

/-- The methods that can be called from outside. -/
def exposedMethods (c : Contract) : List Routine :=
  c.methods.filter (·.visibility.isExposed)

/-- The signature of a getter. -/
def getterSignature (v : StateVar) : String :=
  signature v.name (getterInputs v)

/-- The signature of a method. -/
def methodSignature (m : Routine) : String :=
  signature m.name (m.params.map Typed.type)

/-- The signature of an event. -/
def eventSignature (e : Event) : String :=
  signature e.name (e.params.map Typed.type)

/-- **The signatures of all functions that can be called from outside**: getters, then methods. -/
def functionSignatures (c : Contract) : List String :=
  (getters c).map getterSignature ++ (exposedMethods c).map methodSignature

/-- **Whether all functions that can be called from outside have a signature**: the types that they
take are there. -/
def hasSignatures (c : Contract) : Bool :=
  (getters c).all (fun v => Ty.areWhole (getterInputs v))
    && (exposedMethods c).all fun m => Ty.areWhole (m.params.map Typed.type)

/-- Whether an event has a signature. -/
def hasEventSignature (e : Event) : Bool :=
  Ty.areWhole (e.params.map Typed.type)

/-- The first two signatures with one selector. -/
def firstClash? (seen : List (List UInt8 × String)) : List String → Option (String × String)
  | [] => none
  | s :: rest =>
    match seen.lookup (selectorBytes s) with
    | some other => some (other, s)
    | none => firstClash? ((selectorBytes s, s) :: seen) rest

/-- **Refuses a contract two of whose functions have one selector.** -/
def checkSelectors (c : Contract) : Except Failure Unit :=
  if !hasSignatures c then .error .incomplete
  else
    match firstClash? [] (functionSignatures c) with
    | some (first, second) =>
      .error (.malformed c.pos (.selectorClash first second (selector second)))
    | none => .ok ()

end Abi

end Covenant
