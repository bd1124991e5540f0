import Covenant.Emit.Statements
import Covenant.Proofs.Execution.Run
import Covenant.Proofs.Literals.Words
import Covenant.Proofs.Storage.Entries

/-!
# A reference interpreter

What a method without calls does, told by its body alone: on the arguments, on the storage of the
contract as its layout divides it, and with fixed words for the environment and for readonly
variables. The hash function is a parameter. A run returns words, leaves a storage and a log, or
fails by a panic or by throwing.
-/

namespace Covenant

namespace Reference

open Execution (Panic operate)

/-- **What a method runs in**: where variables live, and what does not change while it runs. -/
structure World where
  layout : Storage.Layout
  keccak : List UInt8 → Word
  self : Word
  environment : String → String → Word
  /-- The words of the readonly variables. -/
  readonly : String → Word

/-- What a run works on. -/
structure State where
  storage : Word → Word
  logs : List (String × List Word) := []
  locals : Locals Word := {}

/-- Why a run fails. -/
inductive Failure where
  | panicked (panic : Panic)
  | threw (message : Word)
deriving DecidableEq

/-- How a body ends: at its end, or by leaving the method, with words or without. -/
inductive Ending where
  | next
  | left (words : Option (List Word))
deriving DecidableEq

/-- **The result of a method.** -/
structure Outcome where
  words : List Word
  storage : Word → Word
  logs : List (String × List Word)

/-! ## Variables -/

/-- Storage with another word in a slot. -/
def put (storage : Word → Word) (slot value : Word) : Word → Word :=
  fun a => if a = slot then value else storage a

namespace World

variable (w : World) (storage : Word → Word) (name : String)

/-- A variable that is one word. -/
def property : Word :=
  match w.layout.location? name with
  | some (.scalar slot) => storage slot
  | some (.inlined _ _) | some (.staged _ _) => w.readonly name
  | _ => 0

/-- The number of elements of an array. -/
def length : Word :=
  match w.layout.location? name with
  | some (.array slot) => storage slot
  | _ => 0

/-- **An entry of a mapping, or an element of an array** if it has one there. -/
def entry (indices : List Word) : Except Panic Word :=
  match w.layout.location? name, indices with
  | some (.mapping arity bucket), keys =>
    .ok (storage (Storage.entryWord w.keccak (Storage.Location.base arity bucket) keys))
  | some (.array slot), [index] =>
    if index < storage slot then .ok (storage (Storage.Location.elements slot + index))
    else .error .bounds
  | _, _ => .ok 0

/-- The storage in which a variable of one word was written. -/
def setProperty (value : Word) : Word → Word :=
  match w.layout.location? name with
  | some (.scalar slot) => put storage slot value
  | _ => storage

/-- **The storage in which an entry or an element was written.** An array grows where needed, up to
the region it has. -/
def setEntry (indices : List Word) (value : Word) : Except Panic (Word → Word) :=
  match w.layout.location? name, indices with
  | some (.mapping arity bucket), keys =>
    .ok (put storage (Storage.entryWord w.keccak (Storage.Location.base arity bucket) keys) value)
  | some (.array slot), [index] =>
    if Storage.maxArrayIndex < index then .error .bounds
    else
      let grown := if index < storage slot then storage else put storage slot (index + 1)
      .ok (put grown (Storage.Location.elements slot + index) value)
  | _, _ => .ok storage

end World

/-! ## Expressions -/

mutual
/-- **The word of an expression.** Calls and deployments have no meaning here and count as zero, as
does a record where a word is needed. -/
def eval (w : World) (s : State) : Expr → Except Panic Word
  | .literal _ type text => .ok (literalMeaning type text)
  | .var _ name => .ok ((s.locals.get? name).getD 0)
  | .storage _ name => .ok (w.property s.storage name)
  | .entry _ name indices => do w.entry s.storage name (← evalEach w s indices)
  | .length _ name => .ok (w.length s.storage name)
  | .binary _ op left right => do
    let a ← eval w s left
    let b ← eval w s right
    operate op a b
  | .not _ value => do return Word.truth ((← eval w s value) = 0)
  | .this _ => .ok w.self
  | .external _ _ address => eval w s address
  | .environment _ space member => .ok (w.environment space member)
  | .hash _ inputs => do return w.keccak ((← evalEach w s inputs).flatMap Word.bytes)
  | .conditional _ condition yes no => do
    if (← eval w s condition) ≠ 0 then eval w s yes else eval w s no
  | .call _ _ _ _ | .deploy _ _ _ | .record _ _ _ | .missing => .ok 0

/-- The words of several expressions. -/
def evalEach (w : World) (s : State) : List Expr → Except Panic (List Word)
  | [] => .ok []
  | e :: es => do
    let a ← eval w s e
    let rest ← evalEach w s es
    return a :: rest
end

/-- A part of a run that can panic. -/
def panics {α : Type} : Except Panic α → Except Failure α
  | .ok a => .ok a
  | .error panic => .error (.panicked panic)

/-- The words that are returned: the fields of a record, or one word. -/
def returned (w : World) (s : State) : Expr → Except Panic (List Word)
  | .record _ _ fields => evalEach w s fields
  | value => do return [← eval w s value]

/-! ## Statements -/

mutual
/-- **Runs a statement.** -/
def exec (w : World) : Stmt → State → Except Failure (Ending × State)
  | .setProperty _ name value, s => do
    let a ← panics (eval w s value)
    return (.next, { s with storage := w.setProperty s.storage name a })
  | .declare _ name _ none, s => .ok (.next, { s with locals := s.locals.declare name 0 })
  | .declare _ name _ (some value), s => do
    let a ← panics (eval w s value)
    return (.next, { s with locals := s.locals.declare name a })
  | .setVariable _ name value, s => do
    let a ← panics (eval w s value)
    return (.next, { s with locals := s.locals.set name a })
  | .setEntry _ name indices value, s => do
    let keys ← panics (evalEach w s indices)
    let a ← panics (eval w s value)
    let storage ← panics (w.setEntry s.storage name keys a)
    return (.next, { s with storage })
  | .exit _ none, s => .ok (.left none, s)
  | .exit _ (some value), s => do
    let words ← panics (returned w s value)
    return (.left (some words), s)
  | .branch _ condition yes no, s => do
    let a ← panics (eval w s condition)
    let inside : State := { s with locals := s.locals.enter }
    let (ending, t) ← if a ≠ 0 then execAll w yes inside else execAll w no inside
    return (ending, { t with locals := t.locals.leave })
  | .throw _ message, s => do
    let a ← panics (eval w s message)
    throw (.threw a)
  | .emit _ event args, s => do
    let words ← panics (evalEach w s args)
    return (.next, { s with logs := s.logs ++ [(event, words)] })
  | .evaluate _ value, s => do
    let _ ← panics (eval w s value)
    return (.next, s)
  | .skip _, s => .ok (.next, s)

/-- Runs a body until a statement leaves it. -/
def execAll (w : World) : List Stmt → State → Except Failure (Ending × State)
  | [], s => .ok (.next, s)
  | stmt :: rest, s => do
    match ← exec w stmt s with
    | (.next, t) => execAll w rest t
    | ended => return ended
end

/-! ## Methods -/

/-- The words that a method returns, zeros where it was not told which. -/
def Ending.words (count : Nat) : Ending → List Word
  | .left (some words) => words
  | _ => List.replicate count 0

/-- The state that a method starts in. -/
def begin (m : Routine) (args : List Word) (storage : Word → Word) : State where
  storage := storage
  locals := { inner := (m.params.map Typed.name).zip args }

/-- **Runs a method** on some arguments and a storage. -/
def run (w : World) (m : Routine) (args : List Word) (storage : Word → Word) :
    Except Failure Outcome := do
  let (ending, s) ← execAll w m.body (begin m args storage)
  return {
    words := ending.words (Emit.resultTypes m.returns).length
    storage := s.storage
    logs := s.logs }

end Reference

end Covenant
