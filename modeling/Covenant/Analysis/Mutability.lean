import Covenant.Contract.Basic
import Covenant.Diagnostic.Cause
import Covenant.Graph

/-!
# What methods do to the state

A method changes the state if it returns nothing, if it writes a property itself, or if it can
reach such a method through calls on the contract itself. All others only look at the state. A
method that only looks and can reach itself would never end, and is refused.
-/

namespace Covenant

namespace Mutability

/-- The calls of a body on the contract itself: the place and the name of the method. -/
def internalCalls (body : List Stmt) : List (Position × String) :=
  (Stmt.effectsOf body).filterMap fun
    | .call pos target true => some (pos, target)
    | _ => none

/-- Whether a method changes the state by itself. -/
def changesState (m : Routine) : Bool :=
  m.returns.isVoid || (Stmt.effectsOf m.body).any Effect.mutates

/-- The first call of a body that no method answers. -/
def unansweredCall? (c : Contract) (body : List Stmt) : Option Fault :=
  ((internalCalls body).find? fun (_, target) => (c.method? target).isNone).map
    fun (pos, target) => .unresolved pos .method target c.methodNames

/-- The first call on the contract itself that no method answers, in its constructor or in a
method. -/
def unanswered? (c : Contract) : Option Fault :=
  (c.constructorBody :: c.methods.map Routine.body).findSome? (unansweredCall? c)

/-- **The graph of calls on the contract itself.** Of two methods of one name the later counts. -/
def callGraph (c : Contract) : Graph :=
  c.methods.reverse.map fun m => (m.name, (internalCalls m.body).map Prod.snd)

/-- Whether the method of a name changes the state by itself. -/
def changesStateByName (c : Contract) (name : String) : Bool :=
  ((c.methods.reverse.find? (·.name = name)).map changesState).getD false

/-- Whether a method, or one it can reach, changes the state. -/
def reachesChange (c : Contract) (name : String) : Bool :=
  ((callGraph c).reachable [] [name]).any (changesStateByName c)

/-- Finds out what each method does, until one is refused. -/
def classify (c : Contract) : List Routine → List Routine × Option Fault
  | [] => ([], none)
  | m :: rest =>
    if reachesChange c m.name then
      let (rest, failure) := classify c rest
      ({ m with mutability := .payable } :: rest, failure)
    else if (callGraph c).onCycle m.name then
      (m :: rest, some (.malformed m.pos (.endlessRecursion m.name)))
    else
      let (rest, failure) := classify c rest
      ({ m with mutability := .view } :: rest, failure)

/-- **Finds out what the methods of a contract do to its state.** The contract is returned also
where a method is refused; those before it are marked. -/
def analyze (c : Contract) : Contract × Option Fault :=
  match unanswered? c with
  | some fault => (c, some fault)
  | none =>
    let (methods, failure) := classify c c.methods
    ({ c with methods }, failure)

end Mutability

end Covenant
