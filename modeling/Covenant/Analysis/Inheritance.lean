import Covenant.Contract.Basic
import Covenant.Diagnostic.Cause

/-!
# Inheritance

Every contract gets the members of the contracts it extends. Its own members come first and win
over inherited ones of the same name; of several bases the first listed wins. Variables and methods
share one space of names, events have their own, and constructors are not inherited.

The bases of a contract are completed before it. A base that does not exist and a contract that
extends itself stop the work; what was completed until then stays completed.
-/

namespace Covenant

namespace Inheritance

/-- Adds the events of a base that a contract has no event of the name of. -/
def inheritEvents (c : Contract) (events : List Event) : Contract :=
  events.foldl
    (fun c e => if (c.event? e.name).isSome then c else { c with events := c.events ++ [e] }) c

/-- Whether a contract has a variable or method of a name. -/
def hasMember (c : Contract) (name : String) : Bool :=
  (c.stateVar? name).isSome || (c.method? name).isSome

/-- Adds the variables of a base that a contract has no member of the name of. -/
def inheritVariables (c : Contract) (stateVars : List StateVar) : Contract :=
  stateVars.foldl
    (fun c v => if hasMember c v.name then c else { c with stateVars := c.stateVars ++ [v] }) c

/-- Adds the methods of a base that a contract has no member of the name of. What they may do to
the state has to be found out anew. -/
def inheritMethods (c : Contract) (methods : List Routine) : Contract :=
  methods.foldl
    (fun c m =>
      if hasMember c m.name then c
      else { c with methods := c.methods ++ [{ m with mutability := .unknown }] }) c

/-- **Adds the members of a base** that a contract does not have. -/
def inherit (c base : Contract) : Contract :=
  inheritMethods (inheritVariables (inheritEvents c base.events) base.stateVars) base.methods

/-- The work so far: the contracts, and the names of those that are complete. -/
structure Progress where
  registry : Registry
  complete : List String := []
deriving Inhabited

/-- Does a step for each item until one fails, and keeps what was done. -/
def untilFailure {α σ : Type} (step : α → σ → σ × Option Fault) : List α → σ → σ × Option Fault
  | [], s => (s, none)
  | a :: rest, s =>
    match step a s with
    | (s, none) => untilFailure step rest s
    | (s, some fault) => (s, some fault)

/-- Adds the members of the bases, which are complete. -/
def merge (p : Progress) (c : Contract) : Progress :=
  let merged := (c.bases.filterMap p.registry.get?).foldl inherit c
  { registry := p.registry.put merged, complete := c.name :: p.complete }

/-- **Completes a contract** after its bases. The path leads to it from where the work began; it
is at most as long as there are contracts, which bounds the depth. -/
def complete : Nat → List String → Contract → Progress → Progress × Option Fault
  | 0, path, c, p => (p, some (.malformed c.pos (.extensionCycle c.name (path ++ [c.name]))))
  | depth + 1, path, c, p =>
    if p.complete.contains c.name then (p, none)
    else if path.contains c.name then
      (p, some (.malformed c.pos (.extensionCycle c.name (path ++ [c.name]))))
    else
      let completeBase (name : String) (p : Progress) : Progress × Option Fault :=
        match p.registry.get? name with
        | some base => complete depth (path ++ [c.name]) base p
        | none => (p, some (.unresolved c.pos .baseContract name p.registry.names))
      match untilFailure completeBase c.bases p with
      | (p, none) => (merge p c, none)
      | (p, some fault) => (p, some fault)

/-- **Completes all contracts of a build**, in the order of their names. The contracts are returned
also where the work failed. -/
def flatten (r : Registry) : Registry × Option Fault :=
  let completeNamed (name : String) (p : Progress) : Progress × Option Fault :=
    match p.registry.get? name with
    | some c => complete (r.contracts.length + 1) [] c p
    | none => (p, none)
  let (p, failure) := untilFailure completeNamed r.names { registry := r }
  (p.registry, failure)

end Inheritance

end Covenant
