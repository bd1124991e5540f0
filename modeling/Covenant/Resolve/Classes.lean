import Covenant.Graph
import Covenant.Resolve.Statements

/-!
# Resolving classes

A class becomes a contract. Its events and the types of its properties are found first, since every
body may use them; then its members are resolved in order.
-/

namespace Covenant

namespace Resolve

/-! ## Events -/

/-- Whether a type annotation declares an event. -/
def isEventType : Option Source.TypeRef → Bool
  | some (.mk _ "Event" _ 0) => true
  | _ => false

/-- The property that a member declares. -/
def propertyOf? (m : Source.ClassMember) : Option Source.Property :=
  match m.body with
  | .property p => some p
  | _ => none

/-- The event that a property declares. Its parameters are the fields of an interface. -/
def eventOf (scope : Scope) (property : Source.Property) : Option (Except Fault Event) :=
  match property.type with
  | some (.mk pos "Event" arguments 0) => some <|
    match arguments with
    | [.mk argumentPos name [] 0] =>
      match scope.interfaces.get? name with
      | some shape => .ok { pos := property.pos, name := property.name, shape }
      | none =>
        .error (.unresolved argumentPos .interface name scope.interfaces.names)
    | _ => .error (.malformed pos .eventArity)
  | _ => none

/-- **The events that a class declares**, in order. -/
def ownEvents (scope : Scope) (c : Source.ClassDecl) : Except Fault (List Event) :=
  sequence (c.members.filterMap fun m => (propertyOf? m).bind (eventOf scope))

/-- The classes a class inherits from, directly or not, nearer ones first. -/
def ancestors (bases : Graph) (name : String) : List String :=
  bases.reachable [name] (bases.successors name)

/-- **The events that a class inherits**: of several with one name the nearest counts. -/
def inheritedEvents (bases : Graph) (declared : Table (List Event)) (name : String) :
    Table Event :=
  ((ancestors bases name).flatMap fun ancestor => (declared.get? ancestor).getD []).map
    fun event => (event.name, event)

/-! ## Properties -/

/-- The visibility that modifiers give a member. -/
def visibilityOf (modifiers : List Source.Modifier) : Visibility :=
  if modifiers.contains .privateWord || modifiers.contains .protectedWord then .hidden else .exposed

/-- The text of a string literal that an initializer consists of. -/
def literalText : Option Source.Initializer → String
  | some (.value e) =>
    match soleOperand? e with
    | some (.mk _ (.text _ value) []) => value
    | _ => ""
  | _ => ""

/-- Whether a property with an annotated type can be stored. -/
def isStorable : Ty → Bool
  | .void | .record _ | .anyRecord => false
  | .array item => item.isWord
  | _ => true

/-- The type of a property that holds data: the annotated one, or that of its initial value. -/
def propertyType (scope : Scope) (property : Source.Property) : Except Fault Ty := do
  match property.type, property.initializer with
  | some written, initializer =>
    let type ← resolveType scope (literalText initializer) written
    if isStorable type then return type
    else throw { pos := written.pos, cause := .unsupportedType written.render }
  | none, some (.value value) => return typeOf scope (← expression scope value)
  | none, _ => throw (.malformed property.pos (.untypedProperty property.name))

/-- Whether a property is an arrow function, and so a method. -/
def isArrow (property : Source.Property) : Bool :=
  match property.initializer with
  | some (.arrow _) => true
  | _ => false

/-- **The types of the properties that hold data**, found before any body is resolved. An initial
value may read the properties before it. -/
def propertyTypes (scope : Scope) : List Source.ClassMember → Table Ty → Except Fault (Table Ty)
  | [], types => .ok types
  | m :: rest, types =>
    match propertyOf? m with
    | none => propertyTypes scope rest types
    | some property =>
      if isEventType property.type || isArrow property then propertyTypes scope rest types
      else do
        let type ← propertyType { scope with properties := types } property
        propertyTypes scope rest (types.put property.name type)

/-- **A property that holds data.** -/
def stateVar (scope : Scope) (modifiers : List Source.Modifier) (property : Source.Property) :
    Except Fault StateVar := do
  let type := (scope.properties.get? property.name).getD .void
  let declared : StateVar :=
    { pos := property.pos
      name := property.name
      type
      visibility := visibilityOf modifiers
      immutable := modifiers.contains .readonlyWord }
  if declared.immutable && !type.isWord then
    throw (.unsupported property.pos (.readonlyProperty property.name type))
  match property.initializer with
  | some (.value value) =>
    if !type.isWord then
      throw (.unsupported value.pos (.initializedProperty value.render type))
    let initial ← expression scope value
    if initial.hasConditional then
      throw (.unsupported value.pos (.conditionalInitializer value.render))
    return { declared with initial := some (retag type initial) }
  | _ => return declared

/-! ## Methods -/

/-- **Parameters**, each of one word, and the scope of the body behind them. -/
def parameters : List Source.Param → Scope → Except Fault (List Parameter × Scope)
  | [], scope => .ok ([], scope)
  | p :: rest, scope => do
    if scope.locals.has p.name then throw (.malformed p.pos (.duplicateParameter p.name))
    let type ← resolveType scope "" p.type
    match type with
    | .record _ | .anyRecord =>
      throw (.unsupported p.type.pos (.recordParameter p.type.render))
    | _ => pure ()
    if !type.isWord then throw { pos := p.type.pos, cause := .unsupportedType p.type.render }
    let (rest, scope) ← parameters rest (scope.withLocal p.name type)
    return (⟨p.name, type⟩ :: rest, scope)

/-- The type that a method returns: nothing, a word or a record. -/
def returnType (scope : Scope) (written : Option Source.TypeRef) : Except Fault Ty := do
  match written, ← resolveType? scope written with
  | some node, .array _ | some node, .mapping _ _ =>
    throw { pos := node.pos, cause := .unsupportedType node.render }
  | _, type => return type

/-- The constructor, and the number of the next temporary. -/
def construction (scope : Scope) (next : Nat) (c : Source.Constructor) :
    Except Fault (Construction × Nat) := do
  let (params, inner) ← parameters c.params scope.withoutLocals
  let resolved ← body .void c.body.statements inner next
  return ({ pos := c.pos, params, body := resolved.body }, resolved.next)

/-- A method, and the number of the next temporary. -/
def routine (scope : Scope) (next : Nat) (visibility : Visibility) (m : Source.Method) :
    Except Fault (Routine × Nat) := do
  let (params, inner) ← parameters m.params scope.withoutLocals
  let returns ← returnType scope m.returns
  let resolved ← body returns m.body.statements inner next
  return ({ pos := m.pos, name := m.name, returns, visibility, params, body := resolved.body },
    resolved.next)

/-- **An arrow function as a method.** An expression in place of a body is returned, or only
evaluated if nothing is returned. -/
def arrowRoutine (scope : Scope) (next : Nat) (visibility : Visibility) (property : Source.Property)
    (arrow : Source.Arrow) : Except Fault (Routine × Nat) := do
  let (params, inner) ← parameters arrow.params scope.withoutLocals
  let (returns, resolved) ← match arrow.body with
    | .block block => do
      let returns ← returnType scope arrow.returns
      pure (returns, ← body returns block.statements inner next)
    | .value value => do
      let returns ← match arrow.returns with
        | some _ => returnType scope arrow.returns
        | none => pure (typeOf inner (← expression inner value))
      let s := if returns.isVoid then Source.Statement.evaluate value.pos value
        else .returns value.pos (some value)
      pure (returns, ← statement returns s inner next)
  return ({ pos := property.pos, name := property.name, returns, visibility, params,
            body := resolved.body }, resolved.next)

/-! ## Classes -/

/-- A class that is resolved in part: the names taken, the contract so far, and the number of the
next temporary. -/
structure PartialClass where
  names : List String := []
  contract : Contract
  next : Nat

namespace PartialClass

/-- Takes a name for a member. -/
def claim (p : PartialClass) (pos : Position) (name : String) : Except Fault PartialClass :=
  if p.names.contains name then
    .error (.malformed pos (.duplicateMember name p.contract.name))
  else .ok { p with names := name :: p.names }

/-- Adds a method. -/
def addMethod (p : PartialClass) (m : Routine × Nat) : PartialClass :=
  { p with
    contract := { p.contract with methods := p.contract.methods ++ [m.1] }
    next := m.2 }

/-- Adds a variable. -/
def addVariable (p : PartialClass) (v : StateVar) : PartialClass :=
  { p with contract := { p.contract with stateVars := p.contract.stateVars ++ [v] } }

end PartialClass

/-- **Resolves one member** into the contract. -/
def addMember (scope : Scope) (p : PartialClass) (m : Source.ClassMember) :
    Except Fault PartialClass := do
  if m.modifiers.contains .staticWord then throw (.unsupported m.pos .staticMember)
  let visibility := visibilityOf m.modifiers
  match m.body with
  | .constructor c =>
    if p.contract.construction.isSome then
      throw (.malformed m.pos (.secondConstructor p.contract.name))
    let (c, next) ← construction scope p.next c
    return { p with contract := { p.contract with construction := some c }, next }
  | .method method =>
    let p ← p.claim m.pos method.name
    return p.addMethod (← routine scope p.next visibility method)
  | .property property =>
    if isEventType property.type then return p
    let p ← p.claim m.pos property.name
    match property.initializer with
    | some (.arrow arrow) =>
      return p.addMethod (← arrowRoutine scope p.next visibility property arrow)
    | _ => return p.addVariable (← stateVar scope m.modifiers property)

/-- The first event that repeats the name of an earlier one. -/
def repeatedEvent? (seen : List String) : List Event → Option Event
  | [] => none
  | e :: rest => if seen.contains e.name then some e else repeatedEvent? (e.name :: seen) rest

/-- **Resolves a class.** The scope holds the events it inherits; its own are added here. -/
def contract (scope : Scope) (next : Nat) (file : String) (c : Source.ClassDecl) :
    Except Fault (Contract × Nat) := do
  let events ← ownEvents scope c
  if let some event := repeatedEvent? [] events then
    throw (.malformed event.pos (.duplicateEvent event.name))
  let properties ← propertyTypes { scope with properties := [] } c.members []
  let scope :=
    { scope with
      events := scope.events.putAll (events.map fun e => (e.name, e))
      properties }
  let start : PartialClass :=
    { contract := { pos := c.pos, name := c.name, file, bases := c.bases, events }, next }
  let finished ← c.members.foldlM (addMember scope) start
  return (finished.contract, finished.next)

end Resolve

end Covenant
