import Covenant.Contract.Ty
import Covenant.Diagnostic.Basic
import Covenant.Source.Token

/-!
# Causes of failure

Everything a build can fail for, and what it warns of, as data. The wording of a cause is in one
place, so a statement about failures speaks of causes and never of texts.
-/

namespace Covenant

/-- What a name that nothing declares was meant to be. -/
inductive NameKind where
  | baseContract
  | contract
  | method
  | methodOf (contract : String)
  | interface
  | type
  | localName
  | property
  | member (space : String)
  | fieldOf (owner : String)
  | moduleName
  | exportOf (source : String)
deriving DecidableEq, Repr, Inhabited

/-- Constructs outside the supported part of the language. A construct is shown in its source
form. -/
inductive Unsupported where
  | staticMember
  | readonlyProperty (name : String) (type : Ty)
  | initializedProperty (source : String) (type : Ty)
  | conditionalInitializer (source : String)
  | recordParameter (source : String)
  | mutableConstant (name : String)
  | conditionalConstant (source : String)
  | wideLocal (name : String) (type : Ty)
  | recordReturn (source : String) (shape : String)
  | wideReturn (type : Ty)
  | thrownValue (source : String)
  | emittedValue (source : String)
  | eventArgument (source : String) (event : String)
  | assignmentTarget (source : String)
  | eventType (source : String)
  | negativeNumber (source : String)
  | expression (source : String)
  | objectLiteral (source : String)
  | errorValue
  | useOfThis (source : String)
  | lengthOf (source : String) (name : String)
  | propertyAccess (source : String)
  | useOfName (source : String) (name : String)
  | useOfExternal (source : String)
  | wholeWrite (property : String) (slot : String)
  | wholeRead (property : String) (slot : String)
  | indexedScalar (property : String)
  | remainingConditional (source : String)
  | callValue (source : String) (type : Ty)
  | notReference (source : String) (name : String)
  | callReceiver (source : String)
deriving Repr, Inhabited

/-- Invalid shapes of a program or contract. -/
inductive Malformed where
  | eventArity
  | duplicateEvent (name : String)
  | duplicateMember (name : String) (className : String)
  | secondConstructor (className : String)
  | duplicateParameter (name : String)
  | duplicateConstant (name : String)
  | duplicateInterface (name : String)
  | duplicateField (name : String) (interface : String)
  | duplicateLocal (name : String)
  | duplicateContract (name : String) (firstFile : String)
  | repeatedField (key : String)
  | untypedProperty (name : String)
  | untypedLocal (name : String)
  | missingReturnValue (type : Ty)
  | returnFromVoid
  | throwArity (given : Nat)
  | emitArity (given : Nat)
  | assignedConstant (name : String)
  | wholeAssignment (type : Ty) (name : String)
  | typeArity (name : String) (wanted given : Nat)
  | malformedNumber (literal : String)
  | numericOverflow (literal : String)
  | longText (bytes limit : Nat)
  | notIndexable (name : String) (type : Ty)
  | indexCount (name : String) (wanted given : Nat)
  | entryCount (name : String) (wanted given : Nat)
  | hashArity
  | addressArity (contract : String)
  | extensionCycle (name : String) (chain : List String)
  | endlessRecursion (method : String)
  | selectorClash (first second selector : String)
  | lateReadonlyWrite (property : String)
  | readonlyWrite (property method : String)
  | immutableSource (property : String) (sources : Nat)
  | missingField (owner field : String)
  | returnMismatch (type : Ty)
  | notAddress (literal : String)
  | argumentCount (callee : String) (wanted given : Nat)
  | constructorArguments (contract : String) (wanted given : Nat)
  | deploymentCycle (contract : String)
  | slotClash (first second : String) (slot : Nat)
  | importCycle (path : String)
deriving Repr, Inhabited

/-- **Why a build fails, or what it warns of.** -/
inductive Cause where
  | unreadable (cause : Source.SyntaxCause)
  | unsupported (what : Unsupported)
  | unsupportedType (source : String)
  | unresolved (kind : NameKind) (name : String) (candidates : List String)
  | unknownEvent (name : String) (declared : List String)
  | unloadable (source : String) (reason : String)
  | malformed (what : Malformed)
  | missingReturn
  | unreachable
  | unusedVariable (name : String)
deriving Repr, Inhabited

/-- **A cause at a place.** -/
structure Fault where
  pos : Position
  cause : Cause
deriving Repr, Inhabited

namespace NameKind

/-- The word for what a name was meant to be. -/
def word : NameKind → String
  | baseContract => "base contract"
  | contract => "contract"
  | method => "method"
  | methodOf owner => "method of " ++ owner
  | interface => "interface"
  | type => "type"
  | localName => "variable"
  | property => "property"
  | member space => space ++ " member"
  | fieldOf owner => "field of " ++ owner
  | moduleName => "module"
  | exportOf source => "export of '" ++ source ++ "'"

end NameKind

namespace Unsupported

/-- The construct in question, and what there is to say about it. -/
def wording : Unsupported → String × String
  | staticMember => ("static", "static members are not supported")
  | readonlyProperty name type =>
    (name, "readonly " ++ type.render ++ " properties are not supported")
  | initializedProperty source type =>
    (source, type.render ++ " properties cannot have an initializer")
  | conditionalInitializer source =>
    (source, "property initializers cannot use conditional expressions")
  | recordParameter source => (source, "interface-typed parameters are not supported")
  | mutableConstant name => ("let " ++ name, "top-level bindings must be const")
  | conditionalConstant source => (source, "constants cannot use conditional expressions")
  | wideLocal name type =>
    (name, "local variables must hold a single value, not " ++ type.render)
  | recordReturn source shape => (source, "a " ++ shape ++ " return must be an object literal")
  | wideReturn type => (type.render, "methods cannot return " ++ type.render)
  | thrownValue source => (source, "only 'throw new Error(message)' is supported")
  | emittedValue source =>
    (source, "emit expects an event such as this.Transfer(\x7b ... \x7d)")
  | eventArgument source event => (source, "event '" ++ event ++ "' takes one object literal")
  | assignmentTarget source => (source, "invalid assignment target")
  | eventType source => (source, "Event<...> is only allowed as a property type")
  | negativeNumber source => (source, "negative numbers cannot be represented")
  | expression source => (source, "unsupported expression")
  | objectLiteral source => (source, "object literals are only allowed in return and emit")
  | errorValue => ("new Error(...)", "errors can only be thrown")
  | useOfThis source => (source, "unsupported use of this")
  | lengthOf source name => (source, "'" ++ name ++ "' is not an array")
  | propertyAccess source => (source, "unsupported property access")
  | useOfName source name => (source, "unsupported use of '" ++ name ++ "'")
  | useOfExternal source => (source, "unsupported use of an external contract")
  | wholeWrite property slot =>
    ("this." ++ property, "cannot assign a whole " ++ slot ++ " property")
  | wholeRead property slot => ("this." ++ property, "cannot read a whole " ++ slot ++ " property")
  | indexedScalar property =>
    ("this." ++ property ++ "[...]", "'" ++ property ++ "' cannot be indexed")
  | remainingConditional source => (source, "conditional expression was not normalized")
  | callValue source type =>
    (source, "calls returning " ++ type.shown ++ " cannot be used as values")
  | notReference source name => (source, "'" ++ name ++ "' is not a contract reference")
  | callReceiver source => (source, "unsupported call receiver")

end Unsupported

namespace Malformed

/-- A count that is wrong: what is wanted and what is given. -/
def countText (subject : String) (wanted : Nat) (unit : String) (given : Nat) : String :=
  subject ++ " takes " ++ toString wanted ++ " " ++ unit ++ ", got " ++ toString given

/-- The diagnostic of an invalid shape. -/
def diagnostic (place : Place) : Malformed → Diagnostic
  | eventArity => .structural .structural "Event takes one interface type argument" place
  | duplicateEvent name =>
    .structural .duplicate ("event '" ++ name ++ "' is declared twice") place
  | duplicateMember name className =>
    .structural .duplicate
      ("member '" ++ name ++ "' is declared twice in '" ++ className ++ "'") place
  | secondConstructor className =>
    .structural .duplicate ("class '" ++ className ++ "' has more than one constructor") place
  | duplicateParameter name =>
    .structural .duplicate ("parameter '" ++ name ++ "' is declared twice") place
  | duplicateConstant name =>
    .structural .duplicate ("constant '" ++ name ++ "' is declared twice") place
  | duplicateInterface name =>
    .structural .duplicate ("interface '" ++ name ++ "' is declared twice") place
  | duplicateField name interface =>
    .structural .duplicate
      ("field '" ++ name ++ "' is declared twice in interface '" ++ interface ++ "'") place
  | duplicateLocal name =>
    .structural .duplicate ("variable '" ++ name ++ "' is already declared") place
  | duplicateContract name firstFile =>
    (Diagnostic.structural .duplicate ("contract '" ++ name ++ "' is declared more than once")
      place).note ("first declared in " ++ firstFile)
  | repeatedField key => .structural .duplicate ("field '" ++ key ++ "' is given twice") place
  | untypedProperty name =>
    .structural .structural ("property '" ++ name ++ "' needs a type or an initializer") place
  | untypedLocal name =>
    .structural .structural ("variable '" ++ name ++ "' needs a type or an initial value") place
  | missingReturnValue type =>
    .structural .structural ("missing return value of type " ++ type.render) place
  | returnFromVoid => .structural .structural "void method cannot return a value" place
  | throwArity given =>
    .structural .throwArity ("Error takes exactly one argument, got " ++ toString given) place
  | emitArity given =>
    .structural .structural ("emit takes exactly one event, got " ++ toString given) place
  | assignedConstant name =>
    .structural .structural ("cannot assign to constant '" ++ name ++ "'") place
  | wholeAssignment type name =>
    .structural .structural
      ("cannot assign to " ++ type.render ++ " property '" ++ name ++ "' as a whole") place
  | typeArity name wanted given =>
    .structural .structural
      ("type '" ++ name ++ "' expects " ++ toString wanted ++ " type arguments, got "
        ++ toString given) place
  | malformedNumber literal =>
    .structural .structural ("malformed number literal '" ++ literal ++ "'") place
  | numericOverflow literal =>
    .structural .numericOverflow
      ("number literal '" ++ literal ++ "' does not fit in 256 bits") place
  | longText bytes limit =>
    .structural .structural
      ("string literal is " ++ toString bytes ++ " bytes, at most " ++ toString limit
        ++ " are supported") place
  | notIndexable name type =>
    .structural .mappingArity
      ("property '" ++ name ++ "' of type " ++ type.shown ++ " cannot be indexed") place
  | indexCount name wanted given =>
    .structural .mappingArity
      (countText ("property '" ++ name ++ "'") wanted "index(es)" given) place
  | entryCount name wanted given =>
    .structural .mappingArity (countText ("'" ++ name ++ "'") wanted "index(es)" given) place
  | hashArity => .structural .structural "keccak256 needs at least one argument" place
  | addressArity contract =>
    .structural .structural (contract ++ ".at expects one address") place
  | extensionCycle name chain =>
    (Diagnostic.structural .cycle ("contract '" ++ name ++ "' extends itself") place).note
      ("extension chain: " ++ " -> ".intercalate chain)
  | endlessRecursion method =>
    (Diagnostic.structural .cycle
      ("method '" ++ method ++ "' calls itself without ever changing state") place).withHelp
      "give the recursion a state-changing branch or remove it"
  | selectorClash first second selector =>
    (Diagnostic.structural .duplicate
      ("'" ++ first ++ "' and '" ++ second ++ "' have the same selector") place).note
      ("selector " ++ selector)
  | lateReadonlyWrite property =>
    .structural .immutableSource
      ("readonly property '" ++ property ++ "' can only be assigned during construction") place
  | readonlyWrite property method =>
    .structural .immutableSource
      ("readonly property '" ++ property ++ "' cannot be assigned in method '" ++ method ++ "'")
      place
  | immutableSource property sources => .immutableSource property sources place
  | missingField owner field => .missingField owner field place
  | returnMismatch type =>
    .structural .structural ("return value does not match " ++ type.shown) place
  | notAddress literal =>
    .structural .structural (Text.quote literal ++ " is not an address") place
  | argumentCount callee wanted given =>
    .structural .structural (countText ("'" ++ callee ++ "'") wanted "argument(s)" given) place
  | constructorArguments contract wanted given =>
    .structural .structural
      (countText ("constructor of '" ++ contract ++ "'") wanted "argument(s)" given) place
  | deploymentCycle contract =>
    .structural .cycle ("contract '" ++ contract ++ "' deploys itself") place
  | slotClash first second slot =>
    .structural .structural
      ("'" ++ first ++ "' and '" ++ second ++ "' were both assigned storage slot "
        ++ toString slot) place
  | importCycle path => .structural .cycle ("import cycle through '" ++ path ++ "'") place

end Malformed

namespace Fault

/-- **The diagnostic of a fault.** -/
def diagnostic (f : Fault) : Diagnostic :=
  let place := Place.ofPosition f.pos
  match f.cause with
  | .unreadable cause => .failure (some .unreadable) .unreadable cause.message place
  | .unsupported what => .unsupported what.wording.1 what.wording.2 place
  | .unsupportedType source => .unsupportedType source place
  | .unresolved kind name candidates => .unresolved kind.word name candidates place
  | .unknownEvent name declared => .unknownEvent name declared place
  | .unloadable source reason =>
    (Diagnostic.failure (some .unresolved) .unresolved ("cannot load module '" ++ source ++ "'")
      place).note reason
  | .malformed what => what.diagnostic place
  | .missingReturn =>
    (Diagnostic.warning .missingReturn "not all paths return a value" place).withHelp
      "add a return statement or throw at the end of the method"
  | .unreachable => .warning .unreachable "unreachable code" place
  | .unusedVariable name =>
    (Diagnostic.warning .unusedVariable ("variable '" ++ name ++ "' is never read") place).suggest
      "remove the declaration"

/-- The fault of a text that cannot be read. -/
def ofSyntaxError (e : Source.SyntaxError) : Fault :=
  { pos := e.pos, cause := .unreadable e.cause }

/-- A construct outside the supported part of the language. -/
def unsupported (pos : Position) (what : Unsupported) : Fault :=
  { pos, cause := .unsupported what }

/-- An invalid shape. -/
def malformed (pos : Position) (what : Malformed) : Fault :=
  { pos, cause := .malformed what }

/-- A name that nothing declares. -/
def unresolved (pos : Position) (kind : NameKind) (name : String) (candidates : List String) :
    Fault :=
  { pos, cause := .unresolved kind name candidates }

end Fault

/-! ## Failures of a build

Most builds that fail do so for a fault in a source text, which has a diagnostic. A missing file, a
failing assembler, a text that no machine word can hold and a contract that lacks some of its parts
are of other kinds. -/

/-- **Why a build ends without a result.** -/
inductive Failure where
  /-- Something is wrong at a place of the source. -/
  | fault (fault : Fault)
  /-- A file that was asked for cannot be read, for the given reason. -/
  | noEntry (reason : String)
  /-- The assembler refused a contract, with what it had to say. -/
  | tool (contract : String) (messages : List String)
  /-- A text of more bytes than a machine word was to be packed into one. -/
  | overlong (text : String)
  /-- A contract lacks a part that is needed. No source text gives such a contract. -/
  | incomplete
deriving Repr, Inhabited

namespace Failure

/-- A construct outside the supported part of the language. -/
def unsupported (pos : Position) (what : Unsupported) : Failure :=
  .fault (.unsupported pos what)

/-- An invalid shape. -/
def malformed (pos : Position) (what : Malformed) : Failure :=
  .fault (.malformed pos what)

/-- A name that nothing declares. -/
def unresolved (pos : Position) (kind : NameKind) (name : String) (candidates : List String) :
    Failure :=
  .fault (.unresolved pos kind name candidates)

end Failure

end Covenant
