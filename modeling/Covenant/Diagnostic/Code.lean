/-!
# Codes of diagnostics

Every diagnostic has a code by which it can be looked up. The first letter tells errors from
warnings and the number tells the part of the compiler that reports it.
-/

namespace Covenant

/-- **The code of a diagnostic.** -/
structure Code where
  text : String
deriving DecidableEq, Repr, Inhabited

namespace Code

/-- The text cannot be read. -/
def unreadable : Code := ⟨"E0100"⟩

/-- A construct outside the supported part of the language. -/
def unsupported : Code := ⟨"E0101"⟩

/-- A type annotation without a contract type. -/
def unsupportedType : Code := ⟨"E0102"⟩

/-- A name that nothing declares. -/
def unresolved : Code := ⟨"E0201"⟩

/-- An emitted event that is not declared. -/
def unknownEvent : Code := ⟨"E0202"⟩

/-- An invalid shape of a contract. -/
def structural : Code := ⟨"E0401"⟩

/-- A thrown error without exactly one argument. -/
def throwArity : Code := ⟨"E0402"⟩

/-- A readonly property without exactly one source of its value. -/
def immutableSource : Code := ⟨"E0403"⟩

/-- A mapping or array with the wrong number of indices. -/
def mappingArity : Code := ⟨"E0404"⟩

/-- Two declarations of one name. -/
def duplicate : Code := ⟨"E0405"⟩

/-- Declarations that depend on each other in a circle. -/
def cycle : Code := ⟨"E0406"⟩

/-- A field that an object literal does not give. -/
def missingField : Code := ⟨"E0407"⟩

/-- A number that does not fit in a word. -/
def numericOverflow : Code := ⟨"E0408"⟩

/-- An error of the assembler. -/
def externalTool : Code := ⟨"E0901"⟩

/-- A warning of the assembler. -/
def externalWarning : Code := ⟨"W0001"⟩

/-- A statement that is never reached. -/
def unreachable : Code := ⟨"W0002"⟩

/-- A method that may end without a value. -/
def missingReturn : Code := ⟨"W0003"⟩

/-- A local variable that is never read. -/
def unusedVariable : Code := ⟨"W0004"⟩

/-- The codes with a description. -/
def descriptions : List (Code × String) :=
  [(unreadable, "Source text could not be parsed"),
    (unsupported, "Construct has no lowering rule in the supported subset"),
    (unsupportedType, "Type annotation cannot be mapped to a contract type"),
    (unresolved, "Name does not resolve to a known declaration"),
    (unknownEvent, "Emitted event is not declared on the contract"),
    (structural, "Contract structure is invalid"),
    (throwArity, "throw requires exactly one error argument"),
    (immutableSource, "Immutable property needs exactly one value source"),
    (mappingArity, "Mapping accessed with the wrong number of keys"),
    (duplicate, "Duplicate declaration found"),
    (cycle, "Declarations form a cycle"),
    (missingField, "Required field missing in object literal"),
    (numericOverflow, "Numeric literal does not fit in 256 bits"),
    (externalTool, "External assembler reported an error"),
    (externalWarning, "External assembler reported a warning"),
    (unreachable, "Statement can never execute"),
    (missingReturn, "Method can finish without returning a value"),
    (unusedVariable, "Local variable is declared but never read")]

/-- What a code stands for. -/
def description (c : Code) : String :=
  (descriptions.lookup c).getD "Unknown error code"

/-- Whether a code is that of a warning. -/
def isWarning (c : Code) : Bool :=
  c.text.startsWith "W"

/-- The part of the compiler a code belongs to. -/
def category (c : Code) : String :=
  if c.isWarning then "Warning"
  else if "E0100" ≤ c.text && c.text < "E0200" then "Parser"
  else if "E0200" ≤ c.text && c.text < "E0300" then "Reference"
  else if "E0400" ≤ c.text && c.text < "E0500" then "Contract"
  else if "E0900" ≤ c.text && c.text < "E1000" then "External Tool"
  else "Unknown"

end Code

end Covenant
