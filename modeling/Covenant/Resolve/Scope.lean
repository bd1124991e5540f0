import Covenant.Contract.Basic

/-!
# Scopes

The names that mean something at a place of a source file: interfaces, constants, events and
contracts of the build, the properties of the class at hand, and the locals of the body at hand. A
scope is a value; to declare a name is to make a larger scope.
-/

namespace Covenant

/-- **A table of names**, the latest entry first. -/
abbrev Table (α : Type) := List (String × α)

namespace Table

/-- The entry of a name. -/
def get? {α : Type} (t : Table α) (name : String) : Option α :=
  t.lookup name

/-- Whether a name has an entry. -/
def has {α : Type} (t : Table α) (name : String) : Bool :=
  (t.get? name).isSome

/-- Adds an entry, which hides an older one of the same name. -/
def put {α : Type} (t : Table α) (name : String) (value : α) : Table α :=
  (name, value) :: t

/-- Adds the entries of another table, which hide older ones of the same names. -/
def putAll {α : Type} (t added : Table α) : Table α :=
  added ++ t

/-- The names with an entry, each once. -/
def names {α : Type} (t : Table α) : List String :=
  (t.map Prod.fst).eraseDups

end Table

/-- **A scope.** -/
structure Scope where
  interfaces : Table Interface := []
  constants : Table Expr := []
  events : Table Event := []
  contracts : List String := []
  properties : Table Ty := []
  locals : Table Ty := []
deriving Inhabited

namespace Scope

/-- Declares a local variable or parameter. -/
def withLocal (s : Scope) (name : String) (type : Ty) : Scope :=
  { s with locals := s.locals.put name type }

/-- The scope of a new body. -/
def withoutLocals (s : Scope) : Scope :=
  { s with locals := [] }

/-- The names a bare identifier can stand for. -/
def valueNames (s : Scope) : List String :=
  s.locals.names ++ s.constants.names

end Scope

end Covenant
