import Covenant.Contract.Ty

/-!
# What the machine provides

The names a contract can use without declaring them: the values of the execution environment, the
modules they are imported from, the intrinsic functions and the built-in types.
-/

namespace Covenant

/-! ## The execution environment -/

/-- A value of the execution environment and the machine instruction that reads it. -/
structure EnvMember where
  name : String
  builtin : String
  type : Ty
  doc : String
deriving Repr, Inhabited

namespace Environment

/-- **The values of the environment** by the name in front of the dot, in order. -/
def spaces : List (String × List EnvMember) :=
  [("block",
      [⟨"basefee", "basefee", .number, "current block base fee"⟩,
        ⟨"coinbase", "coinbase", .address none, "beneficiary of the current block"⟩,
        ⟨"difficulty", "prevrandao", .number, "previous block randomness"⟩,
        ⟨"gaslimit", "gaslimit", .number, "current block gas limit"⟩,
        ⟨"number", "number", .number, "current block number"⟩,
        ⟨"prevrandao", "prevrandao", .number, "previous block randomness"⟩,
        ⟨"timestamp", "timestamp", .number, "current block timestamp in seconds"⟩]),
    ("chain", [⟨"id", "chainid", .number, "chain identifier"⟩]),
    ("msg",
      [⟨"sender", "caller", .address none, "address of the direct caller"⟩,
        ⟨"value", "callvalue", .number, "wei sent with the call"⟩]),
    ("tx",
      [⟨"gasprice", "gasprice", .number, "gas price of the transaction"⟩,
        ⟨"origin", "origin", .address none, "sender of the transaction"⟩])]

/-- The names in front of the dot, in order. -/
def spaceNames : List String :=
  spaces.map Prod.fst

/-- Whether a name is one in front of the dot. -/
def isSpace (name : String) : Bool :=
  spaceNames.contains name

/-- The values behind a name, in order. -/
def members (space : String) : List EnvMember :=
  (spaces.lookup space).getD []

/-- The names of the values behind a name, in order. -/
def memberNames (space : String) : List String :=
  (members space).map EnvMember.name

/-- A value of the environment. -/
def member? (space name : String) : Option EnvMember :=
  (members space).find? (·.name = name)

/-! ## Modules -/

/-- The functions of the intrinsic module, and what they do. -/
def functions : List (String × String) :=
  [("emit", "log an event: emit(this.Transfer(\x7b ... \x7d))"),
    ("keccak256", "Keccak-256 over the word-packed arguments")]

/-- Whether a name is that of an intrinsic function. -/
def isFunction (name : String) : Bool :=
  (functions.lookup name).isSome

/-- The modules that are no files, in order. -/
def moduleNames : List String :=
  ["block", "chain", "msg", "tsevm", "tx"]

/-- Whether an import names a module that is no file. -/
def isModule (name : String) : Bool :=
  moduleNames.contains name

/-! ## Built-in types -/

/-- The built-in types, with the number of types each is applied to. -/
def builtinTypes : List (String × Nat) :=
  [("number", 0), ("boolean", 0), ("string", 0), ("void", 0), ("address", 0), ("bytes", 0),
    ("Record", 2), ("Array", 1), ("Event", 1)]

/-- Whether a name is that of a built-in type. -/
def isBuiltinType (name : String) : Bool :=
  (builtinTypes.lookup name).isSome

/-- The number of types a name is applied to; none for names that are not built in. -/
def typeArity (name : String) : Nat :=
  (builtinTypes.lookup name).getD 0

/-- Whether a name has to be applied to types. -/
def isGenericType (name : String) : Bool :=
  typeArity name ≠ 0

end Environment

end Covenant
