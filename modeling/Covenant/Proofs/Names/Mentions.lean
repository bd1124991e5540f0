import Covenant.Proofs.Conditionals.Leaves
import Covenant.Proofs.Resolution.Operators
import Covenant.Proofs.Resolution.Statements

/-!
# Names that are mentioned and locals that are read

A source text mentions names; a resolved one reads locals. The locals an expression reads are found
mention by mention, in order: a bare name reads the local it names, unless a constant of the name
stands there, which reads what its value reads; a name in front of further steps reads nothing
(`Denotes.reads_eq`).
-/

namespace Covenant

/-! ## Mentions -/

namespace Source

/-- In which role a name is mentioned. -/
inductive Role where
  /-- The name stands for a value. -/
  | value
  /-- The name stands in front of further steps. -/
  | head
  /-- The name is that of the local whose current value an assignment adds to or takes from. -/
  | current
deriving DecidableEq, Repr

/-- A mention of a name. -/
structure Mention where
  pos : Position
  name : String
  role : Role
deriving DecidableEq, Repr

mutual
/-- **The names that an expression mentions**, in order. -/
def Expression.mentions : Expression → List Mention
  | .chain _ value => value.mentions
  | .choice _ condition yes no => condition.mentions ++ yes.mentions ++ no.mentions

/-- The names in the operands of a chain. -/
def Chain.mentions : Chain → List Mention
  | .mk _ first links => first.mentions ++ linkMentions links

/-- The names behind operators. -/
def linkMentions : List Link → List Mention
  | [] => []
  | .mk _ _ operand :: rest => operand.mentions ++ linkMentions rest

/-- The names of a value behind signs. -/
def Operand.mentions : Operand → List Mention
  | .mk _ _ value => value.mentions

/-- The names of a primary and of the steps behind it. -/
def Postfix.mentions : Postfix → List Mention
  | .mk pos primary suffixes =>
    primary.mentions pos suffixes.isEmpty ++ suffixMentions suffixes

/-- The names of a primary, with or without steps behind it. -/
def Primary.mentions (pos : Position) (alone : Bool) : Primary → List Mention
  | .name _ name => [⟨pos, name, if alone then .value else .head⟩]
  | .creation _ _ (.mk _ values) => eachMentions values
  | .object _ fields => fieldMentions fields
  | .parens _ inner => inner.mentions
  | _ => []

/-- The names in indices and arguments. -/
def suffixMentions : List Suffix → List Mention
  | [] => []
  | .member _ _ :: rest => suffixMentions rest
  | .index _ value :: rest => value.mentions ++ suffixMentions rest
  | .call _ (.mk _ values) :: rest => eachMentions values ++ suffixMentions rest

/-- The names of several expressions. -/
def eachMentions : List Expression → List Mention
  | [] => []
  | e :: es => e.mentions ++ eachMentions es

/-- The names in the fields of an object literal; the shorthand `key` mentions its key. -/
def fieldMentions : List ObjectField → List Mention
  | [] => []
  | .valued _ _ value :: rest => value.mentions ++ fieldMentions rest
  | .shorthand pos key :: rest => ⟨pos, key, .value⟩ :: fieldMentions rest
end

end Source

/-! ## Reads -/

/-- The local that an expression is a reading of. -/
def Expr.read? : Expr → Option (Position × String)
  | var pos name => some (pos, name)
  | _ => none

/-- **The locals that an expression reads**, in order. -/
def Expr.reads (e : Expr) : List (Position × String) :=
  e.leaves.filterMap read?

/-- The locals that a body reads. -/
def Stmt.reads (body : List Stmt) : List (Position × String) :=
  (leaves body).filterMap Expr.read?

namespace Expr

/-- An expression with parts reads what they read, in their order. -/
theorem reads_of_parts_ne_nil {e : Expr} (h : e.parts ≠ []) :
    e.reads = e.parts.flatMap reads := by
  rw [reads, leaves_of_parts_ne_nil h, List.filterMap_flatMap]
  rfl

/-- An expression that is no reading itself reads what its parts read. -/
theorem reads_eq {e : Expr} (h : e.read? = none) : e.reads = e.parts.flatMap reads := by
  by_cases hparts : e.parts = []
  · rw [reads, leaves_of_parts_eq_nil hparts, hparts, List.filterMap_cons_none h]
    rfl
  · exact reads_of_parts_ne_nil hparts

section

variable (pos : Position)

@[simp] theorem reads_var (x : String) : (var pos x).reads = [(pos, x)] := rfl

@[simp] theorem reads_literal (type : Ty) (text : String) : (literal pos type text).reads = [] :=
  rfl

@[simp] theorem reads_this : (this pos).reads = [] := rfl

@[simp] theorem reads_storage (x : String) : (storage pos x).reads = [] := rfl

@[simp] theorem reads_entry (x : String) (indices : List Expr) :
    (entry pos x indices).reads = indices.flatMap reads :=
  reads_eq rfl

@[simp] theorem reads_binary (op : BinaryOp) (left right : Expr) :
    (binary pos op left right).reads = left.reads ++ right.reads := by
  simp [reads_eq (e := binary pos op left right) rfl, parts]

@[simp] theorem reads_not (value : Expr) : (not pos value).reads = value.reads := by
  simp [reads_eq (e := not pos value) rfl, parts]

@[simp] theorem reads_external (contract : String) (address : Expr) :
    (external pos contract address).reads = address.reads := by
  simp [reads_eq (e := external pos contract address) rfl, parts]

@[simp] theorem reads_deploy (contract : String) (args : List Expr) :
    (deploy pos contract args).reads = args.flatMap reads :=
  reads_eq rfl

@[simp] theorem reads_call (target : String) (receiver : Expr) (args : List Expr) :
    (call pos target receiver args).reads = receiver.reads ++ args.flatMap reads :=
  reads_eq rfl

@[simp] theorem reads_conditional (condition yes no : Expr) :
    (conditional pos condition yes no).reads = condition.reads ++ yes.reads ++ no.reads := by
  simp [reads_eq (e := conditional pos condition yes no) rfl, parts]

@[simp] theorem reads_record (shape : Interface) (fields : List Expr) :
    (record pos shape fields).reads = fields.flatMap reads :=
  reads_eq rfl

@[simp] theorem reads_hash (inputs : List Expr) :
    (hash pos inputs).reads = inputs.flatMap reads :=
  reads_eq rfl

end

/-- Signs read nothing. -/
theorem reads_negated (pos : Position) (signs : List Source.Sign) (value : Expr) :
    (Resolve.negated pos signs value).reads = value.reads := by
  induction signs with
  | nil => rfl
  | cons sign signs ih => rw [Resolve.negated_cons, reads_not, ih]

end Expr

namespace Resolve

open Source (Expression Chain Link Operand Postfix Suffix Mention)

variable {scope : Scope}

/-- **What a mention reads**: a constant comes before a local of its name. -/
def readsOf (constants : Table Expr) (m : Mention) : List (Position × String) :=
  match m.role with
  | .head => []
  | .current => [(m.pos, m.name)]
  | .value =>
    match constants.get? m.name with
    | some value => value.reads
    | none => [(m.pos, m.name)]

/-- Steps that are all indices mention what the indices do. -/
theorem mentions_of_indexSuffixes {suffixes : List Suffix} {es : List Expression}
    (h : indexSuffixes? suffixes = some es) :
    Source.suffixMentions suffixes = Source.eachMentions es := by
  induction suffixes generalizing es with
  | nil =>
    cases h
    rfl
  | cons suffix suffixes ih =>
    cases suffix with
    | member => cases h
    | call => cases h
    | index pos e =>
      obtain ⟨rest, hrest, rfl⟩ := Option.map_eq_some_iff.1 h
      rw [Source.suffixMentions, Source.eachMentions, ih hrest]

attribute [local simp] Source.Postfix.mentions Source.Primary.mentions Source.suffixMentions
  Source.eachMentions

mutual
/-- **An expression reads what its mentions read.** -/
theorem Denotes.reads_eq : ∀ {e : Expression} {v : Expr}, Denotes scope e v →
    v.reads = e.mentions.flatMap (readsOf scope.constants)
  | _, _, .chain h => h.reads_eq
  | _, _, .choice hcondition hyes hno => by
    simp [Expression.mentions, hcondition.reads_eq, hyes.reads_eq, hno.reads_eq]

/-- **A chain reads what the names in it stand for**, operand by operand. -/
theorem DenotesChain.reads_eq : ∀ {c : Chain} {v : Expr}, DenotesChain scope c v →
    v.reads = c.mentions.flatMap (readsOf scope.constants)
  | _, _, .tree hfirst hlinks => by
    rw [collect_operatorTree Expr.reads Expr.reads_binary, hfirst.reads_eq, hlinks.reads_eq,
      Chain.mentions, List.flatMap_append]

/-- The operands behind the operators read in the order in which they stand. -/
theorem DenotesLinks.reads_eq : ∀ {ls : List Link} {vs : List OperatorLink},
    DenotesLinks scope ls vs →
    vs.flatMap (fun link => link.operand.reads) =
      (Source.linkMentions ls).flatMap (readsOf scope.constants)
  | _, _, .nil => rfl
  | _, _, .cons h hrest => by
    rw [List.flatMap_cons, Source.linkMentions, List.flatMap_append, h.reads_eq, hrest.reads_eq]

/-- An operand reads what the names behind its signs stand for. -/
theorem DenotesOperand.reads_eq : ∀ {o : Operand} {v : Expr}, DenotesOperand scope o v →
    v.reads = o.mentions.flatMap (readsOf scope.constants)
  | _, _, .signed h _ => by rw [Expr.reads_negated, h.reads_eq, Operand.mentions]

/-- **Names and steps read what they mention**: a local itself, a constant what it is made of; in
front of further steps only locals are read. -/
theorem DenotesPostfix.reads_eq : ∀ {p : Postfix} {v : Expr}, DenotesPostfix scope p v →
    v.reads = p.mentions.flatMap (readsOf scope.constants)
  | _, _, .this => rfl
  | _, _, .property => rfl
  | _, _, .ownCall h => by simp [h.reads_eq]
  | _, _, .length _ => rfl
  | _, _, .propertyCall h => by simp [h.reads_eq]
  | _, _, .entry hindices h _ => by
    rw [Expr.reads_entry, h.reads_eq, ← mentions_of_indexSuffixes hindices]
    rfl
  | _, _, .constant h => by simp [readsOf, h]
  | _, _, .variable hconstant _ => by simp [readsOf, hconstant]
  | _, _, .environment _ _ _ => rfl
  | _, _, .hash _ _ h => by simp [readsOf, h.reads_eq]
  | _, _, .external _ _ _ h => by simp [readsOf, h.reads_eq]
  | _, _, .externalCall _ _ _ h hargs => by simp [readsOf, h.reads_eq, hargs.reads_eq]
  | _, _, .creation _ h => by simp [h.reads_eq]
  | _, _, .number h => by
    obtain ⟨n, -, -, rfl⟩ := number_eq_ok.1 h
    rfl
  | _, _, .text h => by
    obtain ⟨-, rfl⟩ | ⟨-, -, rfl⟩ := text_eq_ok.1 h <;> rfl
  | _, _, .truth => rfl
  | _, _, .parens h => by simp [h.reads_eq]

/-- Several expressions read one after the other. -/
theorem DenotesEach.reads_eq : ∀ {es : List Expression} {vs : List Expr},
    DenotesEach scope es vs →
    vs.flatMap Expr.reads = (Source.eachMentions es).flatMap (readsOf scope.constants)
  | _, _, .nil => rfl
  | _, _, .cons h hrest => by
    rw [List.flatMap_cons, Source.eachMentions, List.flatMap_append, h.reads_eq, hrest.reads_eq]
end

end Resolve

end Covenant
