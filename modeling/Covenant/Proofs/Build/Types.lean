import Covenant.Proofs.Events.Declarations
import Covenant.Proofs.Literals.Programs

/-!
# Which types are written

An annotation stands for nothing, a word, an array, a mapping from words to a word, or a record of
an interface that is in scope. Each place that takes a type then refuses what it has no use for, so
that the members of a contract only have types which can be stored, passed and returned
(`contract_supported`).
-/

namespace Covenant

/-! ## Types that have a use -/

/-- A record whose fields are words. -/
def Shape.OfWords (shape : Interface) : Prop :=
  ∀ field ∈ shape.fields, field.type.isWord

namespace Ty

/-- **What a variable can hold**: a word, an array of words, or a mapping from one word or more to
a word. -/
inductive Stored : Ty → Prop
  | word {t} (h : isWord t) : Stored t
  | array {item} (h : isWord item) : Stored (.array item)
  | mapping {key keys value} (hkeys : ∀ k ∈ key :: keys, isWord k) (hvalue : isWord value) :
      Stored (.mapping (key :: keys) value)

/-- **What a method can return**: nothing, a word, or a record of words. -/
inductive Returned : Ty → Prop
  | void : Returned .void
  | word {t} (h : isWord t) : Returned t
  | record {shape} (h : shape.OfWords) : Returned (.record shape)

/-- **What an annotation can stand for** where some interfaces are in scope. -/
inductive Written (interfaces : Table Interface) : Ty → Prop
  | void : Written interfaces .void
  | word {t} (h : isWord t) : Written interfaces t
  | array {item} : Written interfaces (.array item)
  | mapping {key keys value} (hkeys : ∀ k ∈ key :: keys, isWord k) (hvalue : isWord value) :
      Written interfaces (.mapping (key :: keys) value)
  | record {name shape} (h : (name, shape) ∈ interfaces) : Written interfaces (.record shape)

/-- What the type of an expression can be found to be. -/
def Inferred (t : Ty) : Prop :=
  t.Stored ∨ ∃ shape, t = .record shape

theorem isVoid_eq_false_of_isWord {t : Ty} (h : isWord t) : isVoid t = false := by
  cases t <;> first | rfl | cases h

theorem Inferred.of_mapping {keys : List Ty} {value : Ty} (h : (mapping keys value).Inferred) :
    value.isWord := by
  obtain ⟨h | _⟩ | ⟨_, h⟩ := h
  · cases h
  · assumption
  · cases h

theorem Inferred.of_array {item : Ty} (h : (array item).Inferred) : item.isWord := by
  obtain ⟨h | _⟩ | ⟨_, h⟩ := h
  · cases h
  · assumption
  · cases h

theorem Inferred.isVoid_eq_false {t : Ty} (h : t.Inferred) : t.isVoid = false := by
  rcases h with h | ⟨shape, rfl⟩
  · cases h with
    | word h => exact isVoid_eq_false_of_isWord h
    | array h | mapping => rfl
  · rfl

end Ty

/-- A variable has a type that can be stored, and a word if it is read-only or starts with a
value. -/
structure StateVar.Supported (v : StateVar) : Prop where
  stored : v.type.Stored
  word : v.immutable ∨ v.initial.isSome → v.type.isWord

/-- A method takes words and has a result that can be returned. -/
structure Routine.Supported (m : Routine) : Prop where
  params : ∀ p ∈ m.params, p.type.isWord
  returns : m.returns.Returned

/-- **A contract only has types that can be stored, passed and returned.** -/
structure Contract.Supported (c : Contract) : Prop where
  stateVars : ∀ v ∈ c.stateVars, v.Supported
  constructorParams : ∀ p ∈ c.constructorParams, p.type.isWord
  methods : ∀ m ∈ c.methods, m.Supported
  events : ∀ e ∈ c.events, ∀ p ∈ e.params, p.type.isWord

namespace Resolve

open Ty (Stored Returned Written)

variable {scope : Scope}

/-! ## Annotations -/

theorem arrayOf_written {interfaces : Table Interface} {fault : Fault} {item t : Ty}
    {dimensions : Nat} (hitem : Written interfaces item)
    (h : arrayOf fault item dimensions = .ok t) : Written interfaces t := by
  induction dimensions generalizing item with
  | zero =>
    cases h
    exact hitem
  | succ dimensions ih =>
    rw [arrayOf] at h
    split at h
    · cases h
    · exact ih .array h

/-- A mapping in the place of the value adds its keys. -/
theorem mappingOf_written {interfaces : Table Interface} {fault : Fault} {key value t : Ty}
    (hkey : key.isWord) (hvalue : Written interfaces value)
    (h : mappingOf fault key value = .ok t) : Written interfaces t := by
  have hkeys : ∀ k ∈ [key], k.isWord := List.forall_mem_singleton.2 hkey
  cases hvalue with
  | mapping hkeys hvalue =>
    cases h
    exact .mapping (List.forall_mem_cons.2 ⟨hkey, hkeys⟩) hvalue
  | word hvalue =>
    cases value <;> cases hvalue <;> cases h <;> exact .mapping hkeys rfl
  | _ => cases h

theorem declaredType_written {pos : Position} {name : String} {t : Ty}
    (h : declaredType scope pos name = .ok t) : Written scope.interfaces t := by
  rw [declaredType] at h
  split at h
  · cases h
    exact .record (Table.mem_of_get? ‹_›)
  · split at h
    · cases h
      exact .word rfl
    · cases h

/-- An annotation stands for its base with its dimensions; a text may turn out to be an address. -/
theorem dimensions_written {interfaces : Table Interface} {fault : Fault} {dimensions : Nat}
    (literal : String) {base t : Ty} (hbase : Written interfaces base)
    (h : (match base with
      | .text =>
        if dimensions = 0 && isAddressLiteral literal then (.ok (.address none) : Except Fault Ty)
        else arrayOf fault base dimensions
      | _ => arrayOf fault base dimensions) = .ok t) : Written interfaces t := by
  split at h
  · split at h
    · cases h
      exact .word rfl
    · exact arrayOf_written hbase h
  · exact arrayOf_written hbase h

mutual
/-- **A type that resolves is one that can be written**, by induction on it. -/
theorem resolveType_written (literal : String) : ∀ {written : Source.TypeRef} {t : Ty},
    resolveType scope literal written = .ok t → Written scope.interfaces t
  | .mk pos name arguments dimensions, t, h => by
    have heach := @resolveEach_written arguments
    rw [resolveType, check_eq_ok] at h
    obtain ⟨-, h⟩ := h
    dsimp only at h
    split at h
    -- events are no types of values
    case h_7 => cases h
    -- a mapping, with a word for its key
    case h_8 key value keyType valueType hresults =>
      rw [hresults, List.forall_mem_cons, List.forall_mem_singleton] at heach
      obtain ⟨k, -, h⟩ := bind_eq_ok.1 h
      obtain ⟨hkey, h⟩ := check_eq_ok.1 h
      obtain ⟨v, hv, h⟩ := bind_eq_ok.1 h
      obtain ⟨base, hbase, h⟩ := bind_eq_ok.1 h
      have hkey : k.isWord := by simpa using hkey
      exact dimensions_written literal (mappingOf_written hkey (heach.2 v hv) hbase) h
    -- an array
    case h_9 =>
      obtain ⟨item, -, h⟩ := bind_eq_ok.1 h
      obtain ⟨base, hbase, h⟩ := bind_eq_ok.1 h
      refine dimensions_written literal ?_ h
      cases pure_eq_ok.1 hbase
      exact .array
    -- the name of an interface or of a class
    case h_10 =>
      obtain ⟨base, hbase, h⟩ := bind_eq_ok.1 h
      exact dimensions_written literal (declaredType_written hbase) h
    -- what is left are the names of the language, each of a word but for the one of no value
    all_goals
      obtain ⟨base, hbase, h⟩ := bind_eq_ok.1 h
      refine dimensions_written literal ?_ h
      cases pure_eq_ok.1 hbase
    case h_4 => exact .void
    all_goals exact .word rfl

theorem resolveEach_written : ∀ {written : List Source.TypeRef},
    ∀ result ∈ resolveEach scope written, ∀ t, result = .ok t → Written scope.interfaces t
  | [] => fun _ h => (nomatch h)
  | _ :: _ => List.forall_mem_cons.2 ⟨fun _ => resolveType_written "", resolveEach_written⟩
end

/-! ## Inferred types -/

/-- **Some interfaces are of words, and so are the literals of some constants.** -/
structure HoldWords (interfaces : Table Interface) (constants : Table Expr) : Prop where
  interfaces : ∀ entry ∈ interfaces, entry.2.OfWords
  constants : ∀ entry ∈ constants, Literals (fun type _ => type.isWord) entry.2.leaves

theorem admits_words {constants : Table Expr}
    (h : ∀ entry ∈ constants, Literals (fun type _ => type.isWord) entry.2.leaves) :
    Admits (fun type _ => type.isWord) constants where
  number _ _ := rfl
  address _ _ := rfl
  text _ _ := rfl
  truth _ := rfl
  asBytes _ _ := rfl
  asAddress _ _ _ := rfl
  constants := h

/-- What is found in a table of words is a word, and a number stands for what is not found. -/
theorem isWord_getD {locals : Table Ty} (hlocals : ∀ entry ∈ locals, entry.2.isWord)
    (name : String) : ((locals.get? name).getD .number).isWord := by
  cases h : locals.get? name with
  | none => rfl
  | some t => exact hlocals _ (Table.mem_of_get? h)

/-- **Every type that is found for an expression has a use**, where those of the properties do and
the locals and literals are words. -/
theorem typeOf_inferred (hlocals : ∀ entry ∈ scope.locals, entry.2.isWord)
    (hproperties : ∀ entry ∈ scope.properties, entry.2.Inferred) {e : Expr}
    (h : Literals (fun type _ => type.isWord) e.leaves) : (typeOf scope e).Inferred := by
  have hword {t : Ty} (h : t.isWord) : t.Inferred := .inl (.word h)
  have hfound (name : String) : ((scope.properties.get? name).getD .number).Inferred := by
    cases h : scope.properties.get? name with
    | none => exact hword rfl
    | some t => exact hproperties _ (Table.mem_of_get? h)
  induction e using Expr.induction with
  | h e ih =>
    cases e with
    | literal pos type text => exact hword (h _ _ _ (List.mem_singleton.2 rfl))
    | var pos x => exact hword (isWord_getD hlocals x)
    | storage pos x => exact hfound x
    | entry pos x indices =>
      rw [typeOf]
      split
      · exact hword (hproperties _ (Table.mem_of_get? ‹_›)).of_mapping
      · exact hword (hproperties _ (Table.mem_of_get? ‹_›)).of_array
      · exact hword rfl
    | binary pos op left right =>
      rw [typeOf]
      split <;> exact hword rfl
    -- the type of a conditional is that of its first side
    | conditional pos condition yes no =>
      rw [Expr.leaves_of_parts_ne_nil (by simp [Expr.parts]), Literals.flatMap] at h
      exact ih yes (by simp [Expr.parts]) (h yes (by simp [Expr.parts]))
    | environment pos space x =>
      rw [typeOf]
      split <;> exact hword rfl
    | record pos shape fields => exact .inr ⟨shape, rfl⟩
    | _ => exact hword rfl

/-! ## Interfaces and events -/

theorem interfaceFields_words {interface : String} {seen : List String}
    {fields : List Source.InterfaceField} {params : List Parameter}
    (h : interfaceFields scope interface seen fields = .ok params) :
    ∀ p ∈ params, p.type.isWord := by
  induction fields generalizing seen params with
  | nil =>
    cases h
    exact fun _ h => (nomatch h)
  | cons f rest ih =>
    rw [interfaceFields, check_eq_ok] at h
    obtain ⟨type, -, h⟩ := bind_eq_ok.1 h.2
    obtain ⟨hword, h⟩ := check_eq_ok.1 h
    obtain ⟨others, hothers, h⟩ := bind_eq_ok.1 h
    cases pure_eq_ok.1 h
    exact List.forall_mem_cons.2 ⟨by simpa using hword, ih hothers⟩

/-- **Every interface that a file declares is one of words.** -/
theorem interfaces_ofWords {program : Source.Program} {table : Table Interface}
    (h : interfaces scope program = .ok table) : ∀ entry ∈ table, entry.2.OfWords := by
  rw [interfaces] at h
  dsimp only at h
  split at h
  · cases h
  · obtain ⟨resolved, hresolved, h⟩ := bind_eq_ok.1 h
    cases pure_eq_ok.1 h
    rw [List.forall_mem_map]
    intro shape hshape
    obtain ⟨d, -, hd⟩ := exists_of_mem_right (mapM_eq_ok.1 hresolved) hshape
    obtain ⟨fields, hfields, hd⟩ := bind_eq_ok.1 hd
    cases pure_eq_ok.1 hd
    exact interfaceFields_words hfields

theorem eventOf_ofWords (hscope : ∀ entry ∈ scope.interfaces, entry.2.OfWords)
    {property : Source.Property} {e : Event} (h : eventOf scope property = some (.ok e)) :
    e.shape.OfWords := by
  unfold eventOf at h
  split at h
  · split at h
    · split at h
      · cases h
        exact hscope _ (Table.mem_of_get? ‹_›)
      · cases h
    · cases h
  · cases h

theorem ownEvents_ofWords (hscope : ∀ entry ∈ scope.interfaces, entry.2.OfWords)
    {c : Source.ClassDecl} {events : List Event} (h : ownEvents scope c = .ok events) :
    ∀ e ∈ events, e.shape.OfWords := by
  intro e he
  have hmem : .ok e ∈ c.members.filterMap fun m => (propertyOf? m).bind (eventOf scope) := by
    rw [sequence_eq_ok.1 h]
    exact List.mem_map_of_mem he
  obtain ⟨m, -, hm⟩ := List.mem_filterMap.1 hmem
  obtain ⟨property, -, hevent⟩ := Option.bind_eq_some_iff.1 hm
  exact eventOf_ofWords hscope hevent

/-! ## Methods -/

theorem parameters_words {ps : List Source.Param} {params : List Parameter} {inner : Scope}
    (h : parameters ps scope = .ok (params, inner)) : ∀ p ∈ params, p.type.isWord := by
  induction ps generalizing scope params with
  | nil =>
    cases h
    exact fun _ h => (nomatch h)
  | cons p rest ih =>
    obtain ⟨-, type, -, hword, others, hothers, rfl⟩ := parameters_cons_eq_ok.1 h
    exact List.forall_mem_cons.2 ⟨hword, ih hothers⟩

/-- The locals of a body are words, where its parameters are all of them. -/
theorem parameters_locals {ps : List Source.Param} {params : List Parameter} {inner : Scope}
    (hscope : ∀ entry ∈ scope.locals, entry.2.isWord)
    (h : parameters ps scope = .ok (params, inner)) : ∀ entry ∈ inner.locals, entry.2.isWord := by
  induction ps generalizing scope params with
  | nil =>
    cases h
    exact hscope
  | cons p rest ih =>
    obtain ⟨-, type, -, hword, others, hothers, rfl⟩ := parameters_cons_eq_ok.1 h
    have hlocals : ∀ entry ∈ (scope.withLocal p.name type).locals, entry.2.isWord :=
      List.forall_mem_cons.2 ⟨hword, hscope⟩
    exact ih hlocals hothers

theorem returnType_returned (hscope : ∀ entry ∈ scope.interfaces, entry.2.OfWords)
    {written : Option Source.TypeRef} {t : Ty} (h : returnType scope written = .ok t) :
    t.Returned := by
  obtain ⟨type, htype, h⟩ := bind_eq_ok.1 h
  cases written with
  | none =>
    cases htype
    cases h
    exact .void
  | some node =>
    cases resolveType_written "" htype with
    | void =>
      cases h
      exact .void
    | word hword =>
      cases type <;> cases hword <;> cases h <;> exact .word rfl
    | array | mapping => cases h
    | record hmem =>
      cases h
      exact .record (hscope _ hmem)

/-- An object literal denotes nothing by itself. -/
theorem not_denotes_of_soleObject {e : Source.Expression} {pos : Position}
    {fields : List Source.ObjectField} {v : Expr} (hobject : soleObject? e = some (pos, fields)) :
    ¬Denotes scope e v := by
  intro h
  unfold soleObject? at hobject
  split at hobject
  · rename_i hsole
    cases (denotes_of_soleOperand hsole).1 h
  · cases hobject

/-- **A value that is returned is a word**, whatever was found to be its type. -/
theorem isWord_of_returns {returns : Ty} {pos : Position} {e : Source.Expression} {v : Expr}
    {next : Nat} {r : Resolved} (hv : Denotes scope e v)
    (h : statement returns (.returns pos (some e)) scope next = .ok r) : returns.isWord := by
  rw [← body_singleton] at h
  cases body_eq_ok.1 h with
  | plain hstates =>
    cases hstates with
    | exitWord hword => exact hword
    | exitRecord _ hobject => exact absurd hv (not_denotes_of_soleObject hobject)

theorem routine_supported (hscope : HoldWords scope.interfaces scope.constants)
    {next next' : Nat} {visibility : Visibility} {m : Source.Method} {own : Routine}
    (h : routine scope next visibility m = .ok (own, next')) : own.Supported := by
  obtain ⟨⟨params, inner⟩, hparams, h⟩ := bind_eq_ok.1 h
  obtain ⟨returns, hreturns, h⟩ := bind_eq_ok.1 h
  obtain ⟨r, -, h⟩ := bind_eq_ok.1 h
  cases pure_eq_ok.1 h
  exact ⟨parameters_words hparams, returnType_returned hscope.interfaces hreturns⟩

/-- **An arrow function has a result that can be returned**, written or not: without a written one
it returns the word that its expression is, as an expression always has a type. -/
theorem arrowRoutine_supported (hscope : HoldWords scope.interfaces scope.constants)
    (hproperties : ∀ entry ∈ scope.properties, entry.2.Inferred) {next next' : Nat}
    {visibility : Visibility} {property : Source.Property} {arrow : Source.Arrow} {own : Routine}
    (h : arrowRoutine scope next visibility property arrow = .ok (own, next')) :
    own.Supported := by
  obtain ⟨⟨params, inner⟩, hparams, h⟩ := bind_eq_ok.1 h
  have hwords := parameters_words hparams
  dsimp only at h
  split at h
  · obtain ⟨returns, hreturns, h⟩ := bind_eq_ok.1 h
    obtain ⟨r, -, h⟩ := bind_eq_ok.1 h
    cases h
    exact ⟨hwords, returnType_returned hscope.interfaces hreturns⟩
  · split at h
    · obtain ⟨returns, hreturns, h⟩ := bind_eq_ok.1 h
      obtain ⟨r, -, h⟩ := bind_eq_ok.1 h
      cases h
      exact ⟨hwords, returnType_returned hscope.interfaces hreturns⟩
    · obtain ⟨v, hv, h⟩ := bind_eq_ok.1 h
      obtain ⟨returns, hreturns, h⟩ := bind_eq_ok.1 h
      obtain ⟨r, hr, h⟩ := bind_eq_ok.1 h
      cases pure_eq_ok.1 hreturns
      cases h
      have hv := denotes_of_expression hv
      have hinner : inner.withoutLocals = scope.withoutLocals :=
        (parameters_withoutLocals hparams :)
      injection hinner with _ hconstants _ _ hproperty _
      have hinferred : (typeOf inner v).Inferred := by
        refine typeOf_inferred (parameters_locals (by simp [Scope.withoutLocals]) hparams) ?_ ?_
        · rwa [hproperty]
        · exact hv.literals (admits_words (by rw [hconstants]; exact hscope.constants))
      rw [hinferred.isVoid_eq_false] at hr
      exact ⟨hwords, .word (isWord_of_returns hv hr)⟩

/-! ## Variables -/

/-- The property of a member that holds data. -/
def dataProperty? (m : Source.ClassMember) : Option Source.Property :=
  (propertyOf? m).filter fun property => !(isEventType property.type || isArrow property)

theorem dataProperty?_eq_some {m : Source.ClassMember} {property : Source.Property}
    (hbody : m.body = .property property) (hevent : isEventType property.type = false)
    (harrow : isArrow property = false) : dataProperty? m = some property := by
  simp [dataProperty?, propertyOf?, hbody, hevent, harrow]

/-- Only the properties that hold data have a type. -/
theorem propertyTypes_cons (m : Source.ClassMember) (rest : List Source.ClassMember)
    (types : Table Ty) :
    propertyTypes scope (m :: rest) types =
      match dataProperty? m with
      | none => propertyTypes scope rest types
      | some property =>
        propertyType { scope with properties := types } property >>= fun type =>
          propertyTypes scope rest (types.put property.name type) := by
  rw [propertyTypes, dataProperty?]
  cases propertyOf? m with
  | none => rfl
  | some property =>
    cases h : isEventType property.type || isArrow property <;> simp [h, Option.filter]

/-- What may be stored is a word, or keys and items that are. -/
theorem stored_of_isStorable {t : Ty} (hwritten : Written scope.interfaces t)
    (h : isStorable t) : t.Stored := by
  cases hwritten with
  | void | record => cases h
  | word hword => exact .word hword
  | array => exact .array h
  | mapping hkeys hvalue => exact .mapping hkeys hvalue

/-- A property can be stored by its type, or starts with a value that has yet to be looked at. -/
def HasType (property : Source.Property) (t : Ty) : Prop :=
  t.Stored ∨ ∃ e, property.initializer = some (.value e)

/-- The type of a property is the written one, which can be stored, or that of its initial value. -/
theorem propertyType_eq_ok {property : Source.Property} {t : Ty}
    (h : propertyType scope property = .ok t) :
    t.Stored ∨ (∃ e v, property.initializer = some (.value e) ∧ Denotes scope e v ∧
      t = typeOf scope v) := by
  rw [propertyType.eq_def] at h
  split at h
  · obtain ⟨type, htype, h⟩ := bind_eq_ok.1 h
    split at h
    · cases pure_eq_ok.1 h
      exact .inl (stored_of_isStorable (resolveType_written _ htype) ‹_›)
    · cases h
  · obtain ⟨v, hv, h⟩ := bind_eq_ok.1 h
    cases pure_eq_ok.1 h
    exact .inr ⟨_, v, ‹_›, denotes_of_expression hv, rfl⟩
  · cases h

/-- The types of the properties of a class can all be inferred. -/
theorem propertyTypes_inferred (hscope : HoldWords scope.interfaces scope.constants)
    (hlocals : scope.locals = []) {members : List Source.ClassMember} {types table : Table Ty}
    (htypes : ∀ entry ∈ types, entry.2.Inferred)
    (h : propertyTypes scope members types = .ok table) : ∀ entry ∈ table, entry.2.Inferred := by
  induction members generalizing types with
  | nil =>
    cases h
    exact htypes
  | cons m rest ih =>
    rw [propertyTypes_cons] at h
    split at h
    · exact ih htypes h
    · obtain ⟨t, ht, h⟩ := bind_eq_ok.1 h
      refine ih (List.forall_mem_cons.2 ⟨?_, htypes⟩) h
      rcases propertyType_eq_ok ht with hstored | ⟨e, v, -, hv, rfl⟩
      · exact .inl hstored
      · have hadmits := admits_words hscope.constants
        refine typeOf_inferred ?_ htypes (Denotes.literals (by exact hadmits) hv)
        rw [hlocals]
        exact fun _ h => (nomatch h)

theorem takenName?_of_data {m : Source.ClassMember} {property : Source.Property}
    (h : dataProperty? m = some property) : takenName? m = some property.name := by
  obtain ⟨hproperty, hdata⟩ := Option.filter_eq_some_iff.1 h
  unfold propertyOf? at hproperty
  split at hproperty
  · cases hproperty
    simp_all [takenName?]
  · cases hproperty

theorem propertyTypes_get?_of_not_mem {members : List Source.ClassMember} {types table : Table Ty}
    (h : propertyTypes scope members types = .ok table) {name : String}
    (hname : name ∉ members.filterMap takenName?) : table.get? name = types.get? name := by
  induction members generalizing types with
  | nil =>
    cases h
    rfl
  | cons m rest ih =>
    have hrest : name ∉ rest.filterMap takenName? := fun hmem => hname <| by
      obtain ⟨m', hm', hname'⟩ := List.mem_filterMap.1 hmem
      exact List.mem_filterMap.2 ⟨m', List.mem_cons_of_mem _ hm', hname'⟩
    rw [propertyTypes_cons] at h
    split at h
    · exact ih h hrest
    · rename_i property hdata
      obtain ⟨t, -, h⟩ := bind_eq_ok.1 h
      have hne : name ≠ property.name := fun heq => hname <|
        List.mem_filterMap.2 ⟨m, List.mem_cons_self, heq ▸ takenName?_of_data hdata⟩
      rw [ih h hrest, Table.put, Table.get?_cons, if_neg hne]

/-- The type of a property is the one it is declared with, or that of its value. -/
theorem hasType_of_propertyType {property : Source.Property} {t : Ty}
    (h : propertyType scope property = .ok t) : HasType property t := by
  rcases propertyType_eq_ok h with hstored | ⟨e, v, hinitial, -, -⟩
  · exact .inl hstored
  · exact .inr ⟨e, hinitial⟩

/-- **Where no name is taken twice, each property that holds data has the type found for it.** -/
theorem propertyTypes_get? {members : List Source.ClassMember} {types table : Table Ty}
    (h : propertyTypes scope members types = .ok table)
    (hnames : (members.filterMap takenName?).Nodup) {m : Source.ClassMember} (hm : m ∈ members)
    {property : Source.Property} (hdata : dataProperty? m = some property) :
    ∃ t, table.get? property.name = some t ∧ HasType property t := by
  induction members generalizing types with
  | nil => cases hm
  | cons first rest ih =>
    rw [propertyTypes_cons] at h
    rcases List.mem_cons.1 hm with rfl | hm
    · rw [hdata] at h
      obtain ⟨t, ht, h⟩ := bind_eq_ok.1 h
      rw [List.filterMap_cons_some (takenName?_of_data hdata), List.nodup_cons] at hnames
      refine ⟨t, ?_, hasType_of_propertyType ht⟩
      rw [propertyTypes_get?_of_not_mem h hnames.1, Table.put, Table.get?_cons, if_pos rfl]
    · have hrest : (rest.filterMap takenName?).Nodup := by
        cases hfirst : takenName? first with
        | none => rwa [List.filterMap_cons_none hfirst] at hnames
        | some name =>
          rw [List.filterMap_cons_some hfirst, List.nodup_cons] at hnames
          exact hnames.2
      split at h
      · exact ih h hrest hm
      · obtain ⟨t, -, h⟩ := bind_eq_ok.1 h
        exact ih h hrest hm

theorem stateVar_supported {modifiers : List Source.Modifier} {property : Source.Property}
    {t : Ty} {v : StateVar} (hfound : scope.properties.get? property.name = some t)
    (htype : HasType property t)
    (h : stateVar scope modifiers property = .ok v) : v.Supported := by
  rw [stateVar, hfound, Option.getD_some, check_eq_ok] at h
  obtain ⟨hreadonly, h⟩ := h
  have hreadonly : modifiers.contains .readonlyWord = true → t.isWord := by
    simpa [or_iff_not_imp_left] using hreadonly
  split at h
  · rw [check_eq_ok] at h
    obtain ⟨hword, h⟩ := h
    have hword : t.isWord := by simpa using hword
    obtain ⟨initial, -, h⟩ := bind_eq_ok.1 h
    rw [check_eq_ok] at h
    cases pure_eq_ok.1 h.2
    exact ⟨.word hword, fun _ => hword⟩
  · rename_i hnone
    cases pure_eq_ok.1 h
    refine ⟨?_, ?_⟩
    · exact htype.resolve_right fun hvalue => hvalue.elim hnone
    · rintro (himmutable | hinitial)
      · exact hreadonly himmutable
      · cases hinitial

/-! ## Classes -/

variable {c : Source.ClassDecl}

/-- **A member adds only types that have a use.** -/
theorem MemberResolved.supported {p q : PartialClass} {m : Source.ClassMember}
    (h : MemberResolved scope p m q) (hscope : HoldWords scope.interfaces scope.constants)
    (hproperties : ∀ entry ∈ scope.properties, entry.2.Inferred)
    (hdata : ∀ property, dataProperty? m = some property →
      ∃ t, scope.properties.get? property.name = some t ∧ HasType property t)
    (hp : p.contract.Supported) : q.contract.Supported := by
  obtain ⟨hvars, hconstruction, hmethods, hevents⟩ := hp
  have hmethod (own : Routine) (hown : own.Supported) :
      ∀ m ∈ p.contract.methods ++ [own], m.Supported :=
    List.forall_mem_append.2 ⟨hmethods, List.forall_mem_singleton.2 hown⟩
  cases h with
  | construction hbody hown =>
    obtain ⟨⟨params, inner⟩, hparams, hown⟩ := bind_eq_ok.1 hown
    obtain ⟨r, -, hown⟩ := bind_eq_ok.1 hown
    cases pure_eq_ok.1 hown
    exact ⟨hvars, parameters_words hparams, hmethods, hevents⟩
  | event => exact ⟨hvars, hconstruction, hmethods, hevents⟩
  | method hbody hclaim hown =>
    obtain ⟨-, rfl⟩ := claim_eq_ok.1 hclaim
    exact ⟨hvars, hconstruction, hmethod _ (routine_supported hscope hown), hevents⟩
  | arrow hbody hevent hclaim harrow hown =>
    obtain ⟨-, rfl⟩ := claim_eq_ok.1 hclaim
    exact ⟨hvars, hconstruction, hmethod _ (arrowRoutine_supported hscope hproperties hown),
      hevents⟩
  | data hbody hevent hclaim harrow hv =>
    obtain ⟨-, rfl⟩ := claim_eq_ok.1 hclaim
    obtain ⟨t, hfound, htype⟩ := hdata _ (dataProperty?_eq_some hbody hevent harrow)
    exact ⟨List.forall_mem_append.2 ⟨hvars,
      List.forall_mem_singleton.2 (stateVar_supported hfound htype hv)⟩, hconstruction, hmethods,
      hevents⟩

/-- **The contract of a class only has types that can be stored, passed and returned.** -/
theorem contract_supported {next next' : Nat} {file : String} {k : Contract}
    (hscope : HoldWords scope.interfaces scope.constants) (hlocals : scope.locals = [])
    (h : contract scope next file c = .ok (k, next')) : k.Supported := by
  obtain ⟨events, hevents, h⟩ := bind_eq_ok.1 h
  dsimp only at h
  split at h
  · cases h
  obtain ⟨properties, hproperties, h⟩ := bind_eq_ok.1 h
  obtain ⟨finished, hfinished, h⟩ := bind_eq_ok.1 h
  cases pure_eq_ok.1 h
  have hinferred := propertyTypes_inferred (by exact hscope) (by exact hlocals)
    (fun _ h => absurd h List.not_mem_nil) hproperties
  have hnames := (taken_of_foldlM hfinished ⟨rfl, .nil, .refl _⟩).nodup_members
  have hstart : Contract.Supported
      { pos := c.pos, name := c.name, file, bases := c.bases, events } :=
    ⟨by simp, by simp [Contract.constructorParams], by simp,
      ownEvents_ofWords hscope.interfaces hevents⟩
  refine foldlM_keeps (fun p => p.contract.Supported) (fun m hm p q hp hq => ?_) hstart hfinished
  refine (addMember_eq_ok hq).supported hscope hinferred ?_ hp
  exact fun _ hdata => propertyTypes_get? hproperties hnames hm hdata

end Resolve

namespace Build

open Resolve

/-! ## Files -/

variable {scope : Scope}

/-- The literals of a constant are words, whatever type is written for it. -/
theorem constantValue_typed {interfaces : Table Interface}
    (hscope : HoldWords interfaces scope.constants) {d : Source.ConstantDecl} {v : Expr}
    (h : constantValue scope d = .ok v) :
    Literals (fun type _ => type.isWord) v.leaves := by
  rcases constantValue_literals (admits_words hscope.constants) h with
    ⟨-, pos, type, text, hword, rfl⟩ | hv
  · exact .literal hword
  · exact hv

theorem constants_typed (hscope : HoldWords scope.interfaces scope.constants)
    {ds : List Source.ConstantDecl} {found t : Table Expr}
    (hfound : ∀ entry ∈ found, Literals (fun type _ => type.isWord) entry.2.leaves)
    (h : constants scope ds found = .ok t) :
    ∀ entry ∈ t, Literals (fun type _ => type.isWord) entry.2.leaves := by
  induction ds generalizing found with
  | nil =>
    cases h
    exact hfound
  | cons d ds ih =>
    rw [constants, check_eq_ok] at h
    obtain ⟨v, hv, h⟩ := bind_eq_ok.1 h.2
    have hvisible : HoldWords scope.interfaces (scope.constants.putAll found) :=
      ⟨hscope.interfaces, List.forall_mem_append.2 ⟨hfound, hscope.constants⟩⟩
    exact ih (List.forall_mem_cons.2 ⟨constantValue_typed hvisible hv, hfound⟩) h

/-- What is known of some files holds words. -/
structure KnownInWords (k : Known) : Prop where
  exports : ∀ file ∈ k.exports, HoldWords file.2.interfaces file.2.constants
  scopes : ∀ f ∈ k.files, HoldWords f.scope.interfaces f.scope.constants ∧ f.scope.locals = []

theorem KnownInWords.declareFile {base : Scope} (hbase : HoldWords base.interfaces base.constants)
    (hlocals : base.locals = []) {k k' : Known} {f : SourceFile} (hk : KnownInWords k)
    (h : declareFile base k f = .ok k') : KnownInWords k' := by
  obtain ⟨imported, declared, scope, events, himported, hdeclared, -, rfl⟩ := declareFile_eq_ok h
  obtain ⟨-, hconstants, hinner⟩ := declarations_eq_ok hdeclared
  obtain ⟨hinterfaces, hscope, hnone⟩ := declarations_interfaces hdeclared
  have himports : HoldWords imported.interfaces imported.constants :=
    ⟨imports_interfaces _ (fun file hfile => (hk.exports file hfile).interfaces)
        hbase.interfaces himported,
      imports_constants (fun e => Literals (fun type _ => type.isWord) e.leaves)
        (fun file hfile => (hk.exports file hfile).constants) hbase.constants himported⟩
  have hown := interfaces_ofWords hinterfaces
  have hall : ∀ entry ∈ scope.interfaces, entry.2.OfWords := by
    rw [hscope]
    exact List.forall_mem_append.2 ⟨hown, himports.interfaces⟩
  have hvisible : HoldWords scope.interfaces imported.constants := ⟨hall, himports.constants⟩
  have hvalues := constants_typed (by exact hvisible) (fun _ h => absurd h List.not_mem_nil)
    hconstants
  refine ⟨List.forall_mem_cons.2 ⟨⟨hown, hvalues⟩, hk.exports⟩, List.forall_mem_append.2
    ⟨hk.scopes, List.forall_mem_singleton.2 ⟨⟨hall, ?_⟩, ?_⟩⟩⟩
  · rw [hinner]
    exact List.forall_mem_append.2 ⟨hvalues, himports.constants⟩
  · rw [hnone, imports_locals himported, hlocals]

/-- **Every accepted contract only has types that can be stored, passed and returned**: whatever
file its class is in, and whichever events it inherits. The fields of every interface are words. -/
theorem contracts_supported {files : List SourceFile} {known : Known}
    (h : files.foldlM (declareFile (baseScope files)) {} = .ok known) :
    (∀ file ∈ known.exports, ∀ entry ∈ file.2.interfaces, entry.2.OfWords) ∧
      ∀ f ∈ known.files, (∀ entry ∈ f.scope.interfaces, entry.2.OfWords) ∧
        ∀ c events next k next',
          contract { f.scope with events } next f.path c = .ok (k, next') → k.Supported := by
  have hbase : HoldWords (baseScope files).interfaces (baseScope files).constants :=
    ⟨fun _ h => (nomatch h), fun _ h => (nomatch h)⟩
  have hknown : KnownInWords known :=
    foldlM_keeps KnownInWords (fun _ _ _ _ hk => hk.declareFile hbase rfl)
      ⟨fun _ h => absurd h List.not_mem_nil, fun _ h => absurd h List.not_mem_nil⟩ h
  refine ⟨fun file hfile => (hknown.exports file hfile).interfaces, fun f hf => ?_⟩
  obtain ⟨htyped, hlocals⟩ := hknown.scopes f hf
  refine ⟨htyped.interfaces, fun c events next k next' hk => ?_⟩
  exact contract_supported (by exact htyped) (by exact hlocals) hk

/-! ## A market -/

/-- A property without an initial value. -/
def bareMember (modifiers : List Source.Modifier) (name : String) (type : Source.TypeRef) :
    Source.ClassMember :=
  ⟨{}, modifiers, .property { pos := {}, name, type := some type, initializer := none }⟩

/-- The interface `Sale`, which other files import. -/
def salesFile : SourceFile where
  path := "sales.ts"
  program :=
    { pos := {}, elements := [interfaceElement "Sale" [("buyer", "address"), ("price", "number")]] }
  imports := []

/-- The members of a market: variables of every kind of type, a constructor, a method that returns
an object literal, and an arrow function without a written result. -/
def marketMembers : List Source.ClassMember :=
  let word (name : String) : Source.TypeRef := .mk {} name [] 0
  let property (name : String) : Source.Expression := operand (.this {}) [.member {} name]
  [bareMember [.readonlyWord] "owner" (word "address"),
    bareMember [] "stock" (.mk {} "Record" [word "number",
      .mk {} "Record" [word "address", word "boolean"] 0] 0),
    bareMember [] "bids" (.mk {} "number" [] 1),
    ⟨{}, [], .property
      { pos := {}
        name := "fee"
        type := none
        initializer := some (.value (primary (.number {} "3"))) }⟩,
    bareMember [] "Sold" (.mk {} "Event" [word "Sale"] 0),
    ⟨{}, [], .constructor
      { pos := {}, params := [⟨{}, "first", word "address"⟩], body := ⟨{}, []⟩ }⟩,
    ⟨{}, [], .method
      { pos := {}
        name := "last"
        params := []
        returns := some (word "Sale")
        body := ⟨{}, [.returns {} (some (primary (.object {}
          [.valued {} "buyer" (property "owner"), .valued {} "price" (property "fee")])))]⟩ }⟩,
    ⟨{}, [], .property
      { pos := {}
        name := "same"
        type := none
        initializer := some (.arrow
          { pos := {}
            params := [⟨{}, "n", word "number"⟩]
            returns := none
            body := .value (primary (.name {} "n")) }) }⟩]

/-- A market that imports the interface of its sales. -/
def marketFile : SourceFile where
  path := "market.ts"
  program :=
    { pos := {}
      elements :=
        [{ pos := {}
           exported := true
           body := .classDecl
             { pos := {}, name := "Market", bases := [], members := marketMembers } }] }
  imports := [({ pos := {}, clause := .names ["Sale"], source := "./sales" }, "sales.ts")]

/-- What is found for a market in its file: the types of its variables and of its results. -/
theorem market_types :
    (([salesFile, marketFile].foldlM (declareFile (baseScope [salesFile, marketFile])) {}).bind
      fun known => known.files.mapM fun f => f.classes.mapM fun c => do
        let (k, _) ← contract f.scope 0 f.path c
        return (k.stateVars.map (·.type.render), k.methods.map (·.returns.render))).toOption =
      some [[], [(["address", "Record<number, Record<address, boolean>>", "number[]", "number"],
        ["Sale", "number"])]] := by
  decide +kernel

theorem contracts_supported_market :
    ∃ known f c k next',
      [salesFile, marketFile].foldlM (declareFile (baseScope [salesFile, marketFile])) {} =
        .ok known ∧
      f ∈ known.files ∧ contract f.scope 0 f.path c = .ok (k, next') ∧
      k.stateVars.map (·.type.render) =
        ["address", "Record<number, Record<address, boolean>>", "number[]", "number"] ∧
      k.methods.map (·.returns.render) = ["Sale", "number"] ∧
      k.Supported := by
  obtain ⟨known, hknown, h⟩ := bind_eq_ok.1 (toOption_eq_some.1 market_types)
  have hfiles := mapM_eq_ok.1 h
  obtain ⟨f, hf, hclasses⟩ := exists_of_mem_right hfiles (List.mem_cons_of_mem _ List.mem_cons_self)
  obtain ⟨c, -, h⟩ := exists_of_mem_right (mapM_eq_ok.1 hclasses) List.mem_cons_self
  obtain ⟨⟨k, next'⟩, hk, h⟩ := bind_eq_ok.1 h
  obtain ⟨hvars, hreturns⟩ := Prod.mk.inj (pure_eq_ok.1 h)
  exact ⟨known, f, c, k, next', hknown, hf, hk, hvars, hreturns,
    ((contracts_supported hknown).2 f hf).2 c f.scope.events 0 k next' hk⟩

end Build

end Covenant
