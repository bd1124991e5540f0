import Covenant.Proofs.Conditionals.Elimination
import Covenant.Proofs.Resolution.Expressions

/-!
# What statements say

The rules by which a statement of the source says one of the contract, and by which a body becomes
a list of such statements with their conditionals taken out. A body is resolved exactly where the
rules apply (`body_eq_ok`): the locals declared on the way are carried from statement to statement,
a block hands its own on, and the branches of an `if` do not. A resolved body is free of
conditionals, so that taking them out of an `if` leaves the statements in its branches as they are.
-/

namespace Covenant

namespace Resolve

open Source (Expression Postfix ObjectField Statement)

variable {scope : Scope}

/-! ## Object literals -/

/-- What a field of an object literal is given; the shorthand is the bare name of its key. -/
inductive DenotesField (scope : Scope) : ObjectField → Expr → Prop
  | valued {pos key e v} (h : Denotes scope e v) : DenotesField scope (.valued pos key e) v
  | shorthand {pos key v} (h : DenotesPostfix scope (.mk pos (.name pos key) []) v) :
      DenotesField scope (.shorthand pos key) v

/-- A field resolves to what the rules say, and to nothing else. -/
theorem fieldValue_eq_ok {field : ObjectField} {v : Expr} :
    fieldValue scope field = .ok v ↔ DenotesField scope field v := by
  cases field with
  | valued pos key e =>
    refine ⟨fun h => .valued (denotes_of_expression h), fun h => ?_⟩
    cases h with
    | valued h => exact h.eq_ok
  | shorthand pos key =>
    refine ⟨fun h => .shorthand (denotes_of_postfixed h), fun h => ?_⟩
    cases h with
    | shorthand h => exact h.eq_ok

/-- The keys of an object literal are fields of its interface, each given once. -/
structure KeysFit (shape : Interface) (fields : List ObjectField) : Prop where
  distinct : (fields.map ObjectField.key).Nodup
  known : ∀ field ∈ fields, field.key ∈ shape.fieldNames

/-- **An object literal gives the fields of a record**, each by its key and in the order in which
the interface declares them. -/
structure DenotesRecord (scope : Scope) (shape : Interface) (fields : List ObjectField)
    (values : List Expr) : Prop where
  keys : KeysFit shape fields
  each : List.Forall₂ (fun (param : Parameter) value => ∃ field ∈ fields, field.key = param.name ∧
    DenotesField scope field value) shape.fields values

theorem isNone_index?_iff {shape : Interface} {key : String} :
    (shape.index? key).isNone ↔ key ∉ shape.fieldNames := by
  rw [Shape.index?, Option.isNone_iff_eq_none, List.findIdx?_eq_none_iff, Shape.fieldNames]
  simp [eq_comm]

/-- Keys fit if each is a field of the record, and none stands twice. -/
theorem keysFit_cons {shape : Interface} {field : ObjectField} {rest : List ObjectField} :
    KeysFit shape (field :: rest) ↔ field.key ∈ shape.fieldNames ∧
      (∀ other ∈ rest, other.key ≠ field.key) ∧ KeysFit shape rest := by
  constructor
  · rintro ⟨hdistinct, hknown⟩
    rw [List.map_cons, List.nodup_cons, List.mem_map] at hdistinct
    rw [List.forall_mem_cons] at hknown
    exact ⟨hknown.1, fun other hother heq => hdistinct.1 ⟨other, hother, heq⟩, hdistinct.2,
      hknown.2⟩
  · rintro ⟨hkey, hother, hdistinct, hknown⟩
    refine ⟨?_, List.forall_mem_cons.2 ⟨hkey, hknown⟩⟩
    rw [List.map_cons, List.nodup_cons, List.mem_map]
    exact ⟨fun ⟨other, hmem, heq⟩ => hother other hmem heq, hdistinct⟩

/-- The keys that were given before are not given again. -/
theorem checkKeys_eq_ok {shape : Interface} {given : List String} {fields : List ObjectField} :
    checkKeys shape given fields = .ok () ↔
      (∀ field ∈ fields, field.key ∉ given) ∧ KeysFit shape fields := by
  induction fields generalizing given with
  | nil => exact ⟨fun _ => ⟨fun _ h => (nomatch h), .nil, fun _ h => (nomatch h)⟩, fun _ => rfl⟩
  | cons field rest ih =>
    rw [checkKeys, check_eq_ok, check_eq_ok, ih, isNone_index?_iff, keysFit_cons,
      List.forall_mem_cons]
    simp only [List.contains_eq_mem, decide_eq_true_eq, Decidable.not_not, List.mem_cons, not_or,
      forall_and]
    tauto

/-- The field of a key is found by it. -/
theorem KeysFit.find?_eq_some {shape : Interface} {fields : List ObjectField}
    (hkeys : KeysFit shape fields) {key : String} {field : ObjectField} :
    fields.find? (·.key = key) = some field ↔ field ∈ fields ∧ field.key = key := by
  constructor
  · intro h
    exact ⟨List.mem_of_find?_eq_some h, by simpa using List.find?_some h⟩
  · rintro ⟨hmem, rfl⟩
    induction fields with
    | nil => cases hmem
    | cons first rest ih =>
      obtain ⟨-, hother, hrest⟩ := keysFit_cons.1 hkeys
      rcases List.mem_cons.1 hmem with rfl | hmem
      · simp
      · rw [List.find?_cons_of_neg (by simpa using (hother field hmem).symm), ih hrest hmem]

/-- **An object literal is resolved exactly where it gives the fields of a record.** -/
theorem recordFields_eq_ok {pos : Position} {shape : Interface} {fields : List ObjectField}
    {values : List Expr} :
    recordFields scope pos shape fields = .ok values ↔ DenotesRecord scope shape fields values := by
  rw [recordFields, bind_eq_ok]
  constructor
  · rintro ⟨⟨⟩, hkeys, h⟩
    have hkeys := (checkKeys_eq_ok.1 hkeys).2
    refine ⟨hkeys, (mapM_eq_ok.1 h).imp fun param value hvalue => ?_⟩
    cases hfind : fields.find? (·.key = param.name) with
    | none =>
      rw [hfind] at hvalue
      exact absurd hvalue throw_ne_ok
    | some given =>
      rw [hfind] at hvalue
      obtain ⟨hgiven, hname⟩ := hkeys.find?_eq_some.1 hfind
      exact ⟨given, hgiven, hname, fieldValue_eq_ok.1 hvalue⟩
  · rintro ⟨hkeys, heach⟩
    refine ⟨(), checkKeys_eq_ok.2 ⟨fun _ _ => List.not_mem_nil, hkeys⟩, mapM_eq_ok.2 ?_⟩
    refine heach.imp fun param value hvalue => ?_
    obtain ⟨field, hmem, hname, hvalue⟩ := hvalue
    rw [hkeys.find?_eq_some.2 ⟨hmem, hname⟩]
    exact fieldValue_eq_ok.2 hvalue

/-! ## Single statements -/

/-- The text of a literal. -/
def literalOf : Expr → String
  | .literal _ _ text => text
  | _ => ""

/-- **A statement that holds no other says** one of the contract, and leads to a scope. -/
inductive States (scope : Scope) (returns : Ty) : Statement → Stmt → Scope → Prop
  | blank {pos kind x written type} (hfresh : scope.locals.has x = false)
      (htype : resolveType scope "" written = .ok type) (hword : type.isWord) :
      States scope returns (.declaration pos kind x (some written) none)
        (.declare pos x type none) (scope.withLocal x type)
  | annotated {pos kind x written type e v} (hfresh : scope.locals.has x = false)
      (h : Denotes scope e v) (htype : resolveType scope (literalOf v) written = .ok type)
      (hword : type.isWord) :
      States scope returns (.declaration pos kind x (some written) (some e))
        (.declare pos x type (some (retag type v))) (scope.withLocal x type)
  | inferred {pos kind x e v} (hfresh : scope.locals.has x = false) (h : Denotes scope e v)
      (hword : (typeOf scope v).isWord) :
      States scope returns (.declaration pos kind x none (some e))
        (.declare pos x (typeOf scope v) (some v)) (scope.withLocal x (typeOf scope v))
  | exit {pos} (hvoid : returns.isVoid) :
      States scope returns (.returns pos none) (.exit pos none) scope
  | exitWord {pos e v} (hword : returns.isWord) (h : Denotes scope e v) :
      States scope returns (.returns pos (some e)) (.exit pos (some (retag returns v))) scope
  | exitRecord {pos e objectPos shape fields vs} (hreturns : returns = .record shape)
      (hobject : soleObject? e = some (objectPos, fields))
      (h : DenotesRecord scope shape fields vs) :
      States scope returns (.returns pos (some e)) (.exit pos (some (.record objectPos shape vs)))
        scope
  | throw {pos e p q argumentsPos message v}
      (hsole : soleOperand? e = some (.mk p (.creation q "Error" (.mk argumentsPos [message])) []))
      (h : Denotes scope message v) :
      States scope returns (.throw pos e) (.throw pos v) scope
  /-- The constructor of a base class is not called, and its arguments are dropped. -/
  | baseCall {pos e p q callPos arguments}
      (hsole : soleOperand? e = some (.mk p (.name q "super") [.call callPos arguments])) :
      States scope returns (.evaluate pos e) (.skip pos) scope
  /-- The arguments of an event are put in the order of its declaration. -/
  | emit {pos e p q callPos argumentsPos argument call x eventPos objectsPos object event}
      {objectPos fields vs}
      (hsole : soleOperand? e =
        some (.mk p (.name q "emit") [.call callPos (.mk argumentsPos [argument])]))
      (hcall : soleOperand? argument = some call)
      (hevent : emittedEvent? call = some (x, eventPos, .mk objectsPos [object]))
      (hknown : scope.events.get? x = some event)
      (hobject : soleObject? object = some (objectPos, fields))
      (h : DenotesRecord scope event.shape fields vs) :
      States scope returns (.evaluate pos e) (.emit p x vs) scope
  | evaluate {pos e v} (h : Denotes scope e v) :
      States scope returns (.evaluate pos e) (.evaluate pos v) scope
  | setVariable {pos target assignment e v targetPos p x type}
      (htarget : soleOperand? target = some (.mk targetPos (.name p x) []))
      (hlocal : scope.locals.get? x = some type) (h : Denotes scope e v) :
      States scope returns (.assign pos target assignment e)
        (.setVariable pos x (retag type (assigned pos assignment (.var targetPos x) v))) scope
  | setProperty {pos target assignment e v targetPos p memberPos x type}
      (htarget : soleOperand? target = some (.mk targetPos (.this p) [.member memberPos x]))
      (hproperty : scope.properties.get? x = some type) (hword : type.isWord)
      (h : Denotes scope e v) :
      States scope returns (.assign pos target assignment e)
        (.setProperty pos x (retag type (assigned pos assignment (.storage targetPos x) v))) scope
  /-- A property that the class does not declare itself is left to later checks. -/
  | setUnknown {pos target assignment e v targetPos p memberPos x}
      (htarget : soleOperand? target = some (.mk targetPos (.this p) [.member memberPos x]))
      (hproperty : scope.properties.get? x = none) (h : Denotes scope e v) :
      States scope returns (.assign pos target assignment e)
        (.setProperty pos x (assigned pos assignment (.storage targetPos x) v)) scope
  /-- The indices are evaluated again where the current value is read. -/
  | setEntry {pos target assignment e v targetPos p memberPos x suffix suffixes es vs}
      (htarget : soleOperand? target =
        some (.mk targetPos (.this p) (.member memberPos x :: suffix :: suffixes)))
      (hindices : indexSuffixes? (suffix :: suffixes) = some es) (heach : DenotesEach scope es vs)
      (hcount : checkIndices scope targetPos x vs.length = .ok ()) (h : Denotes scope e v) :
      States scope returns (.assign pos target assignment e)
        (.setEntry pos x vs (assigned pos assignment (.entry targetPos x vs) v)) scope

variable {returns : Ty} {pos : Position}

/-- A declaration that resolves follows the rules: its type is written or that of its value. -/
theorem states_of_declaration {kind : Source.DeclarationKind} {x : String}
    {type : Option Source.TypeRef} {value : Option Expression} {s : Stmt} {after : Scope}
    (h : declaration scope pos x type value = .ok (s, after)) :
    States scope returns (.declaration pos kind x type value) s after := by
  rw [declaration, check_eq_ok, check_eq_ok] at h
  obtain ⟨hfresh, hgiven, h⟩ := h
  have hfresh := Bool.eq_false_iff.2 hfresh
  obtain ⟨v, hv, h⟩ := bind_eq_ok.1 h
  cases type with
  | none =>
    cases value with
    | none => exact absurd rfl hgiven
    | some e =>
      obtain ⟨w, hw, rfl⟩ := mapM_some_eq_ok.1 hv
      obtain ⟨hword, h⟩ := check_eq_ok.1 h
      cases pure_eq_ok.1 h
      exact .inferred hfresh (denotes_of_expression hw) (by simpa using hword)
  | some written =>
    obtain ⟨t, htype, h⟩ := bind_eq_ok.1 h
    obtain ⟨hword, h⟩ := check_eq_ok.1 h
    cases pure_eq_ok.1 h
    have hword : t.isWord := by simpa using hword
    cases value with
    | none =>
      cases hv
      exact .blank hfresh htype hword
    | some e =>
      obtain ⟨w, hw, rfl⟩ := mapM_some_eq_ok.1 hv
      refine .annotated hfresh (denotes_of_expression hw) ?_ hword
      cases w <;> exact htype

theorem states_of_returnStatement {value : Option Expression} {s : Stmt}
    (h : returnStatement scope returns pos value = .ok s) :
    States scope returns (.returns pos value) s scope := by
  cases value with
  | none =>
    unfold returnStatement at h
    dsimp only at h
    split at h
    · cases h
      exact .exit ‹_›
    · cases h
  | some e =>
    unfold returnStatement at h
    dsimp only at h
    split at h
    · cases h
    · split at h
      · rename_i hobject
        obtain ⟨vs, hvs, h⟩ := bind_eq_ok.1 h
        cases pure_eq_ok.1 h
        exact .exitRecord rfl hobject (recordFields_eq_ok.1 hvs)
      · cases h
    · obtain ⟨hword, h⟩ := check_eq_ok.1 h
      obtain ⟨v, hv, h⟩ := bind_eq_ok.1 h
      cases pure_eq_ok.1 h
      exact .exitWord (by simpa using hword) (denotes_of_expression hv)

theorem states_of_throwStatement {value : Expression} {s : Stmt}
    (h : throwStatement scope pos value = .ok s) :
    States scope returns (.throw pos value) s scope := by
  rw [throwStatement.eq_def] at h
  split at h
  · rename_i hsole
    split at h
    · obtain ⟨v, hv, h⟩ := bind_eq_ok.1 h
      cases pure_eq_ok.1 h
      exact .throw hsole (denotes_of_expression hv)
    · cases h
  · cases h

theorem states_of_emitStatement {value : Expression} {p q callPos argumentsPos : Position}
    {arguments : List Expression} {s : Stmt}
    (hsole : soleOperand? value =
      some (.mk p (.name q "emit") [.call callPos (.mk argumentsPos arguments)]))
    (h : emitStatement scope p arguments = .ok s) :
    States scope returns (.evaluate pos value) s scope := by
  rw [emitStatement.eq_def] at h
  split at h
  case h_2 => cases h
  case h_1 argument =>
    -- each of the four looks at the argument has to find what it looks for
    cases hcall : soleOperand? argument with
    | none => simp [hcall] at h
    | some call =>
      cases hevent : emittedEvent? call with
      | none => simp [hcall, hevent] at h
      | some found =>
        obtain ⟨x, eventPos, ⟨objectsPos, objects⟩⟩ := found
        cases hknown : scope.events.get? x with
        | none => simp [hcall, hevent, hknown] at h
        | some event =>
          simp only [hcall, hevent, hknown, Source.Arguments.values] at h
          split at h
          · rename_i objectPos fields hobjects
            obtain ⟨object, rfl, hobject⟩ := List.map_eq_singleton_iff.1 hobjects
            obtain ⟨vs, hvs, h⟩ := bind_eq_ok.1 h
            cases pure_eq_ok.1 h
            exact .emit hsole hcall hevent hknown hobject (recordFields_eq_ok.1 hvs)
          · cases h

theorem states_of_effectStatement {value : Expression} {s : Stmt}
    (h : effectStatement scope pos value = .ok s) :
    States scope returns (.evaluate pos value) s scope := by
  rw [effectStatement.eq_def] at h
  split at h
  · cases h
    exact .baseCall ‹_›
  · exact states_of_emitStatement ‹_› h
  · obtain ⟨v, hv, h⟩ := bind_eq_ok.1 h
    cases pure_eq_ok.1 h
    exact .evaluate (denotes_of_expression hv)

/-- An assignment that resolves follows the rules: of a property, an entry or a local. -/
theorem states_of_assignStatement {target value : Expression} {assignment : Source.Assignment}
    {s : Stmt} (h : assignStatement scope pos target assignment value = .ok s) :
    States scope returns (.assign pos target assignment value) s scope := by
  obtain ⟨v, hv, h⟩ := bind_eq_ok.1 h
  have hv := denotes_of_expression hv
  split at h
  · rename_i htarget
    split at h
    · cases pure_eq_ok.1 h
      exact .setVariable htarget ‹_› hv
    · exact absurd (check_eq_ok.1 h).2 throw_ne_ok
  · rename_i htarget
    split at h
    · obtain ⟨hword, h⟩ := check_eq_ok.1 h
      cases pure_eq_ok.1 h
      exact .setProperty htarget ‹_› (by simpa using hword) hv
    · cases pure_eq_ok.1 h
      exact .setUnknown htarget ‹_› hv
  · rename_i targetPos p memberPos x suffixes hsingle htarget
    split at h
    · rename_i es hes
      obtain ⟨vs, hvs, h⟩ := bind_eq_ok.1 h
      obtain ⟨⟨⟩, hcount, h⟩ := bind_eq_ok.1 h
      cases pure_eq_ok.1 h
      cases suffixes with
      | nil => exact (hsingle rfl).elim
      | cons suffix suffixes =>
        have heach := denotesEach_iff.2 ((mapM_eq_ok.1 hvs).imp fun _ _ => denotes_of_expression)
        exact .setEntry htarget hes heach hcount hv
    · cases h
  · cases h

/-- Only a hash is written as a call of a name. -/
theorem DenotesPostfix.eq_hash {p q r : Position} {x : String} {arguments : Source.Arguments}
    {v : Expr} (h : DenotesPostfix scope (.mk p (.name q x) [.call r arguments]) v) :
    x = "keccak256" := by
  cases h
  rfl

theorem effectStatement_of_denotes {e : Expression} {v : Expr} (h : Denotes scope e v) :
    effectStatement scope pos e = .ok (.evaluate pos v) := by
  unfold effectStatement
  split
  · exact absurd ((denotes_of_soleOperand ‹_›).1 h).eq_hash (by decide)
  · exact absurd ((denotes_of_soleOperand ‹_›).1 h).eq_hash (by decide)
  · rw [h.eq_ok]
    rfl

/-- What a statement says is what it is resolved to. -/
theorem States.statement_eq_ok {s : Statement} {t : Stmt} {after : Scope} (next : Nat)
    (h : States scope returns s t after) :
    statement returns s scope next = .ok (finish after next t) := by
  cases h with
  | blank hfresh htype hword => simp [statement, declaration, hfresh, htype, hword]
  | @annotated _ _ _ _ _ _ v hfresh h htype hword =>
    simp only [statement, declaration, hfresh, Bool.false_eq_true, ↓reduceIte, Option.isNone_some,
      Bool.and_self, Option.mapM_some, h.eq_ok, Except.map_ok, Bool.not_eq_eq_eq_not, Bool.not_true,
      bind_pure_comp, pure_bind, ok_bind, Option.map_some, map_bind]
    -- The text is looked for in the value that was read.
    split
    · rename_i hvalue
      cases hvalue
      rw [literalOf] at htype
      simp [htype, hword]
    · rename_i hother
      have hempty : literalOf v = "" := by
        unfold literalOf
        split
        · exact absurd rfl (hother _ _ _)
        · rfl
      rw [hempty] at htype
      simp [htype, hword]
  | inferred hfresh h hword => simp [statement, declaration, hfresh, h.eq_ok, hword]
  | exit hvoid => simp [statement, returnStatement, hvoid]
  | exitWord hword h =>
    cases returns with
    | boolean | number | address | bytes | text =>
      simp [statement, returnStatement, Ty.isWord, h.eq_ok]
    | _ => cases hword
  | exitRecord hreturns hobject h =>
    simp [statement, returnStatement, hreturns, hobject, recordFields_eq_ok.2 h]
  | throw hsole h => simp [statement, throwStatement, hsole, h.eq_ok]
  | baseCall hsole => simp [statement, effectStatement, hsole]
  | emit hsole hcall hevent hknown hobject h =>
    simp [statement, effectStatement, emitStatement, hsole, hcall, hevent, hknown, hobject,
      Source.Arguments.values, recordFields_eq_ok.2 h]
  | evaluate h => simp [statement, effectStatement_of_denotes h]
  | setVariable htarget hlocal h => simp [statement, assignStatement, h.eq_ok, htarget, hlocal]
  | setProperty htarget hproperty hword h =>
    simp [statement, assignStatement, h.eq_ok, htarget, hproperty, hword]
  | setUnknown htarget hproperty h =>
    simp [statement, assignStatement, h.eq_ok, htarget, hproperty]
  | setEntry htarget hindices heach hcount h =>
    have hmap := mapM_eq_ok.2 ((denotesEach_iff.1 heach).imp fun _ _ => Denotes.eq_ok)
    simp [statement, assignStatement, h.eq_ok, htarget, hindices, hmap, hcount]

/-! ## Bodies -/

/-- What a list of statements becomes, with another one in front of it. -/
def Resolved.after (first : List Stmt) (rest : Resolved) : Resolved :=
  { rest with body := first ++ rest.body }

/-- **A body is resolved**: its statements one after another, each in the scope that those before it
lead to. -/
inductive Resolves (returns : Ty) : List Statement → Scope → Nat → Resolved → Prop
  | nil {scope next} : Resolves returns [] scope next ⟨[], scope, next⟩
  | plain {s rest scope after next t r} (h : States scope returns s t after)
      (hrest : Resolves returns rest after (normalize after next t).2 r) :
      Resolves returns (s :: rest) scope next (r.after (normalize after next t).1)
  | block {pos ss rest scope next inner r} (h : Resolves returns ss scope next inner)
      (hrest : Resolves returns rest inner.scope inner.next r) :
      Resolves returns (.block pos ss :: rest) scope next (r.after inner.body)
  | ifThen {pos c v yes rest scope next ry r} (hcondition : Denotes scope c v)
      (hyes : Resolves returns [yes] scope next ry)
      (hrest : Resolves returns rest scope
        (normalize scope ry.next (.branch pos v ry.body [])).2 r) :
      Resolves returns (.ifThen pos c yes :: rest) scope next
        (r.after (normalize scope ry.next (.branch pos v ry.body [])).1)
  | ifElse {pos c v yes no rest scope next ry rn r} (hcondition : Denotes scope c v)
      (hyes : Resolves returns [yes] scope next ry)
      (hno : Resolves returns [no] scope ry.next rn)
      (hrest : Resolves returns rest scope
        (normalize scope rn.next (.branch pos v ry.body rn.body)).2 r) :
      Resolves returns (.ifElse pos c yes no :: rest) scope next
        (r.after (normalize scope rn.next (.branch pos v ry.body rn.body)).1)
  | empty {pos rest scope next r} (hrest : Resolves returns rest scope next r) :
      Resolves returns (.empty pos :: rest) scope next r

/-- Nothing but a declaration changes the scope, and it only adds a local. -/
theorem States.withoutLocals_eq {s : Statement} {t : Stmt} {after : Scope}
    (h : States scope returns s t after) : after.withoutLocals = scope.withoutLocals := by
  cases h <;> rfl

theorem Resolves.withoutLocals_eq {ss : List Statement} {next : Nat} {r : Resolved}
    (h : Resolves returns ss scope next r) : r.scope.withoutLocals = scope.withoutLocals := by
  induction h with
  | nil => rfl
  | plain h _ ih => exact ih.trans h.withoutLocals_eq
  | block _ _ ihBlock ih => exact ih.trans ihBlock
  | ifThen _ _ _ _ ih => exact ih
  | ifElse _ _ _ _ _ _ ih => exact ih
  | empty _ ih => exact ih

theorem States.constants_eq {s : Statement} {t : Stmt} {after : Scope}
    (h : States scope returns s t after) : after.constants = scope.constants := by
  injection h.withoutLocals_eq

/-- A body adds no constant to the scope behind it. -/
theorem Resolves.constants_eq {ss : List Statement} {next : Nat} {r : Resolved}
    (h : Resolves returns ss scope next r) : r.scope.constants = scope.constants := by
  injection h.withoutLocals_eq

theorem nil_after (first : List Stmt) (scope : Scope) (next : Nat) :
    Resolved.after first ⟨[], scope, next⟩ = ⟨first, scope, next⟩ := by
  rw [Resolved.after, List.append_nil]

/-- One statement is resolved as a body of its own. -/
theorem body_singleton (s : Statement) (scope : Scope) (next : Nat) :
    body returns [s] scope next = statement returns s scope next := by
  rw [body]
  cases statement returns s scope next with
  | error fault => rfl
  | ok first => simp [body]

/-- A statement that declares nothing and is said by one of the contract. -/
theorem resolves_of_finish {s : Statement} {rest : List Statement} {next : Nat}
    {first r : Resolved} {said : Except Fault Stmt}
    (hsaid : ∀ t, said = .ok t → States scope returns s t scope)
    (h : (do return finish scope next (← said)) = .ok first)
    (hrest : Resolves returns rest first.scope first.next r) :
    Resolves returns (s :: rest) scope next (r.after first.body) := by
  obtain ⟨t, ht, h⟩ := bind_eq_ok.1 h
  cases pure_eq_ok.1 h
  exact .plain (hsaid t ht) hrest

mutual
/-- A statement in front of a body that resolves. -/
theorem resolves_of_statement : ∀ {s : Statement} {rest : List Statement} {scope : Scope}
    {next : Nat} {first r : Resolved}, statement returns s scope next = .ok first →
    Resolves returns rest first.scope first.next r →
    Resolves returns (s :: rest) scope next (r.after first.body)
  | .block _ _, _, _, _, _, _, h, hrest => .block (resolves_of_body h) hrest
  | .declaration _ _ _ _ _, _, _, _, _, _, h, hrest => by
    rw [statement] at h
    obtain ⟨⟨s, after⟩, hs, h⟩ := bind_eq_ok.1 h
    cases pure_eq_ok.1 h
    exact .plain (states_of_declaration hs) hrest
  | .ifThen _ _ yes, _, _, _, _, _, h, hrest => by
    rw [statement] at h
    obtain ⟨v, hv, h⟩ := bind_eq_ok.1 h
    obtain ⟨ry, hyes, h⟩ := bind_eq_ok.1 h
    cases pure_eq_ok.1 h
    -- a side is one statement, with nothing behind it
    have hyes := resolves_of_statement hyes .nil
    rw [nil_after] at hyes
    exact .ifThen (denotes_of_expression hv) hyes hrest
  | .ifElse _ _ yes no, _, _, _, _, _, h, hrest => by
    rw [statement] at h
    obtain ⟨v, hv, h⟩ := bind_eq_ok.1 h
    obtain ⟨ry, hyes, h⟩ := bind_eq_ok.1 h
    obtain ⟨rn, hno, h⟩ := bind_eq_ok.1 h
    cases pure_eq_ok.1 h
    have hyes := resolves_of_statement hyes .nil
    have hno := resolves_of_statement hno .nil
    rw [nil_after] at hyes hno
    exact .ifElse (denotes_of_expression hv) hyes hno hrest
  | .returns _ _, _, _, _, _, _, h, hrest =>
    resolves_of_finish (fun _ => states_of_returnStatement) h hrest
  | .throw _ _, _, _, _, _, _, h, hrest =>
    resolves_of_finish (fun _ => states_of_throwStatement) h hrest
  | .evaluate _ _, _, _, _, _, _, h, hrest =>
    resolves_of_finish (fun _ => states_of_effectStatement) h hrest
  | .assign _ _ _ _, _, _, _, _, _, h, hrest =>
    resolves_of_finish (fun _ => states_of_assignStatement) h hrest
  | .empty _, _, _, _, _, _, h, hrest => by
    cases h
    exact .empty hrest

/-- **A body that resolves follows the rules**, statement by statement. -/
theorem resolves_of_body : ∀ {ss : List Statement} {scope : Scope} {next : Nat} {r : Resolved},
    body returns ss scope next = .ok r → Resolves returns ss scope next r
  | [], _, _, _, h => by
    cases h
    exact .nil
  | _ :: _, _, _, _, h => by
    rw [body] at h
    obtain ⟨first, hfirst, h⟩ := bind_eq_ok.1 h
    obtain ⟨rest, hrest, h⟩ := bind_eq_ok.1 h
    cases pure_eq_ok.1 h
    exact resolves_of_statement hfirst (resolves_of_body hrest)
end

theorem Resolves.body_eq_ok {ss : List Statement} {next : Nat} {r : Resolved}
    (h : Resolves returns ss scope next r) : body returns ss scope next = .ok r := by
  induction h with
  | nil => rfl
  | plain h _ ih => simp [body, h.statement_eq_ok, finish, ih, Resolved.after]
  | block _ _ ihBlock ih => simp [body, statement, ihBlock, ih, Resolved.after]
  | ifThen hcondition _ _ ihYes ih =>
    rw [body_singleton] at ihYes
    simp [body, statement, hcondition.eq_ok, ihYes, finish, ih, Resolved.after]
  | ifElse hcondition _ _ _ ihYes ihNo ih =>
    rw [body_singleton] at ihYes ihNo
    simp [body, statement, hcondition.eq_ok, ihYes, ihNo, finish, ih, Resolved.after]
  | empty _ ih => simp [body, statement, ih]

/-- **Resolving a body gives exactly what the rules give.** -/
theorem body_eq_ok {ss : List Statement} {next : Nat} {r : Resolved} :
    body returns ss scope next = .ok r ↔ Resolves returns ss scope next r :=
  ⟨resolves_of_body, Resolves.body_eq_ok⟩

/-! ## Freedom of conditionals -/

theorem States.inner_eq_nil {s : Statement} {t : Stmt} {after : Scope}
    (h : States scope returns s t after) : t.inner = [] := by
  cases h <;> rfl

/-- A single statement has no branch, and so no conditional in one. -/
theorem States.inner_free {s : Statement} {t : Stmt} {after : Scope}
    (h : States scope returns s t after) : Stmt.hasConditional t.inner = false := by
  rw [h.inner_eq_nil, Stmt.hasConditional_nil]

theorem branch_inner_free {yes no : List Stmt} (hyes : Stmt.hasConditional yes = false)
    (hno : Stmt.hasConditional no = false) (pos : Position) (condition : Expr) :
    Stmt.hasConditional (Stmt.branch pos condition yes no).inner = false := by
  rw [Stmt.inner, Stmt.hasConditional_append, hyes, hno]
  rfl

/-- **A resolved body is free of conditionals.** -/
theorem Resolves.free {ss : List Statement} {next : Nat} {r : Resolved}
    (h : Resolves returns ss scope next r) : Stmt.hasConditional r.body = false := by
  induction h with
  | nil => rfl
  | plain h _ ih => simp [Resolved.after, normalize_free h.inner_free, ih]
  | block _ _ ihBlock ih => simp [Resolved.after, ihBlock, ih]
  | ifThen _ _ _ ihYes ih =>
    simp [Resolved.after, normalize_free (branch_inner_free ihYes Stmt.hasConditional_nil _ _), ih]
  | ifElse _ _ _ _ ihYes ihNo ih =>
    simp [Resolved.after, normalize_free (branch_inner_free ihYes ihNo _ _), ih]
  | empty _ ih => exact ih

end Resolve

end Covenant
