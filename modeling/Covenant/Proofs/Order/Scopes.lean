import Covenant.Proofs.Computations
import Covenant.Proofs.Conditionals.Leaves
import Covenant.Proofs.Order.Nameless
import Covenant.Proofs.Resolution.Classes
import Covenant.Proofs.Resolution.Statements

/-!
# Classes in scopes that know the contracts in another order

A scope lists the contracts of the build in the order of the files, and is only asked whether a name
is among them. Where the same names are listed in another order, and another number of temporaries
was handed out before, everything resolves alike: expressions to the same ones (`Denotes.knowing`),
bodies to bodies that differ in the names of their locals (`Resolves.knowing`), and so a class to a
contract of which only those differ (`contract_knowing`).
-/

namespace Covenant

/-- A scope that knows the contracts of a build by another list of their names. -/
def Scope.knowing (scope : Scope) (names : List String) : Scope :=
  { scope with contracts := names }

/-! ## Contracts without the names of locals -/

/-- A constructor without the names of the locals of its body. -/
def Construction.nameless (k : Construction) : Construction :=
  { k with body := k.body.map Stmt.nameless }

/-- A variable without the names of locals in its initial value. -/
def StateVar.nameless (v : StateVar) : StateVar :=
  { v with initial := v.initial.map Expr.nameless }

/-- A method without the names of the locals of its body. -/
def Routine.nameless (m : Routine) : Routine :=
  { m with body := m.body.map Stmt.nameless }

/-- **A contract without the names of the locals** of its bodies. Parameters keep theirs, which are
part of its interface. -/
def Contract.nameless (c : Contract) : Contract :=
  { c with
    construction := c.construction.map Construction.nameless
    stateVars := c.stateVars.map StateVar.nameless
    methods := c.methods.map Routine.nameless }

namespace Resolve

open Source (Expression Chain Link Operand Postfix Suffix Statement)

variable {scope : Scope} {names : List String}

/-! ## Types -/

@[simp] theorem typeOf_knowing (e : Expr) : typeOf (scope.knowing names) e = typeOf scope e := by
  induction e using Expr.induction with
  | h e ih =>
    cases e with
    | conditional pos condition yes no => exact ih yes (by simp [Expr.parts])
    | _ => rfl

/-- A name is that of a contract in both lists or in neither. -/
theorem declaredType_knowing (hnames : scope.contracts.Perm names) (pos : Position) (x : String) :
    declaredType (scope.knowing names) pos x = declaredType scope pos x := by
  have hcontains : names.contains x = scope.contracts.contains x := by
    rw [Bool.eq_iff_iff, List.contains_iff_mem, List.contains_iff_mem, hnames.mem_iff]
  rw [declaredType, declaredType, Scope.knowing, hcontains]

mutual
/-- A written type resolves to the same type, or to the same failure. -/
theorem resolveType_knowing (hnames : scope.contracts.Perm names) (literal : String) :
    ∀ written : Source.TypeRef,
      resolveType (scope.knowing names) literal written = resolveType scope literal written
  | .mk _ _ _ _ => by
    rw [resolveType, resolveType, resolveEach_knowing hnames]
    simp only [declaredType_knowing hnames]

theorem resolveEach_knowing (hnames : scope.contracts.Perm names) :
    ∀ written : List Source.TypeRef,
      resolveEach (scope.knowing names) written = resolveEach scope written
  | [] => rfl
  | _ :: _ => by
    rw [resolveEach, resolveEach, resolveType_knowing hnames, resolveEach_knowing hnames]
end

/-! ## Expressions -/

/-- Whether signs fit in front of a value is a matter of its type. -/
theorem SignsFit.knowing {signs : List Source.Sign} {v : Expr} (h : SignsFit scope signs v) :
    SignsFit (scope.knowing names) signs v := fun hlast => by
  rw [typeOf_knowing, h hlast]

mutual
/-- **An expression denotes the same** where the contracts are known in another order. -/
theorem Denotes.knowing (hnames : scope.contracts.Perm names) : ∀ {e : Expression} {v : Expr},
    Denotes scope e v → Denotes (scope.knowing names) e v
  | _, _, .chain h => .chain (h.knowing hnames)
  | _, _, .choice hcondition hyes hno =>
    .choice (hcondition.knowing hnames) (hyes.knowing hnames) (hno.knowing hnames)

/-- A chain stands for the same expression. -/
theorem DenotesChain.knowing (hnames : scope.contracts.Perm names) : ∀ {c : Chain} {v : Expr},
    DenotesChain scope c v → DenotesChain (scope.knowing names) c v
  | _, _, .tree hfirst hlinks => .tree (hfirst.knowing hnames) (hlinks.knowing hnames)

theorem DenotesLinks.knowing (hnames : scope.contracts.Perm names) :
    ∀ {ls : List Link} {vs : List OperatorLink},
      DenotesLinks scope ls vs → DenotesLinks (scope.knowing names) ls vs
  | _, _, .nil => .nil
  | _, _, .cons h hrest => .cons (h.knowing hnames) (hrest.knowing hnames)

/-- An operand stands for the same expression, with its signs. -/
theorem DenotesOperand.knowing (hnames : scope.contracts.Perm names) :
    ∀ {o : Operand} {v : Expr},
      DenotesOperand scope o v → DenotesOperand (scope.knowing names) o v
  | _, _, .signed h hsigns => .signed (h.knowing hnames) hsigns.knowing

/-- **Names and steps stand for the same expressions**: of the contracts only their names are asked
for. -/
theorem DenotesPostfix.knowing (hnames : scope.contracts.Perm names) :
    ∀ {p : Postfix} {v : Expr},
      DenotesPostfix scope p v → DenotesPostfix (scope.knowing names) p v
  | _, _, .this => .this
  | _, _, .property => .property
  | _, _, .ownCall h => .ownCall (h.knowing hnames)
  | _, _, .length h => .length h
  | _, _, .propertyCall h => .propertyCall (h.knowing hnames)
  | _, _, .entry hindices h hcount => .entry hindices (h.knowing hnames) hcount
  | _, _, .constant h => .constant h
  | _, _, .variable hconstant h => .variable hconstant h
  | _, _, .environment hlocal hspace h => .environment hlocal hspace h
  | _, _, .hash hlocal hinputs h => .hash hlocal hinputs (h.knowing hnames)
  | _, _, .external hlocal hspace hcontract h =>
    .external hlocal hspace (hnames.mem_iff.1 hcontract) (h.knowing hnames)
  | _, _, .externalCall hlocal hspace hcontract h hargs =>
    .externalCall hlocal hspace (hnames.mem_iff.1 hcontract) (h.knowing hnames)
      (hargs.knowing hnames)
  | _, _, .creation hcontract h => .creation (hnames.mem_iff.1 hcontract) (h.knowing hnames)
  | _, _, .number h => .number h
  | _, _, .text h => .text h
  | _, _, .truth => .truth
  | _, _, .parens h => .parens (h.knowing hnames)

theorem DenotesEach.knowing (hnames : scope.contracts.Perm names) :
    ∀ {es : List Expression} {vs : List Expr},
      DenotesEach scope es vs → DenotesEach (scope.knowing names) es vs
  | _, _, .nil => .nil
  | _, _, .cons h hrest => .cons (h.knowing hnames) (hrest.knowing hnames)
end

/-- An expression resolves in both scopes or in neither, to the same one. -/
theorem expression_knowing (hnames : scope.contracts.Perm names) (e : Expression) :
    Paired (· = ·) (expression scope e) (expression (scope.knowing names) e) := by
  refine paired_iff.2 ⟨fun v hv => ⟨v, ?_, rfl⟩, fun v hv => ⟨v, ?_, rfl⟩⟩
  · exact ((denotes_of_expression hv).knowing hnames).eq_ok
  · exact ((denotes_of_expression hv).knowing hnames.symm).eq_ok

/-- The fields of a record stand for the same values. -/
theorem DenotesRecord.knowing {shape : Interface} {fields : List Source.ObjectField}
    {values : List Expr} (h : DenotesRecord scope shape fields values)
    (hnames : scope.contracts.Perm names) :
    DenotesRecord (scope.knowing names) shape fields values := by
  refine ⟨h.keys, h.each.imp fun param value => ?_⟩
  rintro ⟨field, hmem, hkey, hvalue⟩
  refine ⟨field, hmem, hkey, ?_⟩
  cases hvalue with
  | valued h => exact .valued (h.knowing hnames)
  | shorthand h => exact .shorthand (h.knowing hnames)

/-! ## Bodies -/

variable {returns : Ty}

/-- **A statement says the same** where the contracts are known in another order. -/
theorem States.knowing {s : Statement} {t : Stmt} {after : Scope}
    (h : States scope returns s t after) (hnames : scope.contracts.Perm names) :
    States (scope.knowing names) returns s t (after.knowing names) := by
  have htypes := @resolveType_knowing scope names hnames
  cases h with
  | blank hfresh htype hword => exact .blank hfresh (htypes _ _ ▸ htype) hword
  | annotated hfresh h htype hword =>
    exact .annotated hfresh (h.knowing hnames) (htypes _ _ ▸ htype) hword
  | @inferred _ _ _ _ v hfresh h hword =>
    rw [← @typeOf_knowing scope names v] at hword ⊢
    exact .inferred hfresh (h.knowing hnames) hword
  | exit hvoid => exact .exit hvoid
  | exitWord hword h => exact .exitWord hword (h.knowing hnames)
  | exitRecord hreturns hobject h => exact .exitRecord hreturns hobject (h.knowing hnames)
  | throw hsole h => exact .throw hsole (h.knowing hnames)
  | baseCall hsole => exact .baseCall hsole
  | emit hsole hcall hevent hknown hobject h =>
    exact .emit hsole hcall hevent hknown hobject (h.knowing hnames)
  | evaluate h => exact .evaluate (h.knowing hnames)
  | setVariable htarget hlocal h => exact .setVariable htarget hlocal (h.knowing hnames)
  | setProperty htarget hproperty hword h =>
    exact .setProperty htarget hproperty hword (h.knowing hnames)
  | setUnknown htarget hproperty h => exact .setUnknown htarget hproperty (h.knowing hnames)
  | setEntry htarget hindices heach hcount h =>
    exact .setEntry htarget hindices (heach.knowing hnames) hcount (h.knowing hnames)

/-- A statement adds no contract to the scope behind it. -/
theorem States.contracts_eq {s : Statement} {t : Stmt} {after : Scope}
    (h : States scope returns s t after) : after.contracts = scope.contracts := by
  injection h.withoutLocals_eq

/-- Nor does a body. -/
theorem Resolves.contracts_eq {ss : List Statement} {next : Nat} {r : Resolved}
    (h : Resolves returns ss scope next r) : r.scope.contracts = scope.contracts := by
  injection h.withoutLocals_eq

/-- What two bodies become is the same but for the names of locals and for how the contracts are
known. -/
structure SameBody (names : List String) (r r' : Resolved) : Prop where
  body : r'.body.map Stmt.nameless = r.body.map Stmt.nameless
  scope : r'.scope = r.scope.knowing names

/-- Statements in front of two bodies that differ in the names of locals may differ so too. -/
theorem SameBody.after {first first' : List Stmt} {r r' : Resolved} (h : SameBody names r r')
    (hfirst : first'.map Stmt.nameless = first.map Stmt.nameless) :
    SameBody names (r.after first) (r'.after first') :=
  ⟨by simp [Resolved.after, hfirst, h.body], h.scope⟩

/-- A branch is left with the same bodies but for the names of locals. -/
theorem normalize_branch_nameless {pos : Position} {v : Expr} {yes yes' no no' : List Stmt}
    (hyes : yes'.map Stmt.nameless = yes.map Stmt.nameless)
    (hno : no'.map Stmt.nameless = no.map Stmt.nameless)
    (hfree : Stmt.hasConditional (Stmt.branch pos v yes no).inner = false)
    (hfree' : Stmt.hasConditional (Stmt.branch pos v yes' no').inner = false)
    (scope scope' : Scope) (next next' : Nat) :
    (normalize scope' next' (.branch pos v yes' no')).1.map Stmt.nameless =
      (normalize scope next (.branch pos v yes no)).1.map Stmt.nameless :=
  normalize_nameless hfree' hfree rfl (by simp [Stmt.nameless, hyes, hno]) _ _ _ _

/-- **A body becomes the same but for the names of its locals**, where the contracts are known in
another order and another number of temporaries was handed out. -/
theorem Resolves.knowing {ss : List Statement} {next : Nat} {r : Resolved}
    (h : Resolves returns ss scope next r) (hnames : scope.contracts.Perm names) (next' : Nat) :
    ∃ r', Resolves returns ss (scope.knowing names) next' r' ∧ SameBody names r r' := by
  induction h generalizing next' with
  | nil => exact ⟨_, .nil, rfl, rfl⟩
  | plain h _ ih =>
    obtain ⟨r', hr', hsame⟩ := ih (h.contracts_eq ▸ hnames) _
    refine ⟨_, .plain (h.knowing hnames) hr', hsame.after ?_⟩
    exact normalize_nameless h.inner_free h.inner_free rfl rfl _ _ _ _
  | block h _ ihBlock ih =>
    obtain ⟨inner, hinner, hsameInner⟩ := ihBlock hnames next'
    obtain ⟨r', hr', hsame⟩ := ih (h.contracts_eq ▸ hnames) inner.next
    rw [← hsameInner.scope] at hr'
    exact ⟨_, .block hinner hr', hsame.after hsameInner.body⟩
  | ifThen hcondition hyes _ ihYes ih =>
    obtain ⟨ry, hry, hsameYes⟩ := ihYes hnames next'
    obtain ⟨r', hr', hsame⟩ := ih hnames _
    refine ⟨_, .ifThen (hcondition.knowing hnames) hry hr', hsame.after ?_⟩
    exact normalize_branch_nameless hsameYes.body rfl
      (branch_inner_free hyes.free Stmt.hasConditional_nil _ _)
      (branch_inner_free hry.free Stmt.hasConditional_nil _ _) _ _ _ _
  | ifElse hcondition hyes hno _ ihYes ihNo ih =>
    obtain ⟨ry, hry, hsameYes⟩ := ihYes hnames next'
    obtain ⟨rn, hrn, hsameNo⟩ := ihNo hnames ry.next
    obtain ⟨r', hr', hsame⟩ := ih hnames _
    refine ⟨_, .ifElse (hcondition.knowing hnames) hry hrn hr', hsame.after ?_⟩
    exact normalize_branch_nameless hsameYes.body hsameNo.body
      (branch_inner_free hyes.free hno.free _ _) (branch_inner_free hry.free hrn.free _ _) _ _ _ _
  | empty _ ih =>
    obtain ⟨r', hr', hsame⟩ := ih hnames next'
    exact ⟨r', .empty hr', hsame⟩

/-- **A body resolves in both scopes or in neither**, to bodies that differ in the names of locals.
-/
theorem body_knowing (hnames : scope.contracts.Perm names) (ss : List Statement)
    (next next' : Nat) :
    Paired (SameBody names) (body returns ss scope next)
      (body returns ss (scope.knowing names) next') := by
  refine paired_iff.2 ⟨fun r hr => ?_, fun r' hr' => ?_⟩
  · obtain ⟨r', hr', hsame⟩ := (body_eq_ok.1 hr).knowing hnames next'
    exact ⟨r', hr'.body_eq_ok, hsame⟩
  · have hr' := body_eq_ok.1 hr'
    obtain ⟨r, hr, hbody, hscope⟩ := hr'.knowing hnames.symm next
    refine ⟨r, hr.body_eq_ok, hbody.symm, ?_⟩
    have hcontracts : r'.scope.contracts = names := hr'.contracts_eq
    rw [hscope, ← hcontracts]
    rfl

theorem statement_knowing (hnames : scope.contracts.Perm names) (s : Statement)
    (next next' : Nat) :
    Paired (SameBody names) (statement returns s scope next)
      (statement returns s (scope.knowing names) next') := by
  rw [← body_singleton, ← body_singleton]
  exact body_knowing hnames [s] next next'

/-! ## Members -/

/-- Parameters are resolved in order, and stay known in the scope of the body. -/
theorem parameters_knowing {ps : List Source.Param} {params : List Parameter} {inner : Scope}
    (hnames : scope.contracts.Perm names) (h : parameters ps scope = .ok (params, inner)) :
    parameters ps (scope.knowing names) = .ok (params, inner.knowing names) := by
  induction ps generalizing scope params with
  | nil =>
    cases h
    rfl
  | cons p rest ih =>
    obtain ⟨hfresh, type, htype, hword, others, hothers, rfl⟩ := parameters_cons_eq_ok.1 h
    exact parameters_cons_eq_ok.2
      ⟨hfresh, type, (resolveType_knowing hnames _ _).trans htype, hword, others,
        @ih (scope.withLocal p.name type) others hnames hothers, rfl⟩

theorem parameters_paired (hnames : scope.contracts.Perm names) (ps : List Source.Param) :
    Paired (fun r r' => r' = (r.1, r.2.knowing names) ∧ r.2.contracts.Perm names)
      (parameters ps scope) (parameters ps (scope.knowing names)) := by
  refine paired_iff.2 ⟨fun r hr => ?_, fun r' hr' => ?_⟩
  · have hcontracts : r.2.contracts = scope.contracts := by
      injection parameters_withoutLocals hr
    exact ⟨_, parameters_knowing hnames hr, rfl, hcontracts ▸ hnames⟩
  · have hcontracts : r'.2.contracts = names := by
      injection parameters_withoutLocals hr'
    have hback := parameters_knowing hnames.symm hr'
    refine ⟨_, hback, Prod.ext rfl ?_, hnames⟩
    change r'.2 = r'.2.knowing names
    rw [← hcontracts]
    rfl

/-- The type that a method returns is the same. -/
theorem returnType_knowing (hnames : scope.contracts.Perm names)
    (written : Option Source.TypeRef) :
    returnType (scope.knowing names) written = returnType scope written := by
  cases written with
  | none => rfl
  | some written =>
    rw [returnType, returnType, resolveType?, resolveType?, resolveType_knowing hnames]

/-- Two members with the numbers of the next temporaries are the same but for the names of
locals. -/
abbrev SameMember {α : Type} (nameless : α → α) (r r' : α × Nat) : Prop :=
  nameless r'.1 = nameless r.1

/-- A constructor resolves in both scopes or in neither. -/
theorem construction_knowing (hnames : scope.contracts.Perm names) (c : Source.Constructor)
    (next next' : Nat) :
    Paired (SameMember Construction.nameless) (construction scope next c)
      (construction (scope.knowing names) next' c) := by
  refine (@parameters_paired scope.withoutLocals names hnames c.params).bind ?_
  rintro ⟨params, inner⟩ _ ⟨rfl, hinner⟩
  refine (body_knowing hinner _ next next').bind fun r r' hsame => ?_
  simp [SameMember, Construction.nameless, hsame.body]

/-- A method resolves in both scopes or in neither. -/
theorem routine_knowing (hnames : scope.contracts.Perm names) (m : Source.Method)
    (visibility : Visibility) (next next' : Nat) :
    Paired (SameMember Routine.nameless) (routine scope next visibility m)
      (routine (scope.knowing names) next' visibility m) := by
  refine (@parameters_paired scope.withoutLocals names hnames m.params).bind ?_
  rintro ⟨params, inner⟩ _ ⟨rfl, hinner⟩
  dsimp only
  rw [returnType_knowing hnames]
  refine .bind_same fun returns => (body_knowing hinner _ next next').bind fun r r' hsame => ?_
  simp [SameMember, Routine.nameless, hsame.body]

/-- So does a property whose initializer is an arrow, which is a method. -/
theorem arrowRoutine_knowing (hnames : scope.contracts.Perm names) (property : Source.Property)
    (arrow : Source.Arrow) (visibility : Visibility) (next next' : Nat) :
    Paired (SameMember Routine.nameless) (arrowRoutine scope next visibility property arrow)
      (arrowRoutine (scope.knowing names) next' visibility property arrow) := by
  refine (@parameters_paired scope.withoutLocals names hnames arrow.params).bind ?_
  rintro ⟨params, inner⟩ _ ⟨rfl, hinner⟩
  dsimp only
  rw [returnType_knowing hnames]
  split
  · refine .bind_same fun returns => (body_knowing hinner _ next next').bind fun r r' hsame => ?_
    simp [SameMember, Routine.nameless, hsame.body]
  · split
    · refine .bind_same fun returns =>
        (statement_knowing hinner _ next next').bind fun r r' hsame => ?_
      simp [SameMember, Routine.nameless, hsame.body]
    · refine (expression_knowing hinner _).bind fun v _ hv => ?_
      subst hv
      simp only [typeOf_knowing]
      refine .bind_same fun returns =>
        (statement_knowing hinner _ next next').bind fun r r' hsame => ?_
      simp [SameMember, Routine.nameless, hsame.body]

theorem propertyType_knowing (hnames : scope.contracts.Perm names) (property : Source.Property) :
    Paired (· = ·) (propertyType scope property) (propertyType (scope.knowing names) property) := by
  rw [propertyType, propertyType]
  split
  · rw [resolveType_knowing hnames]
    exact .refl _
  · refine (expression_knowing hnames _).bind fun v _ hv => ?_
    subst hv
    rw [typeOf_knowing]
    exact .refl _
  · exact paired_throw

/-- The types of the properties are collected alike, by induction on the members. -/
theorem propertyTypes_knowing (hnames : scope.contracts.Perm names)
    (members : List Source.ClassMember) (types : Table Ty) :
    Paired (· = ·) (propertyTypes scope members types)
      (propertyTypes (scope.knowing names) members types) := by
  induction members generalizing types with
  | nil => exact .refl _
  | cons m rest ih =>
    rw [propertyTypes, propertyTypes]
    split
    · exact ih types
    · split
      · exact ih types
      · refine (@propertyType_knowing { scope with properties := types } names hnames _).bind ?_
        rintro type _ rfl
        exact ih _

/-- A variable has the same type and initial value. -/
theorem stateVar_knowing (hnames : scope.contracts.Perm names) (modifiers : List Source.Modifier)
    (property : Source.Property) :
    Paired (· = ·) (stateVar scope modifiers property)
      (stateVar (scope.knowing names) modifiers property) := by
  refine .check .rfl fun _ => ?_
  dsimp only
  split
  · refine .check .rfl fun _ => (expression_knowing hnames _).bind ?_
    rintro v _ rfl
    exact .refl _
  · exact .refl _

/-! ## Classes -/

/-- Two classes are resolved alike so far. -/
structure SamePart (p q : PartialClass) : Prop where
  names : p.names = q.names
  contract : p.contract.nameless = q.contract.nameless

variable {p q : PartialClass}

/-- A name is free in both parts of a class, or taken in both. -/
theorem SamePart.claim (h : SamePart p q) (pos : Position) (name : String) :
    Paired SamePart (p.claim pos name) (q.claim pos name) := by
  refine .ite (by rw [h.names]) (fun _ => trivial) fun _ => ⟨?_, h.contract⟩
  rw [h.names]

theorem SamePart.addMethod (h : SamePart p q) {m m' : Routine × Nat}
    (hm : SameMember Routine.nameless m m') : SamePart (p.addMethod m) (q.addMethod m') := by
  have hcontract := h.contract
  simp only [Contract.nameless, Contract.mk.injEq] at hcontract
  exact ⟨h.names, by simp [PartialClass.addMethod, Contract.nameless, hcontract, hm.symm]⟩

theorem SamePart.addVariable (h : SamePart p q) (v : StateVar) :
    SamePart (p.addVariable v) (q.addVariable v) := by
  have hcontract := h.contract
  simp only [Contract.nameless, Contract.mk.injEq] at hcontract
  exact ⟨h.names, by simp [PartialClass.addVariable, Contract.nameless, hcontract]⟩

/-- **A member is added alike**, whatever kind it is of. -/
theorem addMember_knowing (hnames : scope.contracts.Perm names) (h : SamePart p q)
    (m : Source.ClassMember) :
    Paired SamePart (addMember scope p m) (addMember (scope.knowing names) q m) := by
  rw [addMember, addMember]
  refine .check .rfl fun _ => ?_
  have hcontract := h.contract
  simp only [Contract.nameless, Contract.mk.injEq] at hcontract
  dsimp only
  split
  · refine .check ?_ fun _ => (construction_knowing hnames _ _ _).bind fun k k' hk => ?_
    · rw [← Option.isSome_map, hcontract.2.2.2.2.1, Option.isSome_map]
    · exact ⟨h.names, by simp [Contract.nameless, hcontract, hk.symm]⟩
  · refine (h.claim _ _).bind fun p q h => (routine_knowing hnames _ _ _ _).bind ?_
    exact fun m m' hm => h.addMethod hm
  · refine .ite .rfl (fun _ => h) fun _ => (h.claim _ _).bind fun p q h => ?_
    split
    · refine (arrowRoutine_knowing hnames _ _ _ _ _).bind fun m m' hm => h.addMethod hm
    · refine (stateVar_knowing hnames _ _).bind ?_
      rintro v _ rfl
      exact h.addVariable v

/-- **A class becomes the same contract, but for the names of locals**, where the contracts of the
build are known in another order and another number of temporaries was handed out. -/
theorem contract_knowing (hnames : scope.contracts.Perm names) (c : Source.ClassDecl)
    (file : String) (next next' : Nat) :
    Paired (SameMember Contract.nameless) (contract scope next file c)
      (contract (scope.knowing names) next' file c) := by
  have hevents : ownEvents (scope.knowing names) c = ownEvents scope c := rfl
  rw [contract, contract, hevents]
  refine .bind_same fun events => ?_
  dsimp only
  split
  · exact paired_throw
  · refine (@propertyTypes_knowing { scope with properties := [] } names hnames c.members []).bind
      ?_
    rintro properties _ rfl
    let start (next : Nat) : PartialClass :=
      { contract := { pos := c.pos, name := c.name, file, bases := c.bases, events }, next }
    have hstart : SamePart (start next) (start next') := ⟨rfl, rfl⟩
    refine (Paired.foldlM (fun m p q h => ?_) hstart).bind fun p q h => h.contract.symm
    exact @addMember_knowing (classScope scope events properties) names p q hnames h m

end Resolve

end Covenant
