import Covenant.Proofs.Code.Objects
import Covenant.Proofs.Simulation.Accesses
import Covenant.Proofs.Storage.Readonly
import Mathlib.Data.List.Nodup

/-!
# Readonly properties with one source

A build blames a readonly property only where it has no single source, where a method assigns it,
or where a literal that is written into the code is assigned during construction: then the source is
the assignment itself, which is refused all the same (`AssignsLiteral`). Without that, contracts
whose readonly properties are sound are never refused for one of them. A property that is written
into the code has a function in both pieces of code that gives the word of the literal.
-/

namespace Covenant

namespace Storage

/-- Whether the value of a property is fixed, in the code that creates the contract or in the code
that stays. -/
def Location.isFixed (creation : Bool) : Location → Bool
  | .inlined _ _ => true
  | .staged _ _ => !creation
  | _ => false

/-- **A literal that is written into the code is assigned during construction**, in the body of the
constructor or as the initial value of an earlier property of the same name. -/
def AssignsLiteral (c : Contract) : Prop :=
  ∃ v, lastVar? c v.name = some v ∧ HasLiteral c v ∧
    (assignments v.name c.constructorBody ≠ [] ∨
      ∃ w ∈ c.stateVars, w.name = v.name ∧ w.initial.isSome ∧ ¬ HasLiteral c w)

end Storage

namespace Emit

open Storage

variable {x : Context}

/-! ## Failures of expressions -/

section Expressions

variable {pos : Position} {name : String} {e : Expr}

theorem blameless_sourceOf : Blameless (sourceOf e) := by
  unfold sourceOf
  split <;> simp

/-- A property that is not found is no wrong source. -/
theorem blameless_location : Blameless (x.location pos name) := by
  unfold Context.location
  split <;> simp

theorem blameless_checkIndexed {given : Nat} : Blameless (x.checkIndexed pos name given) := by
  unfold Context.checkIndexed
  have hcount (wanted : Nat) :
      Blameless (if given ≠ wanted then throw (.malformed pos (.entryCount name wanted given))
        else pure () : Except Failure Unit) := by
    split_ifs
    · exact blameless_malformed rfl
    · exact failsWith_ok
  refine blameless_location.bind fun location _ => ?_
  dsimp only
  split
  · exact hcount _
  · exact hcount 1
  · exact blameless_unsupported.bind fun _ _ => hcount _

theorem blameless_readProperty : Blameless (x.readProperty pos name) := by
  unfold Context.readProperty
  refine blameless_location.bind fun location _ => ?_
  split <;> simp

theorem blameless_readLength : Blameless (x.readLength pos name) := by
  unfold Context.readLength
  refine blameless_location.bind fun location _ => ?_
  split <;> simp

theorem blameless_readEnvironment {space member : String} :
    Blameless (Context.readEnvironment pos space member) := by
  unfold Context.readEnvironment
  split <;> simp

theorem blameless_internalCall {target : String} {args : Nat} :
    Blameless (x.internalCall e target args) := by
  unfold Context.internalCall
  split
  · simp
  · split_ifs
    · exact blameless_malformed rfl
    · exact blameless_sourceOf.bind fun _ _ => by simp
    · exact failsWith_ok

theorem blameless_externalCall {contract target : String} {args : Nat} :
    Blameless (x.externalCall e contract target args) := by
  unfold Context.externalCall
  split
  · simp
  split
  · simp
  split_ifs
  · exact blameless_malformed rfl
  · exact blameless_sourceOf.bind fun _ _ => by simp
  · simp
  · exact failsWith_ok

theorem blameless_checkDeploy {contract : String} {args : Nat} :
    Blameless (x.checkDeploy pos contract args) := by
  unfold Context.checkDeploy
  split
  · simp
  · dsimp only
    split_ifs
    · exact blameless_malformed rfl
    · exact failsWith_ok

/-- A receiver that is not known is no wrong source. -/
theorem blameless_storedReceiver : Blameless (x.storedReceiver e pos name) := by
  unfold Context.storedReceiver
  split
  · simp
  split
  · exact blameless_readProperty.bind fun _ _ => failsWith_pure
  · exact blameless_sourceOf.bind fun _ _ => by simp

mutual
/-- **No failure of an expression blames the source of a readonly variable**, by induction on the
expression. -/
theorem blameless_expr : ∀ e : Expr, Blameless (x.expr e)
  | .literal _ _ _ => by
    rw [Context.expr]
    exact blameless_literalWord.bind fun _ _ => failsWith_pure
  | .var _ _ => by
    rw [Context.expr]
    exact failsWith_ok
  | .storage _ _ => by
    rw [Context.expr]
    exact blameless_readProperty
  | .entry _ _ indices => by
    rw [Context.expr]
    exact blameless_checkIndexed.bind fun _ _ =>
      (blameless_exprs indices).bind fun _ _ => failsWith_pure
  | .length _ _ => by
    rw [Context.expr]
    exact blameless_readLength
  | .binary _ _ left right => by
    rw [Context.expr]
    exact (blameless_expr left).bind fun _ _ =>
      (blameless_expr right).bind fun _ _ => failsWith_pure
  | .not _ value => by
    rw [Context.expr]
    exact (blameless_expr value).bind fun _ _ => failsWith_pure
  | .this _ => by
    rw [Context.expr]
    exact failsWith_ok
  | .external _ _ address => by
    rw [Context.expr]
    exact blameless_expr address
  | .environment _ _ _ => by
    rw [Context.expr]
    exact blameless_readEnvironment
  | .hash _ inputs => by
    rw [Context.expr]
    exact (blameless_exprs inputs).bind fun _ _ => failsWith_pure
  | .call pos target receiver args => by
    have hargs := blameless_exprs args
    cases receiver with
    | this =>
      rw [Context.expr]
      exact hargs.bind fun _ _ => blameless_internalCall.bind fun _ _ => failsWith_pure
    | external _ _ address =>
      rw [Context.expr]
      exact hargs.bind fun _ _ => (blameless_expr address).bind fun _ _ =>
        blameless_externalCall.bind fun _ _ => failsWith_pure
    | storage =>
      rw [Context.expr]
      exact hargs.bind fun _ _ => blameless_storedReceiver.bind fun _ _ =>
        blameless_externalCall.bind fun _ _ => failsWith_pure
    -- any other receiver: refused with the text of the whole call, after the arguments
    | _ =>
      rw [Context.expr]
      all_goals first
        | exact hargs.bind fun _ _ => blameless_sourceOf.bind fun _ _ => by simp
        | simp
  | .deploy _ _ args => by
    rw [Context.expr]
    exact blameless_checkDeploy.bind fun _ _ =>
      (blameless_exprs args).bind fun _ _ => failsWith_pure
  | .conditional _ _ _ _ => by
    rw [Context.expr]
    exact blameless_sourceOf.bind fun _ _ => by simp
  | .record _ _ _ => by
    rw [Context.expr]
    exact blameless_sourceOf.bind fun _ _ => by simp
  | .missing => by
    rw [Context.expr]
    simp

/-- **The code of expressions does not fail for a readonly property.** -/
theorem blameless_exprs : ∀ es : List Expr, Blameless (x.exprs es)
  | [] => by
    rw [Context.exprs]
    exact failsWith_ok
  | e :: es => by
    rw [Context.exprs]
    exact (blameless_expr e).bind fun _ _ => (blameless_exprs es).bind fun _ _ => failsWith_pure
end

end Expressions

/-! ## Failures of statements -/

/-- **Statements set no property whose value is fixed**, not even in branches. -/
def Context.Spares (x : Context) (body : List Stmt) : Prop :=
  ∀ pos name value, .setProperty pos name value ∈ Stmt.substatementsAll body →
    ∀ location, x.layout.location? name = some location → location.isFixed x.creation = false

theorem Context.spares_append (first second : List Stmt) :
    x.Spares (first ++ second) ↔ x.Spares first ∧ x.Spares second := by
  simp only [Context.Spares, Stmt.substatementsAll_append, List.mem_append]
  exact ⟨fun h => ⟨fun _ _ _ hs => h _ _ _ (.inl hs), fun _ _ _ hs => h _ _ _ (.inr hs)⟩,
    fun h _ _ _ hs => hs.elim (h.1 _ _ _) (h.2 _ _ _)⟩

theorem Context.spares_cons {s : Stmt} {rest : List Stmt} :
    x.Spares (s :: rest) ↔ x.Spares [s] ∧ x.Spares rest :=
  Context.spares_append [s] rest

/-- A body that spares the fixed variables spares them in every branch. -/
theorem Context.spares_branch {pos : Position} {condition : Expr} {yes no : List Stmt}
    (h : x.Spares [.branch pos condition yes no]) : x.Spares yes ∧ x.Spares no := by
  refine (Context.spares_append yes no).1 fun pos name value hs => h pos name value ?_
  simp only [Stmt.substatementsAll, Stmt.substatements, Stmt.substatementsAll_append] at hs ⊢
  exact List.mem_append_left _ (List.mem_cons_of_mem _ hs)

section Statements

variable {returns : Ty}

/-- An assignment is refused for the sake of a readonly variable only. -/
theorem blameless_checkAssignable {pos : Position} {name : String}
    (h : ∀ location, x.layout.location? name = some location →
      location.isFixed x.creation = false) : Blameless (x.checkAssignable pos name) := by
  unfold Context.checkAssignable
  refine blameless_location.bind fun location hlocation => ?_
  have hfixed := h location (location_eq_ok.1 hlocation)
  cases location with
  | scalar => exact failsWith_ok
  | staged =>
    have hcreation : x.creation = true := by simpa [Location.isFixed] using hfixed
    simp [hcreation]
  | inlined => cases hfixed
  | array | mapping => exact blameless_unsupported

theorem blameless_checkResult : Blameless (checkResult returns) := by
  unfold checkResult
  split <;> simp

theorem blameless_exit {pos : Position} {value : Expr} :
    Blameless (x.exit pos returns value) := by
  unfold Context.exit
  split
  · refine blameless_checkResult.bind fun _ _ => ?_
    dsimp only
    split_ifs
    · exact (blameless_malformed rfl).bind fun _ _ =>
        (blameless_exprs _).bind fun _ _ => failsWith_pure
    · exact (blameless_exprs _).bind fun _ _ => failsWith_pure
  · refine blameless_checkResult.bind fun _ _ => ?_
    split
    · exact (blameless_expr _).bind fun _ _ => failsWith_pure
    · exact blameless_malformed rfl

mutual
/-- **No failure of a statement does so**, if it spares the fixed variables. -/
theorem blameless_statement : ∀ s : Stmt, x.Spares [s] → Blameless (x.statement returns s)
  | .setProperty pos name value, h => by
    rw [Context.statement]
    -- Of all statements only an assignment to a property asks whether it may be written.
    have hself := h pos name value (List.mem_singleton.2 rfl)
    exact (blameless_checkAssignable hself).bind fun _ _ =>
      (blameless_expr value).bind fun _ _ => failsWith_pure
  | .setEntry _ _ indices value, _ => by
    rw [Context.statement]
    exact blameless_checkIndexed.bind fun _ _ => (blameless_exprs indices).bind fun _ _ =>
      (blameless_expr value).bind fun _ _ => failsWith_pure
  | .declare _ _ _ none, _ => by
    rw [Context.statement]
    exact failsWith_ok
  | .declare _ _ _ (some value), _ => by
    rw [Context.statement]
    exact (blameless_expr value).bind fun _ _ => failsWith_pure
  | .setVariable _ _ value, _ => by
    rw [Context.statement]
    exact (blameless_expr value).bind fun _ _ => failsWith_pure
  | .exit _ none, _ => by
    rw [Context.statement]
    exact failsWith_ok
  | .exit _ (some _), _ => by
    rw [Context.statement]
    exact blameless_exit
  | .branch _ condition yes no, h => by
    obtain ⟨hyes, hno⟩ := Context.spares_branch h
    rw [Context.statement]
    refine (blameless_expr condition).bind fun _ _ =>
      (blameless_statements yes hyes).bind fun _ _ => ?_
    split_ifs
    · exact failsWith_pure
    · exact (blameless_statements no hno).bind fun _ _ => failsWith_pure
  | .throw _ message, _ => by
    rw [Context.statement]
    exact (blameless_expr message).bind fun _ _ => failsWith_pure
  | .emit _ _ args, _ => by
    rw [Context.statement]
    split_ifs
    · exact (blameless_exprs args).bind fun _ _ => failsWith_pure
    · simp
  | .evaluate _ value, _ => by
    rw [Context.statement]
    exact (blameless_expr value).bind fun _ _ => failsWith_pure
  | .skip _, _ => by
    rw [Context.statement]
    exact failsWith_ok

/-- **The code of a body that sets no fixed property does not fail for one.** -/
theorem blameless_statements : ∀ body : List Stmt, x.Spares body →
    Blameless (x.statements returns body)
  | [], _ => by
    rw [Context.statements]
    exact failsWith_ok
  | s :: rest, h => by
    obtain ⟨hs, hrest⟩ := Context.spares_cons.1 h
    rw [Context.statements]
    exact (blameless_statement s hs).bind fun _ _ =>
      (blameless_statements rest hrest).bind fun _ _ => failsWith_pure
end

theorem blameless_method {m : Routine} (h : x.Spares m.body) : Blameless (x.method m) :=
  (blameless_statements m.body h).bind fun _ _ =>
    blameless_checkResult.bind fun _ _ => failsWith_pure

theorem blameless_constructorBody {k : Construction} (h : x.Spares k.body) :
    Blameless (x.constructorBody k) :=
  (blameless_statements k.body h).bind fun _ _ => failsWith_pure

end Statements

/-! ## Failures of pieces -/

theorem blameless_checkLogged {bodies : List Stmt} : Blameless (x.checkLogged bodies) := by
  unfold Context.checkLogged
  split_ifs <;> simp

/-- The code of the creation fails for other reasons, if initial values, constructor and methods
spare them. -/
theorem blameless_creationPiece (hinitializers : x.Spares x.initializers)
    (hconstructor : x.Spares x.contract.constructorBody)
    (hmethods : ∀ m ∈ x.contract.methods, x.Spares m.body) : Blameless x.creationPiece := by
  unfold Context.creationPiece
  refine (blameless_statements _ hinitializers).bind fun _ _ => ?_
  refine FailsWith.bind (.mapM fun k hk => blameless_constructorBody ?_) fun _ _ => ?_
  · rw [Contract.constructorBody, Option.mem_toList.1 hk] at hconstructor
    exact hconstructor
  refine FailsWith.bind (.mapM fun m hm => blameless_method (hmethods m ?_)) fun _ _ => ?_
  · exact List.mem_of_mem_filter hm
  exact blameless_checkLogged.bind fun _ _ => failsWith_pure

theorem blameless_runtimePiece (hmethods : ∀ m ∈ x.contract.methods, x.Spares m.body) :
    Blameless x.runtimePiece := by
  unfold Context.runtimePiece
  refine FailsWith.bind (.forM fun m _ => blameless_checkResult) fun _ _ => ?_
  refine FailsWith.bind (.mapM fun m hm => blameless_method (hmethods m hm)) fun _ _ => ?_
  exact blameless_checkLogged.bind fun _ _ => failsWith_pure

/-! ## Failures of builds -/

section Contracts

variable {r : Registry} {c : Contract} {layout : Layout} {creation : Bool}

/-- No method sets a property whose value is fixed. -/
theorem spares_method (hplan : plan c = .ok layout) {m : Routine} (hm : m ∈ c.methods) :
    (Context.mk r c layout creation).Spares m.body := by
  intro pos name value hs location hlocation
  obtain ⟨v, -, rfl, -, hplaced⟩ := placed_of_location? hplan hlocation
  have hassigned : value ∈ assignments v.name m.body := mem_assignments.2 ⟨pos, hs⟩
  cases hplaced with
  | kept _ hkept => cases location <;> first | rfl | exact absurd trivial hkept
  | inlined _ hsound => rw [hsound.unassigned m hm] at hassigned; cases hassigned
  | staged _ hsound => rw [hsound.unassigned m hm] at hassigned; cases hassigned

/-- What is fixed while the contract is created is a literal. -/
theorem hasLiteral_of_isFixed (hplan : plan c = .ok layout) {name : String} {location : Location}
    (hlocation : layout.location? name = some location) (hfixed : location.isFixed true = true) :
    ∃ v, lastVar? c name = some v ∧ v.name = name ∧ HasLiteral c v := by
  obtain ⟨v, hlast, hname, -, hplaced⟩ := placed_of_location? hplan hlocation
  refine ⟨v, hlast, hname, hplaced.isInlined_iff.1 ?_⟩
  cases location <;> first | rfl | cases hfixed

/-- The constructor sets a property whose value is fixed only where it assigns a literal. -/
theorem spares_constructor (hplan : plan c = .ok layout) (h : ¬ AssignsLiteral c) :
    (Context.mk r c layout true).Spares c.constructorBody := by
  intro pos name value hs location hlocation
  rw [← Bool.not_eq_true]
  intro hfixed
  obtain ⟨v, hlast, rfl, hliteral⟩ := hasLiteral_of_isFixed hplan hlocation hfixed
  exact h ⟨v, hlast, hliteral, .inl (List.ne_nil_of_mem (mem_assignments.2 ⟨pos, hs⟩))⟩

/-- What is set in front of the constructor: the initial values of all variables that are not
inlined. -/
theorem mem_initializers {x : Context} {s : Stmt} :
    s ∈ x.initializers ↔ ∃ cell ∈ x.layout.cells, cell.location.isInlined = false ∧
      ∃ e ∈ cell.owner.initial, s = .setProperty cell.owner.pos cell.name e := by
  constructor
  · intro h
    obtain ⟨cell, hcell, h⟩ := List.mem_filterMap.1 h
    split at h
    · cases h
    · rename_i hinlined
      obtain ⟨e, he, rfl⟩ := Option.map_eq_some_iff.1 h
      exact ⟨cell, hcell, Bool.eq_false_iff.2 hinlined, e, he, rfl⟩
  · rintro ⟨cell, hcell, hinlined, e, he, rfl⟩
    refine List.mem_filterMap.2 ⟨cell, hcell, ?_⟩
    rw [hinlined, if_neg Bool.false_ne_true, Option.mem_def.1 he, Option.map_some]

/-- So do the initial values, of properties that share their name with a later one. -/
theorem spares_initializers (hplan : plan c = .ok layout) (h : ¬ AssignsLiteral c) :
    (Context.mk r c layout true).Spares (Context.mk r c layout true).initializers := by
  intro pos name value hs location hlocation
  rw [← Bool.not_eq_true]
  intro hfixed
  obtain ⟨v, hlast, rfl, hliteral⟩ := hasLiteral_of_isFixed hplan hlocation hfixed
  rw [Stmt.substatementsAll_eq_flatMap] at hs
  obtain ⟨part, hpart, hs⟩ := List.mem_flatMap.1 hs
  obtain ⟨cell, hcell, hinlined, e, he, rfl⟩ := mem_initializers.1 hpart
  obtain ⟨-, hname, -⟩ := Stmt.setProperty.inj (List.mem_singleton.1 hs)
  have howner : cell.owner ∈ c.stateVars := by
    rw [← plan_owners hplan]
    exact List.mem_map_of_mem hcell
  have hother : ¬ HasLiteral c cell.owner := by
    rw [← (placed_of_plan hplan cell hcell).isInlined_iff, hinlined]
    exact Bool.false_ne_true
  exact h ⟨v, hlast, hliteral,
    .inr ⟨cell.owner, howner, hname.symm, by rw [Option.mem_def.1 he]; rfl, hother⟩⟩

/-- **Readonly properties are no reason to refuse a contract.** -/
structure Spotless (c : Contract) : Prop where
  sound : ReadonlySound c
  literal : ¬ AssignsLiteral c

theorem blameless_checkSelectors : Blameless (Abi.checkSelectors c) := by
  unfold Abi.checkSelectors
  split_ifs
  · simp
  · split
    · exact blameless_malformed rfl
    · exact failsWith_ok

/-- The layout of a contract without wrong sources fails for other reasons. -/
theorem blameless_contextFor (h : Spotless c) : Blameless (contextFor r c) :=
  blameless_checkSelectors.bind fun _ _ => (blameless_plan h.sound).bind fun _ _ => failsWith_pure

section Builds

variable {active : List String}

/-- The object of a contract fails for a readonly property only if one that it deploys does. -/
theorem blameless_build_of (h : Spotless c)
    (hall : ∀ store names, Blameless (buildAll r active store names).1) (store : Store) :
    Blameless (build r active store c).1 := by
  have hcontext := blameless_contextFor (r := r) h
  rw [build]
  split
  · rename_i e he
    exact failsWith_error.2 (hcontext e he)
  rename_i creation runtime hok
  obtain ⟨⟨⟩, -, hok⟩ := bind_eq_ok.1 hok
  obtain ⟨layout, hplan, hok⟩ := bind_eq_ok.1 hok
  cases pure_eq_ok.1 hok
  -- a property that is spotless is assigned where the contract is created and nowhere else
  have hcreation : Blameless (Context.mk r c layout true).creationPiece :=
    blameless_creationPiece (spares_initializers hplan h.literal)
      (spares_constructor hplan h.literal) fun m hm => spares_method hplan hm
  have hruntime : Blameless (Context.mk r c layout false).runtimePiece :=
    blameless_runtimePiece fun m hm => spares_method hplan hm
  split
  · rename_i e he
    exact failsWith_error.2 (hcreation e he)
  rename_i created hcreated
  split
  · rename_i e _ he
    exact failsWith_error.2 (hall store created.deploys e (congrArg Prod.fst he))
  rename_i byCreation store₁ hbyCreation
  split
  · rename_i e he
    exact failsWith_error.2 (hruntime e he)
  rename_i staying hstaying
  split
  · rename_i e _ he
    exact failsWith_error.2 (hall store₁ staying.deploys e (congrArg Prod.fst he))
  · exact failsWith_ok

/-- Objects fail for a readonly property only if one of their contracts does. -/
theorem blameless_buildAll_of
    (hbuild : ∀ name d store, r.get? name = some d → name ∉ active →
      Blameless (build r (name :: active) store d).1) (names : List String) :
    ∀ store, Blameless (buildAll r active store names).1 := by
  -- putting an object in front adds no failure
  have hcons (object : Yul.Object) {result : Except Failure (List Yul.Object) × Store}
      (h : Blameless result.1) : Blameless (Prod.map (Except.map (object :: ·)) id result).1 := by
    obtain ⟨_ | _, _⟩ := result
    · exact failsWith_error.2 (h _ rfl)
    · exact failsWith_ok
  induction names with
  | nil =>
    intro store
    rw [buildAll_nil]
    exact failsWith_ok
  | cons name rest ih =>
    intro store
    cases hkept : store.lookup name with
    | some object =>
      rw [buildAll_of_lookup hkept]
      exact hcons object (ih store)
    | none =>
      cases hd : r.get? name with
      | none =>
        rw [buildAll_of_unknown hkept hd]
        exact ih store
      | some d =>
        by_cases hactive : name ∈ active
        · rw [buildAll_of_active hkept hd hactive]
          exact blameless_malformed rfl
        have hblameless := hbuild name d store hd hactive
        cases hresult : build r (name :: active) store d with
        | mk result store₁ =>
          rw [hresult] at hblameless
          cases result with
          | error e =>
            rw [buildAll_of_error hkept hd hactive hresult]
            exact failsWith_error.2 (hblameless e rfl)
          | ok object =>
            rw [buildAll_of_build hkept hd hactive hresult]
            exact hcons object (ih store₁)

/-- **No object fails for a readonly property** where that is no reason to refuse any contract. -/
theorem blameless_build (hall : ∀ d ∈ r.contracts, Spotless d) (hc : Spotless c) (store : Store) :
    Blameless (build r active store c).1 := by
  -- each contract within is generated while one contract more is
  obtain ⟨n, hn⟩ : ∃ n, n = idle r active := ⟨_, rfl⟩
  induction n using Nat.strongRecOn generalizing active c store with
  | ind n ih =>
    refine blameless_build_of hc (fun store names => blameless_buildAll_of ?_ names store) store
    intro name d store hd hactive
    exact ih _ (hn ▸ idle_cons_lt hd hactive) (hall d (Registry.of_get?_eq_some hd).1) store rfl

/-- **So does the code of a contract**, and of all those that it deploys. -/
theorem blameless_emit (hall : ∀ d ∈ r.contracts, Spotless d) (hc : c ∈ r.contracts)
    (store : Store) : Blameless (emit r store c).1 := by
  unfold emit
  split
  · exact failsWith_ok
  · exact blameless_build hall (hall c hc) store

end Builds

/-! ## Refusals and getters -/

/-- A body that sets a fixed property has no code. -/
theorem spares_of_codes {x : Context} {returns : Ty} {body : List Stmt} {code : List Yul.Stmt}
    (h : CodesBody x returns body code) : x.Spares body := by
  intro pos name value hs location hlocation
  obtain ⟨_, hcode⟩ := h.substatements _ hs
  cases hcode with
  | @setProperty _ _ found _ _ hfound hassignable =>
    rw [← Option.some.inj (hfound.symm.trans hlocation)]
    cases found with
    | staged => simpa [Location.isFixed, Location.isAssignable] using hassignable
    | inlined => cases hassignable
    | _ => rfl

/-- **A contract that assigns a literal which is written into the code is not accepted.** -/
theorem Accepted.not_assignsLiteral {created staying : Piece}
    (h : Accepted r c layout created staying) : ¬ AssignsLiteral c := by
  rintro ⟨v, hlast, hliteral, hassigned⟩
  obtain ⟨location, hlocation, hplaced⟩ := exists_location? h.plan hlast
  have hfixed : location.isFixed true = true := by
    have hinlined := hplaced.isInlined_iff.2 hliteral
    cases location <;> first | rfl | cases hinlined
  -- whatever has code assigns nothing that stands in the code
  have hspared {body : List Stmt} (hspares : (Context.mk r c layout true).Spares body)
      (pos : Position) (value : Expr) :
      .setProperty pos v.name value ∉ Stmt.substatementsAll body := fun hs => by
    rw [hspares pos v.name value hs location hlocation] at hfixed
    cases hfixed
  -- assigned by the constructor, or by the initial value of another property of the name
  rcases hassigned with hassigned | ⟨w, hw, hname, hinitial, hother⟩
  · obtain ⟨value, hvalue⟩ := List.exists_mem_of_ne_nil _ hassigned
    obtain ⟨pos, hs⟩ := mem_assignments.1 hvalue
    cases hconstruction : c.construction with
    | none => simp [Contract.constructorBody, hconstruction, Stmt.substatementsAll] at hs
    | some k =>
      obtain ⟨code, hcode⟩ := h.construction k hconstruction
      refine hspared (spares_of_codes hcode) pos value ?_
      simpa [Contract.constructorBody, hconstruction] using hs
  · obtain ⟨prologue, -, -, hprologue, -⟩ := creationPiece_eq_ok h.creation
    rw [← plan_owners h.plan] at hw
    obtain ⟨cell, hcell, rfl⟩ := List.mem_map.1 hw
    obtain ⟨e, he⟩ := Option.isSome_iff_exists.1 hinitial
    refine hspared (spares_of_codes (codes_of_statements hprologue)) cell.owner.pos e ?_
    rw [Stmt.substatementsAll_eq_flatMap]
    refine List.mem_flatMap.2 ⟨_, mem_initializers.2 ⟨cell, hcell, ?_, e, he, rfl⟩, ?_⟩
    · rw [← Bool.not_eq_true, (placed_of_plan h.plan cell hcell).isInlined_iff]
      exact hother
    · rw [show cell.name = v.name from hname]
      exact List.mem_singleton.2 rfl

/-- The functions of a variable are in both pieces. -/
theorem Accepted.mem_functions {created staying : Piece} (h : Accepted r c layout created staying)
    {cell : Cell} (hcell : cell ∈ layout.cells) (creation : Bool) (setting : Yul.Setting)
    {f : Yul.Function} (hf : .function setting f ∈ accessors creation cell) :
    f ∈ (cond creation created staying).code.functions := by
  cases creation with
  | true =>
    obtain ⟨_, _, _, -, -, -, rfl⟩ := creationPiece_eq_ok h.creation
    exact mem_functions_of_accessor rfl hcell hf
  | false =>
    obtain ⟨_, -, rfl⟩ := runtimePiece_eq_ok h.runtime
    exact mem_functions_of_accessor (dispatcher_functions _) hcell hf

/-- **A property with a literal for its source** has a function in both pieces that gives the word
of the literal. -/
theorem Accepted.literal_getter {created staying : Piece}
    (h : Accepted r c layout created staying) {v : StateVar} (hv : v ∈ c.stateVars)
    (hword : v.isReadonlyWord = true) {pos : Position} {type : Ty} {text : String}
    (hsource : sources c v = [.literal pos type text]) :
    ∃ word, literalWord pos type text = .ok word ∧
      ∀ creation, Simulation.wordGetter v.name (.literal word) ∈
        (cond creation created staying).code.functions := by
  rw [← plan_owners h.plan] at hv
  obtain ⟨cell, hcell, rfl⟩ := List.mem_map.1 hv
  have hplaced := placed_of_plan h.plan cell hcell
  generalize hlocation : cell.location = location at hplaced
  cases hplaced with
  | kept hkept => exact absurd hword (by simp [hkept])
  | staged _ _ hstaged hother =>
    exact absurd (List.cons.inj (hstaged.symm.trans hsource)).1 (hother _ _ _)
  | inlined _ _ hinlined hliteral =>
    obtain ⟨rfl, rfl, rfl⟩ := Expr.literal.inj (List.cons.inj (hinlined.symm.trans hsource)).1
    refine ⟨_, hliteral, fun creation => h.mem_functions hcell creation .inline ?_⟩
    simp [accessors, hlocation, reader, Simulation.wordGetter, Cell.name]

/-- The object of a contract holds the pieces of its code, also where it was generated before. -/
theorem accepted_of_emit {store : Store} {object : Yul.Object}
    (hstore : store.lookup c.name = none ∨ (Grown r store ∧ r.get? c.name = some c))
    (h : (emit r store c).1 = .ok object) :
    ∃ layout created staying, Accepted r c layout created staying ∧
      ∀ creation, object.code creation = (cond creation created staying).code := by
  rcases hstore with hnone | ⟨hgrown, hc⟩
  · rw [emit, hnone] at h
    obtain ⟨layout, created, staying, _, _, haccepted, rfl⟩ := accepted_of_build h
    exact ⟨layout, created, staying, haccepted, fun creation => by cases creation <;> rfl⟩
  · obtain ⟨layout, created, staying, haccepted, hcodes⟩ := (hgrown.generated hc h).accepted
    exact ⟨layout, created, staying, haccepted, fun creation => (hcodes creation).1⟩

end Contracts

/-- **A readonly property with one source is accepted, unless that is a literal which is assigned.**
If all readonly properties of all contracts are sound, no layout fails for one of them; nor does an
object, if no contract assigns a literal that is written into its code, and a contract that does so
is never accepted. A contract with a property that is not sound has no layout. If a contract is
accepted, each property with a literal for its source has a function in both pieces of code that
gives the word of the literal. -/
theorem readonly_accepted (r : Registry) :
    ((∀ d ∈ r.contracts, ReadonlySound d) →
      (∀ c ∈ r.contracts, Blameless (plan c)) ∧
        ((∀ d ∈ r.contracts, ¬ AssignsLiteral d) →
          ∀ c ∈ r.contracts, ∀ store, Blameless (emit r store c).1)) ∧
    (∀ c store, AssignsLiteral c → store.lookup c.name = none →
      ∀ object, (emit r store c).1 ≠ .ok object) ∧
    (∀ c, ¬ ReadonlySound c → ∃ e, plan c = .error e) ∧
    ∀ c store object, store.lookup c.name = none ∨ (Grown r store ∧ r.get? c.name = some c) →
      (emit r store c).1 = .ok object → ∀ v ∈ c.stateVars, v.isReadonlyWord = true →
        ∀ pos type text, sources c v = [.literal pos type text] →
          ∃ word, literalWord pos type text = .ok word ∧ ∀ creation,
            ∃ f ∈ (object.code creation).functions, f.name = getter v.name ∧
              ∀ host code rounds s, Machine.runFunction host code rounds f [] s =
                .ok [Word.ofNumeral word] s := by
  refine ⟨fun hsound => ⟨fun c hc => blameless_plan (hsound c hc), fun hliteral c hc store => ?_⟩,
    fun c store hassigned hstore object h => ?_, fun c hunsound => ?_, ?_⟩
  · exact blameless_emit (fun d hd => ⟨hsound d hd, hliteral d hd⟩) hc store
  · obtain ⟨_, _, _, haccepted, -⟩ := accepted_of_emit (.inl hstore) h
    exact haccepted.not_assignsLiteral hassigned
  · cases hplan : plan c with
    | ok layout => exact absurd (readonlySound_of_plan hplan) hunsound
    | error e => exact ⟨e, rfl⟩
  · intro c store object hstore h v hv hword pos type text hsource
    obtain ⟨_, created, staying, haccepted, hcodes⟩ := accepted_of_emit hstore h
    obtain ⟨word, hliteral, hgetter⟩ := haccepted.literal_getter hv hword hsource
    refine ⟨word, hliteral, fun creation => ⟨Simulation.wordGetter v.name (.literal word), ?_, rfl,
      fun host code rounds s => ?_⟩⟩
    · rw [hcodes]
      exact hgetter creation
    · have heval (locals : Locals Word) :
          Machine.eval (Machine.apply host code rounds) (.literal word) { s with locals } =
            .ok [Word.ofNumeral word] { s with trace := s.trace, locals } := rfl
      exact Simulation.runFunction_wordGetter heval

/-! ## Contracts with a literal -/

/-- A contract with `readonly cap: number = 7; readonly owner: address;` and the constructor
`constructor(by: address) { this.owner = by; }`. -/
def limits : Contract where
  name := "Limits"
  stateVars :=
    [{ name := "cap", type := .number, initial := some (.literal {} .number "7")
       visibility := .hidden, immutable := true },
      { name := "owner", type := .address none, visibility := .hidden, immutable := true }]
  construction := some
    { params := [⟨"by", .address none⟩], body := [.setProperty {} "owner" (.var {} "by")] }

/-- A contract with `readonly cap: number;` and the constructor
`constructor() { this.cap = 7; }`. -/
def frozen : Contract where
  name := "Frozen"
  stateVars := [{ name := "cap", type := .number, visibility := .hidden, immutable := true }]
  construction := some { body := [.setProperty {} "cap" (.literal {} .number "7")] }

/-- A contract with `readonly cap: number;`. -/
def vague : Contract where
  name := "Vague"
  stateVars := [{ name := "cap", type := .number, visibility := .hidden, immutable := true }]

/-- No object is generated without the code that creates the contract. -/
theorem build_of_creation_error {r : Registry} {c : Contract} {active : List String} {store : Store}
    {e : Failure} (h : (contextFor r c >>= fun contexts => contexts.1.creationPiece) = .error e) :
    (build r active store c).1 = .error e := by
  rw [build]
  cases hcontext : contextFor r c with
  | error e' =>
    rw [hcontext] at h
    cases h
    rfl
  | ok contexts =>
    rw [hcontext, ok_bind] at h
    simp only [h]

/-- **The one source of a property may be the reason to refuse it**: a literal that the constructor
assigns. -/
theorem assigned_literal_refused :
    ReadonlySound frozen ∧ ∃ e, (emit { contracts := [frozen] } [] frozen).1 = .error e ∧
      e.IsImmutableSource := by
  refine ⟨by decide, .malformed {} (.lateReadonlyWrite "cap"), ?_,
    Failure.isImmutableSource_malformed.2 rfl⟩
  rw [emit, List.lookup_nil]
  exact build_of_creation_error rfl

/-- Where properties have different names, a literal is assigned by the constructor only. -/
theorem not_assignsLiteral {c : Contract} (hnames : c.variableNames.Nodup)
    (h : ∀ v ∈ c.stateVars, HasLiteral c v → assignments v.name c.constructorBody = []) :
    ¬ AssignsLiteral c := by
  rintro ⟨v, hlast, hliteral, hassigned⟩
  have hv : v ∈ c.stateVars := List.mem_reverse.1 (List.mem_of_find?_eq_some hlast)
  rcases hassigned with hassigned | ⟨w, hw, hname, -, hother⟩
  · exact hassigned (h v hv hliteral)
  · exact hother (List.inj_on_of_nodup_map hnames hw hv hname ▸ hliteral)

/-- The literal of the accepted contract is read in both pieces of its code, and the other two
contracts are refused. -/
theorem readonly_accepted_limits :
    ReadonlySound limits ∧ ¬ AssignsLiteral limits ∧ AssignsLiteral frozen ∧
      ¬ ReadonlySound vague ∧ Blameless (plan limits) ∧
      (∀ store, Blameless (emit { contracts := [limits] } store limits).1) ∧
      (∀ object, (emit { contracts := [limits] } [] frozen).1 ≠ .ok object) ∧
      (∃ e, plan vague = .error e) ∧
      ∃ object, (emit { contracts := [limits] } [] limits).1 = .ok object ∧ ∀ creation,
        ∃ f ∈ (object.code creation).functions, f.name = "get_cap" ∧
          ∀ host code rounds s, Machine.runFunction host code rounds f [] s = .ok [7] s := by
  have hsound : ReadonlySound limits := by decide
  have hspared : ¬ AssignsLiteral limits := by
    refine not_assignsLiteral (by decide) fun v hv hliteral => ?_
    rcases List.mem_cons.1 hv with rfl | hv
    · rfl
    · obtain rfl := List.mem_singleton.1 hv
      obtain ⟨-, _, _, _, hliteral⟩ := hliteral
      cases hliteral
  have hassigned : AssignsLiteral frozen :=
    ⟨{ name := "cap", type := .number, visibility := .hidden, immutable := true }, rfl,
      ⟨rfl, {}, .number, "7", rfl⟩, .inl nofun⟩
  have hunsound : ¬ ReadonlySound vague := by decide
  obtain ⟨haccepted, hrefused, hvague, hgetter⟩ := readonly_accepted { contracts := [limits] }
  obtain ⟨hplan, hemit⟩ := haccepted (List.forall_mem_singleton.2 hsound)
  have hdeploys : deploys? { contracts := [limits] } limits = some ([], []) := by
    decide +kernel
  obtain ⟨object, -, -, hobject⟩ :=
    build_of_deploys ["Limits"] [] hdeploys buildAll_nil buildAll_nil
  have hok : (emit { contracts := [limits] } [] limits).1 = .ok object :=
    congrArg Prod.fst hobject
  refine ⟨hsound, hspared, hassigned, hunsound, hplan limits (List.mem_singleton.2 rfl),
    hemit (List.forall_mem_singleton.2 hspared) limits (List.mem_singleton.2 rfl),
    hrefused frozen [] hassigned rfl, hvague vague hunsound, object, hok, fun creation => ?_⟩
  obtain ⟨word, hword, hcodes⟩ := hgetter limits [] object (.inl rfl) hok _
    List.mem_cons_self rfl {} .number "7" rfl
  cases hword
  obtain ⟨f, hf, hname, hrun⟩ := hcodes creation
  refine ⟨f, hf, hname, fun host code rounds s => ?_⟩
  rw [hrun, show (Word.ofNumeral "7") = 7 from by decide]

end Emit

end Covenant
