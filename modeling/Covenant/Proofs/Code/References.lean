import Covenant.Proofs.Code.Closure

/-!
# References to objects

Code refers to objects by their names, to copy them and to ask for their size. The functions that
deploy contracts do so, and the code that creates a contract, which refers to itself and to the code
that stays (`creationPiece_refers`, `runtimePiece_refers`). Nothing else does: the code of bodies,
of variables and of events applies no operation on objects.
-/

namespace Covenant

namespace Yul

/-! ## The references of code -/

namespace Expr

/-- The name that an expression quotes. -/
def quoted? : Expr → Option String
  | quoted name => some name
  | _ => none

mutual
/-- **The objects that an expression refers to.** -/
def references : Expr → List String
  | literal _ => []
  | quoted _ => []
  | var _ => []
  | call function args =>
    (if function ∈ objectBuiltins then args.filterMap quoted? else []) ++ referencesAll args

/-- The objects that several expressions refer to. -/
def referencesAll : List Expr → List String
  | [] => []
  | e :: es => e.references ++ referencesAll es
end

mutual
/-- Without an operation on objects there is no reference. -/
theorem references_eq_nil : ∀ {e : Expr}, e.AppliesOnly (· ∉ objectBuiltins) → e.references = []
  | literal _, _ => rfl
  | quoted _, _ => rfl
  | var _, _ => rfl
  | call function args, h => by
    rw [appliesOnly_call] at h
    rw [references, if_neg h.1, referencesAll_eq_nil h.2, List.append_nil]

theorem referencesAll_eq_nil : ∀ {es : List Expr},
    (∀ e ∈ es, e.AppliesOnly (· ∉ objectBuiltins)) → referencesAll es = []
  | [], _ => rfl
  | e :: es, h => by
    rw [List.forall_mem_cons] at h
    rw [referencesAll, references_eq_nil h.1, referencesAll_eq_nil h.2, List.append_nil]
end

end Expr

namespace Stmt

mutual
/-- **The objects that a statement refers to.** -/
def references : Stmt → List String
  | evaluate value => value.references
  | declare _ (some value) => value.references
  | declare _ none => []
  | assign _ value => value.references
  | block body => referencesAll body
  | ifThen condition body => condition.references ++ referencesAll body
  | guard condition action => condition.references ++ action.references
  | ifZero condition zero other =>
    condition.references ++ referencesAll zero ++ referencesAll other
  | loop condition step body => condition.references ++ step.references ++ referencesAll body
  | leave => []
  | stop => []

/-- The objects that several statements refer to. -/
def referencesAll : List Stmt → List String
  | [] => []
  | s :: ss => s.references ++ referencesAll ss
end

theorem appliesOnly_loop {P : String → Prop} (condition : Expr) (step : Stmt) (body : List Stmt) :
    (loop condition step body).AppliesOnly P ↔
      condition.AppliesOnly P ∧ step.AppliesOnly P ∧ ∀ s ∈ body, s.AppliesOnly P := by
  unfold AppliesOnly
  rw [calls, List.forall_mem_append, List.forall_mem_append, appliesOnly_callsAll, and_assoc]
  rfl

mutual
/-- Without an operation on objects there is no reference. -/
theorem references_eq_nil : ∀ {s : Stmt}, s.AppliesOnly (· ∉ objectBuiltins) → s.references = []
  | evaluate _, h => Expr.references_eq_nil h
  | declare _ (some _), h => Expr.references_eq_nil h
  | declare _ none, _ => rfl
  | assign _ _, h => Expr.references_eq_nil h
  | block _, h => by
    rw [references, referencesAll_eq_nil ((appliesOnly_block _).1 h)]
  | ifThen _ _, h => by
    rw [appliesOnly_ifThen] at h
    rw [references, Expr.references_eq_nil h.1, referencesAll_eq_nil h.2, List.append_nil]
  | guard _ _, h => by
    rw [appliesOnly_guard] at h
    rw [references, Expr.references_eq_nil h.1, references_eq_nil h.2, List.append_nil]
  | ifZero _ _ _, h => by
    rw [appliesOnly_ifZero] at h
    rw [references, Expr.references_eq_nil h.1, referencesAll_eq_nil h.2.1,
      referencesAll_eq_nil h.2.2, List.append_nil, List.append_nil]
  | loop _ _ _, h => by
    rw [appliesOnly_loop] at h
    rw [references, Expr.references_eq_nil h.1, references_eq_nil h.2.1,
      referencesAll_eq_nil h.2.2, List.append_nil, List.append_nil]
  | leave, _ => rfl
  | stop, _ => rfl

theorem referencesAll_eq_nil : ∀ {body : List Stmt},
    (∀ s ∈ body, s.AppliesOnly (· ∉ objectBuiltins)) → referencesAll body = []
  | [], _ => rfl
  | s :: body, h => by
    rw [List.forall_mem_cons] at h
    rw [referencesAll, references_eq_nil h.1, referencesAll_eq_nil h.2, List.append_nil]
end

/-- A statement refers only to objects of some names. -/
def RefersOnly (P : String → Prop) (s : Stmt) : Prop :=
  ∀ name ∈ s.references, P name

theorem refersOnly_of_appliesOnly {P : String → Prop} {body : List Stmt}
    (h : ∀ s ∈ body, s.AppliesOnly (· ∉ objectBuiltins)) : ∀ s ∈ body, s.RefersOnly P := by
  intro s hs
  rw [RefersOnly, references_eq_nil (h s hs)]
  exact fun _ h => (nomatch h)

theorem refersOnly_referencesAll {P : String → Prop} {body : List Stmt} :
    (∀ name ∈ referencesAll body, P name) ↔ ∀ s ∈ body, s.RefersOnly P := by
  induction body with
  | nil => simp [referencesAll]
  | cons s body ih =>
    rw [referencesAll, List.forall_mem_append, List.forall_mem_cons, ih, RefersOnly]

end Stmt

/-- The objects that a function refers to. -/
def Function.references (f : Function) : List String :=
  Stmt.referencesAll f.body

theorem Function.references_eq_nil {f : Function} (h : ∀ name ∈ f.calls, name ∉ objectBuiltins) :
    f.references = [] :=
  Stmt.referencesAll_eq_nil (Function.forall_mem_calls.1 h)

/-- The objects that an item refers to. -/
def Item.references : Item → List String
  | statement s => s.references
  | function _ f => f.references
  | choice subject cases fallback => subject.references ++
    cases.flatMap (fun c => Stmt.referencesAll c.body) ++ fallback.references

theorem Item.references_eq_nil {item : Item} (h : ∀ name ∈ item.calls, name ∉ objectBuiltins) :
    item.references = [] := by
  cases item with
  | statement s => exact Stmt.references_eq_nil h
  | function setting f => exact Function.references_eq_nil h
  | choice subject cases fallback =>
    simp only [calls, List.forall_mem_append] at h
    obtain ⟨⟨hsubject, hcases⟩, hfallback⟩ := h
    have hbodies : cases.flatMap (fun c => Stmt.referencesAll c.body) = [] := by
      refine List.flatMap_eq_nil_iff.2 fun c hc => ?_
      refine Stmt.referencesAll_eq_nil (Stmt.appliesOnly_callsAll.1 fun name hname => ?_)
      exact hcases name (List.mem_flatMap.2 ⟨c, hc, hname⟩)
    rw [references, Expr.references_eq_nil hsubject, hbodies,
      Stmt.references_eq_nil hfallback]
    rfl

/-- **The objects that code refers to.** -/
def Code.references (code : Code) : List String :=
  code.flatMap fun s => s.items.flatMap Item.references

end Yul

namespace Emit

open Yul.Expr Yul.Stmt

/-! ## Code without references -/

theorem not_object_of_basic : ∀ name ∈ basic, name ∉ Yul.objectBuiltins := by
  decide

/-- What is built in for objects has no underscore in its name. -/
theorem not_object_of_underscore {name : String} (h : '_' ∈ name.toList) :
    name ∉ Yul.objectBuiltins := by
  have hplain : ∀ name ∈ Yul.objectBuiltins, '_' ∉ name.toList := by decide
  exact fun hmem => hplain name hmem h

/-- **The code of bodies applies no operation on objects.** -/
theorem supplies_notObject (x : Context) (bodies : List Stmt) :
    Supplies x bodies (· ∉ Yul.objectBuiltins) where
  basic := not_object_of_basic
  accessors cell _ f hf := by
    obtain ⟨setting, hf⟩ := mem_accessorFunctions.1 hf
    exact not_object_of_underscore (underscore_accessor hf)
  methods target _ _ := not_object_of_underscore (underscore_methodFunction target)
  calls pos target receiver args _ contract other m _ _ _ :=
    not_object_of_underscore (by simp [callFunction])
  deploys contract _ other _ := not_object_of_underscore (by simp [deployFunction])
  events event _ e _ := not_object_of_underscore (underscore_eventFunction event)
  hashes count _ := not_object_of_underscore (underscore_hashFunction count)

/-! ## Where objects are copied -/

/-- **The function that deploys a contract refers to the object of that contract.** -/
theorem references_deployDefinition (c : Contract) (number : Nat) :
    ∀ name ∈ (deployDefinition c number).references, name = c.name := by
  have hencode := @calls_encode (add (var "ptr") (var "size")) (by simp +decide) (endName number) _
    (appliesOnly_typedVars (c.constructorParams.map Typed.type)
      (argNames (c.constructorParams.map Typed.type).length))
  rw [Yul.Function.references, refersOnly_referencesAll, deployDefinition]
  dsimp only
  simp only [List.forall_mem_append]
  refine ⟨⟨?_, refersOnly_of_appliesOnly fun s hs => (hencode s hs).mono not_object_of_basic⟩,
    refersOnly_of_appliesOnly ?_⟩
  · simp +decide [RefersOnly, Yul.Stmt.references, Yul.Expr.references, Yul.Expr.referencesAll,
      define, run, free, mload, num, quoted?]
  · simp +decide

/-- The arguments of the constructor stand behind the code that creates the contract. -/
theorem references_constructorArguments (contract : String) (types : List Ty) :
    ∀ s ∈ Context.constructorArguments contract types, s.RefersOnly (· = contract) := by
  unfold Context.constructorArguments
  split
  · exact fun _ h => (nomatch h)
  · refine List.forall_mem_append.2 ⟨?_, refersOnly_of_appliesOnly fun s hs => ?_⟩
    · simp +decide [RefersOnly, Yul.Stmt.references, Yul.Expr.references, Yul.Expr.referencesAll,
        define, run, revertIf, revert, sub, binary, num, quoted?]
    · obtain ⟨i, hi, rfl⟩ := List.mem_mapIdx.1 hs
      simpa using (calls_decodeArgument _ _).mono not_object_of_basic

/-- At its end the code that creates a contract copies the code that stays. -/
theorem references_returnRuntime (x : Context) :
    ∀ s ∈ x.returnRuntime, s.RefersOnly (· = Yul.Object.runtimeName x.contract.name) := by
  unfold Context.returnRuntime
  simp only [List.forall_mem_append]
  refine ⟨⟨?_, refersOnly_of_appliesOnly fun s hs => ?_⟩, refersOnly_of_appliesOnly ?_⟩
  · simp +decide [RefersOnly, Yul.Stmt.references, Yul.Expr.references, Yul.Expr.referencesAll,
      define, run, quoted?]
  · obtain ⟨cell, -, hs⟩ := List.mem_filterMap.1 hs
    split at hs
    · cases hs
      simp +decide
    · cases hs
  · simp +decide

/-- **The code that creates a contract refers to itself and to the code that stays.** -/
theorem references_creationEntry {x : Context} {prologue : List Yul.Stmt}
    (hprologue : CodesBody x .void x.initializers prologue) :
    ∀ s ∈ creationEntry x prologue,
      s.RefersOnly (· ∈ [x.contract.name, Yul.Object.runtimeName x.contract.name]) := by
  -- initial values and the call of the constructor refer to nothing
  have hP := supplies_notObject x x.initializers
  simp only [creationEntry, List.forall_mem_append]
  refine ⟨⟨⟨⟨refersOnly_of_appliesOnly ?_, fun s hs name hname => ?_⟩,
    refersOnly_of_appliesOnly (hprologue.appliesOnly hP fun _ => id)⟩,
    refersOnly_of_appliesOnly ?_⟩, fun s hs name hname => ?_⟩
  · simp +decide
  · simp [references_constructorArguments _ _ s hs name hname]
  · refine List.forall_mem_map.2 fun k _ => ?_
    simp +decide [Context.invokeConstructor]
  · simp [references_returnRuntime x s hs name hname]

/-! ## Pieces -/

section Pieces

variable {x : Context} {mark : String} {entry : Yul.Section} {functions : List Yul.Function}
  {bodies : List Stmt} {number : Nat} {piece : Piece}

/-- **Of the functions of a piece only those that deploy a contract refer to an object**, to that of
the contract. -/
theorem references_functions (hentry : entry.items.filterMap Yul.Item.function? = [])
    (hfunctions : ∀ f ∈ functions, ∀ name ∈ f.calls, name ∉ Yul.objectBuiltins) :
    ∀ f ∈ (x.sections mark entry functions bodies number).code.functions,
      ∀ name ∈ f.references, f.name = deployFunction name ∧
        name ∈ (x.sections mark entry functions bodies number).deploys := by
  have hnone {f : Yul.Function} (hf : ∀ name ∈ f.calls, name ∉ Yul.objectBuiltins) :
      ∀ name ∈ f.references, f.name = deployFunction name ∧
        name ∈ (x.sections mark entry functions bodies number).deploys := by
    rw [Yul.Function.references_eq_nil hf]
    exact fun _ h => (nomatch h)
  have hbasic {f : Yul.Function} (hf : ∀ name ∈ f.calls, name ∈ basic) :
      ∀ name ∈ f.calls, name ∉ Yul.objectBuiltins :=
    fun name hname => not_object_of_basic name (hf name hname)
  intro f hf
  -- kind by kind: only where a contract is deployed is an object copied
  rw [functions_sections hentry] at hf
  simp only [ownFunctions, outsideFunctions, List.mem_append] at hf
  rcases hf with (((((hf | hf | hf) | hf) | hf) | hf) | hf) | hf
  · exact hnone (hfunctions f hf)
  · obtain ⟨i, hi, rfl⟩ := List.mem_mapIdx.1 hf
    exact hnone (hbasic (calls_callDefinition _ _ _))
  · obtain ⟨i, hi, rfl⟩ := List.mem_mapIdx.1 hf
    intro name hname
    rw [references_deployDefinition _ _ name hname]
    exact ⟨rfl, List.mem_map_of_mem (List.getElem_mem hi)⟩
  · obtain ⟨arity, -, rfl⟩ := List.mem_map.1 hf
    exact hnone (hbasic (calls_entrySlotFunction arity))
  · obtain ⟨cell, -, hf⟩ := List.mem_flatMap.1 hf
    refine hnone fun name hname => ?_
    rcases calls_accessor hf name hname with hname | ⟨arity, -, rfl⟩
    · exact not_object_of_basic name hname
    · exact not_object_of_underscore (by simp [Storage.entrySlot])
  · obtain ⟨i, hi, rfl⟩ := List.mem_mapIdx.1 hf
    exact hnone (hbasic (calls_eventDefinition _ _))
  · obtain ⟨count, -, rfl⟩ := List.mem_map.1 hf
    have hplain : ∀ name ∈ ["mload", "mstore", "add", "keccak256"],
        name ∉ Yul.objectBuiltins := by
      decide
    exact hnone fun name hname => hplain name (calls_hashDefinition hname)
  · exact hnone (hbasic (calls_shared f (List.mem_filter.1 hf).1))

/-- A piece refers to what its entry and its functions refer to. -/
theorem mem_references_sections {name : String}
    (h : name ∈ (x.sections mark entry functions bodies number).code.references) :
    (∃ item ∈ entry.items, name ∈ item.references) ∨
      ∃ f ∈ (x.sections mark entry functions bodies number).code.functions,
        name ∈ f.references := by
  obtain ⟨s, hs, h⟩ := List.mem_flatMap.1 h
  obtain ⟨item, hitem, hname⟩ := List.mem_flatMap.1 h
  rcases sections_functions hs with rfl | hfunctions
  · exact .inl ⟨item, hitem, hname⟩
  · obtain ⟨setting, f, rfl⟩ := hfunctions item hitem
    have hf : f ∈ (x.sections mark entry functions bodies number).code.functions :=
      List.mem_flatMap.2 ⟨s, hs, List.mem_filterMap.2 ⟨_, hitem, rfl⟩⟩
    exact .inr ⟨f, hf, hname⟩

/-- **What a piece refers to**: its functions to the contracts that they deploy, and its code to
these and to some objects besides. -/
structure Refers (own : List String) (piece : Piece) : Prop where
  functions : ∀ f ∈ piece.code.functions, ∀ name ∈ f.references,
    f.name = deployFunction name ∧ name ∈ piece.deploys
  code : ∀ name ∈ piece.code.references, name ∈ own ++ piece.deploys

/-- A piece refers to what its entry does, and to the contracts that its functions deploy. -/
theorem sections_refers {own : List String}
    (hentry : entry.items.filterMap Yul.Item.function? = [])
    (hown : ∀ item ∈ entry.items, ∀ name ∈ item.references, name ∈ own)
    (hfunctions : ∀ f ∈ functions, ∀ name ∈ f.calls, name ∉ Yul.objectBuiltins) :
    Refers own (x.sections mark entry functions bodies number) where
  functions := references_functions hentry hfunctions
  code name hname := by
    rcases mem_references_sections hname with ⟨item, hitem, hname⟩ | ⟨f, hf, hname⟩
    · exact List.mem_append_left _ (hown item hitem name hname)
    · refine List.mem_append_right _ ?_
      exact (references_functions hentry hfunctions f hf name hname).2

theorem creationPiece_refers (h : x.creationPiece = .ok piece) :
    Refers [x.contract.name, Yul.Object.runtimeName x.contract.name] piece := by
  obtain ⟨prologue, constructor, methods, hprologue, hconstructor, hcodes, rfl⟩ :=
    creationPiece_eq_ok h
  refine sections_refers rfl (List.forall_mem_singleton.2 ?_)
    (calls_creation hconstructor hcodes (supplies_notObject x _))
  exact refersOnly_referencesAll.2 (references_creationEntry (codes_of_statements hprologue))

theorem runtimePiece_refers (h : x.runtimePiece = .ok piece) : Refers [] piece := by
  obtain ⟨functions, hcodes, rfl⟩ := runtimePiece_eq_ok h
  have hP := supplies_notObject x (x.contract.methods.flatMap Routine.body)
  refine sections_refers (dispatcher_functions _) (fun item hitem => ?_)
    (calls_methods hP hcodes fun m hm s hs => mem_substatements_flatMap hm hs)
  have hitems : ∀ item ∈ dispatcher (routes x.contract), ∀ name ∈ item.calls,
      name ∉ Yul.objectBuiltins := by
    refine calls_dispatcher not_object_of_basic fun route hroute => ?_
    rcases function_of_mem_routes hroute with ⟨v, -, hfunction⟩ | ⟨m, -, hfunction⟩
    · exact hfunction ▸ not_object_of_underscore (underscore_getter v.name)
    · exact hfunction ▸ not_object_of_underscore (underscore_methodFunction m.name)
  rw [Yul.Item.references_eq_nil (hitems item hitem)]
  exact fun _ h => (nomatch h)

end Pieces

end Emit

end Covenant
