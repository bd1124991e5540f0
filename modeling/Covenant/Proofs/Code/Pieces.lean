import Covenant.Emit.Object
import Covenant.Proofs.Code.Statements
import Covenant.Proofs.Storage.Slots

/-!
# The pieces of code of a contract

A contract that is accepted has a layout and two pieces of code. The bodies of its constructor, of
its methods and its initial values have code in one of the two (`Accepted.methods`,
`Accepted.construction`, `Accepted.initials`).
-/

namespace Covenant

namespace Storage

/-- Variables that are written into the code start with literals, if they have an initial value. -/
def StartWithLiterals (cells : List Cell) : Prop :=
  ∀ cell ∈ cells, cell.location.isInlined → ∀ e ∈ cell.owner.initial,
    ∃ pos type text, e = .literal pos type text

variable {c : Contract} {cells : List Cell} {v : StateVar}

theorem place_inlined {cursor next : Word} {location : Location}
    (h : place c cells cursor v = .ok (location, next)) (hinlined : location.isInlined) :
    ∀ e ∈ v.initial, ∃ pos type text, e = .literal pos type text := by
  intro e he
  unfold place at h
  split at h
  · cases h
    cases hinlined
  · obtain ⟨⟨⟩, -, h⟩ := bind_eq_ok.1 h
    obtain ⟨⟨⟩, -, h⟩ := bind_eq_ok.1 h
    cases pure_eq_ok.1 h
    cases hinlined
  · split at h
    · obtain ⟨location, hplace, h⟩ := bind_eq_ok.1 h
      cases pure_eq_ok.1 h
      unfold placeImmutable at hplace
      split at hplace
      · split at hplace <;> cases hplace
      · -- the literal is the only source, so it is the initial value
        rename_i hsources
        rw [sources, Option.mem_def.1 he, Option.toList_some, List.singleton_append] at hsources
        exact ⟨_, _, _, (List.cons.inj hsources).1⟩
      · cases hplace
        cases hinlined
      · cases hplace
    · obtain ⟨⟨⟩, -, h⟩ := bind_eq_ok.1 h
      cases pure_eq_ok.1 h
      cases hinlined

theorem placeAll_inlined {cursor : Word} {vars : List StateVar} {layout : Layout}
    (hcells : StartWithLiterals cells) (h : placeAll c cells cursor vars = .ok layout) :
    StartWithLiterals layout.cells := by
  induction vars generalizing cells cursor with
  | nil =>
    cases h
    exact hcells
  | cons v vars ih =>
    rw [placeAll] at h
    obtain ⟨⟨location, next⟩, hplace, h⟩ := bind_eq_ok.1 h
    refine ih (List.forall_mem_append.2 ⟨hcells, ?_⟩) h
    exact List.forall_mem_singleton.2 (place_inlined hplace)

/-- **The initial value of a variable that is written into the code is a literal.** -/
theorem plan_inlined {layout : Layout} (h : plan c = .ok layout) : StartWithLiterals layout.cells :=
  placeAll_inlined (fun _ h => absurd h List.not_mem_nil) h

end Storage

namespace Yul

/-- One of the two pieces of code of an object: the one that creates the contract, or the one that
stays. -/
def Object.code (creation : Bool) : Object → Code
  | .mk _ created staying _ _ => if creation then created else staying

end Yul

namespace Emit

/-! ## Generated pieces -/

/-- **A contract is accepted** with a layout and two pieces of code. -/
structure Accepted (r : Registry) (c : Contract) (layout : Storage.Layout)
    (created staying : Piece) : Prop where
  plan : Storage.plan c = .ok layout
  creation : (Context.mk r c layout true).creationPiece = .ok created
  runtime : (Context.mk r c layout false).runtimePiece = .ok staying

variable {r : Registry} {c : Contract} {layout : Storage.Layout} {created staying : Piece}

/-- **An object holds the two pieces of an accepted contract.** -/
theorem accepted_of_build {active : List String} {store : Store} {object : Yul.Object}
    (h : (build r active store c).1 = .ok object) :
    ∃ layout created staying byCreation byRuntime, Accepted r c layout created staying ∧
      object = .mk c.name created.code staying.code byCreation byRuntime := by
  rw [build] at h
  split at h
  · cases h
  rename_i creation runtime hcontext
  obtain ⟨⟨⟩, -, hcontext⟩ := bind_eq_ok.1 hcontext
  obtain ⟨layout, hplan, hcontext⟩ := bind_eq_ok.1 hcontext
  cases pure_eq_ok.1 hcontext
  split at h
  · cases h
  rename_i created hcreated
  split at h
  · cases h
  rename_i byCreation _ _
  split at h
  · cases h
  rename_i staying hstaying
  split at h
  · cases h
  rename_i byRuntime _ _
  cases h
  exact ⟨layout, created, staying, byCreation, byRuntime, ⟨hplan, hcreated, hstaying⟩, rfl⟩

/-- A contract that deploys no other needs no other object. -/
theorem build_of_pieces {creation runtime : Context} (active : List String) (store : Store)
    (hcontext : contextFor r c = .ok (creation, runtime))
    (hcreated : creation.creationPiece = .ok created) (hstaying : runtime.runtimePiece = .ok staying)
    (hcreation : created.deploys = []) (hruntime : staying.deploys = []) :
    (build r active store c).1 = .ok (.mk c.name created.code staying.code [] []) := by
  rw [build]
  simp [hcontext, hcreated, hstaying, hcreation, hruntime, buildAll]

/-- The statements that the code that creates a contract begins with. -/
def creationEntry (x : Context) (prologue : List Yul.Stmt) : List Yul.Stmt :=
  [.mstore (.num 64) (.num (Storage.stagingAddress x.layout.staged)), .run "require_no_value" []]
    ++ Context.constructorArguments x.contract.name (x.contract.constructorParams.map Typed.type)
    ++ prologue ++ x.contract.construction.toList.map Context.invokeConstructor ++ x.returnRuntime

/-- The bodies that the code that creates a contract has code for: initial values, the constructor
and the methods that can be reached from them. -/
def creationBodies (x : Context) : List Stmt :=
  x.initializers ++ x.contract.constructorBody ++
    (reachedMethods x.contract (x.initializers ++ x.contract.constructorBody)).flatMap Routine.body

/-- What the code that creates a contract consists of. -/
theorem creationPiece_eq_ok {x : Context} {piece : Piece} (h : x.creationPiece = .ok piece) :
    ∃ prologue constructor methods,
      x.statements .void x.initializers = .ok prologue ∧
      List.Forall₂ (fun k f => x.constructorBody k = .ok f) x.contract.construction.toList
        constructor ∧
      List.Forall₂ (fun m f => x.method m = .ok f)
        (reachedMethods x.contract (x.initializers ++ x.contract.constructorBody)) methods ∧
      piece = x.sections "Constructor "
        { title := "Constructor", items := [.statement (.block (creationEntry x prologue))] }
        (constructor ++ methods) (creationBodies x) 1 := by
  obtain ⟨prologue, hprologue, h⟩ := bind_eq_ok.1 h
  obtain ⟨constructor, hconstructor, h⟩ := bind_eq_ok.1 h
  obtain ⟨methods, hmethods, h⟩ := bind_eq_ok.1 h
  obtain ⟨⟨⟩, -, h⟩ := bind_eq_ok.1 h
  cases pure_eq_ok.1 h
  exact ⟨prologue, constructor, methods, hprologue, mapM_eq_ok.1 hconstructor,
    mapM_eq_ok.1 hmethods, rfl⟩

/-- What the code that stays consists of. -/
theorem runtimePiece_eq_ok {x : Context} {piece : Piece} (h : x.runtimePiece = .ok piece) :
    ∃ methods, List.Forall₂ (fun m f => x.method m = .ok f) x.contract.methods methods ∧
      piece = x.sections "" { title := "Dispatcher", items := dispatcher (routes x.contract) }
        methods (x.contract.methods.flatMap Routine.body)
        (encodingRoutes (routes x.contract) + 1) := by
  obtain ⟨⟨⟩, -, h⟩ := bind_eq_ok.1 h
  obtain ⟨methods, hmethods, h⟩ := bind_eq_ok.1 h
  obtain ⟨⟨⟩, -, h⟩ := bind_eq_ok.1 h
  cases pure_eq_ok.1 h
  exact ⟨methods, mapM_eq_ok.1 hmethods, rfl⟩

/-! ## Bodies -/

/-- What stands in the body of a method stands in all bodies together. -/
theorem mem_substatements_flatMap {methods : List Routine} {m : Routine} (hm : m ∈ methods)
    {stmt : Stmt} (h : stmt ∈ Stmt.substatementsAll m.body) :
    stmt ∈ Stmt.substatementsAll (methods.flatMap Routine.body) := by
  rw [Stmt.substatementsAll_eq_flatMap] at h ⊢
  obtain ⟨part, hpart, h⟩ := List.mem_flatMap.1 h
  exact List.mem_flatMap.2 ⟨part, List.mem_flatMap.2 ⟨m, hm, hpart⟩, h⟩

namespace Accepted

theorem methods (h : Accepted r c layout created staying) :
    ∀ m ∈ c.methods, ∃ code, CodesBody ⟨r, c, layout, false⟩ m.returns m.body code := by
  intro m hm
  obtain ⟨methods, hmethods, -⟩ := runtimePiece_eq_ok h.runtime
  obtain ⟨f, -, hf⟩ := exists_of_mem_left hmethods hm
  exact ⟨_, (method_eq_ok hf).2.2.2⟩

theorem construction (h : Accepted r c layout created staying) :
    ∀ k ∈ c.construction, ∃ code, CodesBody ⟨r, c, layout, true⟩ .void k.body code := by
  intro k hk
  obtain ⟨-, constructor, -, -, hconstructor, -, -⟩ := creationPiece_eq_ok h.creation
  obtain ⟨f, -, hf⟩ := exists_of_mem_left hconstructor (Option.mem_toList.2 hk)
  exact ⟨_, (constructorBody_eq_ok hf).2⟩

/-- An initial value has code, unless it is a literal that is written into the code. -/
theorem initials (h : Accepted r c layout created staying) {v : StateVar} (hv : v ∈ c.stateVars)
    {e : Expr} (he : e ∈ v.initial) :
    HasCode ⟨r, c, layout, true⟩ e ∨ ∃ pos type text, e = .literal pos type text := by
  obtain ⟨prologue, -, -, hprologue, -⟩ := creationPiece_eq_ok h.creation
  rw [← Storage.plan_owners h.plan] at hv
  obtain ⟨cell, hcell, rfl⟩ := List.mem_map.1 hv
  by_cases hinlined : cell.location.isInlined
  · exact .inr (Storage.plan_inlined h.plan cell hcell hinlined e he)
  · -- the initial value is assigned in front of the constructor
    have hset : Stmt.setProperty cell.owner.pos cell.name e ∈
        (Context.mk r c layout true).initializers := by
      refine List.mem_filterMap.2 ⟨cell, hcell, ?_⟩
      rw [if_neg hinlined, Option.mem_def.1 he, Option.map_some]
    have hset : Stmt.setProperty cell.owner.pos cell.name e ∈
        Stmt.substatementsAll (Context.mk r c layout true).initializers := by
      rw [Stmt.substatementsAll_eq_flatMap]
      exact List.mem_flatMap.2 ⟨_, hset, List.mem_singleton.2 rfl⟩
    obtain ⟨code, hcode⟩ := (codes_of_statements hprologue).substatements _ hset
    exact .inl (hcode.values e (List.mem_singleton.2 rfl))

end Accepted

end Emit

end Covenant
