import Covenant.Proofs.Code.Kinds
import Covenant.Proofs.Mutability.Classification

/-!
# Which contracts a contract deploys

A contract deploys another one if a deployment stands in its constructor, in one of its methods or
in the initial value of a variable, at any depth. The pieces of its code ask for the objects of
those contracts and of no others (`Contract.deploys_of_created`, `Contract.deploys_of_staying`,
`Emit.Accepted.exists_deploys`).
-/

namespace Covenant

/-- **A contract deploys another one** in its constructor, in a method or in an initial value. -/
def Contract.Deploys (c : Contract) (name : String) : Prop :=
  ∃ pos args, (∃ body, c.HasBody body ∧ Stmt.Evaluates body (.deploy pos name args)) ∨
    ∃ v ∈ c.stateVars, ∃ e ∈ v.initial, e.Contains (.deploy pos name args)

/-- A contract of the registry deploys a contract of a name. -/
def Registry.Deploys (r : Registry) (a b : String) : Prop :=
  ∃ c, r.get? a = some c ∧ c.Deploys b

namespace Stmt

theorem mem_expressionsOf_iff {body : List Stmt} {e : Expr} :
    e ∈ expressionsOf body ↔ Evaluates body e := by
  simp only [expressionsOf, List.mem_flatMap, mem_substatementsAll, Expr.mem_subexpressions,
    Evaluates]

theorem evaluates_append {front back : List Stmt} {e : Expr} :
    Evaluates (front ++ back) e ↔ Evaluates front e ∨ Evaluates back e := by
  simp only [← mem_expressionsOf_iff, expressionsOf_append, List.mem_append]

/-- What stands in the bodies of some methods stands in the body of one of them. -/
theorem evaluates_flatMap {methods : List Routine} {e : Expr} :
    Evaluates (methods.flatMap Routine.body) e ↔ ∃ m ∈ methods, Evaluates m.body e := by
  induction methods with
  | nil => simp [← mem_expressionsOf_iff]
  | cons m rest ih => rw [List.flatMap_cons, evaluates_append, ih, List.exists_mem_cons_iff]

end Stmt

namespace Emit

open Stmt

theorem mem_deployments {body : List Stmt} {name : String} :
    name ∈ deployments body ↔ ∃ pos args, Evaluates body (.deploy pos name args) := by
  rw [deployments, List.mem_filterMap]
  constructor
  · rintro ⟨e, he, hname⟩
    split at hname
    · cases hname
      exact ⟨_, _, mem_expressionsOf_iff.1 he⟩
    · cases hname
  · rintro ⟨pos, args, he⟩
    exact ⟨_, mem_expressionsOf_iff.2 he, rfl⟩

variable {r : Registry} {c : Contract} {layout : Storage.Layout} {created staying : Piece}
  {name : String}

/-- The names of the contracts that bodies deploy. -/
theorem mem_deployed_names {x : Context} {bodies : List Stmt} :
    name ∈ (x.deployed bodies).map Contract.name ↔
      name ∈ deployments bodies ∧ ∃ d, x.lookup name = some d := by
  constructor
  · intro h
    obtain ⟨d, hd, rfl⟩ := List.mem_map.1 h
    obtain ⟨hname, hlookup⟩ := mem_deployed.1 hd
    exact ⟨hname, d, hlookup⟩
  · rintro ⟨hname, d, hlookup⟩
    obtain ⟨-, rfl⟩ := lookup_eq_some hlookup
    exact List.mem_map_of_mem (mem_deployed.2 ⟨hname, hlookup⟩)

/-! ## From the code to the contract -/

/-- What the code that creates a contract deploys, the contract deploys. -/
theorem deploys_of_created (hplan : Storage.plan c = .ok layout)
    (hcreated : (Context.mk r c layout true).creationPiece = .ok created)
    (h : name ∈ created.deploys) : c.Deploys name ∧ ∃ d, r.get? name = some d := by
  obtain ⟨_, _, _, -, -, -, rfl⟩ := creationPiece_eq_ok hcreated
  obtain ⟨hname, d, hlookup⟩ := mem_deployed_names.1 h
  refine ⟨?_, d, (lookup_eq_some hlookup).1⟩
  obtain ⟨pos, args, he⟩ := mem_deployments.1 hname
  refine ⟨pos, args, ?_⟩
  rw [creationBodies, evaluates_append, evaluates_append, evaluates_flatMap] at he
  obtain (hinitial | hconstructor) | ⟨m, hm, hmethod⟩ := he
  · -- an initial value is the only operand of the assignment in front of the constructor
    obtain ⟨s, ⟨t, ht, hs⟩, operand, hoperand, hin⟩ := hinitial
    obtain ⟨cell, hcell, ht⟩ := List.mem_filterMap.1 ht
    split at ht
    · cases ht
    obtain ⟨e, hinitial, rfl⟩ := Option.map_eq_some_iff.1 ht
    cases hs with
    | branch hchild => cases hchild
    | self =>
      obtain rfl := List.mem_singleton.1 hoperand
      have howner : cell.owner ∈ c.stateVars :=
        Storage.plan_owners hplan ▸ List.mem_map_of_mem hcell
      exact .inr ⟨_, howner, _, hinitial, hin⟩
  · exact .inl ⟨_, .inl rfl, hconstructor⟩
  · exact .inl ⟨_, .inr ⟨m, (List.mem_filter.1 hm).1, rfl⟩, hmethod⟩

/-- What the code that stays deploys, the contract deploys. -/
theorem deploys_of_staying
    (hstaying : (Context.mk r c layout false).runtimePiece = .ok staying)
    (h : name ∈ staying.deploys) : c.Deploys name ∧ ∃ d, r.get? name = some d := by
  obtain ⟨_, -, rfl⟩ := runtimePiece_eq_ok hstaying
  obtain ⟨hname, d, hlookup⟩ := mem_deployed_names.1 h
  refine ⟨?_, d, (lookup_eq_some hlookup).1⟩
  obtain ⟨pos, args, he⟩ := mem_deployments.1 hname
  obtain ⟨m, hm, he⟩ := evaluates_flatMap.1 he
  exact ⟨pos, args, .inl ⟨_, .inr ⟨m, hm, rfl⟩, he⟩⟩

/-! ## From the contract to the code -/

/-- A deployment in an operand of a statement with code has code. -/
theorem CodesStmt.hasCode_deploy {x : Context} {returns : Ty} {s : Stmt} {code : List Yul.Stmt}
    (h : CodesStmt x returns s code) {operand : Expr} (hoperand : operand ∈ s.operands)
    {pos : Position} {args : List Expr} (hin : operand.Contains (.deploy pos name args)) :
    HasCode x (.deploy pos name args) := by
  have hwithin {e : Expr} (he : HasCode x e) (hin : e.Contains (.deploy pos name args)) :
      HasCode x (.deploy pos name args) :=
    he.subexpressions (Expr.mem_subexpressions.2 hin)
  cases h with
  | blank | exit | skip => cases hoperand
  | setProperty _ _ h | declare h | setVariable h | exitWord _ h | ifThen h | ifElse _ h | throw h
  | evaluate h =>
    obtain rfl := List.mem_singleton.1 hoperand
    exact hwithin ⟨_, h⟩ hin
  | setEntry _ _ hindices hvalue =>
    rcases List.mem_append.1 hoperand with hindex | hoperand
    · exact hwithin (hindices.hasCode _ hindex) hin
    · obtain rfl := List.mem_singleton.1 hoperand
      exact hwithin ⟨_, hvalue⟩ hin
  | emit _ h => exact hwithin (h.hasCode _ hoperand) hin
  | exitRecord _ h =>
    -- a record is returned field by field
    obtain rfl := List.mem_singleton.1 hoperand
    cases hin with
    | part hchild hin => exact hwithin (h.hasCode _ hchild) hin

theorem HasCode.lookup_deploy {x : Context} {pos : Position} {args : List Expr}
    (h : HasCode x (.deploy pos name args)) : ∃ d, x.lookup name = some d := by
  obtain ⟨y, h⟩ := h
  cases h with
  | deploy hcontract => exact ⟨_, hcontract⟩

theorem CodesBody.lookup_of_deployments {x : Context} {returns : Ty} {body : List Stmt}
    {code : List Yul.Stmt} (h : CodesBody x returns body code) (hname : name ∈ deployments body) :
    ∃ d, x.lookup name = some d := by
  obtain ⟨pos, args, s, hs, operand, hoperand, hin⟩ := mem_deployments.1 hname
  obtain ⟨code, hcode⟩ := h.substatements s (mem_substatementsAll.2 hs)
  exact (hcode.hasCode_deploy hoperand hin).lookup_deploy

/-- An initial value with a deployment is assigned in front of the constructor. -/
theorem Accepted.mem_deployments_initializers (h : Accepted r c layout created staying)
    {v : StateVar} (hv : v ∈ c.stateVars) {e : Expr} (he : e ∈ v.initial) {pos : Position}
    {args : List Expr} (hin : e.Contains (.deploy pos name args)) :
    name ∈ deployments (Context.mk r c layout true).initializers := by
  rw [← Storage.plan_owners h.plan] at hv
  obtain ⟨cell, hcell, rfl⟩ := List.mem_map.1 hv
  by_cases hinlined : cell.location.isInlined
  · obtain ⟨_, _, _, rfl⟩ := Storage.plan_inlined h.plan cell hcell hinlined e he
    cases hin with
    | part hchild => cases hchild
  · have hset : Stmt.setProperty cell.owner.pos cell.name e ∈
        (Context.mk r c layout true).initializers := by
      refine List.mem_filterMap.2 ⟨cell, hcell, ?_⟩
      rw [if_neg hinlined, Option.mem_def.1 he, Option.map_some]
    exact mem_deployments.2
      ⟨pos, args, _, ⟨_, hset, .self _⟩, e, List.mem_singleton.2 rfl, hin⟩

/-- **What an accepted contract deploys, one of its two codes deploys.** -/
theorem Accepted.exists_deploys (h : Accepted r c layout created staying)
    (hdeploys : c.Deploys name) : name ∈ created.deploys ∨ name ∈ staying.deploys := by
  obtain ⟨prologue, _, _, hprologue, -, -, hcreated⟩ := creationPiece_eq_ok h.creation
  obtain ⟨_, -, hstaying⟩ := runtimePiece_eq_ok h.runtime
  have hcreates (hname : name ∈ deployments ((Context.mk r c layout true).initializers ++
        c.constructorBody)) (hlookup : ∃ d, (Context.mk r c layout true).lookup name = some d) :
      name ∈ created.deploys := by
    subst hcreated
    refine mem_deployed_names.2 ⟨?_, hlookup⟩
    obtain ⟨pos, args, he⟩ := mem_deployments.1 hname
    exact mem_deployments.2 ⟨pos, args, evaluates_append.2 (.inl he)⟩
  -- in a body, which is that of the constructor or of a method, or in an initial value
  obtain ⟨pos, args, ⟨body, hbody, he⟩ | ⟨v, hv, e, he, hin⟩⟩ := hdeploys
  · have hname : name ∈ deployments body := mem_deployments.2 ⟨pos, args, he⟩
    obtain rfl | ⟨m, hm, rfl⟩ := hbody
    · refine .inl (hcreates (mem_deployments.2 ⟨pos, args, evaluates_append.2 (.inr he)⟩) ?_)
      cases hk : c.construction with
      | none =>
        rw [Contract.constructorBody, hk] at hname
        cases hname
      | some k =>
        rw [Contract.constructorBody, hk] at hname
        obtain ⟨code, hcode⟩ := h.construction k hk
        exact hcode.lookup_of_deployments hname
    · obtain ⟨code, hcode⟩ := h.methods m hm
      subst hstaying
      exact .inr (mem_deployed_names.2
        ⟨mem_deployments.2 ⟨pos, args, evaluates_flatMap.2 ⟨m, hm, he⟩⟩,
          hcode.lookup_of_deployments hname⟩)
  · have hname := h.mem_deployments_initializers hv he hin
    obtain ⟨pos', args', hassigned⟩ := mem_deployments.1 hname
    refine .inl (hcreates (mem_deployments.2 ⟨pos', args', evaluates_append.2 (.inl hassigned)⟩) ?_)
    exact (codes_of_statements hprologue).lookup_of_deployments hname

end Emit

end Covenant
