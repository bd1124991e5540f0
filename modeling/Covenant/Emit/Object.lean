import Covenant.Emit.Code

/-!
# The object of a contract

The object of a contract holds the objects of all contracts it deploys, which have to be generated
first. A contract whose deployment would go on without end is refused. Objects are kept once they
are generated; so what an earlier contract needed is there for a later one.
-/

namespace Covenant

namespace Emit

/-- The objects generated so far, by the names of their contracts. -/
abbrev Store := List (String × Yul.Object)

/-- How many contracts are not being generated. -/
def idle (r : Registry) (active : List String) : Nat :=
  r.contracts.countP fun c => c.name ∉ active

/-- A contract that is found and is not being generated is one fewer once it is. -/
theorem idle_cons_lt {r : Registry} {active : List String} {name : String} {c : Contract}
    (hc : r.get? name = some c) (hname : name ∉ active) :
    idle r (name :: active) < idle r active := by
  have hmem : c ∈ r.contracts := by
    have := List.mem_of_find?_eq_some hc
    simpa using this
  have hcname : c.name = name := by
    have := List.find?_some hc
    simpa using this
  have hsub : ∀ (l : List Contract), c ∈ l →
      l.countP (fun d => d.name ∉ name :: active) < l.countP (fun d => d.name ∉ active) := by
    intro l hl
    induction l with
    | nil => simp at hl
    | cons d l ih =>
      have hle : l.countP (fun d => d.name ∉ name :: active)
          ≤ l.countP (fun d => d.name ∉ active) :=
        List.countP_mono_left fun d _ h => by simp_all
      simp only [List.countP_cons]
      rcases List.mem_cons.1 hl with rfl | hl
      · simp only [hcname, List.mem_cons, true_or, not_true_eq_false, decide_false, hname,
          not_false_eq_true, decide_true, if_true] at hle ⊢
        grind
      · have := ih hl
        grind
  exact hsub r.contracts hmem

/-- What code is generated for. -/
def contextFor (r : Registry) (c : Contract) : Except Failure (Context × Context) := do
  Abi.checkSelectors c
  let layout ← Storage.plan c
  return ({ registry := r, contract := c, layout, creation := true },
    { registry := r, contract := c, layout, creation := false })

mutual
/-- **The object of a contract**, which is among the active ones. -/
def build (r : Registry) (active : List String) (store : Store) (c : Contract) :
    Except Failure Yul.Object × Store :=
  match contextFor r c with
  | .error e => (.error e, store)
  | .ok (creation, runtime) =>
    match creation.creationPiece with
    | .error e => (.error e, store)
    | .ok created =>
      match buildAll r active store created.deploys with
      | (.error e, store) => (.error e, store)
      | (.ok byCreation, store) =>
        match runtime.runtimePiece with
        | .error e => (.error e, store)
        | .ok staying =>
          match buildAll r active store staying.deploys with
          | (.error e, store) => (.error e, store)
          | (.ok byRuntime, store) =>
            let object := .mk c.name created.code staying.code byCreation byRuntime
            (.ok object, (c.name, object) :: store)
termination_by (idle r active, 1, 0)

/-- The objects of several contracts, by name. -/
def buildAll (r : Registry) (active : List String) (store : Store) :
    List String → Except Failure (List Yul.Object) × Store
  | [] => (.ok [], store)
  | name :: rest =>
    match store.lookup name with
    | some object =>
      match buildAll r active store rest with
      | (.error e, store) => (.error e, store)
      | (.ok objects, store) => (.ok (object :: objects), store)
    | none =>
      match _ : r.get? name with
      | none => buildAll r active store rest
      | some c =>
        if _ : name ∈ active then (.error (.malformed c.pos (.deploymentCycle name)), store)
        else
          match build r (name :: active) store c with
          | (.error e, store) => (.error e, store)
          | (.ok object, store) =>
            match buildAll r active store rest with
            | (.error e, store) => (.error e, store)
            | (.ok objects, store) => (.ok (object :: objects), store)
termination_by names => (idle r active, 0, names.length)
decreasing_by
  all_goals first
    | exact Prod.Lex.left _ _ (idle_cons_lt ‹_› ‹_›)
    | exact Prod.Lex.right _ (Prod.Lex.right _ (by simp))
end

/-- **Generates the object of a contract**, unless there is one of its name already. -/
def emit (r : Registry) (store : Store) (c : Contract) : Except Failure Yul.Object × Store :=
  match store.lookup c.name with
  | some object => (.ok object, store)
  | none => build r [c.name] store c

end Emit

end Covenant
