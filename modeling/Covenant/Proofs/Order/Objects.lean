import Covenant.Build.Basic
import Covenant.Proofs.Code.Caching
import Covenant.Proofs.Order.Code

/-!
# Objects of contracts that differ in the names of locals

What can be called from outside does not depend on the names of locals, nor does its description
(`Abi.render_nameless`). Whether there is an object of a contract does not depend on them either
(`objectWithin_nameless`), whatever was generated before (`emit_nameless`).
-/

namespace Covenant

/-! ## Descriptions -/

namespace Abi

variable (c : Contract)

theorem getters_nameless : getters c.nameless = (getters c).map StateVar.nameless := by
  rw [getters, getters, Contract.nameless, List.filter_map]
  rfl

theorem checkSelectors_nameless : checkSelectors c.nameless = checkSelectors c := by
  have hall : hasSignatures c.nameless = hasSignatures c := by
    rw [hasSignatures, hasSignatures, getters_nameless, exposedMethods_nameless, List.all_map,
      List.all_map]
    rfl
  have hsignatures : functionSignatures c.nameless = functionSignatures c := by
    rw [functionSignatures, functionSignatures, getters_nameless, exposedMethods_nameless,
      List.map_map, List.map_map]
    rfl
  rw [checkSelectors, checkSelectors, hall, hsignatures]
  rfl

/-- **The description of a contract** does not tell the names of locals. -/
theorem render_nameless : render c.nameless = render c := by
  have hconstruction : c.nameless.construction.map
        (fun k => Entry.constructor (entryParams k.params) "nonpayable") =
      c.construction.map fun k => .constructor (entryParams k.params) "nonpayable" := by
    rw [Contract.nameless, Option.map_map]
    rfl
  have hproject : project c.nameless = project c := by
    rw [project, project, hconstruction, getters_nameless, exposedMethods_nameless, List.map_map,
      List.map_map]
    rfl
  rw [render, render, hproject]

end Abi

namespace Emit

variable {r b : Registry}

/-! ## Objects -/

/-- Two contexts that differ in the names of locals, one for creating a contract and one for
calling it. -/
structure SameContexts (x y : Context × Context) : Prop where
  creation : x.1.Nameless y.1
  runtime : x.2.Nameless y.2

theorem contextFor_nameless (h : r.Nameless b) (c : Contract) :
    Paired SameContexts (contextFor r c) (contextFor b c.nameless) := by
  have hlookup (layout layout' : Storage.Layout) (creation : Bool) (name : String) :
      (Context.mk b c.nameless layout' creation).lookup name =
        ((Context.mk r c layout creation).lookup name).map Contract.nameless := by
    rw [Context.lookup, Context.lookup]
    split
    · rfl
    · exact h.get? name
  rw [contextFor, contextFor, Abi.checkSelectors_nameless]
  refine .bind_same fun _ => (Storage.plan_nameless c).bind ?_
  rintro layout _ rfl
  exact ⟨⟨rfl, rfl, rfl, hlookup _ _ _⟩, ⟨rfl, rfl, rfl, hlookup _ _ _⟩⟩

/-- Objects that are generated one after another are all there, if each contract's is there
alike. -/
theorem objectsBy_nameless (h : r.Nameless b) (active : List String)
    {object object' : String → Contract → Option (Except Failure Yul.Object)}
    (hobject : ∀ name c, Option.Rel Both (object name c) (object' name c.nameless))
    (names : List String) :
    Option.Rel Both (objectsBy r active object names) (objectsBy b active object' names) := by
  induction names with
  | nil => exact .some trivial
  | cons name rest ih =>
    rw [objectsBy, objectsBy, h.get? name]
    cases r.get? name with
    | none => exact ih
    | some c =>
      dsimp only [Option.map_some]
      split
      · exact .some trivial
      · have hfirst := hobject name c
        generalize object name c = first, object' name c.nameless = first' at hfirst
        cases hfirst with
        | none => exact .none
        | @some x y hfirst =>
          cases x <;> cases y <;> try exact hfirst.elim
          · exact .some trivial
          · generalize objectsBy r active object rest = others,
              objectsBy b active object' rest = others' at ih
            cases ih with
            | none => exact .none
            | some hrest => exact .some (hrest.map fun _ _ _ => trivial)

/-- **There is an object of a contract** with the names of locals if there is one without them. -/
theorem objectWithin_nameless (h : r.Nameless b) (depth : Nat) (active : List String)
    (c : Contract) :
    Option.Rel Both (objectWithin r depth active c) (objectWithin b depth active c.nameless) := by
  induction depth generalizing active c with
  | zero => exact .none
  | succ depth ih =>
    have hcontexts := contextFor_nameless h c
    have hall := objectsBy_nameless h active fun name d => ih (name :: active) d
    rw [objectWithin, objectWithin]
    generalize contextFor r c = contexts, contextFor b c.nameless = contexts' at hcontexts
    obtain _ | ⟨creation, runtime⟩ := contexts <;> obtain _ | ⟨creation', runtime'⟩ := contexts' <;>
      try exact hcontexts.elim
    · exact .some trivial
    have hcreated := hcontexts.creation.creationPiece
    dsimp only at hcreated ⊢
    generalize creation.creationPiece = created, creation'.creationPiece = created' at hcreated
    obtain _ | created := created <;> obtain _ | created' := created' <;> try exact hcreated.elim
    · exact .some trivial
    -- both pieces deploy the same contracts, so what is generated for them goes in step
    have hfirst := hall created.deploys
    dsimp only
    rw [show created'.deploys = created.deploys from hcreated]
    generalize objectsBy r active _ created.deploys = first,
      objectsBy b active _ created.deploys = first' at hfirst
    cases hfirst with
    | none => exact .none
    | @some first first' hfirst =>
    obtain _ | first := first <;> obtain _ | first' := first' <;> try exact hfirst.elim
    · exact .some trivial
    have hstaying := hcontexts.runtime.runtimePiece
    dsimp only at hstaying ⊢
    generalize runtime.runtimePiece = staying, runtime'.runtimePiece = staying' at hstaying
    obtain _ | staying := staying <;> obtain _ | staying' := staying' <;> try exact hstaying.elim
    · exact .some trivial
    have hothers := hall staying.deploys
    dsimp only
    rw [show staying'.deploys = staying.deploys from hstaying]
    generalize objectsBy r active _ staying.deploys = others,
      objectsBy b active _ staying.deploys = others' at hothers
    cases hothers with
    | none => exact .none
    | some hothers => exact .some (hothers.map fun _ _ _ => trivial)

variable {store store' : Store}

/-- **An object is generated** with the names of locals if one is generated without them, whatever
was generated before. -/
theorem emit_nameless (h : r.Nameless b) {c : Contract} (hc : r.get? c.name = some c)
    (hstore : Kept r store) (hstore' : Kept b store') :
    Both (emit r store c).1 (emit b store' c.nameless).1 := by
  have hobjects := objectWithin_nameless h r.contracts.length [c.name] c
  have hright := (agrees_emit (h.get?_nameless hc) hstore').1
  rw [h.length, show c.nameless.name = c.name from rfl] at hright
  rw [(agrees_emit hc hstore).1, hright] at hobjects
  cases hobjects with
  | some hboth => exact hboth

end Emit

end Covenant
