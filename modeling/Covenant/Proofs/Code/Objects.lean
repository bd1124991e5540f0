import Covenant.Proofs.Code.Pieces
import Covenant.Proofs.Inheritance.Merging

/-!
# The objects that are generated

The object of a contract holds the two pieces of its code and the objects of the contracts that
these deploy (`Generated`). Objects are kept, and one that is kept was generated for the contract of
its name (`Registered`): so whatever was generated before, an object is what the contract asks for,
and so are all objects within it (`Generated.within`).
-/

namespace Covenant

namespace Yul.Object

/-- The objects that one of the two codes deploys. -/
def children (creation : Bool) : Object → List Object
  | mk _ _ _ byCreation byRuntime => if creation then byCreation else byRuntime

/-- **An object stands within another one**: it is that one, or stands within one that either code
deploys. -/
inductive Within (inner : Object) : Object → Prop
  | self : Within inner inner
  | child {outer child : Object} {creation : Bool} (hchild : child ∈ outer.children creation)
      (h : Within inner child) : Within inner outer

theorem sizeOf_lt_of_mem_children {creation : Bool} {outer child : Object}
    (h : child ∈ outer.children creation) : sizeOf child < sizeOf outer := by
  cases outer with
  | mk name created staying byCreation byRuntime =>
    rw [mk.sizeOf_spec]
    cases creation with
    | true =>
      have hlt : sizeOf child < sizeOf byCreation := List.sizeOf_lt_of_mem h
      omega
    | false =>
      have hlt : sizeOf child < sizeOf byRuntime := List.sizeOf_lt_of_mem h
      omega

end Yul.Object

namespace Emit

open Registry

variable {r : Registry} {c : Contract} {active : List String} {store : Store}

/-! ## Objects for contracts -/

mutual
/-- **An object is generated for a contract**: it has the contract's name and pieces of code, and an
object for each contract that one of them deploys. -/
inductive Generated (r : Registry) : Contract → Yul.Object → Prop
  | mk {c : Contract} {layout : Storage.Layout} {created staying : Piece}
      {byCreation byRuntime : List Yul.Object} (haccepted : Accepted r c layout created staying)
      (hcreation : GeneratedEach r created.deploys byCreation)
      (hruntime : GeneratedEach r staying.deploys byRuntime) :
      Generated r c (.mk c.name created.code staying.code byCreation byRuntime)

/-- Objects are generated for the contracts of some names. -/
inductive GeneratedEach (r : Registry) : List String → List Yul.Object → Prop
  | nil : GeneratedEach r [] []
  | cons {name : String} {c : Contract} {object : Yul.Object} {names : List String}
      {objects : List Yul.Object} (hc : r.get? name = some c) (h : Generated r c object)
      (hrest : GeneratedEach r names objects) :
      GeneratedEach r (name :: names) (object :: objects)
end

theorem Generated.name_eq {object : Yul.Object} (h : Generated r c object) :
    object.name = c.name := by
  cases h
  rfl

theorem GeneratedEach.exists_of_mem {names : List String} {objects : List Yul.Object}
    (h : GeneratedEach r names objects) {object : Yul.Object} (hobject : object ∈ objects) :
    ∃ d, r.get? object.name = some d ∧ Generated r d object := by
  induction objects generalizing names with
  | nil => cases hobject
  | cons first rest ih =>
    cases h with
    | cons hc hfirst hrest =>
      rcases List.mem_cons.1 hobject with rfl | hobject
      · refine ⟨_, ?_, hfirst⟩
        rw [hfirst.name_eq, (of_get?_eq_some hc).2, hc]
      · exact ih hrest hobject

theorem GeneratedEach.names_eq {names : List String} {objects : List Yul.Object}
    (h : GeneratedEach r names objects) : objects.map Yul.Object.name = names := by
  induction objects generalizing names with
  | nil =>
    cases h
    rfl
  | cons first rest ih =>
    cases h with
    | cons hc hfirst hrest =>
      rw [List.map_cons, ih hrest, hfirst.name_eq, (of_get?_eq_some hc).2]

/-- Each code comes with the objects of the contracts that it deploys. -/
theorem Generated.accepted {object : Yul.Object} (h : Generated r c object) :
    ∃ layout created staying, Accepted r c layout created staying ∧ ∀ creation,
      object.code creation = (cond creation created staying).code ∧
        GeneratedEach r (cond creation created staying).deploys (object.children creation) := by
  cases h with
  | mk haccepted hcreation hruntime =>
    refine ⟨_, _, _, haccepted, fun creation => ?_⟩
    cases creation with
    | true => exact ⟨rfl, hcreation⟩
    | false => exact ⟨rfl, hruntime⟩

/-- **All objects within an object are generated for the contracts of their names.** -/
theorem Generated.within {inner object : Yul.Object} (hc : r.get? c.name = some c)
    (h : Generated r c object) (hin : inner.Within object) :
    ∃ d, r.get? inner.name = some d ∧ Generated r d inner := by
  induction hin generalizing c with
  | self => exact ⟨c, h.name_eq ▸ hc, h⟩
  | child hchild _ ih =>
    obtain ⟨_, _, _, -, hcodes⟩ := h.accepted
    obtain ⟨d, hd, hgenerated⟩ := (hcodes _).2.exists_of_mem hchild
    exact ih ((of_get?_eq_some hd).2 ▸ hd) hgenerated

mutual
/-- **There is one object for a contract.** -/
theorem Generated.unique {c : Contract} {object other : Yul.Object} :
    Generated r c object → Generated r c other → object = other
  | .mk haccepted hcreation hruntime, .mk haccepted' hcreation' hruntime' => by
    obtain rfl := Except.ok.inj (haccepted.plan.symm.trans haccepted'.plan)
    obtain rfl := Except.ok.inj (haccepted.creation.symm.trans haccepted'.creation)
    obtain rfl := Except.ok.inj (haccepted.runtime.symm.trans haccepted'.runtime)
    rw [hcreation.unique hcreation', hruntime.unique hruntime']

theorem GeneratedEach.unique {names : List String} {objects others : List Yul.Object} :
    GeneratedEach r names objects → GeneratedEach r names others → objects = others
  | .nil, .nil => rfl
  | .cons hc h hrest, .cons hc' h' hrest' => by
    obtain rfl := Option.some.inj (hc.symm.trans hc')
    rw [h.unique h', hrest.unique hrest']
end

/-- **No contract deploys itself**: its object would stand within itself. -/
theorem Generated.name_not_mem_children {object : Yul.Object} (hc : r.get? c.name = some c)
    (h : Generated r c object) (creation : Bool) :
    c.name ∉ (object.children creation).map Yul.Object.name := by
  intro hmem
  obtain ⟨child, hchild, hname⟩ := List.mem_map.1 hmem
  obtain ⟨_, _, _, -, hcodes⟩ := h.accepted
  obtain ⟨d, hd, hgenerated⟩ := (hcodes creation).2.exists_of_mem hchild
  obtain rfl : c = d := Option.some.inj (hc.symm.trans (hname ▸ hd))
  -- the child is for the same contract, so it is the object itself
  have hlt := Yul.Object.sizeOf_lt_of_mem_children hchild
  rw [hgenerated.unique h] at hlt
  exact Nat.lt_irrefl _ hlt

/-! ## Kept objects -/

/-- **What is kept was generated** for the contracts of the names it is kept under. -/
def Registered (r : Registry) (store : Store) : Prop :=
  ∀ entry ∈ store, ∃ c, r.get? entry.1 = some c ∧ Generated r c entry.2

theorem Registered.lookup {name : String} {object : Yul.Object} (hstore : Registered r store)
    (hc : r.get? name = some c) (h : store.lookup name = some object) : Generated r c object := by
  obtain ⟨front, back, hsplit, -⟩ := List.lookup_eq_some_iff.1 h
  obtain ⟨d, hd, hobject⟩ := hstore (name, object) (by simp [hsplit])
  cases hc.symm.trans hd
  exact hobject

/-- **A step of a build**: what is kept stays in order, and what comes out has a property. -/
def Yields {α : Type} (r : Registry) (Q : α → Prop) (result : Except Failure α × Store) : Prop :=
  Registered r result.2 ∧ ∀ a, result.1 = .ok a → Q a

section Yields

variable {α : Type} {Q : α → Prop}

theorem yields_error (hstore : Registered r store) (e : Failure) : Yields r Q (.error e, store) :=
  ⟨hstore, fun _ h => (nomatch h)⟩

theorem yields_ok (hstore : Registered r store) {a : α} (ha : Q a) : Yields r Q (.ok a, store) := by
  refine ⟨hstore, fun _ h => ?_⟩
  cases h
  exact ha

/-- A step fails or gives something. -/
theorem Yields.cases {result : Except Failure α × Store} (h : Yields r Q result) :
    (∃ e store, result = (.error e, store) ∧ Registered r store) ∨
      ∃ a store, result = (.ok a, store) ∧ Registered r store ∧ Q a := by
  obtain ⟨result, store⟩ := result
  cases result with
  | error e => exact .inl ⟨e, store, rfl, h.1⟩
  | ok a => exact .inr ⟨a, store, rfl, h.1, h.2 a rfl⟩

end Yields

/-- Generating the object of a contract gives an object for it. -/
def Builds (r : Registry) (active : List String) (c : Contract) : Prop :=
  ∀ store, Registered r store → Yields r (Generated r c) (build r active store c)

/-- Generating the objects of some names gives objects for them. -/
def BuildsAll (r : Registry) (active : List String) (names : List String) : Prop :=
  ∀ store, Registered r store → Yields r (GeneratedEach r names) (buildAll r active store names)

theorem lookup_eq_some {x : Context} {name : String} (h : x.lookup name = some c) :
    x.registry.get? name = some c ∧ c.name = name := by
  rw [Context.lookup] at h
  split at h
  · cases h
  · exact ⟨h, (of_get?_eq_some h).2⟩

/-- The contracts that a piece deploys are known. -/
theorem known_of_deploys {x : Context} {bodies : List Stmt} {name : String}
    (h : name ∈ (x.deployed bodies).map Contract.name) : ∃ c, x.registry.get? name = some c := by
  obtain ⟨c, hc, rfl⟩ := List.mem_map.1 h
  obtain ⟨name, -, hlookup⟩ := List.mem_filterMap.1 hc
  obtain ⟨hget, rfl⟩ := lookup_eq_some hlookup
  exact ⟨c, hget⟩

/-- An object is generated after those of the contracts it deploys. -/
theorem builds_of (hc : r.get? c.name = some c)
    (hall : ∀ names : List String, (∀ name ∈ names, ∃ d, r.get? name = some d) →
      BuildsAll r active names) :
    Builds r active c := by
  intro store hstore
  rw [build]
  split
  · exact yields_error hstore _
  rename_i creation runtime hcontext
  obtain ⟨⟨⟩, -, hcontext⟩ := bind_eq_ok.1 hcontext
  obtain ⟨layout, hplan, hcontext⟩ := bind_eq_ok.1 hcontext
  cases pure_eq_ok.1 hcontext
  split
  · exact yields_error hstore _
  rename_i created hcreated
  -- what a piece deploys is known, since the piece has code
  have hcreation : BuildsAll r active created.deploys := by
    obtain ⟨_, _, _, -, -, -, rfl⟩ := creationPiece_eq_ok hcreated
    exact hall _ fun name hname => known_of_deploys hname
  obtain ⟨e, store, hbuilt, hstore⟩ | ⟨byCreation, store, hbuilt, hstore, hbyCreation⟩ :=
    (hcreation store hstore).cases
  · rw [hbuilt]
    exact yields_error hstore e
  rw [hbuilt]
  dsimp only
  split
  · exact yields_error hstore _
  rename_i staying hstaying
  have hruntime : BuildsAll r active staying.deploys := by
    obtain ⟨_, -, rfl⟩ := runtimePiece_eq_ok hstaying
    exact hall _ fun name hname => known_of_deploys hname
  obtain ⟨e, store, hbuilt, hstore⟩ | ⟨byRuntime, store, hbuilt, hstore, hbyRuntime⟩ :=
    (hruntime store hstore).cases
  · rw [hbuilt]
    exact yields_error hstore e
  rw [hbuilt]
  have hobject : Generated r c
      (.mk c.name created.code staying.code byCreation byRuntime) :=
    .mk ⟨hplan, hcreated, hstaying⟩ hbyCreation hbyRuntime
  exact yields_ok (List.forall_mem_cons.2 ⟨⟨c, hc, hobject⟩, hstore⟩) hobject

section BuildAll

variable {name : String} {names : List String} {object : Yul.Object} {store₁ store₂ : Store}

theorem buildAll_nil : buildAll r active store [] = (.ok [], store) := by
  rw [buildAll]

/-- An object that is kept comes before those of the other names. -/
theorem buildAll_of_lookup (hkept : store.lookup name = some object) :
    buildAll r active store (name :: names) =
      Prod.map (Except.map (object :: ·)) id (buildAll r active store names) := by
  rw [buildAll, hkept]
  dsimp only
  generalize buildAll r active store names = result
  obtain ⟨_ | _, _⟩ := result <;> rfl

/-- A name without a contract has no object. -/
theorem buildAll_of_unknown (hkept : store.lookup name = none) (hc : r.get? name = none) :
    buildAll r active store (name :: names) = buildAll r active store names := by
  rw [buildAll, hkept]
  grind

/-- A contract that is being generated would deploy itself. -/
theorem buildAll_of_active (hkept : store.lookup name = none) (hc : r.get? name = some c)
    (hactive : name ∈ active) :
    buildAll r active store (name :: names) =
      (.error (.malformed c.pos (.deploymentCycle name)), store) := by
  rw [buildAll, hkept]
  grind

theorem buildAll_of_error (hkept : store.lookup name = none) (hc : r.get? name = some c)
    (hactive : name ∉ active) {e : Failure}
    (hbuild : build r (name :: active) store c = (.error e, store₁)) :
    buildAll r active store (name :: names) = (.error e, store₁) := by
  rw [buildAll, hkept]
  grind

/-- The object of a contract that is not kept yet comes before those of the other names. -/
theorem buildAll_of_build (hkept : store.lookup name = none) (hc : r.get? name = some c)
    (hactive : name ∉ active)
    (hbuild : build r (name :: active) store c = (.ok object, store₁)) :
    buildAll r active store (name :: names) =
      Prod.map (Except.map (object :: ·)) id (buildAll r active store₁ names) := by
  rw [buildAll, hkept]
  cases hrest : buildAll r active store₁ names with
  | mk result store₂ => cases result <;> grind [Except.map]

/-- A contract that is not kept yet is built, and then the others are. -/
theorem buildAll_cons {objects : List Yul.Object} (hkept : store.lookup name = none)
    (hc : r.get? name = some c) (hactive : name ∉ active)
    (hbuild : build r (name :: active) store c = (.ok object, store₁))
    (hrest : buildAll r active store₁ names = (.ok objects, store₂)) :
    buildAll r active store (name :: names) = (.ok (object :: objects), store₂) := by
  rw [buildAll_of_build hkept hc hactive hbuild, hrest]
  rfl

end BuildAll

/-- Objects are generated one after another, unless they are kept already. -/
theorem buildsAll_of
    (hbuild : ∀ name d, r.get? name = some d → name ∉ active → Builds r (name :: active) d)
    {names : List String} (hknown : ∀ name ∈ names, ∃ d, r.get? name = some d) :
    BuildsAll r active names := by
  induction names with
  | nil =>
    intro store hstore
    rw [buildAll_nil]
    exact yields_ok hstore .nil
  | cons name rest ih =>
    rw [List.forall_mem_cons] at hknown
    obtain ⟨⟨d, hd⟩, hrest⟩ := hknown
    -- once there is an object for the first name, those for the others follow
    have hothers {object : Yul.Object} {store : Store} (hobject : Generated r d object)
        (hstore : Registered r store) :
        Yields r (GeneratedEach r (name :: rest))
          (Prod.map (Except.map (object :: ·)) id (buildAll r active store rest)) := by
      obtain ⟨e, store, hbuilt, hstore⟩ | ⟨objects, store, hbuilt, hstore, hobjects⟩ :=
        (ih hrest store hstore).cases
      · rw [hbuilt]
        exact yields_error hstore e
      · rw [hbuilt]
        exact yields_ok hstore (.cons hd hobject hobjects)
    intro store hstore
    cases hkept : store.lookup name with
    | some object =>
      rw [buildAll_of_lookup hkept]
      exact hothers (hstore.lookup hd hkept) hstore
    | none =>
      by_cases hactive : name ∈ active
      · rw [buildAll_of_active hkept hd hactive]
        exact yields_error hstore _
      obtain ⟨e, store₁, hbuilt, hstore⟩ | ⟨object, store₁, hbuilt, hstore, hobject⟩ :=
        (hbuild name d hd hactive store hstore).cases
      · rw [buildAll_of_error hkept hd hactive hbuilt]
        exact yields_error hstore e
      · rw [buildAll_of_build hkept hd hactive hbuilt]
        exact hothers hobject hstore

/-- **Whatever contracts are being generated, objects come out for the contracts they are for.** -/
theorem builds (hc : r.get? c.name = some c) : Builds r active c := by
  -- each contract within is generated while one contract more is
  obtain ⟨n, hn⟩ : ∃ n, n = idle r active := ⟨_, rfl⟩
  induction n using Nat.strongRecOn generalizing active c with
  | ind n ih =>
    refine builds_of hc fun names hknown => buildsAll_of (fun name d hd hactive => ?_) hknown
    exact ih _ (hn ▸ idle_cons_lt hd hactive) ((of_get?_eq_some hd).2 ▸ hd) rfl

/-- **The stores of a build**: contracts of the build are generated one after another, from nothing
on. -/
inductive Grown (r : Registry) : Store → Prop
  | empty : Grown r []
  | next {store : Store} {c : Contract} (h : Grown r store) (hc : r.get? c.name = some c) :
      Grown r (emit r store c).2

/-- A step of a build keeps the store in order. -/
theorem Registered.emit (hstore : Registered r store) (hc : r.get? c.name = some c) :
    Registered r (emit r store c).2 ∧
      ∀ object, (emit r store c).1 = .ok object → Generated r c object := by
  rw [Emit.emit]
  split
  · rename_i object hlookup
    refine ⟨hstore, fun _ h => ?_⟩
    cases h
    exact hstore.lookup hc hlookup
  · exact builds hc store hstore

theorem Grown.registered (h : Grown r store) : Registered r store := by
  induction h with
  | empty => exact fun _ h => (nomatch h)
  | next _ hc ih => exact (ih.emit hc).1

/-- **What a build generates for a contract is generated for that contract.** -/
theorem Grown.generated {object : Yul.Object} (hstore : Grown r store)
    (hc : r.get? c.name = some c) (h : (emit r store c).1 = .ok object) : Generated r c object :=
  (hstore.registered.emit hc).2 object h

/-! ## Builds that succeed -/

/-- The contracts that the two codes of a contract deploy, if code is generated for it. -/
def deploys? (r : Registry) (c : Contract) : Option (List String × List String) :=
  (contextFor r c).toOption.bind fun (creation, runtime) =>
    creation.creationPiece.toOption.bind fun created =>
      runtime.runtimePiece.toOption.map fun staying => (created.deploys, staying.deploys)

/-- **A contract is built once the contracts that it deploys are.** -/
theorem build_of_deploys (active : List String) (store : Store) {store₁ store₂ : Store}
    {names more : List String} {byCreation byRuntime : List Yul.Object}
    (h : deploys? r c = some (names, more))
    (hcreation : buildAll r active store names = (.ok byCreation, store₁))
    (hruntime : buildAll r active store₁ more = (.ok byRuntime, store₂)) :
    ∃ object : Yul.Object, object.children true = byCreation ∧ object.children false = byRuntime ∧
      build r active store c = (.ok object, (c.name, object) :: store₂) := by
  obtain ⟨⟨creation, runtime⟩, hcontext, h⟩ := Option.bind_eq_some_iff.1 h
  obtain ⟨created, hcreated, h⟩ := Option.bind_eq_some_iff.1 h
  obtain ⟨staying, hstaying, h⟩ := Option.map_eq_some_iff.1 h
  cases h
  rw [build]
  simp only [toOption_eq_some.1 hcontext, toOption_eq_some.1 hcreated,
    toOption_eq_some.1 hstaying, hcreation, hruntime]
  exact ⟨_, rfl, rfl, rfl⟩

end Emit

end Covenant
