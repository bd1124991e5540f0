import Covenant.Proofs.Code.Deployments
import Covenant.Proofs.Code.Objects

/-!
# Kept objects change nothing

Objects are kept once they are generated, also when the contract they were generated for is refused
in the end. None of that can be told from the outside: an object, or the error in its place, is that
of a generator that keeps nothing (`objectWithin`), whatever was generated before. No more contracts
are open at a time than there are, so that generating them comes to an end; and where it succeeds,
no contract that can be reached by deployments deploys itself (`emitAll_spec`).
-/

namespace Covenant

open Relation (ReflTransGen TransGen)

namespace Emit

open Registry

/-! ## Generating without a store -/

/-- The objects of several contracts, by name, with the given way to generate one of them, which may
come to no result. -/
def objectsBy (r : Registry) (active : List String)
    (object : String → Contract → Option (Except Failure Yul.Object)) :
    List String → Option (Except Failure (List Yul.Object))
  | [] => some (.ok [])
  | name :: rest =>
    match r.get? name with
    | none => objectsBy r active object rest
    | some c =>
      if name ∈ active then some (.error (.malformed c.pos (.deploymentCycle name)))
      else
        match object name c with
        | none => none
        | some (.error e) => some (.error e)
        | some (.ok first) => (objectsBy r active object rest).map (·.map (first :: ·))

/-- **The object of a contract, generated without keeping any**. It is given up where more than
`depth` contracts are open within each other. -/
def objectWithin (r : Registry) :
    Nat → List String → Contract → Option (Except Failure Yul.Object)
  | 0, _, _ => none
  | depth + 1, active, c =>
    match contextFor r c with
    | .error e => some (.error e)
    | .ok (creation, runtime) =>
      match creation.creationPiece with
      | .error e => some (.error e)
      | .ok created =>
        match objectsBy r active (fun name d => objectWithin r depth (name :: active) d)
            created.deploys with
        | none => none
        | some (.error e) => some (.error e)
        | some (.ok byCreation) =>
          match runtime.runtimePiece with
          | .error e => some (.error e)
          | .ok staying =>
            (objectsBy r active (fun name d => objectWithin r depth (name :: active) d)
              staying.deploys).map
                (·.map fun byRuntime => .mk c.name created.code staying.code byCreation byRuntime)

variable {r : Registry} {c d : Contract} {active other : List String} {store : Store}
  {depth more : Nat} {object : Yul.Object} {name : String}

/-- An object is generated for a contract that is found and not open. -/
def Found (r : Registry) (active : List String)
    (object : String → Contract → Option (Except Failure Yul.Object)) (name : String)
    (o : Yul.Object) : Prop :=
  ∃ d, r.get? name = some d ∧ name ∉ active ∧ object name d = some (.ok o)

theorem objectsBy_eq_ok {generate : String → Contract → Option (Except Failure Yul.Object)}
    {names : List String} (hknown : ∀ name ∈ names, ∃ d, r.get? name = some d)
    {objects : List Yul.Object} :
    objectsBy r active generate names = some (.ok objects) ↔
      List.Forall₂ (Found r active generate) names objects := by
  induction names generalizing objects with
  | nil => cases objects <;> simp [objectsBy]
  | cons name rest ih =>
    rw [List.forall_mem_cons] at hknown
    obtain ⟨⟨d, hd⟩, hrest⟩ := hknown
    rw [objectsBy, hd]
    dsimp only
    constructor
    · intro h
      split at h
      · cases h
      rename_i hactive
      split at h
      · cases h
      · cases h
      · rename_i first hfirst
        obtain ⟨result, hresult, hok⟩ := Option.map_eq_some_iff.1 h
        cases result with
        | error e => cases hok
        | ok objects =>
          cases hok
          exact .cons ⟨d, hd, hactive, hfirst⟩ ((ih hrest).1 hresult)
    · intro h
      cases h with
      | cons hfirst hothers =>
        obtain ⟨d', hd', hactive, hfirst⟩ := hfirst
        cases hd.symm.trans hd'
        rw [if_neg hactive, hfirst]
        dsimp only
        rw [(ih hrest).2 hothers]
        rfl

/-- **What it takes to generate an object.** -/
structure Made (r : Registry) (generate : String → Contract → Option (Except Failure Yul.Object))
    (active : List String) (c : Contract) (object : Yul.Object) (layout : Storage.Layout)
    (created staying : Piece) (byCreation byRuntime : List Yul.Object) : Prop where
  selectors : Abi.checkSelectors c = .ok ()
  accepted : Accepted r c layout created staying
  creation : List.Forall₂ (Found r active generate) created.deploys byCreation
  runtime : List.Forall₂ (Found r active generate) staying.deploys byRuntime
  object : object = .mk c.name created.code staying.code byCreation byRuntime

theorem objectWithin_eq_ok :
    objectWithin r (depth + 1) active c = some (.ok object) ↔
      ∃ layout created staying byCreation byRuntime,
        Made r (fun name d => objectWithin r depth (name :: active) d) active c object layout
          created staying byCreation byRuntime := by
  rw [objectWithin]
  constructor
  · intro h
    -- The splits follow the stages in turn: layout, creation code, its objects, runtime code, its
    -- objects.
    split at h
    · cases h
    rename_i creation runtime hcontext
    obtain ⟨⟨⟩, hselectors, hcontext⟩ := bind_eq_ok.1 hcontext
    obtain ⟨layout, hplan, hcontext⟩ := bind_eq_ok.1 hcontext
    cases pure_eq_ok.1 hcontext
    split at h
    · cases h
    rename_i created hcreated
    split at h
    · cases h
    · cases h
    rename_i byCreation hbyCreation
    split at h
    · cases h
    rename_i staying hstaying
    obtain ⟨result, hresult, hok⟩ := Option.map_eq_some_iff.1 h
    cases result with
    | error e => cases hok
    | ok byRuntime =>
      cases hok
      exact ⟨layout, created, staying, byCreation, byRuntime, hselectors,
        ⟨hplan, hcreated, hstaying⟩,
        (objectsBy_eq_ok fun _ h => (deploys_of_created hplan hcreated h).2).1 hbyCreation,
        (objectsBy_eq_ok fun _ h => (deploys_of_staying hstaying h).2).1 hresult, rfl⟩
  · rintro ⟨layout, created, staying, byCreation, byRuntime, hselectors, haccepted, hcreation,
      hruntime, rfl⟩
    have hcontext : contextFor r c = .ok (⟨r, c, layout, true⟩, ⟨r, c, layout, false⟩) := by
      simp [contextFor, hselectors, haccepted.plan]
    rw [hcontext]
    dsimp only
    rw [haccepted.creation]
    dsimp only
    rw [(objectsBy_eq_ok fun _ h =>
      (deploys_of_created haccepted.plan haccepted.creation h).2).2 hcreation]
    dsimp only
    rw [haccepted.runtime]
    dsimp only
    rw [(objectsBy_eq_ok fun _ h => (deploys_of_staying haccepted.runtime h).2).2 hruntime]
    rfl

/-! ## What can be reached by deployments -/

/-- Where an object is generated, so are those of the contracts it deploys. -/
theorem exists_of_deploys (h : objectWithin r depth active c = some (.ok object))
    (hdeploys : c.Deploys name) :
    ∃ d less inner, r.get? name = some d ∧ name ∉ active ∧
      objectWithin r less (name :: active) d = some (.ok inner) := by
  cases depth with
  | zero => cases h
  | succ depth =>
    obtain ⟨_, _, _, _, _, hmade⟩ := objectWithin_eq_ok.1 h
    obtain hname | hname := hmade.accepted.exists_deploys hdeploys
    · obtain ⟨inner, -, d, hd, hactive, hinner⟩ := exists_of_mem_left hmade.creation hname
      exact ⟨d, depth, inner, hd, hactive, hinner⟩
    · obtain ⟨inner, -, d, hd, hactive, hinner⟩ := exists_of_mem_left hmade.runtime hname
      exact ⟨d, depth, inner, hd, hactive, hinner⟩

/-- Where an object is generated, so are those of all contracts that can be reached, and none of
these was open before. -/
theorem exists_of_reaches (h : objectWithin r depth active c = some (.ok object))
    (hc : r.get? c.name = some c) (hreach : TransGen r.Deploys c.name name) :
    name ∉ active ∧ ∃ d less open' inner, r.get? name = some d ∧ (∀ a ∈ active, a ∈ open') ∧
      name ∈ open' ∧ objectWithin r less open' d = some (.ok inner) := by
  induction hreach with
  | single hdeploys =>
    obtain ⟨c', hc', hdeploys⟩ := hdeploys
    cases hc.symm.trans hc'
    obtain ⟨d, less, inner, hd, hactive, hinner⟩ := exists_of_deploys h hdeploys
    exact ⟨hactive, d, less, _, inner, hd, fun _ => List.mem_cons_of_mem _, List.mem_cons_self,
      hinner⟩
  | tail _ hdeploys ih =>
    obtain ⟨-, d, less, open', inner, hd, hsub, -, hinner⟩ := ih
    obtain ⟨d', hd', hdeploys⟩ := hdeploys
    cases hd.symm.trans hd'
    obtain ⟨e, fewer, last, he, hopen, hlast⟩ := exists_of_deploys hinner hdeploys
    exact ⟨fun hmem => hopen (hsub _ hmem), e, fewer, _, last, he,
      fun a ha => List.mem_cons_of_mem _ (hsub a ha), List.mem_cons_self, hlast⟩

/-- **A contract whose object is generated does not deploy itself**, directly or not. -/
theorem not_reaches_self (h : objectWithin r depth active c = some (.ok object))
    (hc : r.get? c.name = some c) (hself : c.name ∈ active) :
    ¬ TransGen r.Deploys c.name c.name := fun hcycle =>
  (exists_of_reaches h hc hcycle).1 hself

/-- **Which contracts are open makes no difference** for an object that is generated, as long as
none of them can be reached. -/
theorem objectWithin_of_unreached (h : objectWithin r depth active c = some (.ok object))
    (hc : r.get? c.name = some c) (hother : ∀ a ∈ other, ¬ TransGen r.Deploys c.name a)
    (hmore : idle r other < more) : objectWithin r more other c = some (.ok object) := by
  induction depth generalizing active c object other more with
  | zero => cases h
  | succ depth ih =>
    obtain ⟨more, rfl⟩ : ∃ n, more = n + 1 := ⟨more - 1, by omega⟩
    obtain ⟨layout, created, staying, byCreation, byRuntime, hmade⟩ := objectWithin_eq_ok.1 h
    have hfound {names : List String} {objects : List Yul.Object}
        (hnames : ∀ name ∈ names, c.Deploys name)
        (h : List.Forall₂ (Found r active fun name d => objectWithin r depth (name :: active) d)
          names objects) :
        List.Forall₂ (Found r other fun name d => objectWithin r more (name :: other) d)
          names objects := by
      induction h with
      | nil => exact .nil
      | @cons name object names objects hfirst _ ihrest =>
        rw [List.forall_mem_cons] at hnames
        refine .cons ?_ (ihrest hnames.2)
        obtain ⟨d, hd, hactive, hinner⟩ := hfirst
        obtain rfl := (of_get?_eq_some hd).2
        have hstep : r.Deploys c.name d.name := ⟨c, hc, hnames.1⟩
        have hidle : d.name ∉ other := fun hmem => hother _ hmem (.single hstep)
        refine ⟨d, hd, hidle, ih hinner hd ?_ ?_⟩
        · intro a ha hreach
          -- the contract is open where its parts were generated, so none of them reaches it
          obtain rfl | ha := List.mem_cons.1 ha
          · exact not_reaches_self hinner hd List.mem_cons_self hreach
          · exact hother a ha (.head hstep hreach)
        · have := idle_cons_lt hd hidle
          omega
    refine objectWithin_eq_ok.2 ⟨layout, created, staying, byCreation, byRuntime, hmade.selectors,
      hmade.accepted, hfound ?_ hmade.creation, hfound ?_ hmade.runtime, hmade.object⟩
    · exact fun _ h => (deploys_of_created hmade.accepted.plan hmade.accepted.creation h).1
    · exact fun _ h => (deploys_of_staying hmade.accepted.runtime h).1

/-! ## Generating with a store -/

/-- **What is kept could be generated again** without a store. -/
def Kept (r : Registry) (store : Store) : Prop :=
  ∀ entry ∈ store, ∃ d depth active, r.get? entry.1 = some d ∧ entry.1 ∈ active ∧
    objectWithin r depth active d = some (.ok entry.2)

theorem Kept.lookup (hstore : Kept r store) (hd : r.get? name = some d)
    (h : store.lookup name = some object) :
    ∃ depth active, name ∈ active ∧ objectWithin r depth active d = some (.ok object) := by
  obtain ⟨front, back, hsplit, -⟩ := List.lookup_eq_some_iff.1 h
  obtain ⟨d', depth, active, hd', hactive, hobject⟩ := hstore (name, object) (by simp [hsplit])
  cases hd.symm.trans hd'
  exact ⟨depth, active, hactive, hobject⟩

/-- An object that is kept is the one that would be generated, where all open contracts lead to the
contract it is for. -/
theorem Kept.objectWithin_eq (hstore : Kept r store) (hd : r.get? name = some d)
    (h : store.lookup name = some object)
    (hopen : ∀ a ∈ active, TransGen r.Deploys a name) (hdepth : idle r active ≤ depth) :
    name ∉ active ∧ objectWithin r depth (name :: active) d = some (.ok object) := by
  obtain ⟨more, other, hother, hobject⟩ := hstore.lookup hd h
  obtain rfl := (of_get?_eq_some hd).2
  have hacyclic := not_reaches_self hobject hd hother
  have hidle : d.name ∉ active := fun hmem => hacyclic (hopen _ hmem)
  have hfewer := idle_cons_lt hd hidle
  refine ⟨hidle, objectWithin_of_unreached hobject hd (fun a ha hreach => ?_) (by omega)⟩
  obtain rfl | ha := List.mem_cons.1 ha
  · exact hacyclic hreach
  · exact hacyclic (hreach.trans (hopen a ha))

/-- **Generating with a store gives what it would give without one**, and leaves the store in
order. -/
def Agrees {α : Type} (r : Registry) (plain : Option (Except Failure α))
    (result : Except Failure α × Store) : Prop :=
  plain = some result.1 ∧ Kept r result.2

/-- The object of a contract is the one that would be generated without a store. -/
def AgreesOn (r : Registry) (depth : Nat) (active : List String) (c : Contract) : Prop :=
  ∀ store, Kept r store → Agrees r (objectWithin r depth active c) (build r active store c)

theorem agrees_buildAll {names : List String}
    (hknown : ∀ name ∈ names, ∃ d, r.get? name = some d)
    (hopen : ∀ name ∈ names, ∀ a ∈ active, TransGen r.Deploys a name)
    (hdepth : idle r active ≤ depth)
    (hbuild : ∀ name ∈ names, ∀ d, r.get? name = some d → name ∉ active →
      AgreesOn r depth (name :: active) d)
    (hstore : Kept r store) :
    Agrees r (objectsBy r active (fun name d => objectWithin r depth (name :: active) d) names)
      (buildAll r active store names) := by
  induction names generalizing store with
  | nil =>
    rw [buildAll_nil]
    exact ⟨rfl, hstore⟩
  | cons name rest ih =>
    rw [List.forall_mem_cons] at hknown hopen hbuild
    obtain ⟨⟨d, hd⟩, hknown⟩ := hknown
    -- the objects of the other names follow that of the first one
    have hothers {object : Yul.Object} {store : Store} (hactive : name ∉ active)
        (hobject : objectWithin r depth (name :: active) d = some (.ok object))
        (hstore : Kept r store) :
        Agrees r
          (objectsBy r active (fun name d => objectWithin r depth (name :: active) d)
            (name :: rest))
          (Prod.map (Except.map (object :: ·)) id (buildAll r active store rest)) := by
      obtain ⟨hrest, hkept⟩ := ih hknown hopen.2 hbuild.2 hstore
      refine ⟨?_, hkept⟩
      rw [objectsBy, hd]
      dsimp only
      rw [if_neg hactive, hobject]
      dsimp only
      rw [hrest]
      rfl
    cases hkept : store.lookup name with
    | some object =>
      obtain ⟨hactive, hobject⟩ := hstore.objectWithin_eq hd hkept hopen.1 hdepth
      rw [buildAll_of_lookup hkept]
      exact hothers hactive hobject hstore
    | none =>
      by_cases hactive : name ∈ active
      · rw [buildAll_of_active hkept hd hactive]
        refine ⟨?_, hstore⟩
        rw [objectsBy, hd]
        exact if_pos hactive
      obtain ⟨hobject, hstore⟩ := hbuild.1 d hd hactive store hstore
      cases hbuilt : build r (name :: active) store d with
      | mk result store₁ =>
        rw [hbuilt] at hobject hstore
        cases result with
        | error e =>
          rw [buildAll_of_error hkept hd hactive hbuilt]
          refine ⟨?_, hstore⟩
          rw [objectsBy, hd]
          dsimp only
          rw [if_neg hactive, hobject]
        | ok object =>
          rw [buildAll_of_build hkept hd hactive hbuilt]
          exact hothers hactive hobject hstore

theorem agreesOn (hc : r.get? c.name = some c) (hself : c.name ∈ active)
    (hopen : ∀ a ∈ active, ReflTransGen r.Deploys a c.name) (hdepth : idle r active < depth) :
    AgreesOn r depth active c := by
  induction depth generalizing active c with
  | zero => omega
  | succ depth ih =>
    intro store hstore
    -- both lists of deployments are generated alike, by the induction hypothesis on each of them
    have hall {names : List String} {store : Store}
        (hnames : ∀ name ∈ names, c.Deploys name ∧ ∃ d, r.get? name = some d)
        (hstore : Kept r store) :
        Agrees r (objectsBy r active (fun name d => objectWithin r depth (name :: active) d) names)
          (buildAll r active store names) := by
      have hreach {name : String} (hname : name ∈ names) (a : String) (ha : a ∈ active) :
          TransGen r.Deploys a name :=
        .tail' (hopen a ha) ⟨c, hc, (hnames name hname).1⟩
      refine agrees_buildAll (fun name hname => (hnames name hname).2)
        (fun name hname => hreach hname) (by omega) (fun name hname d hd hactive => ?_) hstore
      obtain rfl := (of_get?_eq_some hd).2
      have hfewer := idle_cons_lt hd hactive
      refine ih hd List.mem_cons_self (fun a ha => ?_) (by omega)
      obtain rfl | ha := List.mem_cons.1 ha
      · exact .refl
      · exact (hreach hname a ha).to_reflTransGen
    rw [build, objectWithin]
    cases hcontext : contextFor r c with
    | error e => exact ⟨rfl, hstore⟩
    | ok contexts =>
    obtain ⟨⟨⟩, -, hplanned⟩ := bind_eq_ok.1 hcontext
    obtain ⟨layout, hplan, hcontexts⟩ := bind_eq_ok.1 hplanned
    cases pure_eq_ok.1 hcontexts
    dsimp only
    cases hcreated : (Context.mk r c layout true).creationPiece with
    | error e => exact ⟨rfl, hstore⟩
    | ok created =>
    dsimp only
    obtain ⟨hcreation, hstore⟩ :=
      hall (fun _ => deploys_of_created hplan hcreated) hstore
    rw [hcreation]
    generalize buildAll r active store created.deploys = result at hcreation hstore
    obtain ⟨e | byCreation, store⟩ := result
    · exact ⟨rfl, hstore⟩
    dsimp only at hcreation hstore ⊢
    cases hstaying : (Context.mk r c layout false).runtimePiece with
    | error e => exact ⟨rfl, hstore⟩
    | ok staying =>
    dsimp only
    obtain ⟨hruntime, hstore⟩ := hall (fun _ => deploys_of_staying hstaying) hstore
    rw [hruntime]
    generalize buildAll r active store staying.deploys = result at hruntime hstore
    obtain ⟨e | byRuntime, store⟩ := result
    · exact ⟨rfl, hstore⟩
    -- what is put into the store is what the generator without a store gives
    refine ⟨rfl, List.forall_mem_cons.2 ⟨⟨c, depth + 1, active, hc, hself, ?_⟩, hstore⟩⟩
    simp only [objectWithin, hcontext, hcreated, hcreation, hstaying, hruntime]
    rfl

/-! ## Sequences of contracts -/

/-- What comes of generating contracts one after another with one store. -/
def emitAll (r : Registry) (store : Store) :
    List Contract → List (Except Failure Yul.Object)
  | [] => []
  | c :: rest => (emit r store c).1 :: emitAll r (emit r store c).2 rest

/-- Where every contract of the build may be open at a time, none is given up. -/
theorem agrees_emit (hc : r.get? c.name = some c) (hstore : Kept r store) :
    Agrees r (objectWithin r r.contracts.length [c.name] c) (emit r store c) := by
  have hdepth : idle r [c.name] < r.contracts.length := by
    simpa [idle] using idle_cons_lt hc List.not_mem_nil
  rw [emit]
  split
  · rename_i object hkept
    obtain ⟨depth, active, hself, hobject⟩ := hstore.lookup hc hkept
    refine ⟨objectWithin_of_unreached hobject hc ?_ hdepth, hstore⟩
    simpa using not_reaches_self hobject hc hself
  · exact agreesOn hc List.mem_cons_self (by simpa using .refl) hdepth store hstore

theorem emitAll_eq_map {cs : List Contract} (hcs : ∀ c ∈ cs, r.get? c.name = some c)
    (hstore : Kept r store) : emitAll r store cs = cs.map fun c => (emit r [] c).1 := by
  induction cs generalizing store with
  | nil => rfl
  | cons c rest ih =>
    rw [List.forall_mem_cons] at hcs
    obtain ⟨hagrees, hkept⟩ := agrees_emit hcs.1 hstore
    obtain ⟨hfresh, -⟩ := @agrees_emit r c [] hcs.1 (by simp [Kept])
    rw [emitAll, ih hcs.2 hkept, List.map_cons,
      Option.some.inj (hagrees.symm.trans hfresh)]

/-- **What has been generated before makes no difference.** For contracts of a registry that are
generated one after another with one store, be some of them refused or not,

* each gives the object, or the error, that it gives with an empty store;
* that is what a generator gives that keeps nothing, with no more contracts open within each other
  than there are, so that generating ends;
* and where it gives an object, no contract that can be reached by deployments deploys itself. -/
theorem emitAll_spec (r : Registry) (cs : List Contract)
    (hcs : ∀ c ∈ cs, r.get? c.name = some c) :
    emitAll r [] cs = cs.map (fun c => (emit r [] c).1) ∧
      ∀ c ∈ cs, objectWithin r r.contracts.length [c.name] c = some (emit r [] c).1 ∧
        ∀ object, (emit r [] c).1 = .ok object →
          ∀ name, ReflTransGen r.Deploys c.name name → ¬ TransGen r.Deploys name name := by
  refine ⟨emitAll_eq_map hcs (by simp [Kept]), fun c hc => ?_⟩
  obtain ⟨hplain, -⟩ := @agrees_emit r c [] (hcs c hc) (by simp [Kept])
  refine ⟨hplain, fun object hobject name hreach => ?_⟩
  rw [hobject] at hplain
  rcases Relation.reflTransGen_iff_eq_or_transGen.1 hreach with rfl | hreach
  · exact not_reaches_self hplain (hcs c hc) List.mem_cons_self
  · obtain ⟨-, d, _, _, _, hd, -, hself, hinner⟩ := exists_of_reaches hplain (hcs c hc) hreach
    obtain rfl := (of_get?_eq_some hd).2
    exact not_reaches_self hinner hd hself

/-! ## A contract that deploys itself beside others -/

/-- A contract with a method `make(): void { new ⟨name⟩(); }`. -/
def maker (name deployed : String) : Contract where
  name := name
  methods :=
    [{ name := "make", returns := .void, visibility := .hidden
       body := [.evaluate {} (.deploy {} deployed [])] }]

/-- One contract without members, one that deploys it, and one that deploys itself. -/
def nursery : Registry where
  contracts := [{ name := "Child" }, maker "Factory" "Child", maker "Loop" "Loop"]

theorem loop_deploys_itself : TransGen nursery.Deploys "Loop" "Loop" := by
  have hbody : (maker "Loop" "Loop").HasBody [.evaluate {} (.deploy {} "Loop" [])] :=
    .inr ⟨_, List.mem_singleton.2 rfl, rfl⟩
  exact .single ⟨_, rfl, {}, [], .inl ⟨_, hbody, _, ⟨_, List.mem_singleton.2 rfl, .self _⟩, _,
    List.mem_singleton.2 rfl, .self _⟩⟩

/-- The contract that deploys itself is refused, and the others have their objects, with the store
that is left behind by it as without. -/
theorem emitAll_spec_nursery :
    ∃ first second, emitAll nursery [] [maker "Loop" "Loop", maker "Factory" "Child"]
        = [.error first, .ok second] ∧
      [maker "Loop" "Loop", maker "Factory" "Child"].map (fun c => (emit nursery [] c).1)
        = [.error first, .ok second] := by
  have hcs : ∀ c ∈ [maker "Loop" "Loop", maker "Factory" "Child"],
      nursery.get? c.name = some c := by
    simp only [List.forall_mem_cons, List.not_mem_nil, false_implies, implies_true, and_true]
    exact ⟨rfl, rfl⟩
  obtain ⟨hall, heach⟩ := emitAll_spec nursery _ hcs
  obtain ⟨-, hloop⟩ := heach (maker "Loop" "Loop") List.mem_cons_self
  obtain ⟨hfactory, -⟩ := heach (maker "Factory" "Child") (by simp)
  have hok : (objectWithin nursery 3 ["Factory"] (maker "Factory" "Child")).map Except.isOk
      = some true := by
    decide +kernel
  rw [show nursery.contracts.length = 3 from rfl,
    show (maker "Factory" "Child").name = "Factory" from rfl] at hfactory
  rw [hfactory] at hok
  rw [hall]
  cases hfirst : (emit nursery [] (maker "Loop" "Loop")).1 with
  | ok object => exact absurd loop_deploys_itself (hloop object hfirst "Loop" .refl)
  | error first =>
    cases hsecond : (emit nursery [] (maker "Factory" "Child")).1 with
    | error e =>
      rw [hsecond] at hok
      cases hok
    | ok second => exact ⟨first, second, by simp [hfirst, hsecond], by simp [hfirst, hsecond]⟩

end Emit

end Covenant
