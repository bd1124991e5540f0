import Covenant.Proofs.Code.Kinds
import Covenant.Proofs.Inheritance.Members

/-!
# Closed code

Generated code applies nothing that it does not define, except for what is built in, and defines
nothing twice. What is applied is collected from the bodies that a piece has code for, and for the
code that creates a contract these are all that can be reached from the constructor
(`mem_reachedMethods_of_ownCalls`).
-/

namespace Covenant

namespace Yul

/-- **Code is closed**: what it applies is built in or defined in it exactly once, and it defines
nothing that is built in. -/
def Code.Closed (code : Code) : Prop :=
  (∀ name ∈ code.calls, name ∈ builtins ∨ code.defines.count name = 1) ∧
    ∀ name ∈ code.defines, name ∉ builtins

theorem Code.defines_eq (code : Code) : code.defines = code.functions.map Function.name := by
  have hitems (items : List Item) :
      items.flatMap Item.defines = (items.filterMap Item.function?).map Function.name := by
    induction items with
    | nil => rfl
    | cons item rest ih =>
      cases item with
      | function setting f =>
        rw [List.flatMap_cons, ih]
        rfl
      | statement => exact ih
      | choice => exact ih
  rw [defines, functions, List.map_flatMap]
  exact congrArg (List.flatMap · code) (funext fun s => hitems s.items)

theorem Code.calls_append (code more : Code) :
    Code.calls (code ++ more) = code.calls ++ more.calls :=
  List.flatMap_append

end Yul

namespace Emit

open Yul.Stmt

/-! ## Sections -/

section Sections

variable {x : Context} {mark : String} {entry : Yul.Section} {functions : List Yul.Function}
  {bodies : List Stmt} {number : Nat}

/-- **What the code of a piece may apply**: what is built in, shared functions, and what is defined
for its bodies. -/
inductive Applicable (x : Context) (functions : List Yul.Function) (bodies : List Stmt) :
    String → Prop
  | basic {name} (h : name ∈ basicOrObject) : Applicable x functions bodies name
  | body {f} (hf : f ∈ functions) : Applicable x functions bodies f.name
  | call {t} (ht : t ∈ targets x bodies) : Applicable x functions bodies (targetName t)
  | deploy {c} (hc : c ∈ x.deployed bodies) : Applicable x functions bodies (deployFunction c.name)
  | entrySlot {arity} (h : arity ∈ x.layout.arities) :
      Applicable x functions bodies (Storage.entrySlot arity)
  | accessor {cell f} (hcell : cell ∈ x.layout.cells) (hf : f ∈ accessorFunctions x.creation cell) :
      Applicable x functions bodies f.name
  | event {e} (he : e ∈ x.logged bodies) : Applicable x functions bodies (eventFunction e.name)
  | hash {count} (h : count ∈ hashArities bodies) :
      Applicable x functions bodies (hashFunction count)

/-- What a piece may apply is built in or shared, or the piece defines it. -/
theorem Applicable.defined {name : String} (number : Nat) (h : Applicable x functions bodies name) :
    name ∈ basicOrObject ∨ name ∈ (ownFunctions x functions bodies number ++
      hashFunctions bodies).map Yul.Function.name := by
  simp only [ownFunctions, outsideFunctions, List.map_append, List.mem_append,
    names_callDefinitions, names_deployDefinitions, names_entrySlotFunctions,
    names_eventFunctions, names_hashFunctions]
  cases h with
  | basic h => exact .inl h
  | body hf => simp only [List.mem_map_of_mem hf, true_or, or_true]
  | call ht =>
    have hname := mem_keys_firstByKey.2 (List.mem_map_of_mem (f := targetName) ht)
    simp only [hname, true_or, or_true]
  | deploy hc =>
    have hcontract := List.mem_map_of_mem (f := Contract.name) hc
    have hname := List.mem_map_of_mem (f := deployFunction) hcontract
    simp only [hname, true_or, or_true]
  | entrySlot h => simp only [List.mem_map_of_mem h, true_or, or_true]
  | accessor hcell hf =>
    have hmem := List.mem_flatMap.2 ⟨_, hcell, hf⟩
    simp only [List.mem_map_of_mem hmem, true_or, or_true]
  | event he =>
    have hevent := List.mem_map_of_mem (f := Event.name) he
    have hname := List.mem_map_of_mem (f := eventFunction) hevent
    simp only [hname, true_or, or_true]
  | hash h =>
    have hname : hashFunction _ ∈ hashNames bodies :=
      List.mem_map_of_mem (List.mem_eraseDups.2 (List.mem_mergeSort.2 h))
    simp only [hname, or_true]

/-- **The functions of a piece are those that its bodies need**, if the methods are among them. -/
theorem supplies_applicable
    (hmethods : ∀ target ∈ ownCalls bodies, target ∈ x.contract.methodNames →
      ∃ f ∈ functions, f.name = methodFunction target) :
    Supplies x bodies (Applicable x functions bodies) where
  basic name hname := .basic (basicOrObject_of_basic name hname)
  accessors cell hcell f hf := .accessor hcell hf
  methods target htarget hname := by
    obtain ⟨f, hf, hfunction⟩ := hmethods target htarget hname
    exact hfunction ▸ .body hf
  calls pos target receiver args hcall contract other m hcontract hother hm := by
    show Applicable x functions bodies (targetName (contract, m))
    exact .call (mem_targets.2 ⟨pos, target, receiver, args, hcall, hcontract, other, hother, hm⟩)
  deploys contract hcontract other hother := by
    obtain ⟨-, rfl⟩ := lookup_eq_some hother
    exact .deploy (mem_deployed.2 ⟨hcontract, hother⟩)
  events event hevent e he := by
    obtain rfl : e.name = event := by simpa using List.find?_some he
    exact .event (mem_logged.2 ⟨List.mem_of_find?_eq_some he, hevent⟩)
  hashes count hcount := .hash hcount

theorem accessors_functions {creation : Bool} {cell : Storage.Cell} :
    ∀ item ∈ Storage.accessors creation cell, ∃ setting f, item = .function setting f := by
  unfold Storage.accessors
  cases cell.location <;> cases creation <;> simp [Storage.reader, Storage.writer]

/-- Behind the entry there are functions only. -/
theorem sections_functions {s : Yul.Section}
    (hs : s ∈ (x.sections mark entry functions bodies number).code) :
    s = entry ∨ ∀ item ∈ s.items, ∃ setting f, item = .function setting f := by
  simp only [Context.sections, List.mem_append, List.mem_cons, List.not_mem_nil, or_false] at hs
  rcases hs with (rfl | rfl | rfl | rfl | rfl) | rfl
  · exact .inl rfl
  · exact .inr (List.forall_mem_map.2 fun f _ => ⟨_, f, rfl⟩)
  · exact .inr (List.forall_mem_map.2 fun arity _ => ⟨_, _, rfl⟩)
  · refine .inr fun item hitem => ?_
    obtain ⟨cell, -, hitem⟩ := List.mem_flatMap.1 hitem
    exact accessors_functions item hitem
  · exact .inr (List.forall_mem_map.2 fun f _ => ⟨_, f, rfl⟩)
  · exact .inr (List.forall_mem_map.2 fun f _ => ⟨_, f, rfl⟩)

/-- **What a piece applies in front of the shared functions**, its entry or its own functions
apply. -/
theorem mem_calls_ownSections (hentry : entry.items.filterMap Yul.Item.function? = [])
    {name : String} (h : name ∈ (ownSections x mark entry functions bodies number).calls) :
    (∃ item ∈ entry.items, name ∈ item.calls) ∨
      ∃ f ∈ ownFunctions x functions bodies number, name ∈ f.calls := by
  obtain ⟨s, hs, h⟩ := List.mem_flatMap.1 h
  obtain ⟨item, hitem, hname⟩ := List.mem_flatMap.1 h
  rcases sections_functions (List.dropLast_subset _ hs) with rfl | hfunctions
  · exact .inl ⟨item, hitem, hname⟩
  · obtain ⟨setting, f, rfl⟩ := hfunctions item hitem
    have hf : f ∈ (ownSections x mark entry functions bodies number).functions :=
      List.mem_flatMap.2 ⟨s, hs, List.mem_filterMap.2 ⟨_, hitem, rfl⟩⟩
    rw [functions_ownSections hentry] at hf
    exact .inr ⟨f, hf, hname⟩

theorem not_builtin_of_isFunctionName {name : String} (h : IsFunctionName name) :
    name ∉ Yul.builtins := by
  have hplain : ∀ name ∈ Yul.builtins, '_' ∉ name.toList ∧ name ≠ "allocate" := by
    decide +kernel
  intro hmem
  rcases h with h | h
  · exact (hplain name hmem).1 h
  · exact (hplain name hmem).2 h

/-- What all code may apply is built in, or shared and therefore there. -/
theorem defined_of_basic (hentry : entry.items.filterMap Yul.Item.function? = []) {name : String}
    (hname : name ∈ basicOrObject)
    (hshared : ∀ f ∈ shared, f.name = name →
      f ∈ sharedFor (ownSections x mark entry functions bodies number).calls) :
    name ∈ Yul.builtins ∨ name ∈ (x.sections mark entry functions bodies number).code.defines := by
  simp only [basicOrObject, basic, List.mem_append] at hname
  rcases hname with (hname | hname) | hname
  · exact .inl (List.mem_append_left _ hname)
  · obtain ⟨f, hf, rfl⟩ := List.mem_map.1 hname
    rw [Yul.Code.defines_eq, functions_sections hentry, List.map_append]
    exact .inr (List.mem_append_right _ (List.mem_map_of_mem (hshared f hf rfl)))
  · exact .inl (List.mem_append_right _ hname)

/-- **What a piece applies is built in or defined**, if this holds of what stands in front of the
shared functions. -/
theorem calls_defined (hentry : entry.items.filterMap Yul.Item.function? = [])
    (happlied : ∀ name ∈ (ownSections x mark entry functions bodies number).calls,
      Applicable x functions bodies name) :
    ∀ name ∈ (x.sections mark entry functions bodies number).code.calls, name ∈ Yul.builtins ∨
      name ∈ (x.sections mark entry functions bodies number).code.defines := by
  intro name hname
  rw [code_sections, Yul.Code.calls_append, List.mem_append] at hname
  rcases hname with hname | hname
  · rcases (happlied name hname).defined number with hknown | hknown
    · exact defined_of_basic hentry hknown fun f hf hfname => mem_sharedFor hf (hfname ▸ hname)
    · rw [Yul.Code.defines_eq, functions_sections hentry, List.map_append]
      exact .inr (List.mem_append_left _ hknown)
  · -- the functions that hash apply what is built in, and shared ones bring what they apply
    simp only [Yul.Code.calls, List.flatMap_cons, List.flatMap_nil, List.append_nil,
      List.flatMap_map] at hname
    obtain ⟨g, hg, hname⟩ := List.mem_flatMap.1 hname
    rcases List.mem_append.1 hg with hg | hg
    · obtain ⟨count, -, rfl⟩ := List.mem_map.1 hg
      have hplain : ∀ name ∈ ["mload", "mstore", "add", "keccak256"], name ∈ Yul.builtins := by
        decide
      exact .inl (hplain name (calls_hashDefinition hname))
    · have hbasic : name ∈ basic := calls_shared g (List.mem_filter.1 hg).1 name hname
      exact defined_of_basic hentry (basicOrObject_of_basic name hbasic) fun f hf hfname =>
        sharedFor_closed hg hf (hfname ▸ hname)

/-- The functions that are generated for other things than bodies apply what the piece has. -/
theorem calls_ownFunctions {f : Yul.Function}
    (hf : f ∈ ownFunctions x functions bodies number) :
    f ∈ functions ∨ ∀ name ∈ f.calls, Applicable x functions bodies name := by
  have hbasic (h : ∀ name ∈ f.calls, name ∈ basic) :
      ∀ name ∈ f.calls, Applicable x functions bodies name :=
    fun name hname => .basic (basicOrObject_of_basic name (h name hname))
  simp only [ownFunctions, outsideFunctions, List.mem_append] at hf
  rcases hf with (((hf | hf | hf) | hf) | hf) | hf
  · exact .inl hf
  · obtain ⟨i, hi, rfl⟩ := List.mem_mapIdx.1 hf
    exact .inr (hbasic (calls_callDefinition _ _ _))
  · obtain ⟨i, hi, rfl⟩ := List.mem_mapIdx.1 hf
    exact .inr fun name hname => .basic (calls_deployDefinition _ _ name hname)
  · obtain ⟨arity, -, rfl⟩ := List.mem_map.1 hf
    exact .inr (hbasic (calls_entrySlotFunction arity))
  · obtain ⟨cell, hcell, hf⟩ := List.mem_flatMap.1 hf
    refine .inr fun name hname => ?_
    rcases calls_accessor hf name hname with hname | ⟨arity, harity, rfl⟩
    · exact .basic (basicOrObject_of_basic name hname)
    · exact .entrySlot (List.mem_eraseDups.2 (List.mem_filterMap.2 ⟨cell, hcell, harity⟩))
  · obtain ⟨i, hi, rfl⟩ := List.mem_mapIdx.1 hf
    exact .inr (hbasic (calls_eventDefinition _ _))

/-- **A piece is closed** where its entry and the code of its bodies apply what it has. -/
theorem sections_closed (hentry : entry.items.filterMap Yul.Item.function? = [])
    (hvariables : (x.layout.cells.map Storage.Cell.name).Nodup)
    (hevents : x.contract.eventNames.Nodup)
    (hfunctions : (functions.map Yul.Function.name).Nodup) (hbodies : AreBodies functions)
    (hitems : ∀ item ∈ entry.items, ∀ name ∈ item.calls, Applicable x functions bodies name)
    (hcalls : ∀ f ∈ functions, ∀ name ∈ f.calls, Applicable x functions bodies name) :
    (x.sections mark entry functions bodies number).code.Closed := by
  have hnodup : (x.sections mark entry functions bodies number).code.defines.Nodup := by
    rw [Yul.Code.defines_eq]
    exact nodup_functions hentry hvariables hevents hfunctions hbodies
  have happlied : ∀ name ∈ (ownSections x mark entry functions bodies number).calls,
      Applicable x functions bodies name := by
    intro name hname
    rcases mem_calls_ownSections hentry hname with ⟨item, hitem, hname⟩ | ⟨f, hf, hname⟩
    · exact hitems item hitem name hname
    · rcases calls_ownFunctions hf with hf | hgenerated
      · exact hcalls f hf name hname
      · exact hgenerated name hname
  have hfound := calls_defined hentry happlied
  refine ⟨fun name hname => ?_, fun name hname => ?_⟩
  · exact (hfound name hname).imp_right (List.count_eq_one_of_mem hnodup)
  · rw [Yul.Code.defines_eq] at hname
    obtain ⟨f, hf, rfl⟩ := List.mem_map.1 hname
    exact not_builtin_of_isFunctionName
      (isFunctionName_sections hentry hbodies.underscore f hf)

end Sections

/-! ## Pieces -/

section Pieces

variable {x : Context} {piece : Piece}

theorem methodFunction_injective : Function.Injective methodFunction := fun a b h => by
  simpa [methodFunction] using h

/-- The functions of methods are named for them. -/
theorem names_methods {methods : List Routine} {functions : List Yul.Function}
    (h : List.Forall₂ (fun m f => x.method m = .ok f) methods functions) :
    functions.map Yul.Function.name = (methods.map Routine.name).map methodFunction := by
  rw [List.map_map]
  exact (map_eq_of_forall₂ h fun m f hf => (method_eq_ok hf).1.symm).symm

theorem areBodies_methods {methods : List Routine} {functions : List Yul.Function}
    (h : List.Forall₂ (fun m f => x.method m = .ok f) methods functions) :
    AreBodies functions := by
  intro f hf
  obtain ⟨m, -, hm⟩ := exists_of_mem_right h hf
  exact .inr ⟨m.name, (method_eq_ok hm).1⟩

/-- The functions of methods apply what their bodies need. -/
theorem calls_methods {P : String → Prop} {bodies : List Stmt} {methods : List Routine}
    {functions : List Yul.Function} (hP : Supplies x bodies P)
    (h : List.Forall₂ (fun m f => x.method m = .ok f) methods functions)
    (hbodies : ∀ m ∈ methods, ∀ s ∈ Stmt.substatementsAll m.body,
      s ∈ Stmt.substatementsAll bodies) :
    ∀ f ∈ functions, ∀ name ∈ f.calls, P name := by
  intro f hf
  obtain ⟨m, hm, hcode⟩ := exists_of_mem_right h hf
  rw [Yul.Function.forall_mem_calls]
  exact (method_eq_ok hcode).2.2.2.appliesOnly hP (hbodies m hm)

/-- A route goes to the function of a variable or of a method. -/
theorem function_of_mem_routes {c : Contract} {route : Route} (h : route ∈ routes c) :
    (∃ v ∈ c.stateVars, route.function = Storage.getter v.name) ∨
      ∃ m ∈ c.methods, route.function = methodFunction m.name := by
  rcases List.mem_append.1 h with h | h
  · obtain ⟨v, hv, rfl⟩ := List.mem_map.1 h
    exact .inl ⟨v, List.mem_of_mem_filter hv, rfl⟩
  · obtain ⟨m, hm, rfl⟩ := List.mem_map.1 h
    exact .inr ⟨m, List.mem_of_mem_filter hm, rfl⟩

/-- **The code that stays is closed.** -/
theorem runtimePiece_closed (hvariables : (x.layout.cells.map Storage.Cell.name).Nodup)
    (howners : x.layout.cells.map Storage.Cell.owner = x.contract.stateVars)
    (hmethods : x.contract.methodNames.Nodup) (hevents : x.contract.eventNames.Nodup)
    (h : x.runtimePiece = .ok piece) : piece.code.Closed := by
  obtain ⟨functions, hcodes, rfl⟩ := runtimePiece_eq_ok h
  have hnames := names_methods hcodes
  have hsupplies : Supplies x (x.contract.methods.flatMap Routine.body)
      (Applicable x functions (x.contract.methods.flatMap Routine.body)) := by
    refine supplies_applicable fun target _ htarget => List.mem_map.1 ?_
    rw [hnames]
    exact List.mem_map_of_mem htarget
  refine sections_closed (dispatcher_functions _) hvariables hevents ?_
    (areBodies_methods hcodes) ?_
    (calls_methods hsupplies hcodes fun m hm s hs => mem_substatements_flatMap hm hs)
  · rw [hnames]
    exact hmethods.map methodFunction_injective
  · refine calls_dispatcher hsupplies.basic fun route hroute => ?_
    rcases function_of_mem_routes hroute with ⟨v, hv, hfunction⟩ | ⟨m, hm, hfunction⟩
    · -- the getter of a variable is one of its functions
      rw [← howners] at hv
      obtain ⟨cell, hcell, rfl⟩ := List.mem_map.1 hv
      obtain ⟨f, hf, hname⟩ := exists_accessor (getter_mem x.creation cell)
      have hgetter := hsupplies.accessors cell hcell f hf
      rw [hname] at hgetter
      rwa [hfunction]
    · obtain ⟨f, hf, hname⟩ := exists_of_mem_left hcodes hm
      rw [hfunction, ← (method_eq_ok hname).1]
      exact .body hf

theorem ownCalls_append (first second : List Stmt) :
    ownCalls (first ++ second) = ownCalls first ++ ownCalls second := by
  rw [ownCalls, Stmt.expressionsOf_append, List.filterMap_append]
  rfl

theorem exists_of_mem_ownCalls_flatMap {methods : List Routine} {target : String}
    (h : target ∈ ownCalls (methods.flatMap Routine.body)) :
    ∃ m ∈ methods, target ∈ ownCalls m.body := by
  induction methods with
  | nil => cases h
  | cons m rest ih =>
    rw [List.flatMap_cons, ownCalls_append, List.mem_append] at h
    rcases h with h | h
    · exact ⟨m, List.mem_cons_self, h⟩
    · obtain ⟨n, hn, h⟩ := ih h
      exact ⟨n, List.mem_cons_of_mem _ hn, h⟩

/-- **What is called from what is reached is reached.** -/
theorem mem_reachedMethods_of_ownCalls {c : Contract} (hmethods : c.methodNames.Nodup)
    {base : List Stmt} {target : String}
    (htarget : target ∈ ownCalls (base ++ (reachedMethods c base).flatMap Routine.body))
    (hname : target ∈ c.methodNames) : target ∈ (reachedMethods c base).map Routine.name := by
  -- what is reached holds what the bodies call, and with a method all that it calls
  obtain ⟨hqueue, hsuccessors⟩ := Graph.reachable_closed
    (c.methods.map fun m => (m.name, ownCalls m.body)) [] (ownCalls base)
  have hreached : target ∈ Graph.reachable (c.methods.map fun m => (m.name, ownCalls m.body)) []
      (ownCalls base) := by
    rw [ownCalls_append, List.mem_append] at htarget
    rcases htarget with htarget | htarget
    · exact (hqueue target htarget).resolve_left List.not_mem_nil
    · obtain ⟨m, hm, htarget⟩ := exists_of_mem_ownCalls_flatMap htarget
      obtain ⟨hm, hcontains⟩ := List.mem_filter.1 hm
      -- no other method has this name, so these are the calls that were followed
      have hlookup : List.lookup m.name (c.methods.map fun m => (m.name, ownCalls m.body)) =
          some (ownCalls m.body) := by
        refine Table.get?_of_mem ?_ (List.mem_map_of_mem hm)
        rwa [List.map_map]
      refine (hsuccessors m.name (List.contains_iff_mem.1 hcontains) target ?_).resolve_left
        List.not_mem_nil
      rw [Graph.successors, hlookup]
      exact htarget
  obtain ⟨m, hm, rfl⟩ := List.mem_map.1 hname
  exact List.mem_map_of_mem (List.mem_filter.2 ⟨hm, List.contains_iff_mem.2 hreached⟩)

/-- The code that creates a contract begins with what its bodies need, and applies the body of the
constructor if there is one. -/
theorem appliesOnly_creationEntry {P : String → Prop} {prologue : List Yul.Stmt}
    (hP : Supplies x (creationBodies x) P) (hobject : ∀ name ∈ basicOrObject, P name)
    (hprologue : CodesBody x .void x.initializers prologue)
    (hconstructor : ∀ k ∈ x.contract.construction, P "constructor_body") :
    ∀ s ∈ creationEntry x prologue, s.AppliesOnly P := by
  simp only [creationEntry, List.forall_mem_append]
  refine ⟨⟨⟨⟨?_, fun s hs => ?_⟩, hprologue.appliesOnly hP fun s hs => ?_⟩, ?_⟩, fun s hs => ?_⟩
  · simp [hP.basic]
  · exact (calls_constructorArguments _ _ s hs).mono hobject
  · simp only [creationBodies, Stmt.substatementsAll_append, List.mem_append, hs, true_or]
  · refine List.forall_mem_map.2 fun k hk => ?_
    simpa [Context.invokeConstructor] using hconstructor k (Option.mem_toList.1 hk)
  · exact (calls_returnRuntime x s hs).mono hobject

section Creation

variable {constructor methods : List Yul.Function}
  (hconstructor : List.Forall₂ (fun k f => x.constructorBody k = .ok f)
    x.contract.construction.toList constructor)
  (hcodes : List.Forall₂ (fun m f => x.method m = .ok f)
    (reachedMethods x.contract (x.initializers ++ x.contract.constructorBody)) methods)
include hconstructor hcodes

theorem areBodies_creation : AreBodies (constructor ++ methods) := by
  intro f hf
  rcases List.mem_append.1 hf with hf | hf
  · obtain ⟨k, -, hk⟩ := exists_of_mem_right hconstructor hf
    exact .inl (constructorBody_eq_ok hk).1
  · exact areBodies_methods hcodes f hf

/-- The functions of the constructor and of methods apply what their bodies need. -/
theorem calls_creation {P : String → Prop} (hP : Supplies x (creationBodies x) P) :
    ∀ f ∈ constructor ++ methods, ∀ name ∈ f.calls, P name := by
  refine List.forall_mem_append.2 ⟨fun f hf => ?_, calls_methods hP hcodes fun m hm s hs => ?_⟩
  · obtain ⟨k, hk, hcode⟩ := exists_of_mem_right hconstructor hf
    have hbody : x.contract.constructorBody = k.body := by
      rw [Contract.constructorBody, Option.mem_toList.1 hk]
      rfl
    rw [Yul.Function.forall_mem_calls]
    refine (constructorBody_eq_ok hcode).2.appliesOnly hP fun s hs => ?_
    simp only [creationBodies, Stmt.substatementsAll_append, List.mem_append, hbody, hs, or_true,
      true_or]
  · rw [creationBodies, Stmt.substatementsAll_append]
    exact List.mem_append_right _ (mem_substatements_flatMap hm hs)

end Creation

/-- **The code that creates a contract is closed.** -/
theorem creationPiece_closed (hvariables : (x.layout.cells.map Storage.Cell.name).Nodup)
    (hmethods : x.contract.methodNames.Nodup) (hevents : x.contract.eventNames.Nodup)
    (h : x.creationPiece = .ok piece) : piece.code.Closed := by
  obtain ⟨prologue, constructor, methods, hprologue, hconstructor, hcodes, rfl⟩ :=
    creationPiece_eq_ok h
  have hnames := names_methods hcodes
  have hconstructorNames : constructor.map Yul.Function.name =
      x.contract.construction.toList.map fun _ => "constructor_body" :=
    (map_eq_of_forall₂ hconstructor fun k f hf => (constructorBody_eq_ok hf).1.symm).symm
  have hsupplies : Supplies x (creationBodies x)
      (Applicable x (constructor ++ methods) (creationBodies x)) := by
    refine supplies_applicable fun target htarget hname => List.mem_map.1 ?_
    rw [List.map_append, hnames]
    refine List.mem_append_right _ (List.mem_map_of_mem ?_)
    exact mem_reachedMethods_of_ownCalls hmethods htarget hname
  refine sections_closed rfl hvariables hevents ?_
    (areBodies_creation hconstructor hcodes) ?_ (calls_creation hconstructor hcodes hsupplies)
  -- there is at most one constructor, and no function of a method has its name
  · have hreached : ((reachedMethods x.contract
        (x.initializers ++ x.contract.constructorBody)).map Routine.name).Nodup :=
      hmethods.sublist (List.filter_sublist.map _)
    rw [List.map_append, hnames, hconstructorNames, List.nodup_append']
    refine ⟨?_, hreached.map methodFunction_injective, fun name hname hmethod => ?_⟩
    · cases x.contract.construction <;> simp
    · obtain ⟨k, -, rfl⟩ := List.mem_map.1 hname
      obtain ⟨method, -, heq⟩ := List.mem_map.1 hmethod
      have hstem := congrArg stem heq
      rw [stem_methodFunction] at hstem
      exact absurd hstem (by decide)
  · refine List.forall_mem_singleton.2 ((appliesOnly_block _).2 ?_)
    refine appliesOnly_creationEntry hsupplies (fun _ => .basic) (codes_of_statements hprologue)
      fun k hk => ?_
    obtain ⟨f, hf, hbody⟩ := exists_of_mem_left hconstructor (Option.mem_toList.2 hk)
    rw [← (constructorBody_eq_ok hbody).1]
    exact .body (List.mem_append_left _ hf)

end Pieces

/-! ## Objects -/

/-- The cells of an accepted contract are named for its variables. -/
theorem Accepted.cellNames {r : Registry} {c : Contract} {layout : Storage.Layout}
    {created staying : Piece} (h : Accepted r c layout created staying) :
    layout.cells.map Storage.Cell.name = c.variableNames := by
  have howners := Storage.plan_owners h.plan
  rw [Contract.variableNames, ← howners, List.map_map]
  rfl

theorem Generated.closed {r : Registry} {c : Contract} {object : Yul.Object}
    (h : Generated r c object) (hnames : c.NamesOnce) (creation : Bool) :
    (object.code creation).Closed := by
  obtain ⟨layout, created, staying, haccepted, hcodes⟩ := h.accepted
  obtain ⟨hmembers, hevents⟩ := hnames
  obtain ⟨hvariables, hmethods, -⟩ := List.nodup_append'.1 hmembers
  rw [← haccepted.cellNames] at hvariables
  rw [(hcodes creation).1]
  cases creation with
  | true => exact creationPiece_closed hvariables hmethods hevents haccepted.creation
  | false =>
    have howners := Storage.plan_owners haccepted.plan
    exact runtimePiece_closed hvariables howners hmethods hevents haccepted.runtime

/-- **Generated code is closed.** Whatever a build has generated before: if an object is generated
for a contract, every object within it is that of the contract of its name; and if that contract
gives every name once, then in the code that creates it, and in the code that stays, what is applied
is built in or defined exactly once, and nothing that is built in is defined. -/
theorem emitted_code_closed {r : Registry} {store : Store} {c : Contract} {object : Yul.Object}
    (hstore : Grown r store) (hc : r.get? c.name = some c)
    (h : (emit r store c).1 = .ok object) {inner : Yul.Object} (hin : inner.Within object) :
    ∃ d, r.get? inner.name = some d ∧
      (d.NamesOnce → (inner.code true).Closed ∧ (inner.code false).Closed) := by
  obtain ⟨d, hd, hgenerated⟩ := (hstore.generated hc h).within hc hin
  exact ⟨d, hd, fun hnames => ⟨hgenerated.closed hnames true, hgenerated.closed hnames false⟩⟩

/-! ## A contract that deploys another one -/

/-- A contract with the constructor `constructor(by: address) { this.owner = by; }`. -/
def vault : Contract where
  name := "Vault"
  stateVars := [{ name := "owner", type := .address none, visibility := .hidden }]
  construction := some
    { params := [⟨"by", .address none⟩], body := [.setProperty {} "owner" (.var {} "by")] }

/-- A contract with `open(): address { return new Vault(this); }`. -/
def teller : Contract where
  name := "Teller"
  methods :=
    [{ name := "open", returns := .address (some "Vault"), visibility := .hidden
       body := [.exit {} (some (.deploy {} "Vault" [.this {}]))] }]

/-- The object of the deployed contract stands within the other one, and its code is closed. -/
theorem emitted_code_closed_teller :
    ∃ object inner : Yul.Object, (emit { contracts := [vault, teller] } [] teller).1 = .ok object ∧
      inner.Within object ∧ inner.name = "Vault" ∧ (inner.code true).Closed ∧
        (inner.code false).Closed := by
  have hvault : deploys? { contracts := [vault, teller] } vault = some ([], []) := by
    decide +kernel
  have hteller : deploys? { contracts := [vault, teller] } teller = some ([], ["Vault"]) := by
    decide +kernel
  have hget : Registry.get? { contracts := [vault, teller] } "Vault" = some vault := rfl
  obtain ⟨inner, -, -, hinner⟩ := build_of_deploys ["Vault", "Teller"] [] hvault
    buildAll_nil buildAll_nil
  obtain ⟨object, -, hchildren, hobject⟩ := build_of_deploys ["Teller"] [] hteller
    buildAll_nil (buildAll_cons rfl hget (by decide) hinner buildAll_nil)
  have hemit : (emit { contracts := [vault, teller] } [] teller).1 = .ok object :=
    congrArg Prod.fst hobject
  have hname : inner.name = "Vault" :=
    ((builds hget [] Grown.empty.registered).2 inner (congrArg Prod.fst hinner)).name_eq
  have hin : inner.Within object := .child (hchildren ▸ List.mem_singleton.2 rfl) .self
  obtain ⟨d, hd, hclosed⟩ := emitted_code_closed .empty rfl hemit hin
  obtain rfl : vault = d := Option.some.inj (hget.symm.trans (hname ▸ hd))
  exact ⟨object, inner, hemit, hin, hname, hclosed (by decide)⟩

end Emit

end Covenant
