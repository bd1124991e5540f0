import Covenant.Proofs.Code.Applied
import Covenant.Proofs.Code.Objects
import Covenant.Proofs.Execution.Numeral
import Covenant.Proofs.Keys

/-!
# Kinds of functions

The functions of a piece of code are of different kinds: those of bodies, those that call other
contracts or deploy them, those of variables, of events and of hashes, and shared ones. The names of
different kinds begin differently (`stem`), and functions of one kind are named for different
things: so no two functions have one name (`nodup_functions`).
-/

namespace Covenant

namespace Emit

/-! ## Names of functions -/

/-- The first letters of a name. -/
def stem (name : String) : List Char :=
  name.toList.take 4

theorem stem_methodFunction (name : String) : stem (methodFunction name) = "fun_".toList := by
  simp [stem, methodFunction]

theorem stem_callFunction (contract method : String) :
    stem (callFunction contract method) = "call".toList := by
  simp [stem, callFunction]

theorem stem_deployFunction (contract : String) :
    stem (deployFunction contract) = "depl".toList := by
  simp [stem, deployFunction]

theorem stem_entrySlot (arity : Nat) : stem (Storage.entrySlot arity) = "mapp".toList := by
  simp [stem, Storage.entrySlot]

theorem stem_getter (name : String) : stem (Storage.getter name) = "get_".toList := by
  simp [stem, Storage.getter]

theorem stem_setter (name : String) : stem (Storage.setter name) = "set_".toList := by
  simp [stem, Storage.setter]

theorem stem_lengthGetter (name : String) : stem (Storage.lengthGetter name) = "leng".toList := by
  simp [stem, Storage.lengthGetter]

theorem stem_eventFunction (event : String) : stem (eventFunction event) = "emit".toList := by
  simp [stem, eventFunction]

theorem stem_hashFunction (count : Nat) : stem (hashFunction count) = "hash".toList := by
  simp [stem, hashFunction]

/-- The first letters of the shared functions. -/
def sharedStems : List (List Char) :=
  ["abi_", "allo", "chec", "deco", "pani", "requ", "reve", "stri", "vali"].map String.toList

/-- Functions of one kind, and the letters that their names begin with. -/
structure Kind where
  stems : List (List Char)
  functions : List Yul.Function

namespace Kind

/-- The names of the functions begin with the letters of the kind. -/
def Begins (kind : Kind) : Prop :=
  ∀ f ∈ kind.functions, stem f.name ∈ kind.stems

variable {kinds : List Kind}

/-- **Functions of kinds that begin differently have different names**, if those of one kind do. -/
theorem nodup_names (hstems : (kinds.flatMap stems).Nodup) (hbegins : ∀ kind ∈ kinds, kind.Begins)
    (hnames : ∀ kind ∈ kinds, (kind.functions.map Yul.Function.name).Nodup) :
    ((kinds.flatMap functions).map Yul.Function.name).Nodup := by
  induction kinds with
  | nil => exact List.nodup_nil
  | cons kind rest ih =>
    rw [List.flatMap_cons, List.nodup_append'] at hstems
    rw [List.forall_mem_cons] at hbegins hnames
    obtain ⟨-, hrest, hdisjoint⟩ := hstems
    rw [List.flatMap_cons, List.map_append, List.nodup_append']
    refine ⟨hnames.1, ih hrest hbegins.2 hnames.2, fun name hname hother => ?_⟩
    obtain ⟨f, hf, rfl⟩ := List.mem_map.1 hname
    obtain ⟨g, hg, hsame⟩ := List.mem_map.1 hother
    obtain ⟨other, hmem, hg⟩ := List.mem_flatMap.1 hg
    refine hdisjoint (hbegins.1 f hf) (List.mem_flatMap.2 ⟨other, hmem, ?_⟩)
    rw [← hsame]
    exact hbegins.2 other hmem g hg

/-- **A kind consists of the functions that begin with its letters.** -/
theorem filter_begins (hstems : (kinds.flatMap stems).Nodup) (hbegins : ∀ kind ∈ kinds, kind.Begins)
    {kind : Kind} (hkind : kind ∈ kinds) :
    (kinds.flatMap functions).filter (fun f => stem f.name ∈ kind.stems) = kind.functions := by
  induction kinds with
  | nil => cases hkind
  | cons first rest ih =>
    rw [List.flatMap_cons, List.nodup_append'] at hstems
    rw [List.forall_mem_cons] at hbegins
    obtain ⟨-, hrest, hdisjoint⟩ := hstems
    rw [List.flatMap_cons, List.filter_append]
    rcases List.mem_cons.1 hkind with rfl | hkind
    -- either all of the first kind and nothing behind it, or nothing of the first kind
    · have hbehind : (rest.flatMap functions).filter (fun f => stem f.name ∈ kind.stems) = [] := by
        refine List.filter_eq_nil_iff.2 fun f hf hstem => ?_
        obtain ⟨other, hother, hf⟩ := List.mem_flatMap.1 hf
        refine hdisjoint (of_decide_eq_true hstem) (List.mem_flatMap.2 ⟨other, hother, ?_⟩)
        exact hbegins.2 other hother f hf
      have hall : kind.functions.filter (fun f => stem f.name ∈ kind.stems) = kind.functions :=
        List.filter_eq_self.2 fun f hf => decide_eq_true (hbegins.1 f hf)
      rw [hall, hbehind, List.append_nil]
    · have hfirst : first.functions.filter (fun f => stem f.name ∈ kind.stems) = [] := by
        refine List.filter_eq_nil_iff.2 fun f hf hstem => ?_
        refine hdisjoint (hbegins.1 f hf) (List.mem_flatMap.2 ⟨kind, hkind, ?_⟩)
        exact of_decide_eq_true hstem
      rw [hfirst, List.nil_append, ih hrest hbegins.2 hkind]

end Kind

/-- The functions of a variable are those that tell its length, read it and write it, as far as it
has them. -/
theorem names_accessorFunctions_sublist (creation : Bool) (cell : Storage.Cell) :
    ((accessorFunctions creation cell).map Yul.Function.name).Sublist
      [Storage.lengthGetter cell.name, Storage.getter cell.name, Storage.setter cell.name] := by
  rw [names_accessorFunctions]
  unfold accessorNames
  cases cell.location <;> cases creation <;> simp

theorem nodup_accessorNames (name : String) :
    [Storage.lengthGetter name, Storage.getter name, Storage.setter name].Nodup := by
  have hstems : ([Storage.lengthGetter name, Storage.getter name, Storage.setter name].map
      stem).Nodup := by
    simp only [List.map_cons, List.map_nil, stem_lengthGetter, stem_getter, stem_setter]
    decide
  exact List.Nodup.of_map stem hstems

/-- A function of a variable tells which variable it is for. -/
theorem accessorNames_inj {a b name : String}
    (ha : name ∈ [Storage.lengthGetter a, Storage.getter a, Storage.setter a])
    (hb : name ∈ [Storage.lengthGetter b, Storage.getter b, Storage.setter b]) : a = b := by
  simp only [List.mem_cons, List.not_mem_nil, or_false] at ha hb
  rcases ha with rfl | rfl | rfl <;> rcases hb with hb | hb | hb
  -- functions of different kinds begin differently
  all_goals
    have hstem := congrArg stem hb
    simp only [stem_lengthGetter, stem_getter, stem_setter] at hstem
  all_goals first
    | exact absurd hstem (by decide)
    | simpa [Storage.lengthGetter, Storage.getter, Storage.setter] using hb

/-- Variables of different names have different functions. -/
theorem nodup_accessors (creation : Bool) {cells : List Storage.Cell}
    (h : (cells.map Storage.Cell.name).Nodup) :
    ((cells.flatMap (accessorFunctions creation)).map Yul.Function.name).Nodup := by
  rw [List.map_flatMap, List.nodup_flatMap]
  refine ⟨fun cell _ => (nodup_accessorNames cell.name).sublist
    (names_accessorFunctions_sublist _ _), ?_⟩
  refine (List.pairwise_map.1 h).imp fun {a b} hne name ha hb => hne ?_
  exact accessorNames_inj ((names_accessorFunctions_sublist creation a).subset ha)
    ((names_accessorFunctions_sublist creation b).subset hb)

/-! ## Calls, deployments and events -/

section Kinds

variable {x : Context} {bodies : List Stmt}

/-- **The methods of other contracts that bodies call.** -/
def targets (x : Context) (bodies : List Stmt) : List (String × Routine) :=
  (x.externalsAll ((Stmt.substatementsAll bodies).flatMap Stmt.operands)).filterMap
    fun (contract, target) => ((x.lookup contract).bind (·.method? target)).map (contract, ·)

/-- The name of the function that calls a method of another contract. -/
def targetName (t : String × Routine) : String :=
  callFunction t.1 t.2.name

/-- A target that several calls have gets one function, numbered in the order of the first calls. -/
theorem callDefinitions_eq (x : Context) (bodies : List Stmt) (number : Nat) :
    x.callDefinitions bodies number =
      (firstByKey targetName (targets x bodies)).mapIdx fun i t =>
        callDefinition t.1 t.2 (number + i) :=
  rfl

/-- A method is called where a call of it stands in the bodies. -/
theorem mem_targets {contract : String} {m : Routine} :
    (contract, m) ∈ targets x bodies ↔
      ∃ pos target receiver args, .call pos target receiver args ∈ Stmt.expressionsOf bodies ∧
        x.receiverContract? receiver = some contract ∧
        ∃ other, x.lookup contract = some other ∧ other.method? target = some m := by
  simp only [targets, List.mem_filterMap, externalsAll_eq_flatMap, List.mem_flatMap,
    mem_externals, Stmt.expressionsOf, Option.map_eq_some_iff, Option.bind_eq_some_iff,
    Prod.exists, Prod.mk.injEq]
  constructor
  · rintro ⟨_, target, ⟨e, ⟨s, hs, he⟩, pos, receiver, args, hcall, hcontract⟩, _,
      ⟨other, hother, hm⟩, rfl, rfl⟩
    exact ⟨pos, target, receiver, args, ⟨s, hs, e, he, hcall⟩, hcontract, other, hother, hm⟩
  · rintro ⟨pos, target, receiver, args, ⟨s, hs, e, he, hcall⟩, hcontract, other, hother, hm⟩
    exact ⟨contract, target, ⟨e, ⟨s, hs, he⟩, pos, receiver, args, hcall, hcontract⟩, m,
      ⟨other, hother, hm⟩, rfl, rfl⟩

theorem names_callDefinitions (number : Nat) :
    (x.callDefinitions bodies number).map Yul.Function.name =
      (firstByKey targetName (targets x bodies)).map targetName := by
  rw [callDefinitions_eq]
  refine map_mapIdx (fun i t => ?_) _
  rfl

/-- A contract is deployed where a deployment of it stands in the bodies. -/
theorem mem_deployed {c : Contract} :
    c ∈ x.deployed bodies ↔ c.name ∈ deployments bodies ∧ x.lookup c.name = some c := by
  rw [Context.deployed, List.mem_filterMap]
  simp only [sortedNames, List.mem_eraseDups, List.mem_mergeSort]
  constructor
  · rintro ⟨name, hname, hlookup⟩
    obtain ⟨-, rfl⟩ := lookup_eq_some hlookup
    exact ⟨hname, hlookup⟩
  · rintro ⟨hname, hlookup⟩
    exact ⟨c.name, hname, hlookup⟩

/-- No contract is deployed by two functions. -/
theorem nodup_deployed (x : Context) (bodies : List Stmt) :
    ((x.deployed bodies).map Contract.name).Nodup := by
  have hnames : (sortedNames (deployments bodies)).Nodup := nodup_eraseDups _
  rw [Context.deployed, List.map_filterMap]
  refine hnames.filterMap fun a b name ha hb => ?_
  obtain ⟨c, hc, rfl⟩ := Option.map_eq_some_iff.1 (Option.mem_def.1 ha)
  obtain ⟨d, hd, hname⟩ := Option.map_eq_some_iff.1 (Option.mem_def.1 hb)
  rw [← (lookup_eq_some hc).2, ← (lookup_eq_some hd).2, hname]

/-- The events with a function are those that the bodies log and the contract declares. -/
theorem mem_logged {e : Event} :
    e ∈ x.logged bodies ↔ e ∈ x.contract.events ∧ e.name ∈ loggedEvents bodies := by
  simp [Context.logged]

end Kinds

/-! ## The functions of a piece -/

section Pieces

variable {x : Context} {mark : String} {entry : Yul.Section} {functions : List Yul.Function}
  {bodies : List Stmt} {number : Nat}

theorem names_deployDefinitions (first : Nat) :
    ((x.deployed bodies).mapIdx fun i c => deployDefinition c (first + i)).map Yul.Function.name =
      ((x.deployed bodies).map Contract.name).map deployFunction := by
  rw [List.map_map]
  refine map_mapIdx (fun i c => ?_) _
  rfl

theorem names_entrySlotFunctions (arities : List Nat) :
    (arities.map Storage.entrySlotFunction).map Yul.Function.name =
      arities.map Storage.entrySlot := by
  rw [List.map_map]
  rfl

theorem names_eventFunctions : (eventFunctions x bodies number).map Yul.Function.name =
    ((x.logged bodies).map Event.name).map eventFunction := by
  rw [List.map_map]
  refine map_mapIdx (fun i e => ?_) _
  rfl

/-- The names of the functions that hash. -/
def hashNames (bodies : List Stmt) : List String :=
  ((hashArities bodies).mergeSort (· ≤ ·)).eraseDups.map hashFunction

theorem names_hashFunctions :
    (hashFunctions bodies).map Yul.Function.name = hashNames bodies := by
  rw [hashFunctions, List.map_map]
  rfl

/-- **The functions of a piece by their kinds**, with the first letters of each kind. -/
def kinds (x : Context) (functions : List Yul.Function) (bodies : List Stmt) (number : Nat)
    (applied : List String) : List Kind :=
  [⟨["fun_".toList, "cons".toList], functions⟩,
    ⟨["call".toList], x.callDefinitions bodies number⟩,
    ⟨["depl".toList], (x.deployed bodies).mapIdx fun i c =>
      deployDefinition c (number + (x.callDefinitions bodies number).length + i)⟩,
    ⟨["mapp".toList], x.layout.arities.map Storage.entrySlotFunction⟩,
    ⟨["leng".toList, "get_".toList, "set_".toList],
      x.layout.cells.flatMap (accessorFunctions x.creation)⟩,
    ⟨["emit".toList], eventFunctions x bodies number⟩,
    ⟨["hash".toList], hashFunctions bodies⟩,
    ⟨sharedStems, sharedFor applied⟩]

/-- **The functions of a piece, kind by kind**, if its entry defines none. -/
theorem functions_eq_kinds (hentry : entry.items.filterMap Yul.Item.function? = []) :
    (x.sections mark entry functions bodies number).code.functions =
      (kinds x functions bodies number
        (ownSections x mark entry functions bodies number).calls).flatMap Kind.functions := by
  simp only [functions_sections hentry, kinds, List.flatMap_cons, List.flatMap_nil,
    List.append_nil, ownFunctions, outsideFunctions, List.append_assoc]

/-- Different kinds begin differently. -/
theorem nodup_stems_kinds (applied : List String) :
    ((kinds x functions bodies number applied).flatMap Kind.stems).Nodup := by
  have hstems : (["fun_", "cons", "call", "depl", "mapp", "leng", "get_", "set_", "emit",
      "hash"].map String.toList ++ sharedStems).Nodup := by
    decide
  exact hstems

/-- Functions of one kind are named for different things. -/
theorem nodup_names_kinds (hvariables : (x.layout.cells.map Storage.Cell.name).Nodup)
    (hevents : x.contract.eventNames.Nodup) (hfunctions : (functions.map Yul.Function.name).Nodup)
    (applied : List String) :
    ∀ kind ∈ kinds x functions bodies number applied,
      (kind.functions.map Yul.Function.name).Nodup := by
  have hdeploy : Function.Injective deployFunction := fun a b h => by
    simpa [deployFunction] using h
  have hevent : Function.Injective eventFunction := fun a b h => by
    simpa [eventFunction] using h
  have hslot : Function.Injective Storage.entrySlot := fun a b h =>
    Text.append_toString_injective h
  have hhash : Function.Injective hashFunction := fun a b h => Text.append_toString_injective h
  have hlogged : ((x.logged bodies).map Event.name).Nodup :=
    hevents.sublist (List.filter_sublist.map _)
  have hshared : (shared.map Yul.Function.name).Nodup := by decide
  -- targets, contracts, arities and counts come once each by the way they are collected
  simp only [kinds, List.forall_mem_cons, names_callDefinitions, names_deployDefinitions,
    names_entrySlotFunctions, names_eventFunctions, names_hashFunctions]
  refine ⟨hfunctions, nodup_firstByKey _, (nodup_deployed x bodies).map hdeploy,
    (nodup_eraseDups _).map hslot, nodup_accessors x.creation hvariables, hlogged.map hevent,
    (nodup_eraseDups _).map hhash, hshared.sublist (List.filter_sublist.map _), ?_⟩
  exact List.forall_mem_nil _

/-- Functions that have code for a body: that of the constructor, and those of methods. -/
def AreBodies (functions : List Yul.Function) : Prop :=
  ∀ f ∈ functions, f.name = "constructor_body" ∨ ∃ method, f.name = methodFunction method

/-- The functions of bodies have names of two kinds. -/
theorem AreBodies.stem_mem (h : AreBodies functions) :
    ∀ f ∈ functions, stem f.name ∈ ["fun_".toList, "cons".toList] := by
  intro f hf
  rcases h f hf with hname | ⟨method, hname⟩
  · rw [hname]
    decide
  · rw [hname, stem_methodFunction]
    decide

theorem AreBodies.underscore (h : AreBodies functions) :
    ∀ f ∈ functions, '_' ∈ f.name.toList := by
  intro f hf
  rcases h f hf with hname | ⟨method, hname⟩
  · rw [hname]
    decide
  · rw [hname]
    exact underscore_methodFunction method

/-- Functions of one kind begin with its letters. -/
theorem begins_kinds (hbodies : AreBodies functions) (applied : List String) :
    ∀ kind ∈ kinds x functions bodies number applied, kind.Begins := by
  have haccessors (cell : Storage.Cell) :
      ∀ name ∈ [Storage.lengthGetter cell.name, Storage.getter cell.name,
        Storage.setter cell.name], stem name ∈ ["leng".toList, "get_".toList, "set_".toList] := by
    simp only [List.forall_mem_cons, stem_lengthGetter, stem_getter, stem_setter]
    decide
  have hshared : ∀ f ∈ shared, stem f.name ∈ sharedStems := by decide
  simp only [kinds, List.forall_mem_cons, Kind.Begins]
  refine ⟨hbodies.stem_mem, fun f hf => ?_, fun f hf => ?_, List.forall_mem_map.2 fun arity _ => ?_,
    fun f hf => ?_, fun f hf => ?_, List.forall_mem_map.2 fun count _ => ?_, fun f hf => ?_,
    List.forall_mem_nil _⟩
  · obtain ⟨i, hi, rfl⟩ := List.mem_mapIdx.1 hf
    exact List.mem_singleton.2 (stem_callFunction _ _)
  · obtain ⟨i, hi, rfl⟩ := List.mem_mapIdx.1 hf
    exact List.mem_singleton.2 (stem_deployFunction _)
  · exact List.mem_singleton.2 (stem_entrySlot arity)
  · obtain ⟨cell, -, hf⟩ := List.mem_flatMap.1 hf
    refine haccessors cell f.name ((names_accessorFunctions_sublist x.creation cell).subset ?_)
    exact List.mem_map_of_mem hf
  · obtain ⟨i, hi, rfl⟩ := List.mem_mapIdx.1 hf
    exact List.mem_singleton.2 (stem_eventFunction _)
  · exact List.mem_singleton.2 (stem_hashFunction count)
  · exact hshared f (List.mem_filter.1 hf).1

/-- **No function of a piece is defined twice**, if variables and events have names of their own. -/
theorem nodup_functions (hentry : entry.items.filterMap Yul.Item.function? = [])
    (hvariables : (x.layout.cells.map Storage.Cell.name).Nodup)
    (hevents : x.contract.eventNames.Nodup) (hfunctions : (functions.map Yul.Function.name).Nodup)
    (hbodies : AreBodies functions) :
    ((x.sections mark entry functions bodies number).code.functions.map
      Yul.Function.name).Nodup := by
  rw [functions_eq_kinds hentry]
  exact Kind.nodup_names (nodup_stems_kinds _) (begins_kinds hbodies _)
    (nodup_names_kinds hvariables hevents hfunctions _)

/-- **The functions of a piece that begin as those that call other contracts are those.** -/
theorem filter_callDefinitions (hentry : entry.items.filterMap Yul.Item.function? = [])
    (hbodies : AreBodies functions) :
    (x.sections mark entry functions bodies number).code.functions.filter
      (fun f => stem f.name ∈ ["call".toList]) = x.callDefinitions bodies number := by
  rw [functions_eq_kinds hentry]
  have hkind : ⟨["call".toList], x.callDefinitions bodies number⟩ ∈ kinds x functions bodies number
      (ownSections x mark entry functions bodies number).calls :=
    List.mem_cons_of_mem _ List.mem_cons_self
  exact Kind.filter_begins (nodup_stems_kinds _) (begins_kinds hbodies _) hkind

end Pieces

end Emit

end Covenant
