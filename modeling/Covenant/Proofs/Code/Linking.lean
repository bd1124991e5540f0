import Covenant.Proofs.Code.Pieces
import Covenant.Proofs.Inheritance.Walks
import Covenant.Proofs.Machine.Rules

/-!
# Code that finds what it applies

A piece of code defines functions in its sections, and finds each by its name if no name is defined
twice. What its functions apply is there: the functions of variables, of events and of hashes, and
those of the shared functions that some function applies (`sections_linked`). No function
has the name of an operation of the machine.
-/

namespace Covenant

namespace Yul

/-- The function that an item defines. -/
def Item.function? : Item → Option Function
  | .function _ f => some f
  | _ => none

/-- **The functions of code.** -/
def Code.functions (code : Code) : List Function :=
  code.flatMap fun s => s.items.filterMap Item.function?

/-- **Code is valid** as an assembler sees it: no function is defined twice, and the variables in
the head of a function are all different and have names. -/
structure Code.Valid (code : Code) : Prop where
  distinct : (code.functions.map Function.name).Nodup
  heads : ∀ f ∈ code.functions, (f.params ++ f.results).Nodup ∧ "" ∉ f.params ++ f.results

instance (code : Code) : Decidable code.Valid :=
  decidable_of_iff ((code.functions.map Function.name).Nodup ∧
      ∀ f ∈ code.functions, (f.params ++ f.results).Nodup ∧ "" ∉ f.params ++ f.results)
    ⟨fun h => ⟨h.1, h.2⟩, fun h => ⟨h.distinct, h.heads⟩⟩

theorem Code.functions_append (code more : Code) :
    Code.functions (code ++ more) = code.functions ++ more.functions :=
  List.flatMap_append

@[simp] theorem filterMap_function (setting : Setting) (fs : List Function) :
    (fs.map (Item.function setting)).filterMap Item.function? = fs := by
  rw [List.filterMap_map]
  exact List.filterMap_some

/-- What a function applies, the code with it applies. -/
theorem Code.mem_calls {code : Code} {g : Function} {name : String} (hg : g ∈ code.functions)
    (hname : name ∈ g.calls) : name ∈ code.calls := by
  obtain ⟨section', hsection, hg⟩ := List.mem_flatMap.1 hg
  obtain ⟨item, hitem, hg⟩ := List.mem_filterMap.1 hg
  refine List.mem_flatMap.2 ⟨section', hsection, List.mem_flatMap.2 ⟨item, hitem, ?_⟩⟩
  cases item with
  | function setting f =>
    cases hg
    exact hname
  | statement => cases hg
  | choice => cases hg

theorem Stmt.mem_callsAll {body : List Stmt} {name : String} :
    name ∈ Stmt.callsAll body ↔ ∃ s ∈ body, name ∈ s.calls := by
  induction body with
  | nil => simp [Stmt.callsAll]
  | cons s body ih => simp [Stmt.callsAll, ih]

theorem Stmt.callsAll_append (first second : List Stmt) :
    Stmt.callsAll (first ++ second) = Stmt.callsAll first ++ Stmt.callsAll second := by
  induction first with
  | nil => rfl
  | cons s first ih => simp [Stmt.callsAll, ih]

end Yul

namespace Machine

/-- Where no name is defined twice, a function is found by its name. -/
theorem function?_of_mem {code : List Yul.Function}
    (hnames : (code.map Yul.Function.name).Nodup) {f : Yul.Function} (hf : f ∈ code) :
    function? code f.name = some f := by
  induction code with
  | nil => cases hf
  | cons g code ih =>
    rw [List.map_cons, List.nodup_cons] at hnames
    rw [function?, List.find?_cons]
    by_cases hname : g.name = f.name
    · rcases List.mem_cons.1 hf with rfl | hf
      · simp
      · exact absurd (List.mem_map.2 ⟨f, hf, hname.symm⟩) hnames.1
    · rcases List.mem_cons.1 hf with rfl | hf
      · exact absurd rfl hname
      · simp only [hname, decide_false]
        exact ih hnames.2 hf

end Machine

namespace Emit

/-- The name is one that functions have. -/
def IsFunctionName (name : String) : Prop :=
  '_' ∈ name.toList ∨ name = "allocate"

theorem IsFunctionName.not_mem_operationNames {name : String} (h : IsFunctionName name) :
    name ∉ Machine.operationNames := by
  rcases h with h | rfl
  · exact Machine.not_mem_operationNames h
  · decide

/-! ## Shared functions -/

theorem isFunctionName_shared : ∀ f ∈ shared, IsFunctionName f.name := by
  unfold IsFunctionName
  decide

theorem successors_shared : ∀ f ∈ shared,
    Graph.successors (shared.map fun f => (f.name, f.calls)) f.name = f.calls := by
  decide

theorem mem_sharedFor {names : List String} {f : Yul.Function} (hf : f ∈ shared)
    (hname : f.name ∈ names) : f ∈ sharedFor names := by
  have hclosed := (Graph.reachable_closed (shared.map fun f => (f.name, f.calls)) [] names).1
  refine List.mem_filter.2 ⟨hf, List.contains_iff_mem.2 ?_⟩
  exact (hclosed f.name hname).resolve_left List.not_mem_nil

/-- What shared functions apply is there with them. -/
theorem sharedFor_closed {names : List String} {f g : Yul.Function} (hg : g ∈ sharedFor names)
    (hf : f ∈ shared) (hname : f.name ∈ g.calls) : f ∈ sharedFor names := by
  obtain ⟨hg, hreached⟩ := List.mem_filter.1 hg
  have hclosed := (Graph.reachable_closed (shared.map fun f => (f.name, f.calls)) [] names).2
  refine List.mem_filter.2 ⟨hf, List.contains_iff_mem.2 ?_⟩
  rw [← successors_shared g hg] at hname
  exact (hclosed g.name (List.contains_iff_mem.1 hreached) f.name hname).resolve_left
    List.not_mem_nil

/-! ## Names -/

section Names

theorem underscore_methodFunction (name : String) : '_' ∈ (methodFunction name).toList := by
  simp [methodFunction]

theorem underscore_getter (name : String) : '_' ∈ (Storage.getter name).toList := by
  simp [Storage.getter]

theorem underscore_setter (name : String) : '_' ∈ (Storage.setter name).toList := by
  simp [Storage.setter]

theorem underscore_lengthGetter (name : String) : '_' ∈ (Storage.lengthGetter name).toList := by
  simp [Storage.lengthGetter]

theorem underscore_hashFunction (count : Nat) : '_' ∈ (hashFunction count).toList := by
  simp [hashFunction]

theorem underscore_eventFunction (event : String) : '_' ∈ (eventFunction event).toList := by
  simp [eventFunction]

/-- The functions of a variable are named for it. -/
theorem underscore_accessor {creation : Bool} {cell : Storage.Cell} {setting : Yul.Setting}
    {f : Yul.Function} (h : .function setting f ∈ Storage.accessors creation cell) :
    '_' ∈ f.name.toList := by
  unfold Storage.accessors at h
  dsimp only at h
  split at h <;> try split at h
  all_goals
    simp only [Storage.reader, Storage.writer, Storage.arrayLength, Storage.arrayGet,
      Storage.arraySet, List.mem_cons, List.not_mem_nil, or_false, Yul.Item.function.injEq] at h
    grind [underscore_getter, underscore_setter, underscore_lengthGetter]

end Names

/-! ## What expressions refer to -/

/-- A property that has a location has a cell. -/
theorem exists_cell {x : Context} {name : String} {location : Storage.Location}
    (h : x.layout.location? name = some location) :
    ∃ cell ∈ x.layout.cells, cell.name = name ∧ cell.location = location := by
  unfold Storage.Layout.location? at h
  obtain ⟨cell, hcell, rfl⟩ := Option.map_eq_some_iff.1 h
  exact ⟨cell, List.mem_reverse.1 (List.mem_of_find?_eq_some hcell),
    by simpa using List.find?_some hcell, rfl⟩

/-- What holds of all values of the environment holds of one that is found. -/
theorem forall_of_member? {P : EnvMember → Prop}
    (hall : ∀ entry ∈ Environment.spaces, ∀ m ∈ entry.2, P m) {space member : String}
    {m : EnvMember} (h : Environment.member? space member = some m) : P m := by
  unfold Environment.member? Environment.members at h
  have hmem := List.mem_of_find?_eq_some h
  cases hspace : Environment.spaces.lookup space with
  | none =>
    rw [hspace] at hmem
    cases hmem
  | some members =>
    rw [hspace] at hmem
    obtain ⟨before, after, hspaces, -⟩ := List.lookup_eq_some_iff.1 hspace
    exact hall (space, members) (by rw [hspaces]; simp) m hmem

/-! ## Pieces -/

/-- **Code that finds what it applies.** -/
structure Linked (x : Context) (bodies : List Stmt) (code : List Yul.Function) : Prop where
  distinct : (code.map Yul.Function.name).Nodup
  heads : ∀ f ∈ code, (f.params ++ f.results).Nodup ∧ "" ∉ f.params ++ f.results
  names : ∀ f ∈ code, IsFunctionName f.name
  accessors : ∀ cell ∈ x.layout.cells, ∀ setting f,
    .function setting f ∈ Storage.accessors x.creation cell → f ∈ code
  entrySlots : ∀ arity ∈ x.layout.arities, Storage.entrySlotFunction arity ∈ code
  events : ∀ e ∈ x.logged bodies, ∃ number, eventDefinition e number ∈ code
  hashes : ∀ count ∈ hashArities bodies, hashDefinition count ∈ code
  shared : ∀ g ∈ code, ∀ f ∈ shared, f.name ∈ g.calls → f ∈ code

section Sections

variable {x : Context} {mark : String} {entry : Yul.Section} {functions : List Yul.Function}
  {bodies : List Stmt} {number : Nat}

/-- The dispatcher defines no function. -/
theorem dispatcher_functions (routes : List Route) :
    (dispatcher routes).filterMap Yul.Item.function? = [] := by
  unfold dispatcher
  split <;> rfl

/-- The functions of a variable. -/
def accessorFunctions (creation : Bool) (cell : Storage.Cell) : List Yul.Function :=
  (Storage.accessors creation cell).filterMap Yul.Item.function?

theorem mem_accessorFunctions {creation : Bool} {cell : Storage.Cell} {f : Yul.Function} :
    f ∈ accessorFunctions creation cell ↔
      ∃ setting, .function setting f ∈ Storage.accessors creation cell := by
  rw [accessorFunctions, List.mem_filterMap]
  constructor
  · rintro ⟨item, hitem, h⟩
    cases item with
    | function setting g =>
      cases h
      exact ⟨setting, hitem⟩
    | statement => cases h
    | choice => cases h
  · rintro ⟨setting, h⟩
    exact ⟨_, h, rfl⟩

/-- The functions that call other contracts or deploy them. -/
def outsideFunctions (x : Context) (bodies : List Stmt) (number : Nat) : List Yul.Function :=
  x.callDefinitions bodies number ++ (x.deployed bodies).mapIdx fun i c =>
    deployDefinition c (number + (x.callDefinitions bodies number).length + i)

/-- The functions of the events that are logged. -/
def eventFunctions (x : Context) (bodies : List Stmt) (number : Nat) : List Yul.Function :=
  (x.logged bodies).mapIdx fun i e =>
    eventDefinition e (number + (outsideFunctions x bodies number).length + i)

/-- The functions of a piece that its code applies. -/
def ownFunctions (x : Context) (functions : List Yul.Function) (bodies : List Stmt)
    (number : Nat) : List Yul.Function :=
  functions ++ outsideFunctions x bodies number ++
    x.layout.arities.map Storage.entrySlotFunction ++
    x.layout.cells.flatMap (accessorFunctions x.creation) ++ eventFunctions x bodies number

/-- The functions that hash words. -/
def hashFunctions (bodies : List Stmt) : List Yul.Function :=
  ((hashArities bodies).mergeSort (· ≤ ·)).eraseDups.map hashDefinition

/-- The sections of a piece in front of the shared functions. -/
def ownSections (x : Context) (mark : String) (entry : Yul.Section)
    (functions : List Yul.Function) (bodies : List Stmt) (number : Nat) : Yul.Code :=
  (x.sections mark entry functions bodies number).code.dropLast

theorem functions_ownSections (hentry : entry.items.filterMap Yul.Item.function? = []) :
    (ownSections x mark entry functions bodies number).functions
      = ownFunctions x functions bodies number := by
  have haccessors : (x.layout.cells.flatMap (Storage.accessors x.creation)).filterMap
      Yul.Item.function? = x.layout.cells.flatMap (accessorFunctions x.creation) := by
    rw [List.filterMap_flatMap]
    rfl
  have hslots : (x.layout.arities.map fun a =>
      Yul.Item.function .indented (Storage.entrySlotFunction a)).filterMap Yul.Item.function?
      = x.layout.arities.map Storage.entrySlotFunction := by
    rw [List.filterMap_map]
    exact congrFun List.filterMap_eq_map _
  simp only [ownSections, Context.sections, List.dropLast_concat, Yul.Code.functions,
    List.flatMap_cons, List.flatMap_nil, hentry, haccessors, hslots, Yul.filterMap_function,
    ownFunctions, outsideFunctions, eventFunctions, List.length_append, List.length_mapIdx,
    List.append_assoc, List.append_nil, List.nil_append, Nat.add_assoc]

/-- The shared functions stand behind the other sections. -/
theorem code_sections : (x.sections mark entry functions bodies number).code =
    ownSections x mark entry functions bodies number ++
      [{ title := mark ++ "Helpers"
         items := (hashFunctions bodies ++
           sharedFor (ownSections x mark entry functions bodies number).calls).map
           (.function .indented) }] := by
  simp only [ownSections, Context.sections, List.dropLast_concat]
  rfl

/-- **What a piece defines**: its own functions, those that hash, and the shared functions that its
own functions need. -/
theorem functions_sections (hentry : entry.items.filterMap Yul.Item.function? = []) :
    (x.sections mark entry functions bodies number).code.functions =
      ownFunctions x functions bodies number ++ hashFunctions bodies ++
        sharedFor (ownSections x mark entry functions bodies number).calls := by
  rw [code_sections, Yul.Code.functions_append, functions_ownSections hentry, List.append_assoc]
  simp only [Yul.Code.functions, List.flatMap_cons, List.flatMap_nil, List.append_nil,
    Yul.filterMap_function]

/-- Names that are built from a word with an underscore. -/
theorem underscore_outsideFunctions {f : Yul.Function}
    (hf : f ∈ outsideFunctions x bodies number) : '_' ∈ f.name.toList := by
  rcases List.mem_append.1 hf with hf | hf
  · obtain ⟨i, hi, rfl⟩ := List.mem_mapIdx.1 hf
    simp [callDefinition, callFunction]
  · obtain ⟨i, hi, rfl⟩ := List.mem_mapIdx.1 hf
    simp [deployDefinition, deployFunction]

theorem isFunctionName_own (hfunctions : ∀ f ∈ functions, '_' ∈ f.name.toList) :
    ∀ f ∈ ownFunctions x functions bodies number, '_' ∈ f.name.toList := by
  intro f hf
  rw [ownFunctions] at hf
  simp only [List.mem_append] at hf
  rcases hf with (((hf | hf) | hf) | hf) | hf
  · exact hfunctions f hf
  · exact underscore_outsideFunctions hf
  · obtain ⟨arity, -, rfl⟩ := List.mem_map.1 hf
    simp [Storage.entrySlotFunction, Storage.entrySlot]
  · obtain ⟨cell, -, hf⟩ := List.mem_flatMap.1 hf
    obtain ⟨setting, hf⟩ := mem_accessorFunctions.1 hf
    exact underscore_accessor hf
  · obtain ⟨i, hi, rfl⟩ := List.mem_mapIdx.1 hf
    exact underscore_eventFunction _

/-- Hashing needs operations of the machine only. -/
theorem calls_hashDefinition {count : Nat} {name : String}
    (h : name ∈ (hashDefinition count).calls) : name ∈ ["mload", "mstore", "add", "keccak256"] := by
  rw [Yul.Function.calls, Yul.Stmt.mem_callsAll] at h
  obtain ⟨s, hs, h⟩ := h
  simp only [hashDefinition, List.cons_append, List.mem_cons, List.mem_append, List.mem_mapIdx,
    List.not_mem_nil, or_false] at hs
  rcases hs with rfl | ⟨i, hi, rfl⟩ | rfl
  all_goals
    simp [Yul.Stmt.calls, Yul.Stmt.define, Yul.Stmt.mstore, Yul.Stmt.run, Yul.Expr.calls,
      Yul.Expr.callsAll, Yul.Expr.free, Yul.Expr.mload, Yul.Expr.num, Yul.Expr.add,
      Yul.Expr.binary] at h ⊢
    grind

/-- Every function of a piece has a name that functions have. -/
theorem isFunctionName_sections (hentry : entry.items.filterMap Yul.Item.function? = [])
    (hfunctions : ∀ f ∈ functions, '_' ∈ f.name.toList) :
    ∀ f ∈ (x.sections mark entry functions bodies number).code.functions,
      IsFunctionName f.name := by
  intro f hf
  rw [functions_sections hentry] at hf
  rcases List.mem_append.1 hf with hf | hf
  · rcases List.mem_append.1 hf with hf | hf
    · exact .inl (isFunctionName_own hfunctions f hf)
    · obtain ⟨count, -, rfl⟩ := List.mem_map.1 hf
      exact .inl (underscore_hashFunction count)
  · exact isFunctionName_shared f (List.mem_filter.1 hf).1

/-- A piece defines its own functions. -/
theorem mem_functions_of_own (hentry : entry.items.filterMap Yul.Item.function? = [])
    {f : Yul.Function} (hf : f ∈ ownFunctions x functions bodies number) :
    f ∈ (x.sections mark entry functions bodies number).code.functions := by
  rw [functions_sections hentry]
  exact List.mem_append_left _ (List.mem_append_left _ hf)

/-- A piece defines the functions of the variables. -/
theorem mem_functions_of_accessor (hentry : entry.items.filterMap Yul.Item.function? = [])
    {cell : Storage.Cell} (hcell : cell ∈ x.layout.cells) {setting : Yul.Setting}
    {f : Yul.Function} (hf : .function setting f ∈ Storage.accessors x.creation cell) :
    f ∈ (x.sections mark entry functions bodies number).code.functions := by
  refine mem_functions_of_own hentry (List.mem_append_left _ (List.mem_append_right _ ?_))
  exact List.mem_flatMap.2 ⟨cell, hcell, mem_accessorFunctions.2 ⟨setting, hf⟩⟩

/-- **A valid piece finds what it applies.** -/
theorem sections_linked (hentry : entry.items.filterMap Yul.Item.function? = [])
    (hfunctions : ∀ f ∈ functions, '_' ∈ f.name.toList)
    (hvalid : (x.sections mark entry functions bodies number).code.Valid) :
    Linked x bodies (x.sections mark entry functions bodies number).code.functions := by
  have hcode := @functions_sections x mark entry functions bodies number hentry
  refine ⟨hvalid.distinct, hvalid.heads, isFunctionName_sections hentry hfunctions,
    fun cell hcell setting f hf => mem_functions_of_accessor hentry hcell hf,
    fun arity harity => ?_, fun e he => ?_, fun count hcount => ?_, fun g hg f hf hname => ?_⟩
  · refine mem_functions_of_own hentry
      (List.mem_append_left _ (List.mem_append_left _ (List.mem_append_right _ ?_)))
    exact List.mem_map.2 ⟨arity, harity, rfl⟩
  · obtain ⟨i, hi, rfl⟩ := List.getElem_of_mem he
    exact ⟨_, mem_functions_of_own hentry
      (List.mem_append_right _ (List.mem_mapIdx.2 ⟨i, hi, rfl⟩))⟩
  · rw [hcode]
    refine List.mem_append_left _ (List.mem_append_right _ (List.mem_map.2 ⟨count, ?_, rfl⟩))
    exact List.mem_eraseDups.2 (List.mem_mergeSort.2 hcount)
  · rw [hcode] at hg ⊢
    refine List.mem_append_right _ ?_
    rcases List.mem_append.1 hg with hg | hg
    · rcases List.mem_append.1 hg with hg | hg
      · rw [← functions_ownSections hentry] at hg
        exact mem_sharedFor hf (Yul.Code.mem_calls hg hname)
      · obtain ⟨count, -, rfl⟩ := List.mem_map.1 hg
        have hplain : ∀ f ∈ shared, f.name ∉ ["mload", "mstore", "add", "keccak256"] := by decide
        exact absurd (calls_hashDefinition hname) (hplain f hf)
    · exact sharedFor_closed hg hf hname

end Sections

end Emit

end Covenant
