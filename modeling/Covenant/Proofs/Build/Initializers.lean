import Covenant.Proofs.Events.Declarations
import Covenant.Proofs.Inheritance.Members
import Covenant.Proofs.Order.Builds
import Covenant.Proofs.Storage.Readonly

/-!
# Initial values in the code that creates a contract

The code that creates a contract assigns initial values before it runs the constructor, variable by
variable. A completed contract has its variables in the order in which the walk up from its class
comes to their names, its own class first, and this is the order of the assignments
(`initial_values_in_walk_order`). So a class that reads a variable of a base in an initial value of
its own reads it before the base has given it one (`base_value_assigned_late`); of two inherited
values, that of the base comes first where an earlier branch leads to the base.
-/

namespace Covenant

/-! ## The order of the walk -/

namespace Registry

/-- **The names of variables and methods, as the walk up from a class comes to them**: those of the
class itself and then those of its bases, branch by branch. -/
def memberNames (r : Registry) (name : String) : List String :=
  (r.lineage name).flatMap fun c => c.variableNames ++ c.methodNames

/-- **The walk up from a class comes to one name before another.** -/
def MeetsBefore (r : Registry) (name first second : String) : Prop :=
  (r.memberNames name).idxOf first < (r.memberNames name).idxOf second

variable {r : Registry} {c : Contract}

/-- A class comes to its own variables before all that it inherits. -/
theorem Hierarchy.meets_own_before (hr : r.Hierarchy) (hc : c ∈ r.contracts)
    {own inherited : String} (hown : own ∈ c.variableNames)
    (hinherited : inherited ∉ c.variableNames ++ c.methodNames) :
    r.MeetsBefore c.name own inherited := by
  have hown : own ∈ c.variableNames ++ c.methodNames := List.mem_append_left _ hown
  rw [MeetsBefore, memberNames, hr.lineage_eq hc, List.flatMap_cons,
    List.idxOf_append_of_mem hown, List.idxOf_append_of_notMem hinherited]
  exact Nat.lt_add_right _ (List.idxOf_lt_length_of_mem hown)

end Registry

namespace Inheritance

variable {r : Registry} {c : Contract}

/-- **A completed contract has its variables in the order of the walk.** -/
theorem completed_in_walk_order (hr : r.Hierarchy) (hc : c ∈ r.contracts) :
    (completed r c).stateVars.Pairwise fun v w => r.MeetsBefore c.name v.name w.name := by
  have hnames : (c.members ++ (c.bases.flatMap r.lineage).flatMap fun d =>
      d.members.map Member.inherited).map Member.name = r.memberNames c.name := by
    rw [Registry.memberNames, hr.lineage_eq hc, List.flatMap_cons, List.map_append,
      c.map_name_members, List.map_flatMap]
    simp only [List.map_map, Function.comp_def, Member.name_inherited]
    simp only [← Contract.map_name_members]
  have hmembers {members : List Member} (hmap : members.map Member.name = r.memberNames c.name) :
      (Emit.firstByKey Member.name members).Pairwise fun a b =>
        (r.memberNames c.name).idxOf a.name < (r.memberNames c.name).idxOf b.name :=
    hmap ▸ Emit.pairwise_firstByKey members
  refine (hmembers hnames).filterMap _ fun a b hlt v hv w hw => ?_
  rw [Registry.MeetsBefore, Member.name_of_property? hv, Member.name_of_property? hw]
  exact hlt

end Inheritance

namespace Build

open Registry

/-! ## The contracts of a build -/

section Finished

variable {sources : List SourceFile} {r finished : Registry} {warnings : List Fault} {c : Contract}

/-- The classes of a build give every name once. -/
theorem resolveFiles_namesOnce (h : resolveFiles sources = .ok (r, warnings)) :
    ∀ c ∈ r.contracts, c.NamesOnce := by
  intro c hc
  obtain ⟨-, known, -, hmade⟩ := resolveFiles_eq_ok h
  obtain ⟨fc, -, next, next', hcontract⟩ := exists_of_mem_right hmade hc
  exact Resolve.contract_nodup hcontract

/-- **A finished contract has the variables that its classes declare**, in the order of the walk. -/
theorem finished_in_walk_order (hresolved : resolveFiles sources = .ok (r, warnings))
    (hfinished : analyzed r = .ok finished) (hc : c ∈ finished.contracts) :
    c.stateVars.Pairwise fun v w => r.MeetsBefore c.name v.name w.name := by
  obtain ⟨hdistinct, -⟩ := resolveFiles_builtIn hresolved
  obtain ⟨hok, hnames, -⟩ := analyzed_eq_ok hfinished
  have hr := Inheritance.hierarchy_of_flatten hdistinct hok
  obtain ⟨completed, hcompleted, hvariables⟩ :=
    analyzed_variables hfinished (get?_of_nodup (hnames ▸ hdistinct) hc)
  obtain ⟨hmem, hname⟩ := of_get?_eq_some hcompleted
  have hall : (Inheritance.flatten r).1.contracts = r.contracts.map (Inheritance.completed r) :=
    (Inheritance.completeAll_eq hr (resolveFiles_namesOnce hresolved) (fun _ => .rfl)).2
  rw [hall] at hmem
  obtain ⟨d, hd, rfl⟩ := List.mem_map.1 hmem
  rw [hvariables, ← hname]
  exact Inheritance.completed_in_walk_order hr hd

end Finished

/-! ## Assignments -/

/-- The variables of some cells that are assigned an initial value, in order. -/
def assignedVars (cells : List Storage.Cell) : List StateVar :=
  (cells.filter fun cell =>
    !cell.location.isInlined && cell.owner.initial.isSome).map Storage.Cell.owner

/-- **A statement assigns a variable its initial value.** -/
def AssignsInitial (x : Emit.Context) (v : StateVar) (s : Yul.Stmt) : Prop :=
  ∃ e value, v.initial = some e ∧ x.expr e = .ok value ∧
    s = .run (Storage.setter v.name) [value]

/-- **A code assigns some variables their initial values**, one after another: behind what checks
and decodes the arguments, and in front of the constructor. -/
def AssignsAll (x : Emit.Context) (vars : List StateVar) (code : Yul.Code) : Prop :=
  ∃ prologue sections,
    code = { title := "Constructor"
             items := [.statement (.block (Emit.creationEntry x prologue))] } :: sections ∧
    List.Forall₂ (AssignsInitial x) vars prologue

theorem assignedVars_sublist {c : Contract} {layout : Storage.Layout}
    (h : Storage.plan c = .ok layout) : (assignedVars layout.cells).Sublist c.stateVars := by
  rw [← Storage.plan_owners h]
  exact List.filter_sublist.map _

/-- Where no variable is readonly and all have initial values, all are assigned. -/
theorem assignedVars_eq {c : Contract} {layout : Storage.Layout}
    (hplan : Storage.plan c = .ok layout)
    (hvars : ∀ v ∈ c.stateVars, v.isReadonlyWord = false ∧ v.initial.isSome) :
    assignedVars layout.cells = c.stateVars := by
  have howners := Storage.plan_owners hplan
  rw [assignedVars, List.filter_eq_self.2, howners]
  intro cell hcell
  have hmem : cell.owner ∈ c.stateVars := howners ▸ List.mem_map_of_mem hcell
  obtain ⟨hreadonly, hinitial⟩ := hvars _ hmem
  have hkept : cell.location.isInlined = false := by
    rw [← Bool.not_eq_true, (Storage.placed_of_plan hplan cell hcell).isInlined_iff]
    exact fun hliteral => absurd hliteral.1 (by simp [hreadonly])
  rw [hkept, hinitial]
  rfl

/-- The initial values of some cells have the code of their assignments. -/
theorem assignsInitial_of_statements {x : Emit.Context} {cells : List Storage.Cell}
    {code : List Yul.Stmt}
    (h : x.statements .void (cells.filterMap fun cell =>
      if cell.location.isInlined then none
      else cell.owner.initial.map (Stmt.setProperty cell.owner.pos cell.name)) = .ok code) :
    List.Forall₂ (AssignsInitial x) (assignedVars cells) code := by
  induction cells generalizing code with
  | nil =>
    cases h
    exact .nil
  | cons cell rest ih =>
    cases hinlined : cell.location.isInlined with
    -- the value stands in the code, and nothing is assigned
    | true =>
      rw [assignedVars, List.filter_cons_of_neg (by simp [hinlined])]
      rw [List.filterMap_cons_none (by simp [hinlined])] at h
      exact ih h
    | false =>
      cases hinitial : cell.owner.initial with
      | none =>
        rw [assignedVars, List.filter_cons_of_neg (by simp [hinitial])]
        rw [List.filterMap_cons_none (by simp [hinitial])] at h
        exact ih h
      | some e =>
        rw [assignedVars, List.filter_cons_of_pos (by simp [hinlined, hinitial]), List.map_cons]
        simp only [List.filterMap_cons, hinlined, hinitial, Bool.false_eq_true, if_false,
          Option.map_some] at h
        rw [Emit.Context.statements] at h
        obtain ⟨first, hfirst, h⟩ := bind_eq_ok.1 h
        obtain ⟨others, hothers, h⟩ := bind_eq_ok.1 h
        cases pure_eq_ok.1 h
        rw [Emit.Context.statement] at hfirst
        obtain ⟨⟨⟩, -, hfirst⟩ := bind_eq_ok.1 hfirst
        obtain ⟨value, hvalue, hfirst⟩ := bind_eq_ok.1 hfirst
        cases pure_eq_ok.1 hfirst
        exact .cons ⟨e, value, hinitial, hvalue, rfl⟩ (ih hothers)

/-- **The code that creates an accepted contract assigns its initial values.** -/
theorem assignsAll_of_accepted {r : Registry} {c : Contract} {layout : Storage.Layout}
    {created staying : Emit.Piece} (h : Emit.Accepted r c layout created staying) :
    AssignsAll ⟨r, c, layout, true⟩ (assignedVars layout.cells) created.code := by
  obtain ⟨prologue, constructor, methods, hprologue, -, -, rfl⟩ :=
    Emit.creationPiece_eq_ok h.creation
  exact ⟨prologue, _, rfl, assignsInitial_of_statements hprologue⟩

/-- In a list in the order of a relation the one stands before the other exactly if it is related to
it. -/
theorem pair_sublist_iff {α : Type} {R : α → α → Prop} {l : List α} (h : l.Pairwise R)
    (hasymm : ∀ a b, R a b → ¬R b a) {a b : α} (ha : a ∈ l) (hb : b ∈ l) :
    [a, b].Sublist l ↔ R a b := by
  refine ⟨List.pairwise_iff_forall_sublist.1 h, fun hab => ?_⟩
  induction l with
  | nil => cases ha
  | cons first rest ih =>
    obtain ⟨hfirst, hrest⟩ := List.pairwise_cons.1 h
    rcases List.mem_cons.1 ha with rfl | ha
    · rcases List.mem_cons.1 hb with rfl | hb
      · exact absurd hab (hasymm _ _ hab)
      · exact (List.singleton_sublist.2 hb).cons_cons _
    · rcases List.mem_cons.1 hb with heq | hb
      · exact absurd (hfirst a ha) (hasymm _ _ (heq ▸ hab))
      · exact (ih hrest ha hb).cons _

/-! ## Artifacts -/

/-- **An artifact is made of the object of its contract.** -/
def MadeOf (r : Registry) (c : Contract) (a : Artifact) : Prop :=
  a.contract = c ∧ ∃ object, Emit.Generated r c object ∧ a.assembly = Yul.format object.render

theorem generate_madeOf {assembler : Assembler} {r : Registry} {store : Emit.Store}
    {cs : List Contract} {artifacts : List Artifact} (hstore : Emit.Registered r store)
    (hcs : ∀ c ∈ cs, r.get? c.name = some c)
    (h : generate assembler r store cs = .ok artifacts) :
    List.Forall₂ (MadeOf r) cs artifacts := by
  induction cs generalizing store artifacts with
  | nil =>
    cases h
    exact .nil
  | cons c rest ih =>
    obtain ⟨hc, hrest⟩ := List.forall_mem_cons.1 hcs
    obtain ⟨hkept, hgenerated⟩ := hstore.emit hc
    rw [generate] at h
    generalize Emit.emit r store c = emitted at h hkept hgenerated
    obtain ⟨e | object, store⟩ := emitted
    · cases h
    · obtain ⟨code, -, h⟩ := bind_eq_ok.1 h
      obtain ⟨others, hothers, h⟩ := bind_eq_ok.1 h
      cases pure_eq_ok.1 h
      exact .cons ⟨rfl, object, hgenerated object rfl, rfl⟩ (ih hkept hrest hothers)

/-- **The text of an artifact assigns some variables their initial values** when it creates the
contract, one after another. -/
def Artifact.Assigns (a : Artifact) (r : Registry) (layout : Storage.Layout)
    (vars : List StateVar) : Prop :=
  ∃ object : Yul.Object, a.assembly = Yul.format object.render ∧
    AssignsAll ⟨r, a.contract, layout, true⟩ vars (object.code true)

theorem MadeOf.assigns {r : Registry} {c : Contract} {a : Artifact} (h : MadeOf r c a) :
    ∃ layout, Storage.plan a.contract = .ok layout ∧
      a.Assigns r layout (assignedVars layout.cells) := by
  obtain ⟨rfl, object, hobject, hassembly⟩ := h
  obtain ⟨layout, created, staying, haccepted, hcodes⟩ := hobject.accepted
  refine ⟨layout, haccepted.plan, object, hassembly, ?_⟩
  rw [(hcodes true).1]
  exact assignsAll_of_accepted haccepted

/-! ## Builds -/

section Compiled

variable {assembler : Assembler} {files : Files} {entries : List String} {result : Result}

/-- **What a build goes through**: it finishes the contracts of the files it reads, and makes an
artifact of each. -/
theorem compile_eq_ok (h : compile assembler files entries = .ok result) :
    ∃ loaded declared, loadAll files entries = .ok loaded ∧
      resolveFiles loaded = .ok (declared, result.warnings) ∧
      analyzed declared = .ok result.registry ∧
      List.Forall₂ (MadeOf result.registry)
        (result.registry.names.filterMap result.registry.get?) result.artifacts := by
  obtain ⟨loaded, hloaded, h⟩ := bind_eq_ok.1 h
  obtain ⟨⟨declared, warnings⟩, hresolved, h⟩ := bind_eq_ok.1 h
  obtain ⟨registry, hregistry, h⟩ := bind_eq_ok.1 h
  obtain ⟨artifacts, hartifacts, h⟩ := bind_eq_ok.1 h
  cases pure_eq_ok.1 h
  refine ⟨loaded, declared, hloaded, mapError_eq_ok.1 hresolved, hregistry, ?_⟩
  refine generate_madeOf (fun _ h => absurd h List.not_mem_nil) (fun c hc => ?_) hartifacts
  obtain ⟨name, -, hget⟩ := List.mem_filterMap.1 hc
  rwa [(of_get?_eq_some hget).2]

/-- Every contract of a build has an artifact. -/
theorem exists_artifact (h : compile assembler files entries = .ok result) {c : Contract}
    (hc : c ∈ result.registry.contracts) :
    ∃ a ∈ result.artifacts, MadeOf result.registry c a := by
  obtain ⟨loaded, declared, -, hresolved, hfinished, hmade⟩ := compile_eq_ok h
  obtain ⟨hdistinct, -⟩ := resolveFiles_builtIn hresolved
  have hget : result.registry.get? c.name = some c :=
    get?_of_nodup ((analyzed_eq_ok hfinished).2.1 ▸ hdistinct) hc
  have hmem : c ∈ result.registry.names.filterMap result.registry.get? :=
    List.mem_filterMap.2 ⟨c.name, mem_names.2 (mem_keys_extensions hc), hget⟩
  exact exists_of_mem_left hmade hmem

/-- **Initial values are assigned in the order of the walk.** In a build that succeeds every
contract has an artifact. The code that creates it assigns the initial values of its variables one
after another, each once and before the constructor runs; only literals of readonly variables stand
in the code instead. Of two of these variables the one is assigned before the other exactly if the
walk up from the class, itself first and then branch by branch, comes to its name first. So what a
class declares itself is assigned before all that it inherits. -/
theorem initial_values_in_walk_order (h : compile assembler files entries = .ok result) :
    ∃ loaded declared, loadAll files entries = .ok loaded ∧
      resolveFiles loaded = .ok (declared, result.warnings) ∧
      (∀ c ∈ result.registry.contracts, ∃ a ∈ result.artifacts, a.contract = c) ∧
      (∀ c ∈ declared.contracts, ∀ own ∈ c.variableNames, ∀ inherited,
        inherited ∉ c.variableNames ++ c.methodNames →
          declared.MeetsBefore c.name own inherited) ∧
      ∀ a ∈ result.artifacts, ∃ layout, Storage.plan a.contract = .ok layout ∧
        a.Assigns result.registry layout (assignedVars layout.cells) ∧
        ∀ q ∈ assignedVars layout.cells, ∀ p ∈ assignedVars layout.cells,
          [q, p].Sublist (assignedVars layout.cells) ↔
            declared.MeetsBefore a.contract.name q.name p.name := by
  obtain ⟨loaded, declared, hloaded, hresolved, hfinished, hmade⟩ := compile_eq_ok h
  refine ⟨loaded, declared, hloaded, hresolved, fun c hc => ?_, ?_, fun a ha => ?_⟩
  · obtain ⟨a, ha, hcontract, -⟩ := exists_artifact h hc
    exact ⟨a, ha, hcontract⟩
  · have hr := Inheritance.hierarchy_of_flatten (resolveFiles_builtIn hresolved).1
      (analyzed_eq_ok hfinished).1
    exact fun c hc own hown inherited hinherited => hr.meets_own_before hc hown hinherited
  · obtain ⟨c, hc, hmadeOf⟩ := exists_of_mem_right hmade ha
    obtain ⟨name, -, hget⟩ := List.mem_filterMap.1 hc
    obtain rfl := hmadeOf.1
    obtain ⟨layout, hplan, hassigns⟩ := hmadeOf.assigns
    have hpairwise := (finished_in_walk_order hresolved hfinished (of_get?_eq_some hget).1).sublist
      (assignedVars_sublist hplan)
    exact ⟨layout, hplan, hassigns, fun q hq p hp =>
      pair_sublist_iff hpairwise (fun _ _ => Nat.lt_asymm) hq hp⟩

end Compiled

/-! ## A bonus -/

/-- The properties that an expression reads as a whole. -/
def readProperties (e : Expr) : List String :=
  e.subexpressions.filterMap fun
    | .storage _ name => some name
    | _ => none

/-- A variable by its name, whether it is readonly, and what its initial value reads. -/
structure VariableUse where
  name : String
  isReadonly : Bool
  reads : Option (List String)
deriving DecidableEq

/-- How a variable starts. -/
def variableUse (v : StateVar) : VariableUse :=
  ⟨v.name, v.isReadonlyWord, v.initial.map readProperties⟩

/-- An account with a rate, a bonus that doubles the rate of the account it extends, and a club that
extends the account once more, in front of the bonus. -/
def bonuses : Files := .ofTexts
  [("c.ts", "class Account { private rate: number = 5; } " ++
      "class Bonus extends Account { private doubled: number = this.rate * 2; } " ++
      "class Club extends Account, Bonus {}")]

/-- What the classes declare: their names, bases and variables. -/
def declaredUse (r : Registry) : List (String × List String × List String) :=
  r.contracts.map fun c => (c.name, c.bases, c.variableNames)

/-- How the variables of all contracts start. -/
def startingUse (r : Registry) : List (String × List VariableUse) :=
  r.contracts.map fun c => (c.name, c.stateVars.map variableUse)

theorem bonuses_use :
    ((loadAllWithin bonuses 1 [] ["c.ts"]).bind Except.toOption).any (fun loaded =>
      (resolveFiles loaded).toOption.any fun r =>
        (analyzedInOrder r.1).toOption.any fun finished =>
          finishes ["Account", "Bonus", "Club"] r.1 ∧
          declaredUse r.1 = [("Account", [], ["rate"]), ("Bonus", ["Account"], ["doubled"]),
            ("Club", ["Account", "Bonus"], [])] ∧
          startingUse finished = [("Account", [⟨"rate", false, some []⟩]),
            ("Bonus", [⟨"doubled", false, some ["rate"]⟩, ⟨"rate", false, some []⟩]),
            ("Club", [⟨"rate", false, some []⟩, ⟨"doubled", false, some ["rate"]⟩])]) = true := by
  rw [loadAllWithin_sole (by decide +kernel : Path.clean "c.ts" = "c.ts") rfl, loadWithin,
    parse_of_toList (by simp only [String.toList_append]; rw [String.toList_ofList,
      String.toList_ofList, String.toList_ofList])]
  decide +kernel

/-- The three contracts are built. -/
theorem exists_bonuses :
    ∃ loaded declared result, loadAll bonuses ["c.ts"] = .ok loaded ∧
      resolveFiles loaded = .ok (declared, result.warnings) ∧
      compile noAssembler bonuses ["c.ts"] = .ok result ∧
      declaredUse declared = [("Account", [], ["rate"]), ("Bonus", ["Account"], ["doubled"]),
        ("Club", ["Account", "Bonus"], [])] ∧
      startingUse result.registry = [("Account", [⟨"rate", false, some []⟩]),
        ("Bonus", [⟨"doubled", false, some ["rate"]⟩, ⟨"rate", false, some []⟩]),
        ("Club", [⟨"rate", false, some []⟩, ⟨"doubled", false, some ["rate"]⟩])] := by
  have huse := bonuses_use
  rw [show loadAllWithin bonuses 1 [] ["c.ts"] = some (loadAll bonuses ["c.ts"]) from
    loadAllWithin_eq [] _] at huse
  simp only [Option.bind_some, Option.any_eq_true, toOption_eq_some, decide_eq_true_eq] at huse
  obtain ⟨loaded, hloaded, ⟨declared, warnings⟩, hresolved, finished, hfinished, hfinishes,
    hdeclared, hstarting⟩ := huse
  have hascending : (declared.contracts.map Contract.name).Pairwise (· < ·) := by
    have hnames := congrArg (List.map Prod.fst) hdeclared
    rw [declaredUse, List.map_map] at hnames
    change declared.contracts.map Contract.name = _ at hnames
    rw [hnames]
    decide
  obtain ⟨done, hdone⟩ := exists_finished (sortedNames_of_ascending (by decide)) hfinishes
  obtain ⟨registry, hregistry, hartifacts⟩ := bind_eq_ok.1 hdone
  rw [analyzed_eq_inOrder hascending, hfinished] at hregistry
  obtain rfl := Except.ok.inj hregistry
  obtain ⟨artifacts, -, hpair⟩ := bind_eq_ok.1 hartifacts
  cases pure_eq_ok.1 hpair
  refine ⟨loaded, declared, ⟨artifacts, warnings, finished⟩, hloaded, hresolved, ?_, hdeclared,
    hstarting⟩
  rw [compile_eq, hloaded, ok_bind, hresolved, Except.mapError, ok_bind, hdone]
  rfl

/-- The artifact of a contract assigns all its variables, if none is readonly. -/
theorem exists_assigns {assembler : Assembler} {files : Files} {entries : List String}
    {result : Result} (h : compile assembler files entries = .ok result)
    {name : String} {uses : List VariableUse} (hstarting : (name, uses) ∈ startingUse result.registry)
    (huses : ∀ use ∈ uses, use.isReadonly = false ∧ use.reads.isSome) :
    ∃ a ∈ result.artifacts, ∃ layout, a.contract.name = name ∧
      a.contract.stateVars.map variableUse = uses ∧ Storage.plan a.contract = .ok layout ∧
      assignedVars layout.cells = a.contract.stateVars ∧
      a.Assigns result.registry layout a.contract.stateVars := by
  obtain ⟨c, hc, hentry⟩ := List.mem_map.1 hstarting
  obtain ⟨rfl, rfl⟩ := Prod.mk.inj hentry
  obtain ⟨a, ha, hmade⟩ := exists_artifact h hc
  obtain ⟨layout, hplan, hassigns⟩ := hmade.assigns
  obtain rfl := hmade.1
  have hall : assignedVars layout.cells = a.contract.stateVars := by
    refine assignedVars_eq hplan fun v hv => ?_
    obtain ⟨hreadonly, hinitial⟩ := huses _ (List.mem_map_of_mem hv)
    exact ⟨hreadonly, by simpa [variableUse] using hinitial⟩
  exact ⟨a, ha, layout, rfl, rfl, hplan, hall, hall ▸ hassigns⟩

/-- **A class reads the value of its base before the base has given it one.** The bonus extends the
account and reads its rate, and the code that creates it assigns what it reads only afterwards. -/
theorem base_value_assigned_late :
    ∃ loaded declared result, loadAll bonuses ["c.ts"] = .ok loaded ∧
      resolveFiles loaded = .ok (declared, result.warnings) ∧
      compile noAssembler bonuses ["c.ts"] = .ok result ∧
      ("Account", [], ["rate"]) ∈ declaredUse declared ∧
      ("Bonus", ["Account"], ["doubled"]) ∈ declaredUse declared ∧
      ∃ a ∈ result.artifacts, ∃ layout, ∃ doubled rate : StateVar, a.contract.name = "Bonus" ∧
        a.contract.stateVars = [doubled, rate] ∧
        variableUse doubled = ⟨"doubled", false, some ["rate"]⟩ ∧
        variableUse rate = ⟨"rate", false, some []⟩ ∧
        Storage.plan a.contract = .ok layout ∧
        a.Assigns result.registry layout [doubled, rate] := by
  obtain ⟨loaded, declared, result, hloaded, hresolved, hresult, hdeclared, hstarting⟩ :=
    exists_bonuses
  obtain ⟨a, ha, layout, hname, huses, hplan, -, hassigns⟩ := exists_assigns hresult
    (hstarting ▸ List.mem_cons_of_mem _ List.mem_cons_self) (by decide)
  obtain ⟨doubled, _, hvars, hdoubled, hrest⟩ := List.map_eq_cons_iff.1 huses
  obtain ⟨rate, _, rfl, hrate, hnil⟩ := List.map_eq_cons_iff.1 hrest
  obtain rfl := List.map_eq_nil_iff.1 hnil
  refine ⟨loaded, declared, result, hloaded, hresolved, hresult, by simp [hdeclared],
    by simp [hdeclared], a, ha, layout, doubled, rate, hname, hvars, hdoubled, hrate, hplan, ?_⟩
  rwa [hvars] at hassigns

/-- The club comes to the rate before the bonus that reads it, and assigns it first. -/
theorem initial_values_in_walk_order_club :
    ∃ loaded declared result, compile noAssembler bonuses ["c.ts"] = .ok result ∧
      loadAll bonuses ["c.ts"] = .ok loaded ∧
      resolveFiles loaded = .ok (declared, result.warnings) ∧
      ∃ a ∈ result.artifacts, ∃ layout, a.contract.name = "Club" ∧
        Storage.plan a.contract = .ok layout ∧
        a.Assigns result.registry layout (assignedVars layout.cells) ∧
        (assignedVars layout.cells).map StateVar.name = ["rate", "doubled"] ∧
        declared.MeetsBefore "Club" "rate" "doubled" := by
  obtain ⟨_, _, result, -, -, hresult, -, hstarting⟩ := exists_bonuses
  obtain ⟨a, ha, layout, hname, huses, hplan, hall, -⟩ := exists_assigns hresult
    (hstarting ▸ List.mem_cons_of_mem _ (List.mem_cons_of_mem _ List.mem_cons_self)) (by decide)
  obtain ⟨rate, _, hvars, hrate, hrest⟩ := List.map_eq_cons_iff.1 huses
  obtain ⟨doubled, _, rfl, hdoubled, hnil⟩ := List.map_eq_cons_iff.1 hrest
  obtain rfl := List.map_eq_nil_iff.1 hnil
  have hrateName : rate.name = "rate" := congrArg VariableUse.name hrate
  have hdoubledName : doubled.name = "doubled" := congrArg VariableUse.name hdoubled
  obtain ⟨loaded, declared, hloaded, hresolved, -, -, hartifacts⟩ :=
    initial_values_in_walk_order hresult
  obtain ⟨layout', hplan', hassigns, horder⟩ := hartifacts a ha
  obtain rfl := Except.ok.inj (hplan.symm.trans hplan')
  rw [hall, hvars] at horder
  have hmeets := (horder rate (by simp) doubled (by simp)).1 (.refl _)
  rw [hname, hrateName, hdoubledName] at hmeets
  refine ⟨loaded, declared, result, hresult, hloaded, hresolved, a, ha, layout, hname, hplan,
    hassigns, ?_, hmeets⟩
  rw [hall, hvars, List.map_cons, List.map_cons, hrateName, hdoubledName, List.map_nil]

end Build

end Covenant
