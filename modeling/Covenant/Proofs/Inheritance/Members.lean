import Covenant.Proofs.Inheritance.Completion
import Covenant.Proofs.Keys

/-!
# The members of completed contracts

A completed contract has the members that its classes declare, met one after another on the way up
branch by branch, and of each name only the first. Variables and methods share their names; events
have names of their own. The members of a base stand in the contract in the order of the walk and
not in that of the base, since the base has its variables apart from its methods: what counts is
that both lists hold the same variables and the same methods in order (`Lists`).

Completing goes through the contracts in the order of their names, but any other order would do
(`flatten_is_firstWins`): a contract ends as what the classes above it declare.
-/

namespace Covenant

/-! ## Members -/

/-- **A member of a class** that shares its name with no other one: a variable or a method. -/
inductive Member where
  | property (v : StateVar)
  | method (m : Routine)

namespace Member

/-- The name of a member. -/
def name : Member → String
  | property v => v.name
  | method m => m.name

/-- A member when it is inherited: what a method may do to the state is to be found out anew. -/
def inherited : Member → Member
  | property v => property v
  | method m => method { m with mutability := .unknown }

/-- The variable that a member is. -/
def property? : Member → Option StateVar
  | property v => some v
  | method _ => none

/-- The method that a member is. -/
def method? : Member → Option Routine
  | property _ => none
  | method m => some m

@[simp] theorem name_inherited (m : Member) : m.inherited.name = m.name := by
  cases m <;> rfl

@[simp] theorem inherited_inherited (m : Member) : m.inherited.inherited = m.inherited := by
  cases m <;> rfl

theorem property?_inherited (m : Member) : m.inherited.property? = m.property? := by
  cases m <;> rfl

theorem method?_inherited (m : Member) :
    m.inherited.method? = m.method?.map ({ · with mutability := .unknown }) := by
  cases m <;> rfl

theorem name_of_property? {m : Member} {v : StateVar} (h : m.property? = some v) :
    v.name = m.name := by
  cases m with
  | property w =>
    cases h
    rfl
  | method => cases h

theorem name_of_method? {m : Member} {r : Routine} (h : m.method? = some r) :
    r.name = m.name := by
  cases m with
  | property => cases h
  | method s =>
    cases h
    rfl

end Member

namespace Contract

/-- The variables and methods of a contract. -/
def members (c : Contract) : List Member :=
  c.stateVars.map .property ++ c.methods.map .method

/-- **Every name of a contract is given once**: to one variable or method, and to one event. -/
def NamesOnce (c : Contract) : Prop :=
  (c.variableNames ++ c.methodNames).Nodup ∧ c.eventNames.Nodup

instance (c : Contract) : Decidable c.NamesOnce :=
  inferInstanceAs (Decidable (_ ∧ _))

theorem map_name_members (c : Contract) :
    c.members.map Member.name = c.variableNames ++ c.methodNames := by
  simp [members, variableNames, methodNames, Function.comp_def, Member.name]

end Contract

namespace Registry

/-- **The classes that a class is made of**, itself first and then branch by branch. -/
def lineage (r : Registry) (name : String) : List Contract :=
  (r.extensions.depthFirst name).filterMap r.get?

/-- A class, and what its bases are made of, one base after the other. -/
theorem Hierarchy.lineage_eq {r : Registry} {c : Contract} (hr : r.Hierarchy)
    (hc : c ∈ r.contracts) : r.lineage c.name = c :: c.bases.flatMap r.lineage := by
  rw [lineage, hr.acyclic.depthFirst_eq hr.known (mem_keys_extensions hc), hr.successors hc,
    List.filterMap_cons_some (hr.get?_of_mem hc), List.filterMap_flatMap]
  rfl

/-- A registry without two contracts of one name is what is found under its names. -/
theorem contracts_eq_filterMap {r : Registry} (hdistinct : (r.contracts.map Contract.name).Nodup) :
    r.contracts = (r.contracts.map Contract.name).filterMap r.get? := by
  have hall : ∀ c ∈ r.contracts, r.get? c.name = some c := fun c hc => get?_of_nodup hdistinct hc
  rw [List.filterMap_map]
  symm
  calc
    r.contracts.filterMap (r.get? ∘ Contract.name) = r.contracts.filterMap some :=
      List.filterMap_congr hall
    _ = r.contracts := List.filterMap_some

end Registry

namespace Inheritance

open Registry Emit

variable {r : Registry} {c base : Contract}

/-- **The variables and methods of a completed contract**: its own and then those of the other
classes it is made of, of each name the first. -/
def completedMembers (r : Registry) (c : Contract) : List Member :=
  firstByKey Member.name (c.members ++
    (c.bases.flatMap r.lineage).flatMap fun d => d.members.map Member.inherited)

/-- **The events of a completed contract**: those of the classes it is made of, of each name the
first. -/
def completedEvents (r : Registry) (c : Contract) : List Event :=
  firstByKey Event.name ((r.lineage c.name).flatMap Contract.events)

/-- **A contract as the classes it is made of declare it.** -/
def completed (r : Registry) (c : Contract) : Contract :=
  { c with
    stateVars := (completedMembers r c).filterMap Member.property?
    methods := (completedMembers r c).filterMap Member.method?
    events := completedEvents r c }

/-! ## The members of one base -/

/-- A list has the variables and methods of a contract, each in their order. -/
structure Lists (members : List Member) (c : Contract) : Prop where
  stateVars : c.stateVars = members.filterMap Member.property?
  methods : c.methods = members.filterMap Member.method?

variable {members others : List Member}

theorem lists_members (c : Contract) : Lists c.members c := by
  constructor
  · simp [Contract.members, List.filterMap_append, List.filterMap_map, Function.comp_def,
      Member.property?]
  · simp [Contract.members, List.filterMap_append, List.filterMap_map, Function.comp_def,
      Member.method?]

/-- The list has the members of the contract and no others. -/
theorem Lists.perm (h : Lists members c) : c.members.Perm members := by
  rw [Contract.members, h.stateVars, h.methods]
  clear h
  induction members with
  | nil => exact .nil
  | cons member rest ih =>
    cases member with
    | property v => exact ih.cons _
    | method m => exact List.perm_middle.trans (ih.cons _)

/-- A contract has a member of a name exactly where the list has one. -/
theorem Lists.hasMember_iff (h : Lists members c) {name : String} :
    hasMember c name = true ↔ name ∈ members.map Member.name := by
  have hmember : hasMember c name = true ↔ name ∈ c.members.map Member.name := by
    simp [hasMember, Contract.stateVar?, Contract.method?, Contract.map_name_members,
      Contract.variableNames, Contract.methodNames]
  rw [hmember, (h.perm.map _).mem_iff]

/-- Adds one member, unless the contract has one of its name. -/
def addMember (c : Contract) (member : Member) : Contract :=
  if hasMember c member.name then c
  else
    match member.inherited with
    | .property v => { c with stateVars := c.stateVars ++ [v] }
    | .method m => { c with methods := c.methods ++ [m] }

/-- A base gives its variables and then its methods. -/
theorem inherit_eq (c base : Contract) :
    inherit c base = base.members.foldl addMember (inheritEvents c base.events) := by
  rw [Contract.members, List.foldl_append, List.foldl_map, List.foldl_map]
  rfl

theorem lists_addMember (h : Lists members c) (member : Member) :
    Lists (if members.any (·.name = member.inherited.name) then members
      else members ++ [member.inherited]) (addMember c member) := by
  have hseen : members.any (·.name = member.inherited.name) = true ↔
      hasMember c member.name = true := by
    rw [h.hasMember_iff]
    simp
  rw [addMember]
  by_cases hhas : hasMember c member.name = true
  · rw [if_pos hhas, if_pos (hseen.2 hhas)]
    exact h
  · rw [if_neg hhas, if_neg fun hany => hhas (hseen.1 hany)]
    cases member with
    | property v =>
      constructor
      · simp [Member.inherited, h.stateVars, List.filterMap_append, Member.property?]
      · simp [Member.inherited, h.methods, List.filterMap_append, Member.method?]
    | method m =>
      constructor
      · simp [Member.inherited, h.stateVars, List.filterMap_append, Member.property?]
      · simp [Member.inherited, h.methods, List.filterMap_append, Member.method?]

/-- **Of the members of a base those of a new name are added.** -/
theorem lists_foldl_addMember (h : Lists (firstByKey Member.name members) c) (more : List Member) :
    Lists (firstByKey Member.name (members ++ more.map Member.inherited))
      (more.foldl addMember c) := by
  rw [firstByKey, List.foldl_append, ← firstByKey]
  generalize firstByKey Member.name members = kept at h ⊢
  induction more generalizing c kept with
  | nil => exact h
  | cons member rest ih => exact ih _ (lists_addMember h member)

/-- Leaving out names goes well with taking only the variables, or only the methods. -/
theorem filterMap_filter_names {α : Type} {view : Member → Option α} {name : α → String}
    (hview : ∀ member a, view member = some a → name a = member.name) (p : String → Bool)
    (members : List Member) :
    (members.filter fun m => p m.name).filterMap view =
      (members.filterMap view).filter fun a => p (name a) := by
  induction members with
  | nil => rfl
  | cons member rest ih =>
    cases ha : view member with
    | none => cases hp : p member.name <;> simp [ha, hp, ih]
    | some a =>
      have hname := hview member a ha
      cases hp : p member.name <;> simp [ha, hname, hp, ih]

/-- Any list of the members of a base may stand for the base. -/
theorem Lists.exchange (h : Lists others base) (hothers : (others.map Member.name).Nodup)
    (hlists : Lists (firstByKey Member.name (members ++ base.members.map Member.inherited)) c) :
    Lists (firstByKey Member.name (members ++ others.map Member.inherited)) c := by
  have hnodup : (base.members.map Member.name).Nodup := ((h.perm.map _).nodup_iff).2 hothers
  have hsplit {l : List Member} (hl : (l.map Member.name).Nodup) :
      firstByKey Member.name (members ++ l.map Member.inherited) =
        firstByKey Member.name members ++
          (l.filter fun m => m.name ∉ members.map Member.name).map Member.inherited := by
    rw [firstByKey_append, firstByKey_map Member.name_inherited, firstByKey_of_nodup hl,
      List.filter_map]
    simp only [Function.comp_def, Member.name_inherited]
  -- what is inherited of either list has the same variables, and the same methods
  have hnew (names : List String) :
      ((base.members.filter fun m => m.name ∉ names).map Member.inherited).filterMap
          Member.property? =
        ((others.filter fun m => m.name ∉ names).map Member.inherited).filterMap
          Member.property? ∧
      ((base.members.filter fun m => m.name ∉ names).map Member.inherited).filterMap
          Member.method? =
        ((others.filter fun m => m.name ∉ names).map Member.inherited).filterMap
          Member.method? := by
    simp only [List.filterMap_map, Function.comp_def, Member.property?_inherited,
      Member.method?_inherited, ← List.map_filterMap]
    rw [filterMap_filter_names (fun _ _ => Member.name_of_property?) (fun n => n ∉ names),
      filterMap_filter_names (fun _ _ => Member.name_of_property?) (fun n => n ∉ names),
      filterMap_filter_names (fun _ _ => Member.name_of_method?) (fun n => n ∉ names),
      filterMap_filter_names (fun _ _ => Member.name_of_method?) (fun n => n ∉ names),
      ← (lists_members base).stateVars, ← (lists_members base).methods, ← h.stateVars, ← h.methods]
    exact ⟨rfl, rfl⟩
  obtain ⟨hstateVars, hmethods⟩ := hnew (members.map Member.name)
  rw [hsplit hnodup] at hlists
  rw [hsplit hothers]
  constructor
  · rw [hlists.stateVars, List.filterMap_append, List.filterMap_append, hstateVars]
  · rw [hlists.methods, List.filterMap_append, List.filterMap_append, hmethods]

/-! ## The events of one base -/

theorem events_inheritEvents (h : c.eventNames.Nodup) (events : List Event) :
    (inheritEvents c events).events = firstByKey Event.name (c.events ++ events) := by
  have hfold : (inheritEvents c events).events =
      events.foldl (fun kept e => if kept.any (·.name = e.name) then kept else kept ++ [e])
        c.events := by
    rw [inheritEvents]
    clear h
    induction events generalizing c with
    | nil => rfl
    | cons e rest ih =>
      have hhas : (c.event? e.name).isSome = c.events.any (·.name = e.name) := by
        rw [Contract.event?, Bool.eq_iff_iff]
        simp
      rw [List.foldl_cons, List.foldl_cons, ih, hhas]
      split <;> rfl
  rw [hfold, foldl_firstByKey, firstByKey_append, firstByKey_of_nodup h]

theorem events_inherit (c base : Contract) :
    (inherit c base).events = (inheritEvents c base.events).events := by
  rw [inherit, (inheritMethods_frame _ _).2, (inheritVariables_frame _ _).2]

/-! ## All bases -/

/-- A contract without what is inherited. -/
def bare (c : Contract) : Contract :=
  { c with stateVars := [], methods := [], events := [] }

theorem eq_of_bare {d : Contract} (hbare : bare c = bare d) (hstateVars : c.stateVars = d.stateVars)
    (hmethods : c.methods = d.methods) (hevents : c.events = d.events) : c = d := by
  cases c
  cases d
  simp_all [bare]

theorem bare_inherit (c base : Contract) : bare (inherit c base) = bare c := by
  refine (foldl_keeps bare (fun c m => ?_) base.methods _).trans
    ((foldl_keeps bare (fun c v => ?_) base.stateVars _).trans
      (foldl_keeps bare (fun c e => ?_) base.events _)) <;> split <;> rfl

/-- What an inheriting class gets from a base: what the classes that the base is made of declare. -/
theorem map_inherited_completedMembers (hr : r.Hierarchy) (hc : c ∈ r.contracts) :
    (completedMembers r c).map Member.inherited =
      firstByKey Member.name
        ((r.lineage c.name).flatMap fun d => d.members.map Member.inherited) := by
  rw [completedMembers, ← firstByKey_map Member.name_inherited, List.map_append, List.map_flatMap,
    hr.lineage_eq hc, List.flatMap_cons]
  simp only [List.map_map, Function.comp_def, Member.inherited_inherited]

theorem lists_completed (r : Registry) (c : Contract) :
    Lists (completedMembers r c) (completed r c) :=
  ⟨rfl, rfl⟩

/-- **One completed base after another adds what its classes declare.** -/
theorem lists_foldl_inherit (hr : r.Hierarchy) {names : List String} {bases : List Contract}
    (hbases : CompletedBases r (fun d merged => merged = completed r d) names bases)
    (h : Lists (firstByKey Member.name members) c) :
    Lists (firstByKey Member.name (members ++
        (names.flatMap r.lineage).flatMap fun d => d.members.map Member.inherited))
      (bases.foldl inherit c) := by
  induction hbases generalizing c members with
  | nil => simpa using h
  | @cons name base names bases hbase _ ih =>
    obtain ⟨d, hd, rfl⟩ := hbase
    obtain ⟨hmem, rfl⟩ := of_get?_eq_some hd
    have hevents : Lists (firstByKey Member.name members)
        (inheritEvents c (completed r d).events) := by
      constructor
      · refine (foldl_keeps Contract.stateVars (fun c e => ?_) _ _).trans h.stateVars
        split <;> rfl
      · refine (foldl_keeps Contract.methods (fun c e => ?_) _ _).trans h.methods
        split <;> rfl
    have hfirst : Lists (firstByKey Member.name (members ++
        (r.lineage d.name).flatMap fun e => e.members.map Member.inherited))
        (inherit c (completed r d)) := by
      rw [inherit_eq, ← firstByKey_append_firstByKey, ← map_inherited_completedMembers hr hmem]
      exact (lists_completed r d).exchange (nodup_firstByKey _) (lists_foldl_addMember hevents _)
    have hrest := ih hfirst
    rw [List.append_assoc, ← List.flatMap_append] at hrest
    rw [List.foldl_cons, List.flatMap_cons]
    exact hrest

theorem events_foldl_inherit {names : List String} {bases : List Contract}
    (hbases : CompletedBases r (fun d merged => merged = completed r d) names bases)
    (h : c.eventNames.Nodup) :
    (bases.foldl inherit c).events =
      firstByKey Event.name (c.events ++ (names.flatMap r.lineage).flatMap Contract.events) := by
  induction hbases generalizing c with
  | nil => simpa using (firstByKey_of_nodup h).symm
  | @cons name base names bases hbase _ ih =>
    obtain ⟨d, hd, rfl⟩ := hbase
    obtain ⟨-, rfl⟩ := of_get?_eq_some hd
    have hfirst : (inherit c (completed r d)).events =
        firstByKey Event.name (c.events ++ (r.lineage d.name).flatMap Contract.events) := by
      rw [events_inherit, events_inheritEvents h]
      exact firstByKey_append_firstByKey _ _
    have hnodup : (inherit c (completed r d)).eventNames.Nodup := by
      rw [Contract.eventNames, hfirst]
      exact nodup_firstByKey _
    rw [List.foldl_cons, ih hnodup, hfirst, firstByKey_firstByKey_append, List.append_assoc,
      List.flatMap_cons, List.flatMap_append]

/-- **A contract with the members of its completed bases added is completed itself.** -/
theorem foldl_inherit_eq (hr : r.Hierarchy) (hc : c ∈ r.contracts) (hnames : c.NamesOnce)
    {bases : List Contract}
    (hbases : CompletedBases r (fun d merged => merged = completed r d) c.bases bases) :
    bases.foldl inherit c = completed r c := by
  have hown : Lists (firstByKey Member.name c.members) c := by
    rw [firstByKey_of_nodup (c.map_name_members ▸ hnames.1)]
    exact lists_members c
  have hmembers := lists_foldl_inherit hr hbases hown
  refine eq_of_bare (foldl_keeps bare bare_inherit bases c) hmembers.stateVars hmembers.methods ?_
  rw [events_foldl_inherit hbases hnames.2]
  change _ = firstByKey Event.name ((r.lineage c.name).flatMap Contract.events)
  rw [hr.lineage_eq hc, List.flatMap_cons]

/-! ## All contracts -/

theorem namesOnce_completed (r : Registry) (c : Contract) : (completed r c).NamesOnce := by
  refine ⟨?_, nodup_firstByKey _⟩
  rw [← Contract.map_name_members, (((lists_completed r c).perm.map Member.name).nodup_iff)]
  exact nodup_firstByKey _

/-- **In whatever order the contracts of a hierarchy are completed, each becomes what the classes it
is made of declare.** -/
theorem completeAll_eq (hr : r.Hierarchy) (hnames : ∀ c ∈ r.contracts, c.NamesOnce)
    {order : List String} (horder : ∀ name, name ∈ order ↔ name ∈ r.names) :
    (completeAll r order).2 = none ∧
      (completeAll r order).1.contracts = r.contracts.map (completed r) := by
  have hok : (completeAll r order).2 = none := by
    obtain ⟨q, hq, -⟩ := completeNamed_advances hr fun name h => (horder name).1 h
    rw [completeAll, hq]
  obtain ⟨hsame, hall⟩ := completeAll_induction
    (motive := fun c merged => merged = completed r c)
    (fun c hc bases hbases => foldl_inherit_eq hr hc (hnames c hc) hbases) horder hok
  have hdistinct : ((completeAll r order).1.contracts.map Contract.name).Nodup := by
    rw [hsame]
    exact hr.distinct
  refine ⟨hok, ?_⟩
  rw [contracts_eq_filterMap hdistinct, hsame, List.filterMap_map, ← List.filterMap_eq_map]
  refine List.filterMap_congr fun c hc => ?_
  obtain ⟨merged, hmerged, rfl⟩ := hall c (hr.get?_of_mem hc)
  exact hmerged

/-- **Inheritance is looking up branch by branch, and the first wins.** For contracts with names of
their own, each of which gives every name once: completing them succeeds exactly where every base is
one of them and none extends itself, directly or not. Then every contract has, of the members of
the classes it is made of, itself first and then branch by branch, the first of each name, so that
it still gives every name once. Completing the contracts in any other order succeeds for the same
contracts, and gives the same. -/
theorem flatten_is_firstWins (hdistinct : (r.contracts.map Contract.name).Nodup)
    (hnames : ∀ c ∈ r.contracts, c.NamesOnce) :
    ((flatten r).2 = none ↔
      (∀ c ∈ r.contracts, ∀ base ∈ c.bases, ∃ d ∈ r.contracts, d.name = base) ∧
        r.extensions.Acyclic) ∧
    ((flatten r).2 = none →
      (∀ c ∈ r.contracts, r.lineage c.name = c :: c.bases.flatMap r.lineage) ∧
      (flatten r).1.contracts = r.contracts.map (completed r) ∧
      ∀ c ∈ (flatten r).1.contracts, c.NamesOnce) ∧
    ∀ order : List String, (∀ name, name ∈ order ↔ ∃ c ∈ r.contracts, c.name = name) →
      ((completeAll r order).2 = none ↔ (flatten r).2 = none) ∧
      ((flatten r).2 = none → (completeAll r order).1 = (flatten r).1) := by
  have hknown : r.extensions.Closed ↔
      ∀ c ∈ r.contracts, ∀ base ∈ c.bases, ∃ d ∈ r.contracts, d.name = base := by
    rw [Graph.Closed, keys_extensions, extensions, List.forall_mem_map]
    simp only [List.mem_map]
  have hflatten := fun hr => completeAll_eq (r := r) hr hnames (fun _ => .rfl)
  refine ⟨⟨fun hok => ?_, fun hwell => ?_⟩, fun hok => ?_, fun order horder => ?_⟩
  · have hr := hierarchy_of_flatten hdistinct hok
    exact ⟨hknown.1 hr.known, hr.acyclic⟩
  · exact (hflatten ⟨hdistinct, hknown.2 hwell.1, hwell.2⟩).1
  · have hr := hierarchy_of_flatten hdistinct hok
    have hcontracts : (flatten r).1.contracts = r.contracts.map (completed r) := (hflatten hr).2
    refine ⟨fun c hc => hr.lineage_eq hc, hcontracts, fun c hc => ?_⟩
    rw [hcontracts] at hc
    obtain ⟨d, -, rfl⟩ := List.mem_map.1 hc
    exact namesOnce_completed r d
  · have hall (name : String) : name ∈ order ↔ name ∈ r.names := by
      rw [horder, mem_names, keys_extensions, List.mem_map]
    refine ⟨⟨fun hok => ?_, fun hok => ?_⟩, fun hok => ?_⟩
    · exact (hflatten (hierarchy_of_completeAll hdistinct hall hok)).1
    · exact (completeAll_eq (hierarchy_of_flatten hdistinct hok) hnames hall).1
    · have hr := hierarchy_of_flatten hdistinct hok
      have hsame := (completeAll_eq hr hnames hall).2.trans (hflatten hr).2.symm
      exact congrArg Registry.mk hsame

/-- A token that is two kinds of ledger at once. Both kinds extend one class, one of them has a
method where the other has a variable of the name, and the second declares the event again. -/
def diamond : Registry :=
  { contracts :=
      [{ name := "Ledger", stateVars := [{ name := "owner", type := .address none }]
         methods := [{ name := "total", returns := .number }]
         events := [{ name := "Moved", shape := ⟨"Entry", [⟨"amount", .number⟩]⟩ }] },
        { name := "Capped", bases := ["Ledger"]
          stateVars := [{ name := "cap", type := .number }]
          methods := [{ name := "share", returns := .number }] },
        { name := "Shared", bases := ["Ledger"]
          stateVars := [{ name := "share", type := .number }, { name := "parts", type := .number }]
          events := [{ name := "Moved", shape := ⟨"Transfer", [⟨"share", .number⟩]⟩ }] },
        { name := "Token", bases := ["Capped", "Shared"]
          methods := [{ name := "total", returns := .number, mutability := .view }] }] }

/-- **The diamond is completed.** The token has each member of the ledger once, its own method in
the place of that of the ledger, and of the two members named `share` the method, which it meets
first; beginning with the token gives the same. -/
theorem flatten_is_firstWins_diamond :
    (diamond.contracts.map Contract.name).Nodup ∧ (∀ c ∈ diamond.contracts, c.NamesOnce) ∧
      (flatten diamond).2 = none ∧
      (flatten diamond).1.contracts.map (fun c => (c.name, c.variableNames, c.methodNames)) =
        [("Ledger", ["owner"], ["total"]), ("Capped", ["cap", "owner"], ["share", "total"]),
          ("Shared", ["share", "parts", "owner"], ["total"]),
          ("Token", ["cap", "owner", "parts"], ["total", "share"])] ∧
      (flatten diamond).1.contracts.map (·.events.map (·.shape.name)) =
        [["Entry"], ["Entry"], ["Transfer"], ["Entry"]] ∧
      (completeAll diamond ["Token", "Shared", "Ledger", "Capped"]).1 = (flatten diamond).1 := by
  have hdistinct : (diamond.contracts.map Contract.name).Nodup := by decide
  have hnames : ∀ c ∈ diamond.contracts, c.NamesOnce := by decide
  have hacyclic : diamond.extensions.Acyclic :=
    Graph.acyclic_of_descending (["Ledger", "Shared", "Capped", "Token"].idxOf ·) (by decide)
  obtain ⟨hsucceeds, hcompleted, horders⟩ := flatten_is_firstWins hdistinct hnames
  have hok : (flatten diamond).2 = none := hsucceeds.2 ⟨by decide, hacyclic⟩
  obtain ⟨-, hcontracts, -⟩ := hcompleted hok
  have horder : ∀ name, name ∈ ["Token", "Shared", "Ledger", "Capped"] ↔
      ∃ c ∈ diamond.contracts, c.name = name := by
    intro name
    have hperm : ["Token", "Shared", "Ledger", "Capped"].Perm
        (diamond.contracts.map Contract.name) := by
      decide
    rw [hperm.mem_iff, List.mem_map]
  refine ⟨hdistinct, hnames, hok, ?_, ?_, (horders _ horder).2 hok⟩
  · rw [hcontracts]
    decide
  · rw [hcontracts]
    decide

end Inheritance

end Covenant
