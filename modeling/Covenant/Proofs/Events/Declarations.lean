import Covenant.Proofs.Build.Analysis
import Covenant.Proofs.Build.Contracts
import Covenant.Proofs.Events.Emissions

/-!
# Emitted events and their declarations

The arguments of an event are put in order when a body is resolved, by the event as the class of the
body sees it: its own, or that of the nearest class above. A contract that inherits the body
declares the event of the first branch that has one. The contract always has an event of the name,
and where only one class on its way up declares one, the arguments follow its declaration.
-/

namespace Covenant

namespace Registry

/-- **The event that the bodies of a class mean by a name**: that of the class itself, or of the
nearest class above it that declares one. -/
def visibleEvent? (r : Registry) (event name : String) : Option Event :=
  (r.event? event name).or ((r.nearestDeclarer? event name).bind (r.event? event))

/-- No two classes from a class upwards declare an event. -/
def DeclaredOnce (r : Registry) (event name : String) : Prop :=
  ∀ a b, r.Above name a → r.Above name b → (r.event? event a).isSome → (r.event? event b).isSome →
    a = b

variable {r : Registry} {c : Contract} {event name owner : String} {e : Event}

theorem event?_of_declarer?_bind {classes : List String}
    (h : (r.declarer? event classes).bind (r.event? event) = some e) :
    ∃ a ∈ classes, r.event? event a = some e := by
  obtain ⟨a, ha, he⟩ := Option.bind_eq_some_iff.1 h
  exact ⟨a, List.mem_of_find?_eq_some ha, he⟩

/-- What the bodies of a class mean is declared by it or above it. -/
theorem Hierarchy.exists_of_visible (hr : r.Hierarchy)
    (h : r.visibleEvent? event name = some e) :
    ∃ a, r.Above name a ∧ r.event? event a = some e := by
  rcases Option.or_eq_some_iff.1 h with h | ⟨-, h⟩
  · exact ⟨name, .inl rfl, h⟩
  · obtain ⟨a, ha, he⟩ := event?_of_declarer?_bind h
    exact ⟨a, .inr (hr.acyclic.mem_ancestors.1 ha), he⟩

/-- An event that is declared from a class upwards is declared on some first branch. -/
theorem Hierarchy.exists_firstDeclarer (hr : r.Hierarchy) (hc : c ∈ r.contracts) {a : String}
    (ha : r.Above c.name a) (he : r.event? event a = some e) :
    ∃ declared b, (r.firstDeclarer? event c.name).bind (r.event? event) = some declared ∧
      r.Above c.name b ∧ r.event? event b = some declared := by
  have hmem {x : String} := hr.acyclic.mem_depthFirst hr.known (mem_keys_extensions hc) (x := x)
  cases hfirst : (r.firstDeclarer? event c.name).bind (r.event? event) with
  | none =>
    have hnone := bind_declarer?_eq_none.1 hfirst a (hmem.2 ha)
    rw [he] at hnone
    cases hnone
  | some declared =>
    obtain ⟨b, hb, hdeclared⟩ := event?_of_declarer?_bind hfirst
    exact ⟨declared, b, rfl, hmem.1 hb, hdeclared⟩

end Registry

namespace Build

open Resolve Registry Inheritance

variable {r : Registry} {c : Contract}

/-- The scope of the members of a class in a build. -/
def memberScope (r : Registry) (f : DeclaredFile) (owner : Contract) (properties : Table Ty) :
    Scope :=
  classScope { f.scope with events := inheritedEvents r.extensions r.declared owner.name }
    owner.events properties

/-- The events of its scope are those that a class sees. -/
theorem memberScope_events (hr : r.Hierarchy) {owner : Contract} (howner : owner ∈ r.contracts)
    (f : DeclaredFile) (properties : Table Ty) (event : String) :
    (memberScope r f owner properties).events.get? event = r.visibleEvent? event owner.name := by
  have hown : r.event? event owner.name = owner.event? event := by
    rw [Registry.event?, hr.get?_of_mem howner, Option.bind_some]
  -- its own events lie over those it inherits
  rw [visibleEvent?, ← hr.inheritedEvents_get?, hown, memberScope, classScope, Table.putAll,
    Table.get?_append, get?_named]
  rfl

/-- **An event is logged for a contract** as the class of the body sees it. The contract declares an
event of the name, that of its first branch that has one, and the arguments follow its declaration
where both have the same fields in the same order. It is one event where only one class declares
it. -/
structure LoggedFor (r : Registry) (c : Contract) (owner : String) (scope : Scope)
    (asked : Source.Emission) (logged : Logged) : Prop where
  pos : logged.pos = asked.pos
  event : logged.event = asked.event
  args : ∃ seen declared, r.visibleEvent? asked.event owner = some seen ∧
    Gives scope seen.shape asked.fields logged.args ∧
    c.event? asked.event = some declared ∧
    (r.firstDeclarer? asked.event c.name).bind (r.event? asked.event) = some declared ∧
    (seen.shape.fieldNames = declared.shape.fieldNames →
      Gives scope declared.shape asked.fields logged.args ∧
        logged.args.length = declared.params.length) ∧
    (r.DeclaredOnce asked.event c.name → seen = declared)

/-- **A body emits for a contract** what a member of a class asks for, one event for each emission
and in their order. -/
def EmitsFor (classes : List OwnedClass) (known : Known) (r : Registry) (c owner : Contract)
    (name : Option String) (body : List Stmt) : Prop :=
  ∃ f ∈ known.files, ∃ written properties, (f.path, written) ∈ classes ∧
    written.name = owner.name ∧ ∃ m ∈ written.members, memberName? m = name ∧
      ∃ ss, HasBody m.body ss ∧
        List.Forall₂ (LoggedFor r c owner.name (memberScope r f owner properties))
          (Source.emissionsAll ss) (Stmt.logs body)

/-- What is logged as a class sees it is logged for every contract that extends the class. -/
theorem LoggedFor.of_loggedIn (hr : r.Hierarchy) {declarer owner : Contract}
    (hdeclarer : declarer ∈ r.contracts) (howner : owner ∈ r.contracts)
    (habove : r.Above declarer.name owner.name) (hname : c.name = declarer.name)
    (hevents : ∀ event, c.event? event =
      (r.firstDeclarer? event declarer.name).bind (r.event? event))
    {f : DeclaredFile} {properties : Table Ty} {asked : Source.Emission} {logged : Logged}
    (h : LoggedIn (memberScope r f owner properties) asked logged) :
    LoggedFor r c owner.name (memberScope r f owner properties) asked logged := by
  obtain ⟨hpos, hevent, seen, hseen, hgives⟩ := h
  rw [memberScope_events hr howner] at hseen
  obtain ⟨a, ha, hevent_a⟩ := hr.exists_of_visible hseen
  obtain ⟨declared, b, hfirst, hb, hevent_b⟩ :=
    hr.exists_firstDeclarer hdeclarer (habove.trans ha) hevent_a
  refine ⟨hpos, hevent, seen, declared, hseen, hgives, (hevents _).trans hfirst, hname ▸ hfirst,
    fun hnames => ?_, fun honce => ?_⟩
  · have hdeclared := hgives.congr hnames
    exact ⟨hdeclared, hdeclared.length_eq⟩
  · -- the class that declares what is seen is then the one on the first branch
    rw [hname] at honce
    obtain rfl := honce a b (habove.trans ha) hb (by rw [hevent_a]; rfl) (by rw [hevent_b]; rfl)
    exact Option.some.inj (hevent_a.symm.trans hevent_b)

/-- **Where the parts of a finished contract come from**: its constructor is the one its class
declares, its methods are declared by its class or above, and its events are those of the first
branch. -/
structure FinishedFrom (r : Registry) (c declarer : Contract) : Prop where
  mem : declarer ∈ r.contracts
  name : c.name = declarer.name
  construction : c.construction = declarer.construction
  methods : ∀ m ∈ c.methods, DeclaredAbove r declarer.name m
  events : ∀ event, c.event? event =
    (r.firstDeclarer? event declarer.name).bind (r.event? event)

theorem exists_finishedFrom {finished : Registry} (hr : r.Hierarchy)
    (h : analyzed r = .ok finished) (hc : c ∈ finished.contracts) :
    ∃ declarer, FinishedFrom r c declarer := by
  obtain ⟨hok, hnames, hmarked⟩ := analyzed_eq_ok h
  have hget : finished.get? c.name = some c := get?_of_nodup (hnames ▸ hr.distinct) hc
  obtain ⟨merged, hmerged, hremarked⟩ := hmarked c.name c hget
  obtain ⟨d, hd, hname⟩ : ∃ d ∈ r.contracts, d.name = c.name :=
    List.mem_map.1 (hnames ▸ List.mem_map_of_mem hc)
  obtain ⟨-, merged', hmerged', hevents⟩ := Inheritance.flatten_spec hr hd
  obtain ⟨merged'', hmerged'', hconstruction, hmethods⟩ := Inheritance.flatten_members hr hok hd
  rw [hname, hmerged] at hmerged' hmerged''
  cases hmerged'
  cases hmerged''
  refine ⟨d, hd, hname.symm, hremarked.construction.trans hconstruction, fun m hm => ?_,
    fun event => ?_⟩
  · obtain ⟨own, hown, hownName, hownBody⟩ := hremarked.exists_method hm
    obtain ⟨owner, howner, habove, first, hfirst, hfirstName, hfirstBody⟩ := hmethods own hown
    exact ⟨owner, howner, habove, first, hfirst, hfirstName.trans hownName,
      hfirstBody.trans hownBody⟩
  · rw [Contract.event?, hremarked.events, ← Contract.event?, hevents, findSome?_event?,
      firstDeclarer?]

/-- **Emitted events have a declaration, and follow it where it is the one their class sees.** In
the finished contracts of a build, the constructor emits what the class of the contract asks for,
and each method what the class asks for that declares it, which is the class of the contract or one
above it. -/
theorem emissions_follow_seen_event {sources : List SourceFile} {warnings : List Fault}
    {finished : Registry} (hresolved : resolveFiles sources = .ok (r, warnings))
    (hfinished : analyzed r = .ok finished) :
    ∃ known, sources.foldlM (declareFile (baseScope sources)) {} = .ok known ∧
      ∀ c ∈ finished.contracts,
        (∀ k ∈ c.construction, ∃ owner ∈ r.contracts, owner.name = c.name ∧
          EmitsFor (allClasses sources) known r c owner none k.body) ∧
        ∀ m ∈ c.methods, ∃ owner ∈ r.contracts, r.Above c.name owner.name ∧
          EmitsFor (allClasses sources) known r c owner (some m.name) m.body := by
  obtain ⟨hdistinct, known, hknown, hbuilt⟩ := resolveFiles_builtIn hresolved
  have hr := Inheritance.hierarchy_of_flatten hdistinct (analyzed_eq_ok hfinished).1
  refine ⟨known, hknown, fun c hc => ?_⟩
  obtain ⟨d, hd⟩ := exists_finishedFrom hr hfinished hc
  -- a body of the finished contract is one that was resolved for the class that declares it
  have hemits {owner : Contract} (howner : owner ∈ r.contracts)
      (habove : r.Above d.name owner.name) {name : Option String} {body : List Stmt}
      (hmember : ∀ scope written, BuiltIn scope written owner → MemberOf scope written name body) :
      EmitsFor (allClasses sources) known r c owner name body := by
    obtain ⟨f, hf, written, properties, hwritten, hname, hbuilt⟩ := hbuilt owner howner
    obtain ⟨m, hm, hmname, ss, hss, hresolved⟩ := hmember _ _ hbuilt
    refine ⟨f, hf, written, properties, hwritten, hname, m, hm, hmname, ss, hss, ?_⟩
    exact hresolved.logs.imp fun _ _ => .of_loggedIn hr hd.mem howner habove hd.name hd.events
  refine ⟨fun k hk => ⟨d, hd.mem, hd.name.symm, ?_⟩, fun m hm => ?_⟩
  · rw [hd.construction] at hk
    exact hemits hd.mem (.inl rfl) fun _ _ hbuilt => hbuilt.construction k hk
  · obtain ⟨owner, howner, habove, own, hown, hownName, hownBody⟩ := hd.methods m hm
    refine ⟨owner, howner, hd.name.symm ▸ habove, ?_⟩
    rw [← hownName, ← hownBody]
    exact hemits howner habove fun _ _ hbuilt => hbuilt.methods own hown

/-! ## Three classes -/

theorem eraseDups_of_nodup {names : List String} (h : names.Nodup) : names.eraseDups = names := by
  induction names with
  | nil => rfl
  | cons name rest ih =>
    obtain ⟨hname, hrest⟩ := List.nodup_cons.1 h
    have hkept : rest.filter (fun other => !other == name) = rest :=
      List.filter_eq_self.2 fun other hother => by
        simpa using fun heq : other = name => hname (heq ▸ hother)
    rw [List.eraseDups_cons, hkept, ih hrest]

/-- Names that ascend are sorted already. -/
theorem sortedNames_of_ascending {names : List String} (h : names.Pairwise (· < ·)) :
    sortedNames names = names := by
  have hsorted : names.mergeSort (· ≤ ·) = names :=
    List.mergeSort_of_pairwise
      (h.imp fun h => decide_eq_true (String.not_lt.1 (String.lt_asymm h)))
  rw [sortedNames, hsorted]
  exact eraseDups_of_nodup (h.imp String.ne_of_lt)

/-- The finished contracts of a build, where their names are taken to ascend. -/
def analyzedInOrder (r : Registry) : Except Failure Registry := do
  let p ← orFail (untilFailure (completeNamed r) (r.contracts.map Contract.name) { registry := r })
  analyzeAll p.registry (r.contracts.map Contract.name)

theorem analyzed_eq_inOrder (h : (r.contracts.map Contract.name).Pairwise (· < ·)) :
    analyzed r = analyzedInOrder r := by
  have hsorted := sortedNames_of_ascending h
  have hflatten := flatten_eq r
  rw [Registry.names, hsorted] at hflatten
  unfold analyzed analyzedInOrder
  rcases huntil : untilFailure (completeNamed r) (r.contracts.map Contract.name)
    { registry := r } with ⟨p, _ | fault⟩
  · rw [huntil] at hflatten
    have hnames := flatten_names (congrArg Prod.snd hflatten)
    rw [hflatten] at hnames ⊢
    change analyzeAll p.registry p.registry.names = analyzeAll p.registry _
    rw [Registry.names, hnames, hsorted]
  · rw [hflatten, huntil]
    rfl

/-- An expression that is one primary with what follows it. -/
def operand (value : Source.Primary) (suffixes : List Source.Suffix) : Source.Expression :=
  .chain {} (.mk {} (.mk {} [] (.mk {} value suffixes)) [])

/-- A call with one argument. -/
def call (argument : Source.Expression) : Source.Suffix :=
  .call {} (.mk {} [argument])

/-- An interface with its fields and their types. -/
def interfaceElement (name : String) (fields : List (String × String)) : Source.Element where
  pos := {}
  exported := true
  body := .interfaceDecl
    { pos := {}, name, fields := fields.map fun f => ⟨{}, f.1, .mk {} f.2 [] 0⟩ }

/-- A class with its bases and members. -/
def classElement (name : String) (bases : List String) (members : List Source.MemberBody) :
    Source.Element where
  pos := {}
  exported := true
  body := .classDecl { pos := {}, name, bases, members := members.map (⟨{}, [], ·⟩) }

/-- The event `Sent` with the fields of an interface. -/
def sentMember (shape : String) : Source.MemberBody :=
  .property
    { pos := {}
      name := "Sent"
      type := some (.mk {} "Event" [.mk {} shape [] 0] 0)
      initializer := none }

/-- The method `send(x: number, y: address)`, which emits `this.Sent({ owner: y, amount: x })`. -/
def sendMember : Source.MemberBody :=
  let object := operand (.object {} [.valued {} "owner" (operand (.name {} "y") []),
    .valued {} "amount" (operand (.name {} "x") [])]) []
  let event := operand (.this {}) [.member {} "Sent", call object]
  .method
    { pos := {}
      name := "send"
      params := [⟨{}, "x", .mk {} "number" [] 0⟩, ⟨{}, "y", .mk {} "address" [] 0⟩]
      returns := none
      body := ⟨{}, [.evaluate {} (operand (.name {} "emit") [call event])]⟩ }

/-- An account that emits an event, a bank that inherits it, and a fund that declares the event anew
with its fields in the other order. -/
def accountsFile : SourceFile where
  path := "accounts.ts"
  program :=
    { pos := {}
      elements :=
        [interfaceElement "Moved" [("amount", "number"), ("owner", "address")],
          interfaceElement "Turned" [("owner", "address"), ("amount", "number")],
          classElement "Account" [] [sentMember "Moved", sendMember],
          classElement "Bank" ["Account"] [],
          classElement "Fund" ["Account"] [sentMember "Turned"]] }
  imports := []

/-- The name of a variable. -/
def variableOf : Expr → String
  | .var _ name => name
  | _ => ""

/-- The fields of the events of a contract, and the variables that its methods log. -/
structure EventUse where
  contract : String
  fields : List (List String)
  logged : List (List String)
deriving DecidableEq

/-- How a contract uses its events. -/
def eventUse (c : Contract) : EventUse where
  contract := c.name
  fields := c.events.map (·.shape.fieldNames)
  logged := c.methods.flatMap fun m => (Stmt.logs m.body).map fun l => l.args.map variableOf

theorem accounts_eventUse :
    ((resolveFiles [accountsFile]).toOption.bind fun r =>
      (analyzedInOrder r.1).toOption.map fun finished =>
        (r.1.contracts.map Contract.name, finished.contracts.map eventUse)) =
      some (["Account", "Bank", "Fund"],
        [⟨"Account", [["amount", "owner"]], [["x", "y"]]⟩,
          ⟨"Bank", [["amount", "owner"]], [["x", "y"]]⟩,
          ⟨"Fund", [["owner", "amount"]], [["x", "y"]]⟩]) := by
  decide +kernel

theorem emissions_follow_seen_event_accounts :
    ∃ registry warnings finished known,
      resolveFiles [accountsFile] = .ok (registry, warnings) ∧
      analyzed registry = .ok finished ∧
      finished.contracts.map eventUse =
        [⟨"Account", [["amount", "owner"]], [["x", "y"]]⟩,
          ⟨"Bank", [["amount", "owner"]], [["x", "y"]]⟩,
          ⟨"Fund", [["owner", "amount"]], [["x", "y"]]⟩] ∧
      [accountsFile].foldlM (declareFile (baseScope [accountsFile])) {} = .ok known ∧
      ∀ c ∈ finished.contracts,
        (∀ k ∈ c.construction, ∃ owner ∈ registry.contracts, owner.name = c.name ∧
          EmitsFor (allClasses [accountsFile]) known registry c owner none k.body) ∧
        ∀ m ∈ c.methods, ∃ owner ∈ registry.contracts, registry.Above c.name owner.name ∧
          EmitsFor (allClasses [accountsFile]) known registry c owner (some m.name) m.body := by
  obtain ⟨⟨registry, warnings⟩, hok, huse⟩ := Option.bind_eq_some_iff.1 accounts_eventUse
  obtain ⟨finished, hfinished, huse⟩ := Option.map_eq_some_iff.1 huse
  obtain ⟨hnames, huse⟩ := Prod.mk.inj huse
  have hresolved := toOption_eq_some.1 hok
  have hanalyzed : analyzed registry = .ok finished := by
    rw [analyzed_eq_inOrder (by rw [hnames]; decide)]
    exact toOption_eq_some.1 hfinished
  obtain ⟨known, hknown, hemits⟩ := emissions_follow_seen_event hresolved hanalyzed
  exact ⟨registry, warnings, finished, known, hresolved, hanalyzed, huse, hknown, hemits⟩

end Build

end Covenant
