import Covenant.Proofs.Inheritance.Merging

/-!
# Where an inherited event comes from

An event is looked up twice. A body that emits it is resolved against the events the class inherits,
which a walk nearest classes first collects. Its declaration in the finished contract comes from
completing the contract, which goes branch by branch. Both find an event exactly where a class on
the way up declares it, but with several bases they need not mean the same class: they do exactly
where the first class to declare the event is the same in both orders.
-/

namespace Covenant

namespace Registry

/-- The first of some classes that declares an event. -/
def declarer? (r : Registry) (event : String) (classes : List String) : Option String :=
  classes.find? fun name => (r.event? event name).isSome

/-- **The nearest class above a class that declares an event**: the one that resolving a body
means. -/
def nearestDeclarer? (r : Registry) (event name : String) : Option String :=
  r.declarer? event (Resolve.ancestors r.extensions name)

/-- **The class that declares an event on the first branch that has one**: the one whose event the
finished contract has. -/
def firstDeclarer? (r : Registry) (event name : String) : Option String :=
  r.declarer? event (r.extensions.depthFirst name)

/-- No event is declared by two classes, so that an event tells where it was declared. -/
def Attributable (r : Registry) : Prop :=
  ∀ event a b e, r.event? event a = some e → r.event? event b = some e → a = b

variable {r : Registry} {c : Contract} {event : String}

/-- A search that gives the first result takes it from the first item that has one. -/
theorem findSome?_event? (r : Registry) (event : String) (classes : List String) :
    classes.findSome? (r.event? event) = (r.declarer? event classes).bind (r.event? event) := by
  induction classes with
  | nil => rfl
  | cons name rest ih =>
    rw [declarer?] at ih ⊢
    cases h : r.event? event name with
    | none =>
      rw [List.findSome?_cons, h, List.find?_cons_of_neg (by simp [h])]
      exact ih
    | some e =>
      rw [List.findSome?_cons, h, List.find?_cons_of_pos (by simp [h]), Option.bind_some, h]

/-- What declares an event has one. -/
theorem event?_of_declarer? {classes : List String} {name : String}
    (h : r.declarer? event classes = some name) : ∃ e, r.event? event name = some e := by
  have hsome := List.find?_some h
  exact Option.isSome_iff_exists.1 hsome

/-- Nothing is found exactly where no class declares the event. -/
theorem bind_declarer?_eq_none {classes : List String} :
    (r.declarer? event classes).bind (r.event? event) = none ↔
      ∀ name ∈ classes, r.event? event name = none := by
  rw [← findSome?_event?, List.findSome?_eq_none_iff]

/-- Where events tell their class, one event means one class. -/
theorem Attributable.bind_declarer?_eq_iff (h : r.Attributable) {above below : List String} :
    (r.declarer? event above).bind (r.event? event) =
        (r.declarer? event below).bind (r.event? event) ↔
      r.declarer? event above = r.declarer? event below := by
  refine ⟨fun heq => ?_, fun heq => by rw [heq]⟩
  cases ha : r.declarer? event above with
  | none =>
    cases hb : r.declarer? event below with
    | none => rfl
    | some b =>
      obtain ⟨e, he⟩ := event?_of_declarer? hb
      rw [ha, hb, Option.bind_some, he] at heq
      cases heq
  | some a =>
    obtain ⟨e, he⟩ := event?_of_declarer? ha
    cases hb : r.declarer? event below with
    | none =>
      rw [ha, hb, Option.bind_some, he] at heq
      cases heq
    | some b =>
      rw [ha, hb, Option.bind_some, Option.bind_some, he] at heq
      rw [h event a b e he heq.symm]

/-! ## Before completion -/

/-- The table of declared events has those of each class. -/
theorem Hierarchy.declared_event? (hr : r.Hierarchy) (event name : String) :
    ((r.declared.get? name).getD []).find? (·.name = event) = r.event? event name := by
  rw [event?]
  cases h : r.get? name with
  | some c =>
    obtain ⟨hmem, rfl⟩ := of_get?_eq_some h
    rw [declared, hr.get?_map Contract.events hmem]
    rfl
  | none =>
    have hnone : r.declared.get? name = none := by
      refine Table.get?_eq_none fun entry hentry => ?_
      obtain ⟨c, hc, rfl⟩ := List.mem_map.1 hentry
      simpa using List.find?_eq_none.1 h c (List.mem_reverse.2 hc)
    rw [hnone]
    rfl

/-- In a table made from events the first of a name is found. -/
theorem get?_named (events : List Event) (event : String) :
    Table.get? (events.map fun e => (e.name, e)) event = events.find? (·.name = event) := by
  induction events with
  | nil => rfl
  | cons e rest ih =>
    rw [List.map_cons, Table.get?_cons, ih, List.find?_cons]
    by_cases hname : e.name = event
    · simp [hname]
    · simp [hname, Ne.symm hname]

/-- **A class inherits the event of the nearest class that declares it.** -/
theorem Hierarchy.inheritedEvents_get? (hr : r.Hierarchy) (event name : String) :
    (Resolve.inheritedEvents r.extensions r.declared name).get? event =
      (r.nearestDeclarer? event name).bind (r.event? event) := by
  rw [Resolve.inheritedEvents, get?_named, List.find?_flatMap, nearestDeclarer?, ← findSome?_event?]
  congr 1
  funext ancestor
  exact hr.declared_event? event ancestor

/-! ## Before and after -/

/-- A class that does not declare an event itself is passed over. -/
theorem declarer?_cons_of_none {classes : List String} {name : String}
    (h : r.event? event name = none) :
    r.declarer? event (name :: classes) = r.declarer? event classes :=
  List.find?_cons_of_neg (by simp [h])

/-- Both walks find an event exactly where a class that is reached declares it. -/
theorem Hierarchy.declarer?_none_iff (hr : r.Hierarchy) (hc : c ∈ r.contracts)
    (hown : r.event? event c.name = none) :
    (r.nearestDeclarer? event c.name).bind (r.event? event) = none ↔
      (r.firstDeclarer? event c.name).bind (r.event? event) = none := by
  rw [nearestDeclarer?, firstDeclarer?, bind_declarer?_eq_none, bind_declarer?_eq_none]
  have hmem {name : String} := hr.acyclic.mem_depthFirst hr.known (mem_keys_extensions hc)
    (x := name)
  constructor
  · intro h name hname
    rcases hmem.1 hname with rfl | hreach
    · exact hown
    · exact h name (hr.acyclic.mem_ancestors.2 hreach)
  · intro h name hname
    exact h name (hmem.2 (.inr (hr.acyclic.mem_ancestors.1 hname)))

/-- **When resolving a body and completing a contract mean one event.** In a hierarchy, for an event
that a class does not declare itself: completing succeeds; resolving finds the event of the nearest
declaring class, the finished contract has that of the first declaring branch, and one finds
nothing exactly where the other does not. So both mean one class exactly where nearest and first
are the same, as they are wherever no class above has two bases. -/
theorem event_lookups_agree_iff (hr : r.Hierarchy) (hc : c ∈ r.contracts)
    (hown : c.event? event = none) :
    (Inheritance.flatten r).2 = none ∧
      ∃ merged, (Inheritance.flatten r).1.get? c.name = some merged ∧
        (Resolve.inheritedEvents r.extensions r.declared c.name).get? event =
          (r.nearestDeclarer? event c.name).bind (r.event? event) ∧
        merged.event? event = (r.firstDeclarer? event c.name).bind (r.event? event) ∧
        ((Resolve.inheritedEvents r.extensions r.declared c.name).get? event = none ↔
          merged.event? event = none) ∧
        (r.Attributable →
          ((Resolve.inheritedEvents r.extensions r.declared c.name).get? event =
              merged.event? event ↔
            r.nearestDeclarer? event c.name = r.firstDeclarer? event c.name)) ∧
        ((∀ name, name = c.name ∨ r.extensions.Reaches c.name name →
            (r.extensions.successors name).length ≤ 1) →
          r.nearestDeclarer? event c.name = r.firstDeclarer? event c.name) := by
  obtain ⟨hok, merged, hmerged, hevents⟩ := Inheritance.flatten_spec hr hc
  have hownEvent : r.event? event c.name = none := by
    rw [Registry.event?, hr.get?_of_mem hc, Option.bind_some, hown]
  have hbefore := hr.inheritedEvents_get? event c.name
  have hafter : merged.event? event = (r.firstDeclarer? event c.name).bind (r.event? event) := by
    rw [hevents, findSome?_event?, firstDeclarer?]
  refine ⟨hok, merged, hmerged, hbefore, hafter, ?_, ?_, ?_⟩
  · rw [hbefore, hafter]
    exact hr.declarer?_none_iff hc hownEvent
  · intro hattributable
    rw [hbefore, hafter]
    exact hattributable.bind_declarer?_eq_iff
  · intro hchain
    rw [firstDeclarer?, hr.acyclic.depthFirst_eq_ancestors hr.known (mem_keys_extensions hc) hchain,
      declarer?_cons_of_none hownEvent, nearestDeclarer?]

/-- Events whose shapes have different names tell their class. -/
theorem attributable_of_shapes (h : ∀ c ∈ r.contracts, ∀ d ∈ r.contracts, ∀ e ∈ c.events,
    ∀ f ∈ d.events, e.shape.name = f.shape.name → c.name = d.name) : r.Attributable := by
  intro event a b e ha hb
  obtain ⟨c, hc, hce⟩ := Option.bind_eq_some_iff.1 ha
  obtain ⟨d, hd, hde⟩ := Option.bind_eq_some_iff.1 hb
  obtain ⟨hcmem, rfl⟩ := of_get?_eq_some hc
  obtain ⟨hdmem, rfl⟩ := of_get?_eq_some hd
  exact h c hcmem d hdmem e (List.mem_of_find?_eq_some hce) e (List.mem_of_find?_eq_some hde) rfl

/-- A wallet is a token and an account. -/
def wallet : Contract :=
  { name := "Wallet", bases := ["Token", "Account"] }

/-- The event when the amount is its first parameter. -/
def amountFirst : Event :=
  { name := "Sent", shape := ⟨"AmountFirst", [⟨"amount", .number⟩, ⟨"owner", .address none⟩]⟩ }

/-- The event when the owner is its first parameter. -/
def ownerFirst : Event :=
  { name := "Sent", shape := ⟨"OwnerFirst", [⟨"owner", .address none⟩, ⟨"amount", .number⟩]⟩ }

/-- The event is declared by the second base of the wallet, and two steps up by the base of the
first. -/
def forked : Registry :=
  { contracts :=
      [{ name := "Ledger", events := [amountFirst] }, { name := "Token", bases := ["Ledger"] },
        { name := "Account", events := [ownerFirst] }, wallet] }

theorem forked_hierarchy : forked.Hierarchy where
  distinct := by decide
  known := by decide
  acyclic := Graph.acyclic_of_descending
    (["Ledger", "Account", "Token", "Wallet"].idxOf ·) (by decide)

/-- The nearest class and the first branch part ways. -/
theorem forked_declarers : forked.nearestDeclarer? "Sent" "Wallet" = some "Account" ∧
    forked.firstDeclarer? "Sent" "Wallet" = some "Ledger" := by
  have hwalk : Resolve.ancestors forked.extensions "Wallet" = ["Token", "Account", "Ledger"] := by
    simp [Resolve.ancestors, Graph.reachable, Graph.successors, extensions, forked, wallet,
      List.lookup_cons]
  rw [nearestDeclarer?, hwalk]
  exact ⟨by decide, by decide⟩

/-- **A body of the wallet emits the event of the account, with its parameters in their order; the
finished wallet declares that of the ledger.** -/
theorem event_lookups_agree_iff_forked :
    forked.Hierarchy ∧ wallet ∈ forked.contracts ∧ wallet.event? "Sent" = none ∧
      (Inheritance.flatten forked).2 = none ∧
      ∃ merged, (Inheritance.flatten forked).1.get? "Wallet" = some merged ∧
        (Resolve.inheritedEvents forked.extensions forked.declared "Wallet").get? "Sent" =
          some ownerFirst ∧
        merged.event? "Sent" = some amountFirst ∧
        (Resolve.inheritedEvents forked.extensions forked.declared "Wallet").get? "Sent" ≠
          merged.event? "Sent" := by
  have hmem : wallet ∈ forked.contracts := by simp [forked]
  have hown : wallet.event? "Sent" = none := rfl
  obtain ⟨hnearest, hfirst⟩ := forked_declarers
  obtain ⟨hok, merged, hmerged, hbefore, hafter, -, hagree, -⟩ :=
    event_lookups_agree_iff forked_hierarchy hmem hown
  refine ⟨forked_hierarchy, hmem, hown, hok, merged, hmerged, ?_, ?_, fun heq => ?_⟩
  · exact hbefore.trans (by rw [wallet, hnearest]; rfl)
  · exact hafter.trans (by rw [wallet, hfirst]; rfl)
  · have hsame := (hagree (attributable_of_shapes (by decide))).1 heq
    rw [wallet, hnearest, hfirst] at hsame
    exact absurd hsame (by decide)

end Registry

end Covenant
