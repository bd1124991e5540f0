import Covenant.Proofs.Computations
import Covenant.Proofs.Execution.Locals
import Covenant.Proofs.Inheritance.Walks
import Covenant.Proofs.Keys
import Covenant.Proofs.Mutability.Calls
import Mathlib.Logic.Relation

/-!
# Which methods change the state

Whether a method changes the state is a matter of chains of calls on the contract itself: it does
exactly where a chain leads from it to a method that returns nothing or writes a property. The walk
through the graph of calls finds that out (`reachesChange_iff`), and the contract is refused exactly
where a call has no method or a method that only looks at the state calls itself, directly or not
(`mutability_is_reachability`).
-/

namespace Covenant

namespace Contract

/-- A body of a contract: that of its constructor, or that of a method. -/
def HasBody (c : Contract) (body : List Stmt) : Prop :=
  body = c.constructorBody ∨ ∃ m ∈ c.methods, body = m.body

/-- A method of one name calls a method of another name on the contract itself. -/
def Calls (c : Contract) (caller target : String) : Prop :=
  ∃ m ∈ c.methods, m.name = caller ∧ Stmt.CallsOwn m.body target

/-- A method of the name changes the state by itself: it returns nothing, or writes a property. -/
def Changes (c : Contract) (name : String) : Prop :=
  ∃ m ∈ c.methods, m.name = name ∧ (m.returns.isVoid = true ∨ Stmt.Writes m.body)

/-- **A chain of calls leads to a method that changes the state.** The chain may be empty. -/
def ReachesChange (c : Contract) (name : String) : Prop :=
  ∃ target, Relation.ReflTransGen c.Calls name target ∧ c.Changes target

/-- **A method calls itself**, directly or by way of others. -/
def CallsItself (c : Contract) (name : String) : Prop :=
  Relation.TransGen c.Calls name name

end Contract

namespace Mutability

variable {c : Contract}

/-! ## The graph of calls -/

theorem keys_callGraph (c : Contract) : (callGraph c).map Prod.fst = c.methodNames.reverse := by
  simp [callGraph, Contract.methodNames, Function.comp_def]

/-- Where all methods have names of their own, the graph leads from a method to those it calls. -/
theorem leads_callGraph (hnames : c.methodNames.Nodup) {a b : String} :
    (callGraph c).Leads a b ↔ c.Calls a b := by
  constructor
  · intro h
    obtain ⟨entry, hentry, rfl, hb⟩ := Graph.exists_entry_of_leads h
    obtain ⟨m, hm, rfl⟩ := List.mem_map.1 hentry
    exact ⟨m, List.mem_reverse.1 hm, rfl, mem_internalCalls.1 hb⟩
  · rintro ⟨m, hm, rfl, hcall⟩
    have hkeys : ((callGraph c).map Prod.fst).Nodup := by
      rwa [keys_callGraph, List.nodup_reverse]
    have hentry : (m.name, (internalCalls m.body).map Prod.snd) ∈ callGraph c :=
      List.mem_map.2 ⟨m, List.mem_reverse.2 hm, rfl⟩
    have hlookup : (callGraph c).lookup m.name = some ((internalCalls m.body).map Prod.snd) :=
      Table.get?_of_mem hkeys hentry
    rw [Graph.Leads, Graph.successors, hlookup, Option.getD_some]
    exact mem_internalCalls.2 hcall

/-- The graph leads from a method to those it calls, and reaches those that a chain of calls
reaches. -/
theorem leads_callGraph_eq (hnames : c.methodNames.Nodup) : (callGraph c).Leads = c.Calls :=
  funext fun _ => funext fun _ => propext (leads_callGraph hnames)

theorem changesState_iff {m : Routine} :
    changesState m = true ↔ m.returns.isVoid = true ∨ Stmt.Writes m.body := by
  rw [changesState, Bool.or_eq_true, any_mutates_effectsOf]

theorem changesStateByName_iff (hnames : c.methodNames.Nodup) {name : String} :
    changesStateByName c name = true ↔ c.Changes name := by
  have hfound {m : Routine} : c.methods.reverse.find? (·.name = name) = some m ↔
      m ∈ c.methods ∧ m.name = name := by
    rw [find?_key_iff (by rwa [List.map_reverse, List.nodup_reverse]), List.mem_reverse]
  rw [changesStateByName, Contract.Changes]
  constructor
  · intro h
    cases hfind : c.methods.reverse.find? (·.name = name) with
    | none => simp [hfind] at h
    | some m =>
      obtain ⟨hm, hname⟩ := hfound.1 hfind
      rw [hfind, Option.map_some, Option.getD_some] at h
      exact ⟨m, hm, hname, changesState_iff.1 h⟩
  · rintro ⟨m, hm, hname, hchanges⟩
    rw [hfound.2 ⟨hm, hname⟩, Option.map_some, Option.getD_some]
    exact changesState_iff.2 hchanges

/-- **The walk finds a change exactly where a chain of calls leads to one.** -/
theorem reachesChange_iff (hnames : c.methodNames.Nodup) {name : String} :
    reachesChange c name = true ↔ c.ReachesChange name := by
  have hvisited {target : String} : target ∈ (callGraph c).reachable [] [name] ↔
      Relation.ReflTransGen c.Calls name target := by
    rw [Graph.mem_reachable, Relation.reflTransGen_iff_eq_or_transGen, Graph.Reaches,
      leads_callGraph_eq hnames]
    simp
  rw [reachesChange, List.any_eq_true]
  constructor
  · rintro ⟨target, htarget, hchanges⟩
    exact ⟨target, hvisited.1 htarget, (changesStateByName_iff hnames).1 hchanges⟩
  · rintro ⟨target, htarget, hchanges⟩
    exact ⟨target, hvisited.2 htarget, (changesStateByName_iff hnames).2 hchanges⟩

theorem onCycle_callGraph (hnames : c.methodNames.Nodup) {name : String} :
    (callGraph c).onCycle name = true ↔ c.CallsItself name := by
  rw [Graph.onCycle_iff, Graph.Reaches, leads_callGraph_eq hnames, Contract.CallsItself]

/-! ## One method after another -/

/-- A method with its mark. -/
def mark (c : Contract) (m : Routine) : Routine :=
  { m with mutability := if reachesChange c m.name then .payable else .view }

/-- All methods are marked exactly where none is refused. -/
theorem classify_snd_eq_none {methods : List Routine} :
    (classify c methods).2 = none ↔
      ∀ m ∈ methods, reachesChange c m.name = false → (callGraph c).onCycle m.name = false := by
  induction methods with
  | nil => simp [classify]
  | cons m rest ih =>
    rw [classify, List.forall_mem_cons, ← ih]
    by_cases hchange : reachesChange c m.name = true
    · simp [hchange]
    · by_cases hcycle : (callGraph c).onCycle m.name = true
      · simp [hchange, hcycle]
      · simp [hchange, hcycle]

theorem classify_fst {methods : List Routine} (h : (classify c methods).2 = none) :
    (classify c methods).1 = methods.map (mark c) := by
  induction methods with
  | nil => rfl
  | cons m rest ih =>
    have hcycle := List.forall_mem_cons.1 (classify_snd_eq_none.1 h)
    have hrest := ih (classify_snd_eq_none.2 hcycle.2)
    rw [classify, List.map_cons, ← hrest]
    by_cases hchange : reachesChange c m.name = true
    · simp [mark, hchange]
    · simp [mark, hchange, hcycle.1 (by simpa using hchange)]

/-- Every call is answered exactly where each has a method of its name. -/
theorem unanswered?_eq_none :
    unanswered? c = none ↔
      ∀ body, c.HasBody body → ∀ target, Stmt.CallsOwn body target → target ∈ c.methodNames := by
  have hmethod {target : String} : c.method? target = none ↔ target ∉ c.methodNames := by
    simp [Contract.method?, Contract.methodNames]
  have hbody {body : List Stmt} : unansweredCall? c body = none ↔
      ∀ target, Stmt.CallsOwn body target → target ∈ c.methodNames := by
    rw [unansweredCall?, Option.map_eq_none_iff, List.find?_eq_none]
    constructor
    · intro h target hcall
      obtain ⟨call, hmem, rfl⟩ := List.mem_map.1 (mem_internalCalls.2 hcall)
      have hfound : c.method? call.2 ≠ none := by simpa using h call hmem
      exact Decidable.not_not.1 fun hnone => hfound (hmethod.2 hnone)
    · intro h call hmem
      have hcall := h call.2 (mem_internalCalls.1 (List.mem_map_of_mem hmem))
      have hfound : c.method? call.2 ≠ none := fun hnone => hmethod.1 hnone hcall
      simpa using hfound
  have hbodies {body : List Stmt} :
      body ∈ c.constructorBody :: c.methods.map Routine.body ↔ c.HasBody body := by
    simp [Contract.HasBody, eq_comm]
  rw [unanswered?, List.findSome?_eq_none_iff]
  simp only [hbodies, hbody]

/-- **What a method does to the state is reachability.** Where all methods of a contract have names
of their own: the contract is accepted exactly where every call on it, in the constructor or in a
method, is answered by a method, and no method from which no change can be reached calls itself.
Then nothing but the marks of its methods is new, and a method is marked as changing the state
exactly where a chain of calls leads from it to a change, and as looking at it in all other
cases. -/
theorem mutability_is_reachability (hnames : c.methodNames.Nodup) :
    ((analyze c).2 = none ↔
      (∀ body, c.HasBody body → ∀ target, Stmt.CallsOwn body target → target ∈ c.methodNames) ∧
        ∀ m ∈ c.methods, ¬ c.ReachesChange m.name → ¬ c.CallsItself m.name) ∧
    ((analyze c).2 = none →
      ∃ marked, (analyze c).1 = { c with methods := marked } ∧
        List.Forall₂ (fun m m' => m' = { m with mutability := m'.mutability } ∧
          (m'.mutability = .payable ↔ c.ReachesChange m.name) ∧
          (m'.mutability = .view ↔ ¬ c.ReachesChange m.name)) c.methods marked) := by
  have haccepted : (classify c c.methods).2 = none ↔
      ∀ m ∈ c.methods, ¬ c.ReachesChange m.name → ¬ c.CallsItself m.name := by
    rw [classify_snd_eq_none]
    refine forall_congr' fun m => forall_congr' fun _ => ?_
    rw [← reachesChange_iff hnames, ← onCycle_callGraph hnames, Bool.not_eq_true, Bool.not_eq_true]
  cases hcalls : unanswered? c with
  | some fault =>
    have hrefused : (analyze c).2 = some fault := by rw [analyze, hcalls]
    have hunanswered : ¬ ∀ body, c.HasBody body → ∀ target, Stmt.CallsOwn body target →
        target ∈ c.methodNames := by
      rw [← unanswered?_eq_none, hcalls]
      exact fun h => nomatch h
    rw [hrefused]
    exact ⟨⟨fun h => (nomatch h), fun h => absurd h.1 hunanswered⟩, fun h => (nomatch h)⟩
  | none =>
    have hanalyze : analyze c =
        ({ c with methods := (classify c c.methods).1 }, (classify c c.methods).2) := by
      rw [analyze, hcalls]
    rw [hanalyze]
    refine ⟨?_, fun hok => ⟨(classify c c.methods).1, rfl, ?_⟩⟩
    · rw [haccepted]
      exact ⟨fun h => ⟨unanswered?_eq_none.1 hcalls, h⟩, And.right⟩
    · rw [classify_fst hok, List.forall₂_map_right_iff, List.forall₂_same]
      intro m _
      rw [mark, ← reachesChange_iff hnames]
      cases reachesChange c m.name <;> simp

/-- A counter. The way from `raise` to the change is an operand within a branch, and `raise` calls
itself as well; `look` and what it calls only read. -/
def counter : Contract :=
  { name := "Counter"
    construction := some { body := [.evaluate {} (.call {} "reset" (.this {}) [])] }
    stateVars := [{ name := "count", type := .number }]
    methods :=
      [{ name := "reset", returns := .void },
        { name := "step", returns := .number
          body := [.setProperty {} "count" (.literal {} .number "1"),
            .exit {} (some (.storage {} "count"))] },
        { name := "raise", returns := .number, params := [⟨"once", .boolean⟩]
          body := [.branch {} (.var {} "once")
              [.exit {} (some (.binary {} .add (.literal {} .number "1")
                (.call {} "step" (.this {}) [])))] [],
            .exit {} (some (.call {} "raise" (.this {}) [.var {} "once"]))] },
        { name := "peek", returns := .number, body := [.exit {} (some (.storage {} "count"))] },
        { name := "look", returns := .number
          body := [.exit {} (some (.call {} "peek" (.this {}) []))] }] }

/-- **The counter is accepted.** A change can be reached from `raise`, which is why it may call
itself; none can be reached from `look`, and so it never calls itself. -/
theorem mutability_is_reachability_counter :
    counter.methodNames.Nodup ∧ (analyze counter).2 = none ∧
      (analyze counter).1.methods.map Routine.mutability =
        [.payable, .payable, .payable, .view, .view] ∧
      counter.ReachesChange "raise" ∧ ¬ counter.ReachesChange "look" ∧
      ¬ counter.CallsItself "look" := by
  have hnames : counter.methodNames.Nodup := by decide
  have hok : (analyze counter).2 = none := by
    have h : (analyze counter).2.isNone = true := by decide +kernel
    exact Option.isNone_iff_eq_none.1 h
  have hmarks : (analyze counter).1.methods.map Routine.mutability =
      [.payable, .payable, .payable, .view, .view] := by
    decide +kernel
  obtain ⟨haccepted, hmarked⟩ := mutability_is_reachability hnames
  obtain ⟨marked, hcontract, hall⟩ := hmarked hok
  have hmethods : marked.map Routine.mutability =
      [.payable, .payable, .payable, .view, .view] := by
    rw [← hmarks, hcontract]
  obtain _ | ⟨-, _ | ⟨-, _ | ⟨hraise, _ | ⟨-, _ | ⟨hlook, _⟩⟩⟩⟩⟩ := hall
  simp only [List.map_cons, List.cons.injEq] at hmethods
  obtain ⟨-, -, hpayable, -, hview, -⟩ := hmethods
  have hreads : ¬ counter.ReachesChange "look" := hlook.2.2.1 hview
  refine ⟨hnames, hok, hmarks, hraise.2.1.1 hpayable, hreads, ?_⟩
  exact (haccepted.1 hok).2 _ (List.mem_of_getLast? rfl) hreads

end Mutability

end Covenant
