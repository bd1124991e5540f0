import Covenant.Proofs.Execution.OwnCalls
import Covenant.Proofs.Mutability.Classification

/-!
# Methods that only look

A method from which no chain of calls leads to a change writes nothing, and neither does any method
it calls. None of them calls itself, so that every call reaches fewer methods than the one it is
made in: the calls are nested no deeper than there are methods, and a run of the method ends with
the storage it began with (`view_methods_look`). That needs each method to have a name of its own,
as the calls of a name and the marks of its methods otherwise may be about different bodies
(`namesake_writes`).
-/

namespace Covenant

namespace Mutability

open Execution

variable {c : Contract}

/-- A contract that is accepted has its calls answered and its methods marked. -/
theorem analyze_accepted (hok : (analyze c).2 = none) :
    unanswered? c = none ∧ (classify c c.methods).2 = none ∧
      (analyze c).1 = { c with methods := c.methods.map (mark c) } := by
  unfold analyze at hok ⊢
  cases hcalls : unanswered? c with
  | some fault =>
    rw [hcalls] at hok
    cases hok
  | none =>
    rw [hcalls] at hok
    have hclassify : (classify c c.methods).2 = none := hok
    exact ⟨rfl, hclassify, by rw [← classify_fst hclassify]⟩

/-- The marked methods are the methods of the contract. -/
theorem exists_of_mem_analyze (hok : (analyze c).2 = none) {m : Routine}
    (hm : m ∈ (analyze c).1.methods) : ∃ own ∈ c.methods, m = mark c own := by
  rw [(analyze_accepted hok).2.2] at hm
  obtain ⟨own, hown, rfl⟩ := List.mem_map.1 hm
  exact ⟨own, hown, rfl⟩

/-- How many methods a method reaches. -/
def reached (c : Contract) (name : String) : Nat :=
  ((callGraph c).reachable [] ((callGraph c).successors name)).length

/-- A method is there, and no chain of calls leads from it to a change. -/
def OnlyLooks (c : Contract) (name : String) : Prop :=
  name ∈ c.methodNames ∧ ¬ c.ReachesChange name

/-- A call of a method that only looks is of such a method. -/
theorem OnlyLooks.calls (hok : (analyze c).2 = none) {name target : String}
    (h : OnlyLooks c name) (hcall : c.Calls name target) : OnlyLooks c target := by
  obtain ⟨m, hm, hname, hown⟩ := hcall
  refine ⟨unanswered?_eq_none.1 (analyze_accepted hok).1 m.body (.inr ⟨m, hm, rfl⟩) target hown, ?_⟩
  rintro ⟨last, hchain, hchanges⟩
  exact h.2 ⟨last, .head ⟨m, hm, hname, hown⟩ hchain, hchanges⟩

/-- A method that only looks does not call itself. -/
theorem OnlyLooks.not_callsItself (hnames : c.methodNames.Nodup) (hok : (analyze c).2 = none)
    {name : String} (h : OnlyLooks c name) : ¬ (callGraph c).Reaches name name := by
  obtain ⟨hname, hlooks⟩ := h
  obtain ⟨m, hm, rfl⟩ := List.mem_map.1 hname
  rw [← reachesChange_iff hnames, Bool.not_eq_true] at hlooks
  have hcycle := classify_snd_eq_none.1 (analyze_accepted hok).2.1 m hm hlooks
  rwa [← Graph.onCycle_iff, Bool.not_eq_true]

/-- **Methods that only look write nothing, and each call reaches fewer methods.** -/
theorem descends_analyze (hnames : c.methodNames.Nodup) (hok : (analyze c).2 = none) :
    Descends (analyze c).1 (OnlyLooks c) (reached c) where
  writes m hm hlooks hwrites := by
    obtain ⟨own, hown, rfl⟩ := exists_of_mem_analyze hok hm
    exact hlooks.2 ⟨own.name, .refl, own, hown, rfl, .inr hwrites⟩
  calls m hm hlooks target hcall := by
    obtain ⟨own, hown, rfl⟩ := exists_of_mem_analyze hok hm
    have hcall : c.Calls own.name target := ⟨own, hown, rfl, hcall⟩
    have htarget := OnlyLooks.calls hok hlooks hcall
    exact ⟨htarget, Graph.length_reachable_lt ((leads_callGraph hnames).2 hcall)
      (htarget.not_callsItself hnames hok)⟩

/-- A method that only looks reaches fewer methods than there are. -/
theorem OnlyLooks.reached_lt (hnames : c.methodNames.Nodup) (hok : (analyze c).2 = none)
    {name : String} (h : OnlyLooks c name) : reached c name < c.methods.length := by
  have hnodup : (name :: (callGraph c).reachable [] ((callGraph c).successors name)).Nodup :=
    List.nodup_cons.2 ⟨mt Graph.mem_reachable_successors.1 (h.not_callsItself hnames hok),
      Graph.reachable_nodup _ [] _⟩
  have hsubset : name :: (callGraph c).reachable [] ((callGraph c).successors name) ⊆
      c.methodNames := by
    intro x hx
    rcases List.mem_cons.1 hx with rfl | hx
    · exact h.1
    · -- the last call of the chain has a method
      have hreach := Graph.mem_reachable_successors.1 hx
      rw [Graph.Reaches, leads_callGraph_eq hnames] at hreach
      obtain ⟨caller, -, m, hm, -, hown⟩ := Relation.TransGen.tail'_iff.1 hreach
      exact unanswered?_eq_none.1 (analyze_accepted hok).1 m.body (.inr ⟨m, hm, rfl⟩) x hown
  have hle := hnodup.length_le_of_subset hsubset
  rwa [Contract.methodNames, List.length_map] at hle

/-- **A method that is marked as a view leaves the storage as it is, and its calls end.** Where each
method has a name of its own, other contracts stay outside and the contract is accepted, a run of
the method has one result from the depth on that makes room for one method within another, for all
methods there are; whatever a call nested any deeper would do does not matter. -/
theorem view_methods_look (hnames : c.methodNames.Nodup) (hok : (analyze c).2 = none) {m : Routine}
    (hm : m ∈ (analyze c).1.methods) (hview : m.mutability = .view) {w : World}
    (hw : w.StaysOutside) (args : List Word) (s : Store) :
    ∃ result, (∀ beyond depth, c.methods.length ≤ depth + 1 →
        runMethod (analyze c).1 w beyond depth m args s = result) ∧
      s.SameStorage result.state.store := by
  obtain ⟨own, hown, rfl⟩ := exists_of_mem_analyze hok hm
  have hlooks : OnlyLooks c own.name := by
    refine ⟨List.mem_map_of_mem hown, ?_⟩
    rw [← reachesChange_iff hnames]
    intro hchange
    simp [mark, hchange] at hview
  obtain ⟨result, hresult, hsame⟩ :=
    runMethod_quiet hw (descends_analyze hnames hok) hm hlooks args s
  have hdepth := hlooks.reached_lt hnames hok
  have hname : reached c (mark c own).name = reached c own.name := rfl
  exact ⟨result, fun beyond depth h => hresult beyond depth (by omega), hsame⟩

/-- A storage in which every property holds a seven. -/
def sevens : Store :=
  { properties := fun _ => 7, entries := fun _ _ => 0, lengths := fun _ => 0 }

theorem quietWorld_staysOutside (self : Word) : (quietWorld self).StaysOutside :=
  ⟨fun _ _ s _ => .refl s, fun _ _ s => .refl s⟩

/-- **`look` of the counter** calls `peek`, and gives what is stored. -/
theorem view_methods_look_counter :
    counter.methodNames.Nodup ∧ (analyze counter).2 = none ∧ (quietWorld 0).StaysOutside ∧
      ∃ m ∈ (analyze counter).1.methods, m.name = "look" ∧ m.mutability = .view ∧
        ∃ result, (∀ beyond depth, 5 ≤ depth + 1 →
            runMethod (analyze counter).1 (quietWorld 0) beyond depth m [] sevens = result) ∧
          sevens.SameStorage result.state.store ∧ result.outcome = .ok (.left (some (.word 7))) := by
  have hnames : counter.methodNames.Nodup := by decide
  have hok : (analyze counter).2 = none := by
    have h : (analyze counter).2.isNone = true := by decide +kernel
    exact Option.isNone_iff_eq_none.1 h
  have hlook : mark counter counter.methods[4] ∈ (analyze counter).1.methods := by
    rw [(analyze_accepted hok).2.2]
    exact List.mem_map_of_mem (List.getElem_mem _)
  have hview : (mark counter counter.methods[4]).mutability = .view := by decide +kernel
  have hworld := quietWorld_staysOutside 0
  obtain ⟨result, hresult, hsame⟩ := view_methods_look hnames hok hlook hview hworld [] sevens
  refine ⟨hnames, hok, hworld, _, hlook, rfl, hview, result, hresult, hsame, ?_⟩
  rw [← hresult (fun _ _ s => (.error .reverted, s)) 4 (Nat.le_refl 5), (analyze_accepted hok).2.2]
  rfl

/-- Two methods of one name, of which only the first one writes. -/
def namesakes : Contract :=
  { name := "Namesakes"
    stateVars := [{ name := "count", type := .number }]
    methods :=
      [{ name := "take", returns := .number
         body := [.setProperty {} "count" (.literal {} .number "1"),
           .exit {} (some (.storage {} "count"))] },
        { name := "take", returns := .number, body := [.exit {} (some (.storage {} "count"))] }] }

/-- **Where two methods have one name, a view can write**: both are marked for what the second one
does. -/
theorem namesake_writes :
    (analyze namesakes).2 = none ∧ (quietWorld 0).StaysOutside ∧
      ∃ m ∈ (analyze namesakes).1.methods, m.mutability = .view ∧ ∀ beyond depth,
        ¬ sevens.SameStorage
          (runMethod (analyze namesakes).1 (quietWorld 0) beyond depth m [] sevens).state.store := by
  have hok : (analyze namesakes).2 = none := by
    have h : (analyze namesakes).2.isNone = true := by decide +kernel
    exact Option.isNone_iff_eq_none.1 h
  have htake : mark namesakes namesakes.methods[0] ∈ (analyze namesakes).1.methods := by
    rw [(analyze_accepted hok).2.2]
    exact List.mem_map_of_mem (List.getElem_mem _)
  have hview : (mark namesakes namesakes.methods[0]).mutability = .view := by decide +kernel
  refine ⟨hok, quietWorld_staysOutside 0, _, htake, hview, fun beyond depth hsame => ?_⟩
  have hcount : (runMethod (analyze namesakes).1 (quietWorld 0) beyond depth
      (mark namesakes namesakes.methods[0]) [] sevens).state.store.properties "count" = 1 := rfl
  rw [hsame.properties] at hcount
  exact absurd hcount (by decide)

end Mutability

end Covenant
