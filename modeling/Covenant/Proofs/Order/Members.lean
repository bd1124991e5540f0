import Covenant.Build.Basic
import Covenant.Proofs.Build.Analysis
import Covenant.Proofs.Order.Scopes
import Mathlib.Data.List.Sort
import Mathlib.Data.String.Basic

/-!
# Finishing contracts whose order and locals differ

One registry is another one without the names of locals where each name has the same contract in
both, but for those names (`Registry.Nameless`); the order of the contracts does not count. Such
registries are completed alike, contract by contract, with the same fault if there is one
(`flatten_nameless`), and their methods are found to do the same (`analyzed_nameless`).
-/

namespace Covenant

namespace Contract

variable (c : Contract)

/-- A method is found by its name, which stays. -/
theorem method?_nameless (name : String) :
    c.nameless.method? name = (c.method? name).map Routine.nameless := by
  rw [method?, method?, nameless, List.find?_map]
  rfl

theorem stateVar?_nameless (name : String) :
    c.nameless.stateVar? name = (c.stateVar? name).map StateVar.nameless := by
  rw [stateVar?, stateVar?, nameless, List.find?_map]
  rfl

theorem constructorBody_nameless :
    c.nameless.constructorBody = c.constructorBody.map Stmt.nameless := by
  rw [constructorBody, constructorBody, nameless]
  cases c.construction <;> rfl

theorem constructorParams_nameless : c.nameless.constructorParams = c.constructorParams := by
  rw [constructorParams, constructorParams, nameless]
  cases c.construction <;> rfl

/-- The methods keep their names and their order. -/
theorem methodNames_nameless : c.nameless.methodNames = c.methodNames := by
  simp [methodNames, nameless, Function.comp_def, Routine.nameless]

end Contract

/-! ## Registries -/

/-- Names in another order are the same in ascending order. -/
theorem sortedNames_of_perm {names names' : List String} (h : names.Perm names') :
    sortedNames names = sortedNames names' := by
  have hsorted (names : List String) : (names.mergeSort (· ≤ ·)).Pairwise (· ≤ ·) := by
    simpa using @List.pairwise_mergeSort String (fun a b => decide (a ≤ b))
      (fun a b c => by simpa using le_trans) (fun a b => by simpa using le_total a b) names
  have hperm := (List.mergeSort_perm names (· ≤ ·)).trans
    (h.trans (List.mergeSort_perm names' (· ≤ ·)).symm)
  rw [sortedNames, sortedNames, hperm.eq_of_pairwise' (hsorted names) (hsorted names')]

namespace Registry

variable {r b : Registry}

/-- **A registry is another one without the names of locals**, in whatever order. -/
structure Nameless (r b : Registry) : Prop where
  keys : (b.contracts.map Contract.name).Perm (r.contracts.map Contract.name)
  get? : ∀ name, b.get? name = (r.get? name).map Contract.nameless

/-- Both registries list the same names, in ascending order. -/
theorem Nameless.names (h : Nameless r b) : b.names = r.names :=
  sortedNames_of_perm h.keys

theorem Nameless.length (h : Nameless r b) : b.contracts.length = r.contracts.length := by
  simpa using h.keys.length_eq

/-- A contract of one registry is in the other, without the names of its locals. -/
theorem Nameless.get?_nameless (h : Nameless r b) {c : Contract}
    (hc : r.get? c.name = some c) : b.get? c.nameless.name = some c.nameless := by
  rw [h.get?, show c.nameless.name = c.name from rfl, hc]
  rfl

/-- What is found where a contract was put: nothing if there was none of the name. -/
theorem get?_put (r : Registry) (c : Contract) (name : String) :
    (r.put c).get? name = if name = c.name then (r.get? name).map fun _ => c else r.get? name := by
  split
  · rename_i hname
    subst hname
    cases hget : r.get? c.name with
    | some d => exact get?_put_self (by rw [hget]; rfl)
    | none =>
      cases hput : (r.put c).get? c.name with
      | none => rfl
      | some d =>
        obtain ⟨hmem, hname⟩ := of_get?_eq_some hput
        have hkey := List.mem_map_of_mem (f := Contract.name) hmem
        rw [names_put, hname, ← keys_extensions] at hkey
        obtain ⟨e, he⟩ := exists_get? hkey
        rw [hget] at he
        cases he
  · exact get?_put_of_ne ‹_›

/-- A contract may be put into both. -/
theorem Nameless.put (h : Nameless r b) (c : Contract) : Nameless (r.put c) (b.put c.nameless) := by
  refine ⟨by rw [names_put, names_put]; exact h.keys, fun name => ?_⟩
  rw [get?_put, get?_put, h.get? name]
  change (if name = c.name then _ else _) = _
  split
  · cases r.get? name <;> rfl
  · rfl

end Registry

/-! ## Inheritance -/

namespace Inheritance

/-- A member is declared under its name in both contracts or in neither. -/
theorem hasMember_nameless (c : Contract) (name : String) :
    hasMember c.nameless name = hasMember c name := by
  rw [hasMember, hasMember, c.stateVar?_nameless, c.method?_nameless, Option.isSome_map,
    Option.isSome_map]

theorem inheritEvents_nameless (c : Contract) (events : List Event) :
    (inheritEvents c events).nameless = inheritEvents c.nameless events := by
  rw [inheritEvents, inheritEvents]
  induction events generalizing c with
  | nil => rfl
  | cons e rest ih =>
    rw [List.foldl_cons, List.foldl_cons, ih, apply_ite Contract.nameless]
    rfl

theorem inheritVariables_nameless (c : Contract) (stateVars : List StateVar) :
    (inheritVariables c stateVars).nameless =
      inheritVariables c.nameless (stateVars.map StateVar.nameless) := by
  rw [inheritVariables, inheritVariables]
  induction stateVars generalizing c with
  | nil => rfl
  | cons v rest ih =>
    have hmember : hasMember c.nameless v.nameless.name = hasMember c v.name :=
      hasMember_nameless c v.name
    rw [List.map_cons, List.foldl_cons, List.foldl_cons, ih, hmember]
    by_cases h : hasMember c v.name <;> simp [h, Contract.nameless]

/-- The same methods are inherited, with their bodies. -/
theorem inheritMethods_nameless (c : Contract) (methods : List Routine) :
    (inheritMethods c methods).nameless =
      inheritMethods c.nameless (methods.map Routine.nameless) := by
  rw [inheritMethods, inheritMethods]
  induction methods generalizing c with
  | nil => rfl
  | cons m rest ih =>
    have hmember : hasMember c.nameless m.nameless.name = hasMember c m.name :=
      hasMember_nameless c m.name
    rw [List.map_cons, List.foldl_cons, List.foldl_cons, ih, hmember]
    by_cases h : hasMember c m.name <;> simp [h, Contract.nameless, Routine.nameless]

/-- **A contract inherits the same members** from a base. -/
theorem inherit_nameless (c base : Contract) :
    (inherit c base).nameless = inherit c.nameless base.nameless := by
  rw [inherit, inheritMethods_nameless, inheritVariables_nameless, inheritEvents_nameless]
  rfl

/-- It does so from one base after the other. -/
theorem foldl_inherit_nameless (c : Contract) (bases : List Contract) :
    (bases.foldl inherit c).nameless = (bases.map Contract.nameless).foldl inherit c.nameless := by
  induction bases generalizing c with
  | nil => rfl
  | cons base rest ih => rw [List.map_cons, List.foldl_cons, List.foldl_cons, ih, inherit_nameless]

/-- The work got as far in a registry without the names of locals. -/
structure Progress.Nameless (p q : Progress) : Prop where
  registry : p.registry.Nameless q.registry
  complete : q.complete = p.complete

/-- Two states of the work, and the same fault if there is one. -/
def SameEnd (r s : Progress × Option Fault) : Prop :=
  r.1.Nameless s.1 ∧ s.2 = r.2

variable {p q : Progress}

/-- Steps that end alike are repeated alike, up to the first fault. -/
theorem untilFailure_nameless {step step' : String → Progress → Progress × Option Fault}
    (hstep : ∀ name p q, Progress.Nameless p q → SameEnd (step name p) (step' name q))
    (names : List String) (h : p.Nameless q) :
    SameEnd (untilFailure step names p) (untilFailure step' names q) := by
  induction names generalizing p q with
  | nil => exact ⟨h, rfl⟩
  | cons name rest ih =>
    have hfirst := hstep name p q h
    rw [untilFailure, untilFailure]
    generalize step name p = r, step' name q = s at hfirst
    obtain ⟨p, fault⟩ := r
    obtain ⟨q, fault'⟩ := s
    obtain ⟨hstate, hfault⟩ := hfirst
    cases hfault
    cases fault with
    | none => exact ih hstate
    | some fault => exact ⟨hstate, rfl⟩

/-- A contract whose bases are complete is completed alike. -/
theorem merge_nameless (h : p.Nameless q) (c : Contract) :
    (merge p c).Nameless (merge q c.nameless) := by
  have hbases : c.bases.filterMap q.registry.get? =
      (c.bases.filterMap p.registry.get?).map Contract.nameless := by
    rw [List.map_filterMap]
    exact List.filterMap_congr fun name _ => h.registry.get? name
  refine ⟨?_, congrArg (c.name :: ·) h.complete⟩
  have hput := h.registry.put ((c.bases.filterMap p.registry.get?).foldl inherit c)
  rwa [foldl_inherit_nameless, ← hbases] at hput

/-- Completes a contract whose bases are complete, unless one of them failed. -/
def afterBases (c : Contract) : Progress × Option Fault → Progress × Option Fault
  | (p, none) => (merge p c, none)
  | (p, some fault) => (p, some fault)

/-- **One level of the completion**: done already, on the path already, or done after the bases. -/
theorem complete_succ (depth : Nat) (path : List String) (c : Contract) (p : Progress) :
    complete (depth + 1) path c p =
      if p.complete.contains c.name then (p, none)
      else if path.contains c.name then
        (p, some (.malformed c.pos (.extensionCycle c.name (path ++ [c.name]))))
      else afterBases c (untilFailure (completeBase depth path c) c.bases p) :=
  rfl

/-- **A contract is completed alike** whatever the names of locals. -/
theorem complete_nameless (depth : Nat) (path : List String) (c : Contract) (h : p.Nameless q) :
    SameEnd (complete depth path c p) (complete depth path c.nameless q) := by
  induction depth generalizing path c p q with
  | zero => exact ⟨h, rfl⟩
  | succ depth ih =>
    have hbases : SameEnd (untilFailure (completeBase depth path c) c.bases p)
        (untilFailure (completeBase depth path c.nameless) c.bases q) := by
      refine untilFailure_nameless (fun name p q h => ?_) c.bases h
      rw [completeBase, completeBase, h.registry.get? name]
      cases p.registry.get? name with
      | none => exact ⟨h, by rw [Option.map_none, h.registry.names]; rfl⟩
      | some base => exact ih _ _ h
    rw [complete_succ, complete_succ, h.complete]
    change SameEnd _ (if p.complete.contains c.name then _ else if path.contains c.name then _
      else afterBases c.nameless (untilFailure (completeBase depth path c.nameless) c.bases q))
    split
    · exact ⟨h, rfl⟩
    split
    · exact ⟨h, rfl⟩
    generalize untilFailure (completeBase depth path c) c.bases p = r,
      untilFailure (completeBase depth path c.nameless) c.bases q = s at hbases
    obtain ⟨p, fault⟩ := r
    obtain ⟨q, fault'⟩ := s
    obtain ⟨hstate, hfault⟩ := hbases
    cases hfault
    cases fault with
    | none => exact ⟨merge_nameless hstate c, rfl⟩
    | some fault => exact ⟨hstate, rfl⟩

/-- **Completing all contracts** takes two registries that differ in the names of locals to two such
ones, or fails for the same fault. -/
theorem flatten_nameless {r b : Registry} (h : r.Nameless b) :
    (flatten r).1.Nameless (flatten b).1 ∧ (flatten b).2 = (flatten r).2 := by
  have hstart : Progress.Nameless { registry := r } { registry := b } := ⟨h, rfl⟩
  have hall : SameEnd (untilFailure (completeNamed r) r.names { registry := r })
      (untilFailure (completeNamed b) r.names { registry := b }) := by
    refine untilFailure_nameless (fun name p q h' => ?_) r.names hstart
    rw [completeNamed, completeNamed, h'.registry.get? name, h.length]
    cases p.registry.get? name with
    | none => exact ⟨h', rfl⟩
    | some c => exact complete_nameless _ _ c h'
  rw [flatten_eq, flatten_eq, h.names]
  exact ⟨hall.1.registry, hall.2⟩

end Inheritance

/-! ## What methods do -/

namespace Mutability

theorem internalCalls_nameless (body : List Stmt) :
    internalCalls (body.map Stmt.nameless) = internalCalls body := by
  rw [internalCalls, internalCalls, Stmt.effectsOf_nameless]

theorem unansweredCall?_nameless (c : Contract) (body : List Stmt) :
    unansweredCall? c.nameless (body.map Stmt.nameless) = unansweredCall? c body := by
  simp only [unansweredCall?, internalCalls_nameless, c.method?_nameless, Option.isNone_map,
    c.methodNames_nameless]

/-- The first call of a method that is not there is the same. -/
theorem unanswered?_nameless (c : Contract) : unanswered? c.nameless = unanswered? c := by
  have hbodies : c.nameless.constructorBody :: c.nameless.methods.map Routine.body =
      (c.constructorBody :: c.methods.map Routine.body).map (List.map Stmt.nameless) := by
    rw [c.constructorBody_nameless]
    simp [Contract.nameless, Routine.nameless]
  rw [unanswered?, unanswered?, hbodies, List.findSome?_map]
  exact congrArg (List.findSome? · _) (funext (unansweredCall?_nameless c))

/-- The methods call each other alike. -/
theorem callGraph_nameless (c : Contract) : callGraph c.nameless = callGraph c := by
  simp [callGraph, Contract.nameless, Routine.nameless, ← List.map_reverse, internalCalls_nameless]

theorem changesState_nameless (m : Routine) : changesState m.nameless = changesState m := by
  simp [changesState, Routine.nameless]

/-- A change of the state is reached from the same methods. -/
theorem reachesChange_nameless (c : Contract) (name : String) :
    reachesChange c.nameless name = reachesChange c name := by
  have hbyName : changesStateByName c.nameless = changesStateByName c := by
    funext name
    have hfind : c.nameless.methods.reverse.find? (·.name = name) =
        (c.methods.reverse.find? (·.name = name)).map Routine.nameless := by
      rw [Contract.nameless, ← List.map_reverse, List.find?_map]
      rfl
    rw [changesStateByName, changesStateByName, hfind, Option.map_map]
    exact congrArg (fun f => (Option.map f _).getD false) (funext changesState_nameless)
  rw [reachesChange, reachesChange, callGraph_nameless, hbyName]

/-- The methods change the state, or read it, alike. -/
theorem classify_nameless (c : Contract) (methods : List Routine) :
    classify c.nameless (methods.map Routine.nameless) =
      ((classify c methods).1.map Routine.nameless, (classify c methods).2) := by
  induction methods with
  | nil => rfl
  | cons m rest ih =>
    have hreaches : reachesChange c.nameless m.nameless.name = reachesChange c m.name :=
      reachesChange_nameless c m.name
    rw [List.map_cons, classify, classify, ih, callGraph_nameless, hreaches]
    change (if _ then _ else if (callGraph c).onCycle m.name then _ else _) = _
    split
    · rfl
    · split <;> rfl

theorem analyze_nameless (c : Contract) :
    analyze c.nameless = ((analyze c).1.nameless, (analyze c).2) := by
  have hmethods : c.nameless.methods = c.methods.map Routine.nameless := rfl
  rw [analyze, analyze, unanswered?_nameless, hmethods, classify_nameless]
  cases unanswered? c <;> rfl

end Mutability

namespace Build

/-- **All contracts of a build are analyzed alike**, in ascending order of their names. -/
theorem analyzeAll_nameless {r b : Registry} (h : r.Nameless b) (names : List String) :
    Paired Registry.Nameless (analyzeAll r names) (analyzeAll b names) := by
  induction names generalizing r b with
  | nil => exact h
  | cons name rest ih =>
    rw [analyzeAll, analyzeAll, h.get? name]
    cases r.get? name with
    | none => exact ih h
    | some c =>
      have horFail : Paired (fun c c' => c' = c.nameless) (orFail (Mutability.analyze c))
          (orFail (Mutability.analyze c.nameless)) := by
        rw [Mutability.analyze_nameless]
        obtain ⟨c, _ | fault⟩ := Mutability.analyze c
        · exact rfl
        · exact trivial
      refine horFail.bind ?_
      rintro c _ rfl
      exact ih (h.put c)

/-- **Finishing contracts** takes two registries that differ in the names of locals to two such
ones, or fails for both. -/
theorem analyzed_nameless {r b : Registry} (h : r.Nameless b) :
    Paired Registry.Nameless (analyzed r) (analyzed b) := by
  obtain ⟨hcompleted, hfault⟩ := Inheritance.flatten_nameless h
  have horFail : Paired Registry.Nameless (orFail (Inheritance.flatten r))
      (orFail (Inheritance.flatten b)) := by
    generalize Inheritance.flatten r = r, Inheritance.flatten b = b at hcompleted hfault
    obtain ⟨r, fault⟩ := r
    obtain ⟨b, _⟩ := b
    cases hfault
    cases fault with
    | none => exact hcompleted
    | some fault => exact trivial
  refine horFail.bind fun r b h => ?_
  rw [h.names]
  exact analyzeAll_nameless h r.names

end Build

end Covenant
