import Covenant.Analysis.Inheritance
import Covenant.Proofs.Execution.Locals
import Covenant.Proofs.Inheritance.Walks

/-!
# Completing contracts

Contracts are completed one after another, each after its bases and in place. What keeps the work in
order is that every contract is at any time either as it was declared or complete: then its events
are those met first on a walk through the classes it extends, branch by branch.
-/

namespace Covenant

/-! ## Looking up contracts -/

namespace Registry

/-- The classes that each class extends. -/
def extensions (r : Registry) : Graph :=
  r.contracts.map fun c => (c.name, c.bases)

/-- The events that each class declares. -/
def declared (r : Registry) : Table (List Event) :=
  r.contracts.map fun c => (c.name, c.events)

/-- The event of a name that a class declares. -/
def event? (r : Registry) (event name : String) : Option Event :=
  (r.get? name).bind (·.event? event)

/-- **A hierarchy of classes**: no two have one name, the bases of each are known, and none extends
itself, directly or not. -/
structure Hierarchy (r : Registry) : Prop where
  distinct : (r.contracts.map Contract.name).Nodup
  known : r.extensions.Closed
  acyclic : r.extensions.Acyclic

variable {r : Registry} {c : Contract} {name : String}

theorem keys_extensions (r : Registry) :
    r.extensions.map Prod.fst = r.contracts.map Contract.name := by
  simp [extensions, Function.comp_def]

theorem mem_names : name ∈ r.names ↔ name ∈ r.extensions.map Prod.fst := by
  rw [names, sortedNames, List.mem_eraseDups, List.mem_mergeSort, keys_extensions]

theorem mem_keys_extensions (h : c ∈ r.contracts) : c.name ∈ r.extensions.map Prod.fst := by
  rw [keys_extensions]
  exact List.mem_map_of_mem h

theorem of_get?_eq_some (h : r.get? name = some c) : c ∈ r.contracts ∧ c.name = name := by
  have hname := List.find?_some h
  exact ⟨List.mem_reverse.1 (List.mem_of_find?_eq_some h), of_decide_eq_true hname⟩

/-- Every name of the graph is that of a contract. -/
theorem exists_get? (h : name ∈ r.extensions.map Prod.fst) : ∃ c, r.get? name = some c := by
  rw [keys_extensions, List.mem_map] at h
  obtain ⟨c, hc, rfl⟩ := h
  refine Option.isSome_iff_exists.1 (List.find?_isSome.2 ⟨c, List.mem_reverse.2 hc, ?_⟩)
  exact decide_eq_true rfl

/-- In a hierarchy a table made from the contracts holds what it was made from. -/
theorem Hierarchy.get?_map (hr : r.Hierarchy) {α : Type} (f : Contract → α)
    (h : c ∈ r.contracts) : Table.get? (r.contracts.map fun c => (c.name, f c)) c.name = f c := by
  refine Table.get?_of_mem ?_ (List.mem_map_of_mem h)
  simpa [Function.comp_def] using hr.distinct

theorem Hierarchy.get?_of_mem (hr : r.Hierarchy) (h : c ∈ r.contracts) :
    r.get? c.name = some c := by
  obtain ⟨d, hd⟩ := exists_get? (mem_keys_extensions h)
  obtain ⟨hmem, hname⟩ := of_get?_eq_some hd
  have heq := hr.get?_map id hmem
  rw [hname, hr.get?_map id h] at heq
  exact hd.trans heq.symm

theorem Hierarchy.successors (hr : r.Hierarchy) (h : c ∈ r.contracts) :
    r.extensions.successors c.name = c.bases := by
  have hlookup : r.extensions.lookup c.name = some c.bases := hr.get?_map Contract.bases h
  rw [Graph.successors, hlookup, Option.getD_some]

/-- What is put into a registry is found there by its name. -/
theorem get?_put_self (h : (r.get? c.name).isSome) : (r.put c).get? c.name = some c := by
  rw [get?] at h
  rw [get?, put, List.reverse_reverse]
  generalize r.contracts.reverse = contracts at h
  induction contracts with
  | nil => cases h
  | cons d rest ih =>
    rw [putFirst]
    split
    · simp
    · rename_i hne
      rw [List.find?_cons_of_neg (by simpa using hne)] at h ⊢
      exact ih h

/-- Putting a contract leaves the other names alone. -/
theorem get?_put_of_ne (h : name ≠ c.name) : (r.put c).get? name = r.get? name := by
  rw [get?, get?, put, List.reverse_reverse]
  generalize r.contracts.reverse = contracts
  induction contracts with
  | nil => rfl
  | cons d rest ih =>
    rw [putFirst]
    split
    · rename_i hname
      rw [List.find?_cons_of_neg (by simpa using h.symm),
        List.find?_cons_of_neg (by simpa [hname] using h.symm)]
    · rw [List.find?_cons, List.find?_cons, ih]

end Registry

/-! ## Adding the members of a base -/

namespace Inheritance

open Registry

variable {r : Registry} {c base : Contract} {p q : Progress}

theorem inheritEvents_event? (c : Contract) (events : List Event) (event : String) :
    (inheritEvents c events).event? event =
      (c.event? event).or (events.find? (·.name = event)) := by
  rw [inheritEvents]
  induction events generalizing c with
  | nil => simp
  | cons e rest ih =>
    rw [List.foldl_cons, ih, List.find?_cons]
    split
    · -- the contract has an event of this name, which hides that of the base
      rename_i hhas
      by_cases hname : e.name = event
      · obtain ⟨own, hown⟩ := Option.isSome_iff_exists.1 hhas
        rw [hname] at hown
        simp [hown]
      · simp [hname]
    · rename_i hnew
      by_cases hname : e.name = event
      · have hnone : c.event? event = none := by simpa [hname] using hnew
        rw [Contract.event?] at hnone
        simp [Contract.event?, List.find?_append, hnone, hname]
      · simp [Contract.event?, List.find?_append, hname]

/-- What every step of a fold keeps, the fold keeps. -/
theorem foldl_keeps {α β γ : Type} {step : β → α → β} (view : β → γ)
    (h : ∀ b a, view (step b a) = view b) (l : List α) (b : β) :
    view (l.foldl step b) = view b := by
  induction l generalizing b with
  | nil => rfl
  | cons a rest ih => rw [List.foldl_cons, ih, h]

theorem inheritEvents_name (c : Contract) (events : List Event) :
    (inheritEvents c events).name = c.name :=
  foldl_keeps Contract.name (fun c e => by split <;> rfl) events c

/-- Variables leave the name and the events of a contract alone. -/
theorem inheritVariables_frame (c : Contract) (stateVars : List StateVar) :
    (inheritVariables c stateVars).name = c.name ∧
      (inheritVariables c stateVars).events = c.events :=
  ⟨foldl_keeps Contract.name (fun c v => by split <;> rfl) stateVars c,
    foldl_keeps Contract.events (fun c v => by split <;> rfl) stateVars c⟩

/-- Methods leave the name and the events of a contract alone. -/
theorem inheritMethods_frame (c : Contract) (methods : List Routine) :
    (inheritMethods c methods).name = c.name ∧
      (inheritMethods c methods).events = c.events :=
  ⟨foldl_keeps Contract.name (fun c m => by split <;> rfl) methods c,
    foldl_keeps Contract.events (fun c m => by split <;> rfl) methods c⟩

theorem inherit_name (c base : Contract) : (inherit c base).name = c.name := by
  rw [inherit, (inheritMethods_frame _ _).1, (inheritVariables_frame _ _).1, inheritEvents_name]

/-- **A contract keeps its own events** and gets the other ones of the base. -/
theorem inherit_event? (c base : Contract) (event : String) :
    (inherit c base).event? event = (c.event? event).or (base.event? event) := by
  rw [Contract.event?, inherit, (inheritMethods_frame _ _).2, (inheritVariables_frame _ _).2,
    ← Contract.event?, inheritEvents_event?, Contract.event?.eq_def base]

theorem foldl_inherit_name (bases : List Contract) (c : Contract) :
    (bases.foldl inherit c).name = c.name :=
  foldl_keeps Contract.name inherit_name bases c

/-- **The first listed base that has an event of the name wins**, where the contract has none. -/
theorem foldl_inherit_event? (bases : List Contract) (c : Contract) (event : String) :
    (bases.foldl inherit c).event? event =
      (c.event? event).or (bases.findSome? (·.event? event)) := by
  induction bases generalizing c with
  | nil => simp
  | cons base rest ih =>
    rw [List.foldl_cons, ih, inherit_event?, List.findSome?_cons, Option.or_assoc]
    cases base.event? event <;> rfl

/-! ## One contract after another -/

/-- **Every contract is complete or as it was declared.** The events of a complete contract are
those met first branch by branch. -/
structure Settled (r : Registry) (p : Progress) : Prop where
  complete : ∀ name ∈ p.complete, ∃ c, p.registry.get? name = some c ∧
    ∀ event, c.event? event = (r.extensions.depthFirst name).findSome? (r.event? event)
  declared : ∀ name, name ∉ p.complete → p.registry.get? name = r.get? name

/-- The work went on from one state to another: what was complete still is, and now all the names
are. -/
structure Advances (r : Registry) (p : Progress) (names : List String) (q : Progress) : Prop where
  settled : Settled r q
  keeps : p.complete ⊆ q.complete
  done : names ⊆ q.complete

theorem settled_start (r : Registry) : Settled r { registry := r } :=
  ⟨fun _ h => (nomatch h), fun _ _ => rfl⟩

/-- No contract gets lost. -/
theorem Settled.exists_get? (hp : Settled r p) {name : String}
    (h : name ∈ r.extensions.map Prod.fst) : ∃ c, p.registry.get? name = some c := by
  by_cases hname : name ∈ p.complete
  · obtain ⟨c, hc, -⟩ := hp.complete name hname
    exact ⟨c, hc⟩
  · rw [hp.declared name hname]
    exact Registry.exists_get? h

/-- Of complete bases, the first that has an event of the name has the one met first. -/
theorem Settled.bases_event? (hp : Settled r p) {bases : List String}
    (hbases : bases ⊆ p.complete) (event : String) :
    (bases.filterMap p.registry.get?).findSome? (·.event? event) =
      (bases.flatMap r.extensions.depthFirst).findSome? (r.event? event) := by
  induction bases with
  | nil => rfl
  | cons base rest ih =>
    obtain ⟨hbase, hrest⟩ := List.cons_subset.1 hbases
    obtain ⟨c, hc, hevents⟩ := hp.complete base hbase
    rw [List.filterMap_cons_some hc, List.findSome?_cons, hevents, ih hrest, List.flatMap_cons,
      List.findSome?_append]
    cases (r.extensions.depthFirst base).findSome? (r.event? event) <;> rfl

/-- The merged contract has the events met first branch by branch, if its bases are complete. -/
theorem Settled.merged_event? (hr : r.Hierarchy) (hp : Settled r p) (hc : c ∈ r.contracts)
    (hbases : c.bases ⊆ p.complete) (event : String) :
    ((c.bases.filterMap p.registry.get?).foldl inherit c).event? event =
      (r.extensions.depthFirst c.name).findSome? (r.event? event) := by
  have hown : r.event? event c.name = c.event? event := by
    rw [Registry.event?, hr.get?_of_mem hc, Option.bind_some]
  rw [foldl_inherit_event?, hp.bases_event? hbases,
    hr.acyclic.depthFirst_eq hr.known (mem_keys_extensions hc), hr.successors hc,
    List.findSome?_cons, hown]
  cases c.event? event <;> rfl

/-- **Adding the members of complete bases completes a contract.** -/
theorem Settled.merge (hr : r.Hierarchy) (hp : Settled r p) (hc : c ∈ r.contracts)
    (hbases : c.bases ⊆ p.complete) : Advances r p [c.name] (merge p c) := by
  have hname := foldl_inherit_name (c.bases.filterMap p.registry.get?) c
  have hevents := hp.merged_event? hr hc hbases
  rw [Inheritance.merge]
  generalize (c.bases.filterMap p.registry.get?).foldl inherit c = merged at hname hevents ⊢
  have hother {name : String} (h : name ≠ c.name) :
      (p.registry.put merged).get? name = p.registry.get? name :=
    get?_put_of_ne (hname ▸ h)
  refine ⟨⟨fun name h => ?_, fun name h => ?_⟩, fun name h => List.mem_cons_of_mem _ h, ?_⟩
  · -- complete now: the merged contract, and what was complete before
    by_cases heq : name = c.name
    · subst heq
      have hhas := Option.isSome_iff_exists.2 (hp.exists_get? (mem_keys_extensions hc))
      rw [← hname] at hhas
      exact ⟨merged, hname ▸ get?_put_self hhas, hevents⟩
    · obtain ⟨d, hd, hd'⟩ := hp.complete name ((List.mem_cons.1 h).resolve_left heq)
      exact ⟨d, (hother heq).trans hd, hd'⟩
  · rw [List.mem_cons, not_or] at h
    exact (hother h.1).trans (hp.declared name h.2)
  · simp

/-- What each step does for its name, the steps in turn do for all names. -/
theorem untilFailure_advances {step : String → Progress → Progress × Option Fault}
    {names : List String}
    (hstep : ∀ name ∈ names, ∀ p, Settled r p →
      ∃ q, step name p = (q, none) ∧ Advances r p [name] q)
    (hp : Settled r p) :
    ∃ q, untilFailure step names p = (q, none) ∧ Advances r p names q := by
  induction names generalizing p with
  | nil => exact ⟨p, rfl, hp, fun _ h => h, List.nil_subset _⟩
  | cons name rest ih =>
    obtain ⟨q, hq, hfirst⟩ := hstep name List.mem_cons_self p hp
    obtain ⟨s, hs, hrest⟩ := ih (fun n hn => hstep n (List.mem_cons_of_mem _ hn)) hfirst.settled
    refine ⟨s, ?_, hrest.settled, fun n hn => hrest.keeps (hfirst.keeps hn), ?_⟩
    · rw [untilFailure, hq]
      exact hs
    · exact List.cons_subset.2 ⟨hrest.keeps (hfirst.done List.mem_cons_self), hrest.done⟩

/-! ## All contracts -/

/-- Completes a base of a contract. -/
def completeBase (depth : Nat) (path : List String) (c : Contract) (name : String)
    (p : Progress) : Progress × Option Fault :=
  match p.registry.get? name with
  | some base => complete depth (path ++ [c.name]) base p
  | none => (p, some (.unresolved c.pos .baseContract name p.registry.names))

/-- Completes the contract of a name. -/
def completeNamed (r : Registry) (name : String) (p : Progress) : Progress × Option Fault :=
  match p.registry.get? name with
  | some c => complete (r.contracts.length + 1) [] c p
  | none => (p, none)

/-- A contract that is new and not on the path is completed after its bases. -/
theorem complete_eq_merge {depth : Nat} {path : List String} (hdone : c.name ∉ p.complete)
    (hpath : c.name ∉ path)
    (hbases : untilFailure (completeBase depth path c) c.bases p = (q, none)) :
    complete (depth + 1) path c p = (merge q c, none) := by
  rw [complete, if_neg (by simpa using hdone), if_neg (by simpa using hpath)]
  dsimp only
  split
  · rename_i s hs
    cases hs.symm.trans hbases
    rfl
  · rename_i s fault hs
    cases hs.symm.trans hbases

/-- **Completes the contracts of a build in an order of their names.** -/
def completeAll (r : Registry) (order : List String) : Registry × Option Fault :=
  ((untilFailure (completeNamed r) order { registry := r }).1.registry,
    (untilFailure (completeNamed r) order { registry := r }).2)

theorem flatten_eq (r : Registry) :
    flatten r = ((untilFailure (completeNamed r) r.names { registry := r }).1.registry,
      (untilFailure (completeNamed r) r.names { registry := r }).2) :=
  rfl

/-- **A contract is completed** together with all it extends, if the depth is enough for these and
the path is one that leads to it. -/
theorem complete_advances (hr : r.Hierarchy) {depth : Nat} {path : List String}
    (hdepth : (Resolve.ancestors r.extensions c.name).length < depth)
    (hpath : ∀ name ∈ path, r.extensions.Reaches name c.name)
    (hp : Settled r p) (hc : p.registry.get? c.name = some c) :
    ∃ q, complete depth path c p = (q, none) ∧ Advances r p [c.name] q := by
  induction depth generalizing path c p with
  | zero => omega
  | succ depth ih =>
    by_cases hdone : c.name ∈ p.complete
    · rw [complete, if_pos (List.contains_iff_mem.2 hdone)]
      exact ⟨p, rfl, hp, fun _ h => h, by simpa using hdone⟩
    · have hnotPath : c.name ∉ path := fun h => hr.acyclic _ (hpath _ h)
      -- a contract that is not complete is as it was declared
      have hmem : c ∈ r.contracts := (of_get?_eq_some (hp.declared _ hdone ▸ hc)).1
      have hbase : ∀ base ∈ c.bases, ∀ s, Settled r s →
          ∃ q, completeBase depth path c base s = (q, none) ∧ Advances r s [base] q := by
        intro base hbase s hs
        have hlead : r.extensions.Leads c.name base := by
          rw [Graph.Leads, hr.successors hmem]
          exact hbase
        obtain ⟨d, hd⟩ := hs.exists_get? (hr.known.mem_of_leads hlead)
        obtain rfl : d.name = base := (of_get?_eq_some hd).2
        have hlt := hr.acyclic.length_ancestors_lt hlead
        rw [completeBase, hd]
        -- the path grows by the contract, which leads to the base; the base reaches fewer names
        refine ih (by omega) (fun name hname => ?_) hs hd
        rcases List.mem_append.1 hname with hname | hname
        · exact .tail (hpath name hname) hlead
        · rw [List.mem_singleton.1 hname]
          exact .of_leads hlead
      obtain ⟨q, hq, hbases⟩ := untilFailure_advances hbase hp
      have hmerge := hbases.settled.merge hr hmem hbases.done
      refine ⟨merge q c, complete_eq_merge hdone hnotPath hq, hmerge.settled, fun n hn => ?_,
        hmerge.done⟩
      exact hmerge.keeps (hbases.keeps hn)

/-- In a hierarchy no order of the names makes completing fail. -/
theorem completeNamed_advances (hr : r.Hierarchy) {order : List String} (horder : order ⊆ r.names) :
    ∃ q, untilFailure (completeNamed r) order { registry := r } = (q, none) ∧
      Advances r { registry := r } order q := by
  refine untilFailure_advances (fun name hname s hs => ?_) (settled_start r)
  have hkey := mem_names.1 (horder hname)
  obtain ⟨d, hd⟩ := hs.exists_get? hkey
  obtain rfl : d.name = name := (of_get?_eq_some hd).2
  have hlt := hr.known.length_ancestors_lt hr.acyclic hkey
  have hlength : r.extensions.length = r.contracts.length := List.length_map _
  rw [completeNamed, hd]
  exact complete_advances hr (by omega) (fun _ h => (nomatch h)) hs hd

/-- **Completing a hierarchy succeeds**, and every contract then has the events met first branch by
branch. -/
theorem flatten_spec (hr : r.Hierarchy) (hc : c ∈ r.contracts) :
    (flatten r).2 = none ∧ ∃ merged, (flatten r).1.get? c.name = some merged ∧
      ∀ event, merged.event? event =
        (r.extensions.depthFirst c.name).findSome? (r.event? event) := by
  obtain ⟨q, hq, hall⟩ := completeNamed_advances hr (List.Subset.refl r.names)
  rw [flatten_eq, hq]
  exact ⟨rfl, hall.settled.complete _ (hall.done (mem_names.2 (mem_keys_extensions hc)))⟩

end Inheritance

end Covenant
