import Covenant.Proofs.Computations
import Covenant.Proofs.Inheritance.Merging
import Mathlib.Data.List.Nodup

/-!
# Completed contracts

Where completing the contracts of a build succeeds, each of them was completed once and after all
its bases. So what goes from the bases of a contract to the contract with their members added holds
of every completed contract (`completeAll_induction`). Two things follow: only a hierarchy of
classes is completed, and every method of a completed contract is declared by a class that the
contract extends or by itself.
-/

namespace Covenant

namespace Registry

/-- Putting a contract in its place changes no name. -/
theorem names_put (r : Registry) (c : Contract) :
    (r.put c).contracts.map Contract.name = r.contracts.map Contract.name := by
  have hfirst (contracts : List Contract) :
      (putFirst c contracts).map Contract.name = contracts.map Contract.name := by
    induction contracts with
    | nil => rfl
    | cons d rest ih =>
      rw [putFirst]
      split
      · rename_i hname
        rw [List.map_cons, List.map_cons, hname]
      · rw [List.map_cons, List.map_cons, ih]
  rw [put, List.map_reverse, hfirst, List.map_reverse, List.reverse_reverse]

/-- Where all names differ, every contract is found. -/
theorem get?_of_nodup {r : Registry} {c : Contract}
    (hdistinct : (r.contracts.map Contract.name).Nodup) (hc : c ∈ r.contracts) :
    r.get? c.name = some c := by
  obtain ⟨d, hd⟩ := exists_get? (mem_keys_extensions hc)
  obtain ⟨hmem, hname⟩ := of_get?_eq_some hd
  rw [hd, List.inj_on_of_nodup_map hdistinct hmem hc hname]

/-- A class or one above it. -/
def Above (r : Registry) (name above : String) : Prop :=
  above = name ∨ r.extensions.Reaches name above

theorem Above.trans {r : Registry} {a b c : String} (h : r.Above a b) (h' : r.Above b c) :
    r.Above a c := by
  rcases h with rfl | h
  · exact h'
  · rcases h' with rfl | h'
    · exact .inr h
    · exact .inr (.trans h h')

end Registry

namespace Inheritance

open Registry

variable {r : Registry} {c : Contract} {p q : Progress} {motive : Contract → Contract → Prop}

/-! ## Induction along the extended classes -/

/-- **A relation between declared and completed contracts holds so far**: every complete contract
has it to what was declared, and the others are as they were declared. -/
structure Holds (r : Registry) (motive : Contract → Contract → Prop) (p : Progress) : Prop where
  complete : ∀ name ∈ p.complete, ∃ c merged, r.get? name = some c ∧
    p.registry.get? name = some merged ∧ motive c merged
  declared : ∀ name, name ∉ p.complete → p.registry.get? name = r.get? name
  names : p.registry.contracts.map Contract.name = r.contracts.map Contract.name

/-- The work went on from one state to another, which now has all the names complete. -/
structure Reached (r : Registry) (motive : Contract → Contract → Prop) (p : Progress)
    (names : List String) (q : Progress) : Prop where
  holds : Holds r motive q
  keeps : p.complete ⊆ q.complete
  done : names ⊆ q.complete

/-- The bases of a contract, completed. -/
abbrev CompletedBases (r : Registry) (motive : Contract → Contract → Prop) :
    List String → List Contract → Prop :=
  List.Forall₂ fun name merged => ∃ c, r.get? name = some c ∧ motive c merged

theorem Holds.bases (hp : Holds r motive p) {names : List String} (h : names ⊆ p.complete) :
    CompletedBases r motive names (names.filterMap p.registry.get?) := by
  induction names with
  | nil => exact .nil
  | cons name rest ih =>
    obtain ⟨hname, hrest⟩ := List.cons_subset.1 h
    obtain ⟨c, merged, hc, hmerged, hmotive⟩ := hp.complete name hname
    rw [List.filterMap_cons_some hmerged]
    exact .cons ⟨c, hc, hmotive⟩ (ih hrest)

section

variable (hmerge : ∀ c ∈ r.contracts, ∀ bases, CompletedBases r motive c.bases bases →
  motive c (bases.foldl inherit c))
include hmerge

/-- Adding the members of complete bases completes a contract. -/
theorem Holds.merge (hp : Holds r motive p) (hc : r.get? c.name = some c)
    (hbases : c.bases ⊆ p.complete) : Reached r motive p [c.name] (merge p c) := by
  have hmotive := hmerge c (of_get?_eq_some hc).1 _ (hp.bases hbases)
  have hname := foldl_inherit_name (c.bases.filterMap p.registry.get?) c
  rw [Inheritance.merge]
  generalize (c.bases.filterMap p.registry.get?).foldl inherit c = merged at hmotive hname ⊢
  have hother {name : String} (h : name ≠ c.name) :
      (p.registry.put merged).get? name = p.registry.get? name :=
    get?_put_of_ne (hname ▸ h)
  have hhas : (p.registry.get? c.name).isSome := by
    by_cases hdone : c.name ∈ p.complete
    · obtain ⟨_, _, -, h, -⟩ := hp.complete _ hdone
      rw [h]
      rfl
    · rw [hp.declared _ hdone, hc]
      rfl
  refine ⟨⟨fun name h => ?_, fun name h => ?_, ?_⟩, fun name h => List.mem_cons_of_mem _ h, ?_⟩
  · by_cases heq : name = c.name
    · subst heq
      exact ⟨c, merged, hc, hname ▸ get?_put_self (hname.symm ▸ hhas), hmotive⟩
    · obtain ⟨d, e, hd, he, hde⟩ := hp.complete name ((List.mem_cons.1 h).resolve_left heq)
      exact ⟨d, e, hd, (hother heq).trans he, hde⟩
  · rw [List.mem_cons, not_or] at h
    exact (hother h.1).trans (hp.declared name h.2)
  · exact (names_put _ _).trans hp.names
  · simp

omit hmerge in
theorem untilFailure_reached {step : String → Progress → Progress × Option Fault}
    {names : List String}
    (hstep : ∀ name ∈ names, ∀ p q, Holds r motive p → step name p = (q, none) →
      Reached r motive p [name] q)
    (hp : Holds r motive p) (h : untilFailure step names p = (q, none)) :
    Reached r motive p names q := by
  induction names generalizing p with
  | nil =>
    cases h
    exact ⟨hp, fun _ h => h, List.nil_subset _⟩
  | cons name rest ih =>
    rw [untilFailure] at h
    split at h
    · rename_i s hs
      have hfirst := hstep name List.mem_cons_self p s hp hs
      have hrest := ih (fun n hn => hstep n (List.mem_cons_of_mem _ hn)) hfirst.holds h
      refine ⟨hrest.holds, fun n hn => hrest.keeps (hfirst.keeps hn), ?_⟩
      exact List.cons_subset.2 ⟨hrest.keeps (hfirst.done List.mem_cons_self), hrest.done⟩
    · cases h

/-- A contract that is completed without a failure is completed after its bases. -/
theorem complete_reached {depth : Nat} {path : List String} (hp : Holds r motive p)
    (hc : p.registry.get? c.name = some c) (h : complete depth path c p = (q, none)) :
    Reached r motive p [c.name] q := by
  induction depth generalizing path c p q with
  | zero => cases h
  | succ depth ih =>
    rw [complete] at h
    split at h
    · rename_i hdone
      cases h
      exact ⟨hp, fun _ h => h, by simpa using hdone⟩
    rename_i hdone
    split at h
    · cases h
    dsimp only at h
    split at h
    · rename_i s hs
      cases h
      -- the bases are completed before the contract takes over their members
      have hbases : Reached r motive p c.bases s := by
        refine untilFailure_reached (fun base _ t u ht hu => ?_) hp hs
        split at hu
        · rename_i d hd
          obtain rfl : d.name = base := (of_get?_eq_some hd).2
          exact ih ht hd hu
        · cases hu
      have hdeclared : r.get? c.name = some c := by
        rw [← hp.declared _ (by simpa using hdone), hc]
      have hmerged := hbases.holds.merge hmerge hdeclared hbases.done
      exact ⟨hmerged.holds, fun n hn => hmerged.keeps (hbases.keeps hn), hmerged.done⟩
    · cases h

/-- **What goes from the bases of a contract to the contract with their members added holds of all
contracts**, where completing them succeeds, in whatever order. -/
theorem completeAll_induction {order : List String}
    (horder : ∀ name, name ∈ order ↔ name ∈ r.names) (hok : (completeAll r order).2 = none) :
    (completeAll r order).1.contracts.map Contract.name = r.contracts.map Contract.name ∧
      ∀ c, r.get? c.name = some c →
        ∃ merged, (completeAll r order).1.get? c.name = some merged ∧ motive c merged := by
  have hstart : Holds r motive { registry := r } :=
    ⟨fun _ h => (nomatch h), fun _ _ => rfl, rfl⟩
  have hall : Reached r motive { registry := r } order
      (untilFailure (completeNamed r) order { registry := r }).1 := by
    refine untilFailure_reached (fun name hname s t hs ht => ?_) hstart (Prod.ext rfl hok)
    rw [completeNamed] at ht
    split at ht
    · rename_i d hd
      obtain rfl : d.name = name := (of_get?_eq_some hd).2
      exact complete_reached hmerge hs hd ht
    · -- every name is that of a contract
      rename_i hnone
      rw [horder, mem_names, keys_extensions, ← hs.names, ← keys_extensions] at hname
      obtain ⟨d, hd⟩ := exists_get? hname
      rw [hnone] at hd
      cases hd
  refine ⟨hall.holds.names, fun c hc => ?_⟩
  have hname : c.name ∈ order :=
    (horder _).2 (mem_names.2 (mem_keys_extensions (of_get?_eq_some hc).1))
  obtain ⟨d, merged, hd, hmerged, hmotive⟩ := hall.holds.complete _ (hall.done hname)
  rw [hc] at hd
  cases hd
  exact ⟨merged, hmerged, hmotive⟩

theorem flatten_induction (hok : (flatten r).2 = none) :
    (flatten r).1.contracts.map Contract.name = r.contracts.map Contract.name ∧
      ∀ c, r.get? c.name = some c →
        ∃ merged, (flatten r).1.get? c.name = some merged ∧ motive c merged :=
  completeAll_induction hmerge (fun _ => .rfl) hok

end

/-- Completing changes no name. -/
theorem flatten_names (hok : (flatten r).2 = none) :
    (flatten r).1.contracts.map Contract.name = r.contracts.map Contract.name :=
  (flatten_induction (motive := fun _ _ => True) (fun _ _ _ _ => trivial) hok).1

/-! ## Only a hierarchy is completed -/

/-- A name from which every chain of edges ends does not reach itself. -/
theorem not_reaches_of_acc {g : Graph} {name : String}
    (h : Acc (fun b a => g.Leads a b) name) : ¬g.Reaches name name := by
  induction h with
  | intro a _ ih =>
    intro hcycle
    rcases hcycle.cases_head with hself | ⟨b, hlead, hback⟩
    · exact ih a hself hcycle
    · exact ih b hlead (.tail hback hlead)

/-- **Where completing succeeds, the classes form a hierarchy.** -/
theorem hierarchy_of_completeAll (hdistinct : (r.contracts.map Contract.name).Nodup)
    {order : List String} (horder : ∀ name, name ∈ order ↔ name ∈ r.names)
    (hok : (completeAll r order).2 = none) : r.Hierarchy := by
  have hkeys : (r.extensions.map Prod.fst).Nodup := by rwa [keys_extensions]
  have hsuccessors {c : Contract} (hc : c ∈ r.contracts) :
      r.extensions.successors c.name = c.bases := by
    have hlookup : r.extensions.lookup c.name = some c.bases :=
      Table.get?_of_mem hkeys (List.mem_map_of_mem hc)
    rw [Graph.successors, hlookup, Option.getD_some]
  -- the bases of a contract were found and completed before it, so no chain goes on for ever
  obtain ⟨-, hall⟩ := completeAll_induction
    (motive := fun c _ => (∀ base ∈ c.bases, (r.get? base).isSome) ∧
      Acc (fun b a => r.extensions.Leads a b) c.name) (fun c hc bases hbases => by
      refine ⟨fun base hbase => ?_, .intro _ fun base hlead => ?_⟩
      · obtain ⟨_, -, d, hd, -⟩ := exists_of_mem_left hbases hbase
        rw [hd]
        rfl
      · rw [Graph.Leads, hsuccessors hc] at hlead
        obtain ⟨_, -, d, hd, -, hacc⟩ := exists_of_mem_left hbases hlead
        rwa [(of_get?_eq_some hd).2] at hacc) horder hok
  refine ⟨hdistinct, fun entry hentry base hbase => ?_, fun name hcycle => ?_⟩
  · obtain ⟨c, hc, rfl⟩ := List.mem_map.1 hentry
    obtain ⟨_, -, hbases, -⟩ := hall c (get?_of_nodup hdistinct hc)
    obtain ⟨d, hd⟩ := Option.isSome_iff_exists.1 (hbases base hbase)
    obtain ⟨hmem, rfl⟩ := of_get?_eq_some hd
    exact mem_keys_extensions hmem
  · have hlead : ∃ b, r.extensions.Leads name b := by
      rcases hcycle.cases_head with h | ⟨b, h, -⟩
      · exact ⟨_, h⟩
      · exact ⟨b, h⟩
    obtain ⟨b, hlead⟩ := hlead
    obtain ⟨entry, hentry, rfl, -⟩ := Graph.exists_entry_of_leads hlead
    obtain ⟨c, hc, rfl⟩ := List.mem_map.1 hentry
    obtain ⟨_, -, -, hacc⟩ := hall c (get?_of_nodup hdistinct hc)
    exact not_reaches_of_acc hacc hcycle

theorem hierarchy_of_flatten (hdistinct : (r.contracts.map Contract.name).Nodup)
    (hok : (flatten r).2 = none) : r.Hierarchy :=
  hierarchy_of_completeAll hdistinct (fun _ => .rfl) hok

/-! ## Members of completed contracts -/

/-- Constructors are not inherited. -/
theorem inherit_construction (c base : Contract) :
    (inherit c base).construction = c.construction := by
  refine (foldl_keeps Contract.construction (fun c m => ?_) base.methods _).trans
    ((foldl_keeps Contract.construction (fun c v => ?_) base.stateVars _).trans
      (foldl_keeps Contract.construction (fun c e => ?_) base.events _)) <;> split <;> rfl

theorem mem_inheritMethods {methods : List Routine} {m : Routine}
    (h : m ∈ (inheritMethods c methods).methods) :
    m ∈ c.methods ∨ ∃ own ∈ methods, m = { own with mutability := .unknown } := by
  induction methods generalizing c with
  | nil => exact .inl h
  | cons first rest ih =>
    rcases ih h with h | ⟨own, hown, rfl⟩
    · dsimp only at h
      split at h
      · exact .inl h
      · rcases List.mem_append.1 h with h | h
        · exact .inl h
        · exact .inr ⟨first, List.mem_cons_self, List.mem_singleton.1 h⟩
    · exact .inr ⟨own, List.mem_cons_of_mem _ hown, rfl⟩

/-- Events and variables leave the methods alone. -/
theorem mem_inherit_methods {base : Contract} {m : Routine} (h : m ∈ (inherit c base).methods) :
    m ∈ c.methods ∨ ∃ own ∈ base.methods, m = { own with mutability := .unknown } := by
  have hkept : (inheritVariables (inheritEvents c base.events) base.stateVars).methods =
      c.methods := by
    refine (foldl_keeps Contract.methods (fun c v => ?_) base.stateVars _).trans
      (foldl_keeps Contract.methods (fun c e => ?_) base.events _) <;> split <;> rfl
  exact (mem_inheritMethods h).imp_left (hkept ▸ ·)

theorem mem_foldl_inherit_methods {bases : List Contract} {m : Routine}
    (h : m ∈ (bases.foldl inherit c).methods) :
    m ∈ c.methods ∨
      ∃ base ∈ bases, ∃ own ∈ base.methods, m = { own with mutability := .unknown } := by
  induction bases generalizing c with
  | nil => exact .inl h
  | cons base rest ih =>
    rcases ih h with h | ⟨other, hother, hm⟩
    · exact (mem_inherit_methods h).imp_right fun hm => ⟨base, List.mem_cons_self, hm⟩
    · exact .inr ⟨other, List.mem_cons_of_mem _ hother, hm⟩

/-- **A method is declared** by a class or by one it extends. -/
def DeclaredAbove (r : Registry) (name : String) (m : Routine) : Prop :=
  ∃ c ∈ r.contracts, r.Above name c.name ∧
    ∃ own ∈ c.methods, own.name = m.name ∧ own.body = m.body

/-- **A completed contract has its own constructor, and methods that it or a class above it
declares.** -/
theorem flatten_members (hr : r.Hierarchy) (hok : (flatten r).2 = none) (hc : c ∈ r.contracts) :
    ∃ merged, (flatten r).1.get? c.name = some merged ∧
      merged.construction = c.construction ∧ ∀ m ∈ merged.methods, DeclaredAbove r c.name m := by
  refine (flatten_induction (motive := fun c merged => merged.construction = c.construction ∧
    ∀ m ∈ merged.methods, DeclaredAbove r c.name m) (fun c hc bases hbases => ⟨?_, ?_⟩) hok).2
      c (hr.get?_of_mem hc)
  · exact foldl_keeps Contract.construction inherit_construction bases c
  · intro m hm
    rcases mem_foldl_inherit_methods hm with hm | ⟨base, hbase, own, hown, rfl⟩
    · exact ⟨c, hc, .inl rfl, m, hm, rfl, rfl⟩
    · obtain ⟨name, hname, d, hd, -, hmethods⟩ := exists_of_mem_right hbases hbase
      obtain ⟨-, rfl⟩ := of_get?_eq_some hd
      have hlead : r.extensions.Leads c.name d.name := by
        rw [Graph.Leads, hr.successors hc]
        exact hname
      obtain ⟨e, he, habove, first, hfirst, hsame⟩ := hmethods own hown
      exact ⟨e, he, .trans (.inr (.of_leads hlead)) habove, first, hfirst, hsame⟩

end Inheritance

end Covenant
