import Covenant.Build.Basic
import Covenant.Proofs.Inheritance.Completion

/-!
# From resolved to finished contracts

The contracts of a build are completed, and then it is found out what their methods do. That marks
the methods and changes nothing else, so that a finished contract has the events of the completed
one, its constructor, and its methods under their names and with their bodies (`analyzed_eq_ok`).
-/

namespace Covenant

namespace Build

/-- What a method is called and does. -/
def named (m : Routine) : String × List Stmt :=
  (m.name, m.body)

/-- **Two contracts differ at most in what their methods are marked with.** -/
structure Remarked (c marked : Contract) : Prop where
  name : marked.name = c.name
  events : marked.events = c.events
  construction : marked.construction = c.construction
  methods : marked.methods.map named = c.methods.map named

theorem Remarked.refl (c : Contract) : Remarked c c :=
  ⟨rfl, rfl, rfl, rfl⟩

theorem Remarked.trans {a b c : Contract} (h : Remarked a b) (h' : Remarked b c) : Remarked a c :=
  ⟨h'.name.trans h.name, h'.events.trans h.events, h'.construction.trans h.construction,
    h'.methods.trans h.methods⟩

/-- Every marked method is one of the contract, with its body. -/
theorem Remarked.exists_method {c marked : Contract} (h : Remarked c marked) {m : Routine}
    (hm : m ∈ marked.methods) : ∃ own ∈ c.methods, own.name = m.name ∧ own.body = m.body := by
  have hmem := List.mem_map_of_mem (f := named) hm
  rw [h.methods] at hmem
  obtain ⟨own, hown, hsame⟩ := List.mem_map.1 hmem
  exact ⟨own, hown, Prod.mk.inj hsame⟩

theorem map_named_classify (c : Contract) (methods : List Routine) :
    (Mutability.classify c methods).1.map named = methods.map named := by
  induction methods with
  | nil => rfl
  | cons m rest ih =>
    rw [Mutability.classify]
    split
    · exact congrArg (named m :: ·) ih
    · split
      · rfl
      · exact congrArg (named m :: ·) ih

/-- An analysis that does not fail reports no fault. -/
theorem orFail_eq_ok {α : Type} {r : α × Option Fault} {a : α} :
    orFail r = .ok a ↔ r = (a, none) := by
  obtain ⟨b, _ | fault⟩ := r <;> simp [orFail]

/-- Finding out what methods do only marks them. -/
theorem analyze_remarked (c : Contract) : Remarked c (Mutability.analyze c).1 := by
  unfold Mutability.analyze
  split
  · exact .refl c
  · exact ⟨rfl, rfl, rfl, map_named_classify c c.methods⟩

theorem orFail_analyze {c marked : Contract} (h : orFail (Mutability.analyze c) = .ok marked) :
    (Mutability.analyze c).1 = marked := by
  rw [orFail_eq_ok.1 h]

/-- **What finding out about a contract keeps, finding out about all keeps**, of whichever contract:
a relation that goes on from what it leads to, and under which names stay. -/
theorem analyzeAll_relates {R : Contract → Contract → Prop} (hrefl : ∀ c, R c c)
    (htrans : ∀ {a b c}, R a b → R b c → R a c) (hname : ∀ {c marked}, R c marked →
      marked.name = c.name) (hanalyze : ∀ c, R c (Mutability.analyze c).1)
    {r analyzed : Registry} {names : List String} (h : analyzeAll r names = .ok analyzed) :
    analyzed.contracts.map Contract.name = r.contracts.map Contract.name ∧
      ∀ name marked, analyzed.get? name = some marked → ∃ c, r.get? name = some c ∧ R c marked := by
  induction names generalizing r with
  | nil =>
    cases h
    exact ⟨rfl, fun name c hc => ⟨c, hc, hrefl c⟩⟩
  | cons name rest ih =>
    rw [analyzeAll] at h
    split at h
    · exact ih h
    · rename_i c hc
      obtain ⟨marked, hmarked, h⟩ := bind_eq_ok.1 h
      have hremarked := orFail_analyze hmarked ▸ hanalyze c
      obtain ⟨hnames, hfound⟩ := ih h
      obtain rfl : c.name = name := (Registry.of_get?_eq_some hc).2
      refine ⟨hnames.trans (Registry.names_put r marked), fun other found hother => ?_⟩
      obtain ⟨d, hd, hfound⟩ := hfound other found hother
      -- only the contract that was marked has changed
      by_cases heq : other = marked.name
      · subst heq
        rw [Registry.get?_put_self (by rw [hname hremarked, hc]; rfl)] at hd
        cases hd
        exact ⟨c, hname hremarked ▸ hc, htrans hremarked hfound⟩
      · exact ⟨d, (Registry.get?_put_of_ne heq).symm.trans hd, hfound⟩

/-- **What finishing contracts does**: they are completed, and then looked at. -/
theorem analyzed_relates {R : Contract → Contract → Prop} (hrefl : ∀ c, R c c)
    (htrans : ∀ {a b c}, R a b → R b c → R a c) (hname : ∀ {c marked}, R c marked →
      marked.name = c.name) (hanalyze : ∀ c, R c (Mutability.analyze c).1)
    {r finished : Registry} (h : analyzed r = .ok finished) :
    (Inheritance.flatten r).2 = none ∧
      finished.contracts.map Contract.name = r.contracts.map Contract.name ∧
      ∀ name marked, finished.get? name = some marked →
        ∃ c, (Inheritance.flatten r).1.get? name = some c ∧ R c marked := by
  obtain ⟨completed, hcompleted, hanalyzed⟩ := bind_eq_ok.1 h
  have hflatten := orFail_eq_ok.1 hcompleted
  have hok : (Inheritance.flatten r).2 = none := by rw [hflatten]
  have hnames := Inheritance.flatten_names hok
  rw [hflatten] at hok hnames ⊢
  obtain ⟨hkept, hmarked⟩ := analyzeAll_relates hrefl htrans hname hanalyze hanalyzed
  exact ⟨hok, hkept.trans hnames, hmarked⟩

/-- **A finished contract is the completed one**, with its methods marked. -/
theorem analyzed_eq_ok {r finished : Registry} (h : analyzed r = .ok finished) :
    (Inheritance.flatten r).2 = none ∧
      finished.contracts.map Contract.name = r.contracts.map Contract.name ∧
      ∀ name marked, finished.get? name = some marked →
        ∃ c, (Inheritance.flatten r).1.get? name = some c ∧ Remarked c marked :=
  analyzed_relates Remarked.refl Remarked.trans Remarked.name analyze_remarked h

theorem analyze_variables (c : Contract) :
    (Mutability.analyze c).1.name = c.name ∧ (Mutability.analyze c).1.stateVars = c.stateVars := by
  unfold Mutability.analyze
  split <;> exact ⟨rfl, rfl⟩

/-- **A finished contract has the variables of the completed one.** -/
theorem analyzed_variables {r finished : Registry} (h : analyzed r = .ok finished) {name : String}
    {marked : Contract} (hmarked : finished.get? name = some marked) :
    ∃ c, (Inheritance.flatten r).1.get? name = some c ∧ marked.stateVars = c.stateVars := by
  obtain ⟨-, -, hfound⟩ := analyzed_relates
    (R := fun c marked => marked.name = c.name ∧ marked.stateVars = c.stateVars)
    (fun _ => ⟨rfl, rfl⟩) (fun h h' => ⟨h'.1.trans h.1, h'.2.trans h.2⟩) (fun h => h.1)
    analyze_variables h
  obtain ⟨c, hc, -, hvariables⟩ := hfound name marked hmarked
  exact ⟨c, hc, hvariables⟩

end Build

end Covenant
