import Covenant.Build.Contracts
import Covenant.Proofs.Inheritance.Events
import Covenant.Proofs.Resolution.Classes
import Mathlib.Data.List.Nodup

/-!
# Where the contracts of a build come from

Each class of each file becomes one contract, in order, and no two have one name. The scope of a
class is that of its file, with the events it inherits from the classes above it, which are those
that the contracts declare (`resolveFiles_builtIn`).
-/

namespace Covenant

namespace Build

open Resolve

/-! ## Files -/

/-- The scope that every file starts from: the classes of the build are known by name. -/
def baseScope (files : List SourceFile) : Scope :=
  { contracts := (allClasses files).map (·.2.name) }

/-- The classes of some files, each with its file. -/
def ownedClasses (files : List DeclaredFile) : List (DeclaredFile × Source.ClassDecl) :=
  files.flatMap fun f => f.classes.map (f, ·)

/-- **Some files are known**: their classes are those that were written, and the events of each
class are found under its name. -/
structure Declared (files : List SourceFile) (k : Known) : Prop where
  files : List.Forall₂ (fun g f => f.path = g.path ∧ f.classes = g.program.classes) files k.files
  names : k.events.map Prod.fst = ((ownedClasses k.files).map (·.2.name)).reverse
  events : ∀ fc ∈ ownedClasses k.files,
    ∃ es, ownEvents fc.1.scope fc.2 = .ok es ∧ (fc.2.name, es) ∈ k.events

variable {base : Scope} {files : List SourceFile} {k k' : Known} {f : SourceFile}

/-! ### Imports -/

section Imports

variable {exports : Exports} {scope inner : Scope}

/-- **What some names being taken from exported tables keeps, imports keep.** -/
theorem imports_keep (keeps : Scope → Prop)
    (hinterfaces : ∀ s added, (∀ entry ∈ added, ∃ file ∈ exports, entry ∈ file.2.interfaces) →
      keeps s → keeps { s with interfaces := s.interfaces.putAll added })
    (hconstants : ∀ s added, (∀ entry ∈ added, ∃ file ∈ exports, entry ∈ file.2.constants) →
      keeps s → keeps { s with constants := s.constants.putAll added })
    {imports : List (Source.Import × String)} (hscope : keeps scope)
    (h : imports.foldlM (importInto exports) scope = .ok inner) : keeps inner := by
  refine foldlM_keeps keeps (fun i _ s t hs h => ?_) hscope h
  -- a file that nothing is known of declares nothing
  obtain ⟨d, hd, hfound⟩ : ∃ d, (exports.get? i.2).getD {} = d ∧
      (d = {} ∨ ∃ file ∈ exports, file.2 = d) := by
    cases hfile : exports.get? i.2 with
    | none => exact ⟨{}, rfl, .inl rfl⟩
    | some d => exact ⟨d, rfl, .inr ⟨_, Table.mem_of_get? hfile, rfl⟩⟩
  have hfrom {α : Type} (table : Declarations → Table α) (hempty : table {} = []) :
      ∀ entry ∈ table d, ∃ file ∈ exports, entry ∈ table file.2 := by
    rcases hfound with rfl | ⟨file, hfile, rfl⟩
    · rw [hempty]
      exact fun _ h => (nomatch h)
    · exact fun entry hentry => ⟨file, hfile, hentry⟩
  unfold importInto at h
  dsimp only at h
  rw [hd] at h
  split at h
  · refine foldlM_keeps keeps (fun name _ s t hs h => ?_) hs h
    unfold importName at h
    split at h
    · rename_i hinterface
      cases h
      exact hinterfaces s [_] (List.forall_mem_singleton.2
        (hfrom Declarations.interfaces rfl _ (Table.mem_of_get? hinterface))) hs
    · rename_i hvalue
      cases h
      exact hconstants s [_] (List.forall_mem_singleton.2
        (hfrom Declarations.constants rfl _ (Table.mem_of_get? hvalue))) hs
    · split at h
      · cases h
        exact hs
      · cases h
  · cases h
    exact hconstants _ _ (hfrom Declarations.constants rfl)
      (hinterfaces s _ (hfrom Declarations.interfaces rfl) hs)

/-- **What holds of all exported constants holds of those that are imported.** -/
theorem imports_constants (P : Expr → Prop) {imports : List (Source.Import × String)}
    (hexports : ∀ file ∈ exports, ∀ entry ∈ file.2.constants, P entry.2)
    (hscope : ∀ entry ∈ scope.constants, P entry.2)
    (h : imports.foldlM (importInto exports) scope = .ok inner) :
    ∀ entry ∈ inner.constants, P entry.2 := by
  refine imports_keep (fun s => ∀ entry ∈ s.constants, P entry.2) (fun s _ _ hs => hs)
    (fun s added hadded hs => List.forall_mem_append.2 ⟨fun entry hentry => ?_, hs⟩) hscope h
  obtain ⟨file, hfile, hentry⟩ := hadded entry hentry
  exact hexports file hfile entry hentry

/-- **What holds of all exported interfaces holds of those that are imported.** -/
theorem imports_interfaces (P : Interface → Prop) {imports : List (Source.Import × String)}
    (hexports : ∀ file ∈ exports, ∀ entry ∈ file.2.interfaces, P entry.2)
    (hscope : ∀ entry ∈ scope.interfaces, P entry.2)
    (h : imports.foldlM (importInto exports) scope = .ok inner) :
    ∀ entry ∈ inner.interfaces, P entry.2 := by
  refine imports_keep (fun s => ∀ entry ∈ s.interfaces, P entry.2)
    (fun s added hadded hs => List.forall_mem_append.2 ⟨fun entry hentry => ?_, hs⟩)
    (fun s _ _ hs => hs) hscope h
  obtain ⟨file, hfile, hentry⟩ := hadded entry hentry
  exact hexports file hfile entry hentry

/-- An import adds interfaces and constants, and no locals. -/
theorem imports_locals {imports : List (Source.Import × String)}
    (h : imports.foldlM (importInto exports) scope = .ok inner) :
    inner.locals = scope.locals :=
  imports_keep (fun s => s.locals = scope.locals) (fun _ _ _ hs => hs) (fun _ _ _ hs => hs) rfl h

end Imports

/-! ### Declarations -/

theorem declarations_eq_ok {scope inner : Scope} {program : Source.Program} {d : Declarations}
    (h : declarations scope program = .ok (d, inner)) :
    d.classes = program.classes ∧
      constants { scope with interfaces := inner.interfaces } program.constants [] =
        .ok d.constants ∧
      inner.constants = scope.constants.putAll d.constants := by
  obtain ⟨interfaces, -, h⟩ := bind_eq_ok.1 h
  obtain ⟨constants, hconstants, h⟩ := bind_eq_ok.1 h
  cases pure_eq_ok.1 h
  exact ⟨rfl, hconstants, rfl⟩

theorem declarations_interfaces {scope inner : Scope} {program : Source.Program}
    {d : Declarations} (h : declarations scope program = .ok (d, inner)) :
    interfaces scope program = .ok d.interfaces ∧
      inner.interfaces = scope.interfaces.putAll d.interfaces ∧ inner.locals = scope.locals := by
  obtain ⟨interfaces, hinterfaces, h⟩ := bind_eq_ok.1 h
  obtain ⟨constants, -, h⟩ := bind_eq_ok.1 h
  cases pure_eq_ok.1 h
  exact ⟨hinterfaces, rfl, rfl⟩

/-- What a file adds to what is known. -/
theorem declareFile_eq_ok (h : declareFile base k f = .ok k') :
    ∃ imported declared scope events,
      f.imports.foldlM (importInto k.exports) base = .ok imported ∧
      declarations imported f.program = .ok (declared, scope) ∧
      List.Forall₂ (fun c e => e.1 = c.name ∧ ownEvents scope c = .ok e.2) f.program.classes
        events ∧
      k' = {
        exports := k.exports.put f.path declared
        events := events.reverse ++ k.events
        files := k.files ++ [{ path := f.path, classes := f.program.classes, scope }] } := by
  obtain ⟨imported, himported, h⟩ := bind_eq_ok.1 h
  obtain ⟨⟨declared, scope⟩, hdeclared, h⟩ := bind_eq_ok.1 h
  obtain ⟨events, hevents, h⟩ := bind_eq_ok.1 h
  cases pure_eq_ok.1 h
  obtain ⟨hclasses, -, -⟩ := declarations_eq_ok hdeclared
  rw [hclasses] at hevents ⊢
  refine ⟨imported, declared, scope, events, himported, hdeclared, ?_, rfl⟩
  refine (mapM_eq_ok.1 hevents).imp fun c e he => ?_
  obtain ⟨es, hes, he⟩ := bind_eq_ok.1 he
  cases pure_eq_ok.1 he
  exact ⟨rfl, hes⟩

theorem Declared.declareFile (hk : Declared files k) (h : declareFile base k f = .ok k') :
    Declared (files ++ [f]) k' := by
  obtain ⟨imported, declared, scope, events, -, -, hevents, rfl⟩ := declareFile_eq_ok h
  have hnames : f.program.classes.map (·.name) = events.map Prod.fst :=
    map_eq_of_forall₂ hevents fun _ _ he => he.1.symm
  refine ⟨List.rel_append hk.files (.cons ⟨rfl, rfl⟩ .nil), ?_, fun fc hfc => ?_⟩
  · simp [ownedClasses, hk.names, ← hnames, Function.comp_def]
  · simp only [ownedClasses, List.flatMap_append, List.mem_append] at hfc
    rcases hfc with hfc | hfc
    · obtain ⟨es, hes, hmem⟩ := hk.events fc hfc
      exact ⟨es, hes, List.mem_append_right _ hmem⟩
    · obtain ⟨c, hc, rfl⟩ : ∃ c ∈ f.program.classes, (⟨f.path, f.program.classes, scope⟩, c) = fc :=
        by simpa using hfc
      obtain ⟨⟨name, es⟩, he, rfl, hes⟩ := exists_of_mem_left hevents hc
      exact ⟨es, hes, List.mem_append_left _ (List.mem_reverse.2 he)⟩

/-- **All files of a build are known.** -/
theorem declared_of_foldlM (h : files.foldlM (declareFile base) {} = .ok k) : Declared files k :=
  foldlM_tracks Declared [] (fun _ _ _ _ _ => Declared.declareFile)
    ⟨.nil, rfl, fun _ h => absurd h List.not_mem_nil⟩ h

/-! ## Classes -/

/-- **A contract is made from a class** of a file. -/
def Made (bases : Graph) (events : Table (List Event)) (fc : DeclaredFile × Source.ClassDecl)
    (c : Contract) : Prop :=
  ∃ next next', contract { fc.1.scope with events := inheritedEvents bases events fc.2.name } next
    fc.1.path fc.2 = .ok (c, next')

theorem resolveClass_eq_ok {bases : Graph} {events : Table (List Event)} {f : DeclaredFile}
    {r r' : Build.Resolved} {c : Source.ClassDecl}
    (h : resolveClass bases events f r c = .ok r') :
    ∃ made, Made bases events (f, c) made ∧ r'.contracts = r.contracts ++ [made] := by
  obtain ⟨⟨made, next⟩, hmade, h⟩ := bind_eq_ok.1 h
  cases pure_eq_ok.1 h
  exact ⟨made, ⟨r.next, next, hmade⟩, rfl⟩

theorem foldlM_resolveClass {bases : Graph} {events : Table (List Event)} {f : DeclaredFile}
    {r r' : Build.Resolved} {done : List (DeclaredFile × Source.ClassDecl)}
    (hr : List.Forall₂ (Made bases events) done r.contracts)
    (h : f.classes.foldlM (resolveClass bases events f) r = .ok r') :
    List.Forall₂ (Made bases events) (done ++ f.classes.map (f, ·)) r'.contracts := by
  refine foldlM_tracks (fun classes (r : Build.Resolved) =>
    List.Forall₂ (Made bases events) (done ++ classes.map (f, ·)) r.contracts) [] ?_
    (by simpa using hr) h
  intro classes c _ s t hs hstep
  obtain ⟨made, hmade, hcontracts⟩ := resolveClass_eq_ok hstep
  rw [hcontracts, List.map_append, ← List.append_assoc]
  exact List.rel_append hs (.cons hmade .nil)

/-- Each class becomes one contract, in order. -/
theorem resolveFiles_eq_ok {registry : Registry} {warnings : List Fault}
    (h : resolveFiles files = .ok (registry, warnings)) :
    checkClasses [] (allClasses files) = .ok () ∧
      ∃ known, files.foldlM (declareFile (baseScope files)) {} = .ok known ∧
        List.Forall₂ (Made (extensions (allClasses files)) known.events)
          (ownedClasses known.files) registry.contracts := by
  obtain ⟨⟨⟩, hcheck, h⟩ := bind_eq_ok.1 h
  obtain ⟨known, hknown, h⟩ := bind_eq_ok.1 h
  obtain ⟨resolved, hresolved, h⟩ := bind_eq_ok.1 h
  cases pure_eq_ok.1 h
  refine ⟨hcheck, known, hknown, ?_⟩
  refine foldlM_tracks (fun done (r : Build.Resolved) =>
    List.Forall₂ (Made (extensions (allClasses files)) known.events) (ownedClasses done)
      r.contracts) [] ?_ .nil hresolved
  intro done f _ s t hs hstep
  rw [ownedClasses, List.flatMap_append, List.flatMap_singleton]
  exact foldlM_resolveClass hs hstep

/-! ## The registry -/

/-- No two classes have one name. -/
theorem nodup_of_checkClasses {seen : Table String} {classes : List OwnedClass}
    (h : checkClasses seen classes = .ok ()) :
    (∀ c ∈ classes, seen.get? c.2.name = none) ∧ (classes.map (·.2.name)).Nodup := by
  induction classes generalizing seen with
  | nil => exact ⟨fun _ h => absurd h List.not_mem_nil, .nil⟩
  | cons owned rest ih =>
    obtain ⟨file, c⟩ := owned
    rw [checkClasses] at h
    split at h
    · cases h
    rename_i hnew
    obtain ⟨hseen, hnodup⟩ := ih h
    have hrest (other : OwnedClass) (hother : other ∈ rest) :
        other.2.name ≠ c.name ∧ seen.get? other.2.name = none := by
      have hput := hseen other hother
      rw [Table.put, Table.get?_cons] at hput
      by_cases hname : other.2.name = c.name
      · rw [if_pos hname] at hput
        cases hput
      · exact ⟨hname, by rwa [if_neg hname] at hput⟩
    refine ⟨List.forall_mem_cons.2 ⟨hnew, fun other hother => (hrest other hother).2⟩, ?_⟩
    rw [List.map_cons, List.nodup_cons, List.mem_map]
    refine ⟨?_, hnodup⟩
    rintro ⟨other, hother, heq⟩
    exact (hrest other hother).1 heq

theorem Declared.allClasses_eq (hk : Declared files k) :
    allClasses files = (ownedClasses k.files).map fun fc => (fc.1.path, fc.2) := by
  have hfiles := hk.files
  clear hk
  generalize k.files = declared at hfiles
  induction hfiles with
  | nil => rfl
  | @cons g f _ _ hgf _ ih =>
    simp only [allClasses, ownedClasses] at ih ⊢
    rw [List.flatMap_cons, List.flatMap_cons, List.map_append, ih, List.map_map, ← hgf.1, ← hgf.2]
    rfl

variable {registry : Registry} {warnings : List Fault}

/-- What is found for each contract of a build, made from its class. -/
theorem Made.spec {bases : Graph} {events : Table (List Event)}
    {fc : DeclaredFile × Source.ClassDecl} {c : Contract} (h : Made bases events fc c) :
    c.name = fc.2.name ∧ c.bases = fc.2.bases ∧ ownEvents fc.1.scope fc.2 = .ok c.events := by
  obtain ⟨next, next', h⟩ := h
  obtain ⟨properties, hevents, -, hname, hbases⟩ := contract_builtIn h
  exact ⟨hname, hbases, hevents⟩

/-- The events that a class inherits are looked up by name. -/
theorem inheritedEvents_congr {bases : Graph} {declared declared' : Table (List Event)}
    (h : ∀ name, declared.get? name = declared'.get? name) (name : String) :
    inheritedEvents bases declared name = inheritedEvents bases declared' name := by
  rw [inheritedEvents, inheritedEvents]
  simp only [h]

/-- The events that the files make known are those that the contracts declare. -/
theorem Declared.events_get? (hk : Declared files k) {bases : Graph}
    (hmade : List.Forall₂ (Made bases k.events) (ownedClasses k.files) registry.contracts)
    (hnodup : (registry.contracts.map Contract.name).Nodup) (name : String) :
    k.events.get? name = registry.declared.get? name := by
  have hnames : (ownedClasses k.files).map (·.2.name) = registry.contracts.map Contract.name :=
    map_eq_of_forall₂ hmade fun _ _ h => h.spec.1.symm
  -- a name that no contract has is in neither table
  by_cases hname : name ∈ registry.contracts.map Contract.name
  · obtain ⟨c, hc, rfl⟩ := List.mem_map.1 hname
    obtain ⟨fc, hfc, hfcc⟩ := exists_of_mem_right hmade hc
    obtain ⟨hcname, -, hevents⟩ := hfcc.spec
    obtain ⟨es, hes, hmem⟩ := hk.events fc hfc
    obtain rfl : c.events = es := Except.ok.inj (hevents.symm.trans hes)
    have hknown : (k.events.map Prod.fst).Nodup := by
      rw [hk.names, hnames]
      exact List.nodup_reverse.2 hnodup
    have hdeclared : (registry.declared.map Prod.fst).Nodup := by
      simpa [Registry.declared, Function.comp_def] using hnodup
    have hentry : (c.name, c.events) ∈ registry.declared := List.mem_map.2 ⟨c, hc, rfl⟩
    rw [Table.get?_of_mem hdeclared hentry, hcname, Table.get?_of_mem hknown hmem]
  · have hknown : k.events.get? name = none := Table.get?_eq_none fun entry hentry heq => by
      have hmem := List.mem_map_of_mem (f := Prod.fst) hentry
      rw [hk.names, List.mem_reverse, hnames] at hmem
      exact hname (heq ▸ hmem)
    have hdeclared : registry.declared.get? name = none :=
      Table.get?_eq_none fun entry hentry heq => by
        obtain ⟨c, hc, rfl⟩ := List.mem_map.1 hentry
        exact hname (List.mem_map.2 ⟨c, hc, heq⟩)
    rw [hknown, hdeclared]

/-- **Every contract of a build is built from its class in the scope of its file**, with the events
it inherits from the other contracts and its own, and no two contracts have one name. -/
theorem resolveFiles_builtIn (h : resolveFiles files = .ok (registry, warnings)) :
    (registry.contracts.map Contract.name).Nodup ∧
      ∃ known, files.foldlM (declareFile (baseScope files)) {} = .ok known ∧
        ∀ c ∈ registry.contracts, ∃ f ∈ known.files, ∃ written properties,
          (f.path, written) ∈ allClasses files ∧ written.name = c.name ∧
          BuiltIn (classScope { f.scope with
            events := inheritedEvents registry.extensions registry.declared c.name } c.events
              properties) written c := by
  obtain ⟨hcheck, known, hknown, hmade⟩ := resolveFiles_eq_ok h
  have hdeclared := declared_of_foldlM hknown
  have hnames : (ownedClasses known.files).map (·.2.name) = registry.contracts.map Contract.name :=
    map_eq_of_forall₂ hmade fun _ _ h => h.spec.1.symm
  have hclasses := hdeclared.allClasses_eq
  have hnodup : (registry.contracts.map Contract.name).Nodup := by
    have hall := (nodup_of_checkClasses hcheck).2
    rw [hclasses, List.map_map] at hall
    rwa [← hnames]
  have hextensions : extensions (allClasses files) = registry.extensions := by
    rw [hclasses, extensions, List.map_map]
    exact map_eq_of_forall₂ hmade fun fc c h => by simp [h.spec.1, h.spec.2.1]
  refine ⟨hnodup, known, hknown, fun c hc => ?_⟩
  obtain ⟨fc, hfc, next, next', hcontract⟩ := exists_of_mem_right hmade hc
  obtain ⟨properties, -, hbuilt, hname, -⟩ := contract_builtIn hcontract
  -- resolving went by the classes of the files; their contracts say the same
  rw [hextensions, inheritedEvents_congr (hdeclared.events_get? hmade hnodup), ← hname] at hbuilt
  have howned : (fc.1.path, fc.2) ∈ allClasses files := by
    rw [hclasses]
    exact List.mem_map_of_mem hfc
  obtain ⟨f, hf, hfc⟩ := List.mem_flatMap.1 hfc
  obtain ⟨written, -, rfl⟩ := List.mem_map.1 hfc
  exact ⟨f, hf, written, properties, howned, hname.symm, hbuilt⟩

end Build

end Covenant
