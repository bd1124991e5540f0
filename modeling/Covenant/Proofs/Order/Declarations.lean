import Covenant.Proofs.Build.Contracts
import Covenant.Proofs.Order.Files
import Covenant.Proofs.Order.Scopes

/-!
# Declarations of files in another order

What a file declares depends on the names of the contracts, in whatever order they are known, and on
what the files that it imports declare (`settle_knowing`). In a build these come before it, and
nothing that comes later changes what is known of them. So what is known of each file in the end is
what was found when it was its turn (`settledAs_of_foldlM`), and files that are put in another order
declare the same (`exists_known_reordered`).
-/

namespace Covenant

namespace Resolve

variable {scope : Scope} {names : List String}

/-- Two scopes differ in the order in which the contracts are known. -/
structure SameScope (names : List String) (scope scope' : Scope) : Prop where
  eq : scope' = scope.knowing names
  perm : scope.contracts.Perm names

/-! ## Declarations -/

theorem interfaceFields_knowing (hnames : scope.contracts.Perm names) (interface : String)
    (seen : List String) (fields : List Source.InterfaceField) :
    interfaceFields (scope.knowing names) interface seen fields =
      interfaceFields scope interface seen fields := by
  induction fields generalizing seen with
  | nil => rfl
  | cons f rest ih =>
    rw [interfaceFields, interfaceFields, resolveType_knowing hnames]
    simp only [ih]

theorem interface_knowing (hnames : scope.contracts.Perm names) :
    interface (scope.knowing names) = interface scope := by
  funext d
  rw [interface, interface, interfaceFields_knowing hnames]

theorem interfaces_knowing (hnames : scope.contracts.Perm names) (program : Source.Program) :
    interfaces (scope.knowing names) program = interfaces scope program := by
  have hinner (table : Table Interface) :
      interface { scope.knowing names with interfaces := table } =
        interface { scope with interfaces := table } :=
    @interface_knowing { scope with interfaces := table } names hnames
  have htypes : (scope.knowing names).interfaces = scope.interfaces := rfl
  rw [interfaces, interfaces]
  simp only [htypes, hinner]

theorem annotate_knowing (hnames : scope.contracts.Perm names) (written : Source.TypeRef)
    (e : Expr) : annotate (scope.knowing names) written e = annotate scope written e := by
  cases e <;> first | rfl | rw [annotate, annotate, resolveType_knowing hnames]

theorem constantValue_knowing (hnames : scope.contracts.Perm names) (d : Source.ConstantDecl) :
    Paired (· = ·) (constantValue scope d) (constantValue (scope.knowing names) d) := by
  refine .check .rfl fun _ => (expression_knowing hnames _).bind ?_
  rintro v _ rfl
  refine .check .rfl fun _ => ?_
  split
  · rw [annotate_knowing hnames]
    exact .refl _
  · exact .refl _

/-- The constants of a file are the same, by induction on them. -/
theorem constants_knowing (hnames : scope.contracts.Perm names)
    (declared : List Source.ConstantDecl) (found : Table Expr) :
    Paired (· = ·) (constants scope declared found)
      (constants (scope.knowing names) declared found) := by
  induction declared generalizing found with
  | nil => exact .refl _
  | cons d rest ih =>
    refine .check .rfl fun _ => ?_
    refine (@constantValue_knowing { scope with constants := scope.constants.putAll found } names
      hnames d).bind ?_
    rintro value _ rfl
    exact ih _

/-- **A file declares the same** where the contracts are known in another order. -/
theorem declarations_knowing (hnames : scope.contracts.Perm names) (program : Source.Program) :
    Paired (fun r r' => r' = (r.1, r.2.knowing names) ∧ r.2.contracts.Perm names)
      (declarations scope program)
      (declarations (scope.knowing names) program) := by
  rw [declarations, declarations, interfaces_knowing hnames]
  refine .bind_same fun interfaces => ?_
  refine (@constants_knowing { scope with interfaces := scope.interfaces.putAll interfaces } names
    hnames program.constants []).bind ?_
  rintro found _ rfl
  exact ⟨rfl, hnames⟩

end Resolve

namespace Build

open Resolve

variable {base : Scope} {names : List String} {exports exports' : Exports}

/-! ## Imports -/

/-- A name is imported into both scopes, or is missing for both. -/
theorem importName_knowing {scope scope' : Scope} (h : SameScope names scope scope')
    (i : Source.Import) (d : Declarations) (name : String) :
    Paired (SameScope names) (importName i d scope name) (importName i d scope' name) := by
  obtain ⟨rfl, hnames⟩ := h
  rw [importName, importName]
  split
  · exact ⟨rfl, hnames⟩
  · exact ⟨rfl, hnames⟩
  · exact .ite .rfl (fun _ => ⟨rfl, hnames⟩) fun _ => trivial

theorem importInto_knowing {scope scope' : Scope} (h : SameScope names scope scope')
    (i : Source.Import × String) :
    Paired (SameScope names) (importInto exports scope i) (importInto exports scope' i) := by
  rw [importInto, importInto]
  split
  · exact .foldlM (fun name _ _ hscope => importName_knowing hscope _ _ name) h
  · obtain ⟨rfl, hnames⟩ := h
    exact ⟨rfl, hnames⟩

/-- Of what files export only that of the imported ones counts. -/
theorem imports_congr {imports : List (Source.Import × String)}
    (h : ∀ i ∈ imports, exports.get? i.2 = exports'.get? i.2) (scope : Scope) :
    imports.foldlM (importInto exports) scope = imports.foldlM (importInto exports') scope := by
  induction imports generalizing scope with
  | nil => rfl
  | cons i rest ih =>
    obtain ⟨hi, hrest⟩ := List.forall_mem_cons.1 h
    rw [List.foldlM_cons, List.foldlM_cons, importInto, importInto, hi]
    exact congrArg (_ >>= ·) (funext (ih hrest))

/-! ## One file -/

/-- What a file declares, the scope of its classes, and the events of each. -/
structure Settled where
  declared : Declarations
  scope : Scope
  events : List (String × List Event)

/-- **Finds what a file declares**, given what the files that it imports export. -/
def settle (base : Scope) (exports : Exports) (f : SourceFile) : Except Fault Settled := do
  let imported ← f.imports.foldlM (importInto exports) base
  let r ← declarations imported f.program
  let events ← r.1.classes.mapM fun c => do return (c.name, ← ownEvents r.2 c)
  return ⟨r.1, r.2, events⟩

/-- What is known with one more file. -/
def Known.withFile (k : Known) (f : SourceFile) (s : Settled) : Known where
  exports := k.exports.put f.path s.declared
  events := s.events.reverse ++ k.events
  files := k.files ++ [{ path := f.path, classes := s.declared.classes, scope := s.scope }]

/-- A file is settled by the exports of the others, and then known. -/
theorem declareFile_eq (k : Known) (f : SourceFile) :
    declareFile base k f = settle base k.exports f >>= fun s => pure (k.withFile f s) := by
  simp only [declareFile, settle, bind_assoc, pure_bind]
  rfl

/-- **Of the exports only those of the imported files count.** -/
theorem settle_congr {f : SourceFile} (h : ∀ i ∈ f.imports, exports.get? i.2 = exports'.get? i.2) :
    settle base exports f = settle base exports' f := by
  rw [settle, settle, imports_congr h]

/-- Two files declare the same, in scopes that know the contracts in different orders. -/
structure SameSettled (names : List String) (s s' : Settled) : Prop where
  declared : s'.declared = s.declared
  scope : SameScope names s.scope s'.scope

/-- **A file declares the same** in a scope that knows the contracts in another order. -/
theorem settle_knowing (hnames : base.contracts.Perm names) (f : SourceFile) :
    Paired (SameSettled names) (settle base exports f) (settle (base.knowing names) exports f) := by
  have himports : Paired (SameScope names) (f.imports.foldlM (importInto exports) base)
      (f.imports.foldlM (importInto exports) (base.knowing names)) :=
    .foldlM (fun i _ _ hscope => importInto_knowing hscope i) ⟨rfl, hnames⟩
  refine himports.bind ?_
  rintro imported _ ⟨rfl, himported⟩
  refine (declarations_knowing himported f.program).bind ?_
  rintro ⟨declared, scope⟩ _ ⟨rfl, hscope⟩
  exact .bind_same fun events => ⟨rfl, rfl, hscope⟩

theorem settle_classes {f : SourceFile} {s : Settled} (h : settle base exports f = .ok s) :
    s.declared.classes = f.program.classes := by
  obtain ⟨imported, -, h⟩ := bind_eq_ok.1 h
  obtain ⟨⟨declared, scope⟩, hdeclared, h⟩ := bind_eq_ok.1 h
  obtain ⟨events, -, h⟩ := bind_eq_ok.1 h
  cases h
  exact (declarations_eq_ok hdeclared).1

/-! ## Files in order -/

variable {files : Files} {loaded loaded' : List SourceFile} {k : Known}

theorem SourceFile.IsOf.imports_of_mem {file : SourceFile} (h : file.IsOf files)
    {i : Source.Import × String} (hi : i ∈ file.imports) : files.Imports file.path i.2 := by
  rw [h.2, List.mem_map] at hi
  obtain ⟨j, hj, rfl⟩ := hi
  rw [List.mem_filter] at hj
  exact h.1.imports_iff.2 ⟨j, hj.1, hj.2, rfl⟩

/-- What is known of a file in the end is what it declares on top of the other ones. -/
structure SettledAs (base : Scope) (exports : Exports) (known : List String) (g : SourceFile)
    (f : DeclaredFile) : Prop where
  imports : ∀ i ∈ g.imports, i.2 ∈ known
  settled : ∃ s, settle base exports g = .ok s ∧ exports.get? g.path = some s.declared ∧
    f.scope = s.scope
  path : f.path = g.path
  classes : f.classes = g.program.classes
  mem : g.path ∈ known

theorem SettledAs.mono {known more : List String} {g : SourceFile} {f : DeclaredFile}
    (h : SettledAs base exports known g f)
    (hsame : ∀ path ∈ known, exports.get? path = exports'.get? path)
    (hmore : ∀ path ∈ known, path ∈ more) : SettledAs base exports' more g f := by
  obtain ⟨s, hs, hexported, hscope⟩ := h.settled
  refine { h with
    imports := fun i hi => hmore _ (h.imports i hi)
    settled := ⟨s, ?_, ?_, hscope⟩
    mem := hmore _ h.mem }
  · rw [← hs]
    exact (settle_congr fun i hi => hsame _ (h.imports i hi)).symm
  · rw [← hsame _ h.mem, hexported]

/-- **What was found of a file is what is known of it in the end.** -/
theorem settledAs_of_foldlM (h : Ordered files loaded)
    (hk : loaded.foldlM (declareFile base) {} = .ok k) :
    List.Forall₂ (SettledAs base k.exports (paths loaded)) loaded k.files := by
  induction h generalizing k with
  | nil =>
    cases hk
    exact .nil
  | @snoc loaded file hfront hfile hnew himports ih =>
    rw [List.foldlM_append, bind_eq_ok] at hk
    obtain ⟨before, hbefore, hk⟩ := hk
    rw [List.foldlM_cons, declareFile_eq, bind_assoc] at hk
    obtain ⟨s, hs, hk⟩ := bind_eq_ok.1 hk
    obtain rfl : before.withFile file s = k := Except.ok.inj hk
    -- the last file is new, and no file in front of it imports it
    have hkept (path : String) (hpath : path ∈ paths loaded) :
        before.exports.get? path = (before.withFile file s).exports.get? path := by
      rw [Known.withFile, Table.put, Table.get?_cons, if_neg]
      rintro rfl
      exact hnew hpath
    have himported (i : Source.Import × String) (hi : i ∈ file.imports) : i.2 ∈ paths loaded :=
      himports _ (hfile.imports_of_mem hi)
    have hlast : SettledAs base (before.withFile file s).exports (paths (loaded ++ [file])) file
        { path := file.path, classes := s.declared.classes, scope := s.scope } := by
      refine ⟨fun i hi => by simp [himported i hi], ⟨s, ?_, ?_, rfl⟩, rfl, settle_classes hs,
        by simp⟩
      · rw [← hs]
        exact (settle_congr fun i hi => hkept _ (himported i hi)).symm
      · simp [Known.withFile, Table.put, Table.get?_cons]
    have hothers := (ih hbefore).imp fun g f hgf =>
      hgf.mono hkept fun path hpath => show path ∈ paths (loaded ++ [file]) by simp [hpath]
    exact List.rel_append hothers (.cons hlast .nil)

/-- Files can be declared in order where each can be on top of what is known in the end. -/
theorem exists_known (h : Ordered files loaded)
    (hall : ∀ g ∈ loaded, ∃ s, settle base exports g = .ok s ∧
      exports.get? g.path = some s.declared) :
    ∃ k, loaded.foldlM (declareFile base) {} = .ok k ∧
      ∀ path ∈ paths loaded, k.exports.get? path = exports.get? path := by
  induction h with
  | nil => exact ⟨_, rfl, by simp⟩
  | @snoc loaded file hfront hfile hnew himports ih =>
    obtain ⟨before, hbefore, hsame⟩ := ih fun g hg => hall g (List.mem_append_left _ hg)
    obtain ⟨s, hs, hexported⟩ := hall file (by simp)
    have hs' : settle base before.exports file = .ok s := by
      rw [← hs]
      exact settle_congr fun i hi => hsame _ (himports _ (hfile.imports_of_mem hi))
    refine ⟨before.withFile file s, ?_, fun path hpath => ?_⟩
    · rw [List.foldlM_append, hbefore, ok_bind, List.foldlM_cons, declareFile_eq, hs']
      rfl
    · rw [Known.withFile, Table.put, Table.get?_cons]
      split
      · rename_i heq
        rw [heq, hexported]
      · rename_i hne
        rw [paths_snoc, List.mem_append, List.mem_singleton] at hpath
        exact hsame path (hpath.resolve_right hne)

/-- Two files declare the same classes, in scopes that know the contracts in different orders. -/
structure SameFile (names : List String) (f f' : DeclaredFile) : Prop where
  path : f'.path = f.path
  classes : f'.classes = f.classes
  scope : SameScope names f.scope f'.scope

/-- **Files that are put in another order declare the same.** -/
theorem exists_known_reordered (h : Reordered files loaded loaded')
    (hnames : base.contracts.Perm names) (hk : loaded.foldlM (declareFile base) {} = .ok k) :
    ∃ k', loaded'.foldlM (declareFile (base.knowing names)) {} = .ok k' ∧
      ∀ f' ∈ k'.files, ∃ f ∈ k.files, SameFile names f f' := by
  have hsettled := settledAs_of_foldlM h.ordered hk
  have hall : ∀ g ∈ loaded', ∃ s, settle (base.knowing names) k.exports g = .ok s ∧
      k.exports.get? g.path = some s.declared := fun g hg => by
    obtain ⟨f, -, hf⟩ := exists_of_mem_left hsettled (h.perm.mem_iff.2 hg)
    obtain ⟨s, hs, hexported, -⟩ := hf.settled
    obtain ⟨s', hs', hsame⟩ := (settle_knowing hnames g).exists_right hs
    exact ⟨s', hs', by rw [hexported, hsame.declared]⟩
  obtain ⟨k', hk', hexports⟩ := exists_known h.ordered' hall
  refine ⟨k', hk', fun f' hf' => ?_⟩
  obtain ⟨g, hg, hgf'⟩ := exists_of_mem_right (settledAs_of_foldlM h.ordered' hk') hf'
  obtain ⟨f, hf, hgf⟩ := exists_of_mem_left hsettled (h.perm.mem_iff.2 hg)
  obtain ⟨s', hs', -, hscope'⟩ := hgf'.settled
  obtain ⟨s, hs, -, hscope⟩ := hgf.settled
  rw [settle_congr fun i hi => hexports _ (hgf'.imports i hi)] at hs'
  obtain ⟨t, ht, hsame⟩ := (settle_knowing hnames g).exists_right hs
  obtain rfl : t = s' := Except.ok.inj (ht.symm.trans hs')
  refine ⟨f, hf, by rw [hgf.path, hgf'.path], by rw [hgf.classes, hgf'.classes], ?_⟩
  rw [hscope, hscope']
  exact hsame.scope

end Build

end Covenant
