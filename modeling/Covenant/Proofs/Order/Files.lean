import Covenant.Proofs.Build.Loading
import Covenant.Proofs.Computations
import Mathlib.Data.List.Nodup

/-!
# The files of a build in another order

Which files a build reads depends on what it was asked for, and their order on the order in which it
was. Reading never fails for the order: a file can be read if it and all files it reaches are there,
have only imports that can be followed, and do not import themselves (`load_succeeds`).
So two builds that were asked for the same files in different orders have the same files, each in
an order in which they come after those they import (`loadAll_paired`).
-/

namespace Covenant

open Relation (ReflTransGen TransGen)

namespace Build

/-- An import names a module of the environment or a file. -/
def CanFollow (i : Source.Import) : Prop :=
  Environment.isModule i.source ∨ isRelative i.source

/-- All imports of a file can be followed. -/
def IsPlain (program : Source.Program) : Prop :=
  ∀ i ∈ program.imports, CanFollow i

/-- Files each of which only has imports that can be followed. -/
def ArePlain (loaded : List SourceFile) : Prop :=
  ∀ file ∈ loaded, IsPlain file.program

/-- **A file can be read with all that it reaches**: these files are there, with imports that can be
followed, and none imports itself. -/
structure Files.Readable (files : Files) (path : String) : Prop where
  holds : ∀ p, ReflTransGen files.Imports path p →
    ∃ program, files.Holds p program ∧ IsPlain program
  acyclic : ∀ p, ReflTransGen files.Imports path p → ¬ files.Cyclic p

variable {files : Files} {entries entries' : List String} {path text : String}
  {active : List String} {loaded more : List SourceFile}

theorem Files.Readable.step {next : String} (h : files.Readable path)
    (himport : files.Imports path next) : files.Readable next where
  holds := fun p hp => h.holds p (.head himport hp)
  acyclic := fun p hp => h.acyclic p (.head himport hp)

/-! ## What was read could be -/

/-- Following imports keeps the loaded files plain, and each of them can be followed. -/
theorem loadImports_plain {importer : String} {imports : List Source.Import}
    {recorded : List (Source.Import × String)}
    (hnext : ∀ next text, next ∉ active → files.get? next = some text → ∀ loaded more,
      ArePlain loaded → load files (next :: active) loaded next text = .ok more → ArePlain more)
    (hloaded : ArePlain loaded)
    (h : loadImports files active loaded importer imports = .ok (more, recorded)) :
    ArePlain more ∧ ∀ i ∈ imports, CanFollow i := by
  induction imports generalizing loaded more recorded with
  | nil =>
    rw [loadImports] at h
    cases h
    exact ⟨hloaded, by simp⟩
  | cons i rest ih =>
    rw [loadImports] at h
    by_cases hmodule : Environment.isModule i.source
    · rw [if_pos hmodule] at h
      obtain ⟨hmore, hrest⟩ := ih hloaded h
      exact ⟨hmore, List.forall_mem_cons.2 ⟨.inl hmodule, hrest⟩⟩
    rw [if_neg hmodule] at h
    by_cases hrelative : isRelative i.source
    · rw [if_neg (by simpa using hrelative)] at h
      -- the imports behind this one are read on top of whatever it takes in
      have hothers {before : List SourceFile} {tail : List (Source.Import × String)}
          (hbefore : ArePlain before)
          (h : loadImports files active before importer rest = .ok (more, tail)) :
          ArePlain more ∧ ∀ j ∈ i :: rest, CanFollow j := by
        obtain ⟨hmore, hrest⟩ := ih hbefore h
        exact ⟨hmore, List.forall_mem_cons.2 ⟨.inr hrelative, hrest⟩⟩
      dsimp only at h
      split at h
      · split at h
        · cases h
        · rename_i hrest
          cases h
          exact hothers hloaded hrest
      split at h
      · cases h
      rename_i hactive
      split at h
      · cases h
      rename_i text htext
      split at h
      · cases h
      rename_i between hbetween
      split at h
      · cases h
      · rename_i hrest
        cases h
        exact hothers (hnext _ text hactive htext loaded between hloaded hbetween) hrest
    · rw [if_pos (by simpa using hrelative)] at h
      cases h

theorem load_plain (hpath : path ∉ active) (htext : files.get? path = some text) :
    ∀ loaded more, ArePlain loaded → load files (path :: active) loaded path text = .ok more →
      ArePlain more := by
  refine @reading_induction files
    (fun active path text => ∀ loaded more, ArePlain loaded →
      load files (path :: active) loaded path text = .ok more → ArePlain more)
    (fun active path text hpath htext hnext loaded more hloaded h => ?_) active path text hpath
    htext
  rw [load] at h
  split at h
  · cases h
  rename_i program _
  split at h
  · cases h
  rename_i before recorded hbefore
  cases h
  obtain ⟨hbefore, hprogram⟩ := loadImports_plain hnext hloaded hbefore
  refine List.forall_mem_append.2 ⟨hbefore, ?_⟩
  rintro _ (_ | ⟨_, ⟨⟩⟩)
  exact hprogram

theorem loadAll_plain (h : loadAll files entries = .ok loaded) : ArePlain loaded := by
  refine foldlM_keeps ArePlain (fun entry _ s t hs hstep => ?_)
    (fun _ h => absurd h List.not_mem_nil) h
  unfold loadEntry at hstep
  dsimp only at hstep
  split at hstep
  · cases hstep
    exact hs
  split at hstep
  · cases hstep
  rename_i text htext
  exact load_plain List.not_mem_nil htext s t hs hstep

/-- **The files of a build** are those that it reaches, in order, and can be read. -/
theorem loadAll_eq_ok (h : loadAll files entries = .ok loaded) :
    Ordered files loaded ∧ (∀ path, path ∈ paths loaded ↔ files.Reached entries path) ∧
      ∀ path ∈ paths loaded, files.Readable path := by
  have hsound := @sound_foldlM files [] entries .nil
  rw [← loadAll, h] at hsound
  obtain ⟨hadds, hentries⟩ := hsound
  have hordered := hadds.ordered
  refine ⟨hordered, fun path => ⟨fun hpath => ?_, ?_⟩, fun path hpath => ⟨fun p hp => ?_, ?_⟩⟩
  · exact (hadds.added path hpath).resolve_left (by simp)
  · rintro ⟨entry, hentry, hreach⟩
    exact hordered.closed_trans (hentries entry hentry) hreach
  · obtain ⟨file, hfile, rfl⟩ := List.mem_map.1 (hordered.closed_trans hpath hp)
    exact ⟨file.program, (hordered.isOf file hfile).1, loadAll_plain h file hfile⟩
  · exact fun p hp => hordered.acyclic (hordered.closed_trans hpath hp)

/-! ## What can be read is read -/

/-- Reading a file that can be read succeeds, with the files that lead to it open. -/
def Succeeds (files : Files) (active : List String) (path text : String) : Prop :=
  ∀ loaded, files.Readable path → Ordered files loaded →
    (∀ a ∈ path :: active, a ∉ paths loaded) →
    (∀ a ∈ path :: active, ReflTransGen files.Imports a path) →
      ∃ more, load files (path :: active) loaded path text = .ok more

theorem loadImports_succeeds {importer : String} {program : Source.Program}
    (hreadable : files.Readable importer) (hholds : files.Holds importer program)
    (hplain : IsPlain program) (hopen : ∀ a ∈ active, ReflTransGen files.Imports a importer)
    (hnext : ∀ next text, next ∉ active → files.get? next = some text →
      Succeeds files active next text)
    {imports : List Source.Import} (himports : ∀ i ∈ imports, i ∈ program.imports)
    (hordered : Ordered files loaded) (hapart : ∀ a ∈ active, a ∉ paths loaded) :
    ∃ result, loadImports files active loaded importer imports = .ok result := by
  induction imports generalizing loaded with
  | nil => exact ⟨_, by rw [loadImports]⟩
  | cons i rest ih =>
    obtain ⟨hi, hrest⟩ := List.forall_mem_cons.1 himports
    rw [loadImports]
    by_cases hmodule : Environment.isModule i.source
    · rw [if_pos hmodule]
      exact ih hrest hordered hapart
    have hrelative := (hplain i hi).resolve_left hmodule
    have hnames : namesFile i := by simp [namesFile, hmodule, hrelative]
    have himport : files.Imports importer (importPath importer i.source) :=
      hholds.imports_iff.2 ⟨i, hi, hnames, rfl⟩
    have hreadable' := hreadable.step himport
    rw [if_neg hmodule, if_neg (by simpa using hrelative)]
    dsimp only
    simp only [any_path]
    split
    · obtain ⟨result, hresult⟩ := ih hrest hordered hapart
      exact ⟨_, by rw [hresult]⟩
    rename_i hloaded
    split
    · -- an open file leads to the importer, which would import itself
      rename_i hactive
      exact (hreadable.acyclic importer .refl (.head' himport (hopen _ hactive))).elim
    rename_i hactive
    obtain ⟨_, ⟨text, htext, -⟩, -⟩ := hreadable'.holds _ .refl
    have hapart' : ∀ a ∈ importPath importer i.source :: active, a ∉ paths loaded := by
      simpa using ⟨hloaded, hapart⟩
    have hopen' : ∀ a ∈ importPath importer i.source :: active,
        ReflTransGen files.Imports a (importPath importer i.source) := by
      simpa using ⟨.refl, fun a ha => (hopen a ha).tail himport⟩
    obtain ⟨between, hbetween⟩ :=
      hnext _ text hactive htext loaded hreadable' hordered hapart' hopen'
    -- what was read for this import is in order, so that the other ones can be read
    have hreads := reads hactive htext loaded hordered hapart' hopen'
    rw [hbetween] at hreads
    obtain ⟨result, hresult⟩ := ih hrest hreads.1.ordered hreads.1.apart
    split
    · rename_i habsent
      rw [htext] at habsent
      cases habsent
    rename_i text' htext'
    obtain rfl : text = text' := Option.some.inj (htext.symm.trans htext')
    simp only [hbetween, hresult]
    exact ⟨_, rfl⟩

/-- **What can be read is read.** -/
theorem load_succeeds (hpath : path ∉ active) (htext : files.get? path = some text) :
    Succeeds files active path text := by
  refine reading_induction (fun active path text hpath htext hnext => ?_) hpath htext
  intro loaded hreadable hordered hapart hopen
  obtain ⟨program, hholds, hplain⟩ := hreadable.holds path .refl
  obtain ⟨result, hresult⟩ := loadImports_succeeds hreadable hholds hplain hopen hnext
    (fun _ => id) hordered hapart
  obtain ⟨text', htext', hparse⟩ := hholds
  obtain rfl : text = text' := Option.some.inj (htext.symm.trans htext')
  rw [load]
  simp only [hparse, hresult]
  exact ⟨_, rfl⟩

/-- An entry whose files can all be read is loaded. -/
theorem loadEntry_succeeds {entry : String} (hreadable : files.Readable (Path.clean entry))
    (hordered : Ordered files loaded) :
    ∃ more, loadEntry files loaded entry = .ok more ∧ Ordered files more := by
  obtain ⟨more, hmore⟩ : ∃ more, loadEntry files loaded entry = .ok more := by
    simp only [loadEntry, any_path]
    split
    · exact ⟨_, rfl⟩
    rename_i hloaded
    obtain ⟨_, ⟨text, htext, -⟩, -⟩ := hreadable.holds _ .refl
    rw [htext]
    exact load_succeeds List.not_mem_nil htext loaded hreadable hordered (by simpa using hloaded)
      (by simpa using ReflTransGen.refl)
  have hsound := @sound_loadEntry files loaded entry hordered
  rw [hmore] at hsound
  exact ⟨more, hmore, hsound.1.ordered⟩

/-! ## Two orders -/

/-- **Two orders of the same files**, in both of which they come after those they import. -/
structure Reordered (files : Files) (loaded loaded' : List SourceFile) : Prop where
  ordered : Ordered files loaded
  ordered' : Ordered files loaded'
  perm : loaded.Perm loaded'

theorem Reordered.symm {loaded' : List SourceFile} (h : Reordered files loaded loaded') :
    Reordered files loaded' loaded :=
  ⟨h.ordered', h.ordered, h.perm.symm⟩

/-- A file that was read is known by its path. -/
theorem SourceFile.IsOf.unique {file other : SourceFile} (h : file.IsOf files)
    (h' : other.IsOf files) (hpath : file.path = other.path) : file = other := by
  obtain ⟨path, program, imports⟩ := file
  obtain ⟨path', program', imports'⟩ := other
  obtain rfl : path = path' := hpath
  obtain rfl : program = program' := h.1.unique h'.1
  obtain rfl : imports = imports' := h.2.trans h'.2.symm
  rfl

theorem Ordered.mem_of_paths {loaded' : List SourceFile} (h : Ordered files loaded)
    (h' : Ordered files loaded') (hpaths : ∀ path ∈ paths loaded, path ∈ paths loaded')
    {file : SourceFile} (hfile : file ∈ loaded) : file ∈ loaded' := by
  obtain ⟨other, hother, hpath⟩ := List.mem_map.1 (hpaths _ (List.mem_map_of_mem hfile))
  rwa [(h.isOf file hfile).unique (h'.isOf other hother) hpath.symm]

/-- **Entries in another order load the same files**, in another order. -/
theorem loadAll_reordered (hentries : entries.Perm entries')
    (h : loadAll files entries = .ok loaded) :
    ∃ loaded', loadAll files entries' = .ok loaded' ∧ Reordered files loaded loaded' := by
  obtain ⟨hordered, hpaths, hreadable⟩ := loadAll_eq_ok h
  have hall : ∀ entry ∈ entries', files.Readable (Path.clean entry) := fun entry hentry =>
    hreadable _ ((hpaths _).2 ⟨entry, hentries.mem_iff.2 hentry, .refl⟩)
  obtain ⟨loaded', h', -⟩ := exists_foldlM (Ordered files)
    (fun entry hentry _ hordered => loadEntry_succeeds (hall entry hentry) hordered) .nil
  obtain ⟨hordered', hpaths', -⟩ := loadAll_eq_ok h'
  have hsame (path : String) : path ∈ paths loaded ↔ path ∈ paths loaded' := by
    simp only [hpaths, hpaths', Files.Reached, hentries.mem_iff]
  refine ⟨loaded', h', hordered, hordered', ?_⟩
  have hnodup : loaded.Nodup := List.Nodup.of_map _ hordered.nodup
  have hnodup' : loaded'.Nodup := List.Nodup.of_map _ hordered'.nodup
  refine (List.perm_ext_iff_of_nodup hnodup hnodup').2 fun file => ?_
  exact ⟨hordered.mem_of_paths hordered' fun path => (hsame path).1,
    hordered'.mem_of_paths hordered fun path => (hsame path).2⟩

/-- **A build has the same files** in whatever order it was asked for them. -/
theorem loadAll_paired (hentries : entries.Perm entries') :
    Paired (Reordered files) (loadAll files entries) (loadAll files entries') := by
  refine paired_iff.2 ⟨fun loaded => loadAll_reordered hentries, fun loaded' h' => ?_⟩
  obtain ⟨loaded, h, hreordered⟩ := loadAll_reordered hentries.symm h'
  exact ⟨loaded, h, hreordered.symm⟩

end Build

end Covenant
