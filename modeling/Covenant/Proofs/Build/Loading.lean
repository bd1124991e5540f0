import Covenant.Proofs.Build.Paths
import Covenant.Proofs.Computations
import Mathlib.Logic.Relation

/-!
# The order of the files of a build

The files that import each other form a graph which is only found out while they are read. A build
that can read them has each file that can be reached from those it was asked for, once, and behind
all the files it imports (`Ordered`); such an order has no cycle, and an import is refused for being
part of a cycle only where there is one. No more files are open at a time than there are, so that
reading them comes to an end (`loadAll_spec`).
-/

namespace Covenant

open Relation (ReflTransGen TransGen)

namespace Build

/-! ## Imports as a relation -/

/-- An import names a file, and no module of the environment. -/
def namesFile (i : Source.Import) : Bool :=
  !Environment.isModule i.source && isRelative i.source

/-- There is a file at a path, and it can be read. -/
def Files.Holds (files : Files) (path : String) (program : Source.Program) : Prop :=
  ∃ text, files.get? path = some text ∧ Source.parse path text = .ok program

/-- **A file imports another one**: an element of it is such an import, whatever way to the other
file it spells. -/
def Files.Imports (files : Files) (a b : String) : Prop :=
  ∃ program, files.Holds a program ∧ ∃ e ∈ program.elements, ∃ i, e.body = .imports i ∧
    namesFile i ∧ Path.clean (importPath a i.source) = b

/-- A file is asked for, or imported by one that is reached. -/
def Files.Reached (files : Files) (entries : List String) (path : String) : Prop :=
  ∃ entry ∈ entries, ReflTransGen files.Imports (Path.clean entry) path

/-- A file imports itself, directly or not. -/
def Files.Cyclic (files : Files) (path : String) : Prop :=
  TransGen files.Imports path path

/-- A file that was read is what its text says, with the paths of its imports. -/
def SourceFile.IsOf (file : SourceFile) (files : Files) : Prop :=
  files.Holds file.path file.program ∧
    file.imports = (file.program.imports.filter namesFile).map
      fun i => (i, importPath file.path i.source)

/-- The paths of files that were read. -/
def paths (loaded : List SourceFile) : List String :=
  loaded.map SourceFile.path

@[simp] theorem paths_nil : paths [] = [] := rfl

@[simp] theorem paths_snoc (loaded : List SourceFile) (file : SourceFile) :
    paths (loaded ++ [file]) = paths loaded ++ [file.path] := by
  simp [paths]

@[simp] theorem any_path (loaded : List SourceFile) (path : String) :
    (loaded.any (·.path = path) = true) = (path ∈ paths loaded) := by
  simp [paths]

variable {files : Files} {entries : List String} {a b p : String}

theorem Files.Holds.unique {program other : Source.Program} (h : files.Holds a program)
    (h' : files.Holds a other) : program = other := by
  obtain ⟨text, htext, hparse⟩ := h
  obtain ⟨_, htext', hparse'⟩ := h'
  cases htext.symm.trans htext'
  cases hparse.symm.trans hparse'
  rfl

/-- What a file that can be read imports is found among its imports. -/
theorem Files.Holds.imports_iff {program : Source.Program} (h : files.Holds a program) :
    files.Imports a b ↔ ∃ i ∈ program.imports, namesFile i ∧ importPath a i.source = b := by
  simp only [Files.Imports, clean_importPath, Source.Program.mem_imports]
  constructor
  · rintro ⟨other, hother, e, he, i, hbody, hi⟩
    cases h.unique hother
    exact ⟨i, ⟨e, he, hbody⟩, hi⟩
  · rintro ⟨i, ⟨e, he, hbody⟩, hi⟩
    exact ⟨program, h, e, he, i, hbody, hi⟩

/-! ## Files in order -/

/-- **Files in an order in which each is new and comes after those it imports.** -/
inductive Ordered (files : Files) : List SourceFile → Prop
  | nil : Ordered files []
  | snoc {loaded : List SourceFile} {file : SourceFile} (h : Ordered files loaded)
      (hfile : file.IsOf files) (hnew : file.path ∉ paths loaded)
      (himports : ∀ path, files.Imports file.path path → path ∈ paths loaded) :
      Ordered files (loaded ++ [file])

variable {loaded : List SourceFile}

theorem Ordered.nodup (h : Ordered files loaded) : (paths loaded).Nodup := by
  induction h with
  | nil => exact .nil
  | @snoc loaded file _ _ hnew _ ih =>
    have hapart : ∀ path ∈ paths loaded, path ≠ file.path := fun path hpath heq =>
      hnew (heq ▸ hpath)
    rw [paths_snoc, List.nodup_append]
    simpa [ih] using hapart

theorem Ordered.isOf (h : Ordered files loaded) : ∀ file ∈ loaded, file.IsOf files := by
  induction h with
  | nil => simp
  | snoc _ hfile _ _ ih => simpa [or_imp, forall_and] using ⟨ih, hfile⟩

/-- Every file comes after those it imports. -/
theorem Ordered.before (h : Ordered files loaded) {front back : List SourceFile}
    {file : SourceFile} (hsplit : loaded = front ++ file :: back)
    (himport : files.Imports file.path b) : b ∈ paths front := by
  induction h generalizing back with
  | nil => simp at hsplit
  | @snoc loaded last _ _ _ himports ih =>
    rcases List.eq_nil_or_concat back with rfl | ⟨back, other, rfl⟩
    · obtain ⟨rfl, hlast⟩ := List.append_inj' hsplit rfl
      cases hlast
      exact himports b himport
    · have hinner : loaded ++ [last] = (front ++ file :: back) ++ [other] := by simpa using hsplit
      exact ih (List.append_inj' hinner rfl).1

/-- Files in order include what they import. -/
theorem Ordered.closed (h : Ordered files loaded) (ha : a ∈ paths loaded)
    (himport : files.Imports a b) : b ∈ paths loaded := by
  induction h with
  | nil => simp at ha
  | snoc _ _ _ himports ih =>
    rw [paths_snoc, List.mem_append, List.mem_singleton] at ha ⊢
    obtain hfront | rfl := ha
    · exact .inl (ih hfront)
    · exact .inl (himports b himport)

theorem Ordered.closed_trans (h : Ordered files loaded) (ha : a ∈ paths loaded)
    (hreach : ReflTransGen files.Imports a b) : b ∈ paths loaded := by
  induction hreach with
  | refl => exact ha
  | tail _ himport ih => exact h.closed ih himport

/-- **Files in order import none of themselves**: what the last one imports is in front of it. -/
theorem Ordered.acyclic (h : Ordered files loaded) (ha : a ∈ paths loaded) :
    ¬ files.Cyclic a := by
  induction h with
  | nil => simp at ha
  | snoc hfront _ hnew himports ih =>
    rw [paths_snoc, List.mem_append, List.mem_singleton] at ha
    obtain hfront | rfl := ha
    · exact ih hfront
    · intro hcycle
      obtain ⟨b, himport, hback⟩ := TransGen.head'_iff.1 hcycle
      exact hnew (hfront.closed_trans (himports b himport) hback)

/-! ## Reading files -/

/-- **What comes of reading**: files that `good` describes, or an error; that of an import cycle
only for a file that is met and imports itself. -/
def Sound {α : Type} (files : Files) (met : String → Prop) (good : α → Prop) :
    Except Failure α → Prop
  | .ok loaded => good loaded
  | .error e => ∀ pos path, e = .malformed pos (.importCycle path) → met path ∧ files.Cyclic path

/-- What reading adds to the files there are, where some files are open: nothing but files that are
met. -/
structure Adds (files : Files) (met : String → Prop) (active : List String)
    (loaded more : List SourceFile) : Prop where
  ordered : Ordered files more
  kept : ∀ path ∈ paths loaded, path ∈ paths more
  apart : ∀ path ∈ active, path ∉ paths more
  added : ∀ path ∈ paths more, path ∈ paths loaded ∨ met path

/-- What reading the files behind imports gives: each file is recorded beside its import. -/
structure Follows (files : Files) (met : String → Prop) (active : List String)
    (loaded : List SourceFile) (importer : String) (imports : List Source.Import)
    (result : List SourceFile × List (Source.Import × String)) : Prop where
  adds : Adds files met active loaded result.1
  recorded : result.2 = (imports.filter namesFile).map fun i => (i, importPath importer i.source)
  found : ∀ i ∈ imports, namesFile i → importPath importer i.source ∈ paths result.1

variable {met met' : String → Prop} {active : List String} {more most : List SourceFile}

theorem Adds.refl (h : Ordered files loaded) (hapart : ∀ path ∈ active, path ∉ paths loaded) :
    Adds files met active loaded loaded :=
  ⟨h, fun _ => id, hapart, fun _ => .inl⟩

theorem Adds.trans (h : Adds files met active loaded more) (h' : Adds files met active more most) :
    Adds files met active loaded most where
  ordered := h'.ordered
  kept := fun path hpath => h'.kept path (h.kept path hpath)
  apart := h'.apart
  added := fun path hpath => (h'.added path hpath).elim (h.added path) .inr

theorem Adds.mono (h : Adds files met active loaded more) (hmet : ∀ path, met path → met' path) :
    Adds files met' active loaded more :=
  { h with added := fun path hpath => (h.added path hpath).imp_right (hmet path) }

theorem Sound.mono {α : Type} {good good' : α → Prop} {result : Except Failure α}
    (h : Sound files met good result) (hmet : ∀ path, met path → met' path)
    (hgood : ∀ loaded, good loaded → good' loaded) : Sound files met' good' result := by
  cases result with
  | ok loaded => exact hgood loaded h
  | error e => exact fun pos path he => (h pos path he).imp_left (hmet path)

/-- **Files are read one within the other.** What holds of reading a file if it holds of reading any
file that is not open yet, holds of reading every file. -/
theorem reading_induction {P : List String → String → String → Prop}
    (step : ∀ active path text, path ∉ active → files.get? path = some text →
      (∀ next more, next ∉ path :: active → files.get? next = some more →
        P (path :: active) next more) → P active path text)
    {active : List String} {path text : String} (hpath : path ∉ active)
    (htext : files.get? path = some text) : P active path text := by
  obtain ⟨n, hn⟩ : ∃ n, n = pending files active := ⟨_, rfl⟩
  induction n using Nat.strongRecOn generalizing active path text with
  | ind n ih =>
    refine step active path text hpath htext fun next more hnext hmore => ?_
    exact ih _ (hn ▸ pending_cons_lt htext hpath) hnext hmore rfl

/-- Reading a file, with the files that lead to it open, reads what it reaches. -/
def Reads (files : Files) (active : List String) (path text : String) : Prop :=
  ∀ loaded, Ordered files loaded → (∀ a ∈ path :: active, a ∉ paths loaded) →
    (∀ a ∈ path :: active, ReflTransGen files.Imports a path) →
      Sound files (ReflTransGen files.Imports path)
        (fun more => Adds files (ReflTransGen files.Imports path) active loaded more ∧
          path ∈ paths more)
        (load files (path :: active) loaded path text)

/-- An import is recorded in front of those behind it. -/
theorem sound_record {importer : String} {i : Source.Import} {rest : List Source.Import}
    (hnames : namesFile i) (hadds : Adds files met active loaded more)
    (hpath : importPath importer i.source ∈ paths more)
    {result : Except Failure (List SourceFile × List (Source.Import × String))} :
    Sound files met (Follows files met active more importer rest) result →
      Sound files met (Follows files met active loaded importer (i :: rest))
        (match result with
          | .error e => .error e
          | .ok (most, recorded) =>
            .ok (most, (i, importPath importer i.source) :: recorded)) := by
  intro hrest
  cases result with
  | error e => exact hrest
  | ok pair =>
    obtain ⟨hadds', hrecorded, hfound⟩ := hrest
    refine ⟨hadds.trans hadds', by simp [hnames, hrecorded], fun other hother hother' => ?_⟩
    cases hother with
    | head => exact hadds'.kept _ hpath
    | tail _ hrest => exact hfound other hrest hother'

/-- Reading what a file imports. -/
theorem sound_loadImports {importer : String} {program : Source.Program}
    (hholds : files.Holds importer program)
    (hopen : ∀ a ∈ active, ReflTransGen files.Imports a importer)
    (hnext : ∀ next text, next ∉ active → files.get? next = some text →
      Reads files active next text)
    {imports : List Source.Import} (himports : ∀ i ∈ imports, i ∈ program.imports)
    (hordered : Ordered files loaded) (hapart : ∀ a ∈ active, a ∉ paths loaded) :
    Sound files (ReflTransGen files.Imports importer)
      (Follows files (ReflTransGen files.Imports importer) active loaded importer imports)
      (loadImports files active loaded importer imports) := by
  induction imports generalizing loaded with
  | nil =>
    rw [loadImports]
    exact ⟨.refl hordered hapart, rfl, by simp⟩
  | cons i rest ih =>
    have hrest : ∀ i ∈ rest, i ∈ program.imports := fun i hi =>
      himports i (List.mem_cons_of_mem _ hi)
    rw [loadImports]
    -- a module of the environment is no file, and nothing is read for it
    by_cases hmodule : Environment.isModule i.source
    · have hskip : namesFile i = false := by simp [namesFile, hmodule]
      rw [if_pos hmodule]
      refine (ih hrest hordered hapart).mono (fun _ => id) ?_
      rintro result ⟨hadds, hrecorded, hfound⟩
      exact ⟨hadds, by simpa [hskip] using hrecorded, by simpa [hskip] using hfound⟩
    rw [if_neg hmodule]
    by_cases hrelative : isRelative i.source
    · have hnames : namesFile i := by simp [namesFile, hmodule, hrelative]
      have himport : files.Imports importer (importPath importer i.source) :=
        hholds.imports_iff.2 ⟨i, himports i List.mem_cons_self, hnames, rfl⟩
      rw [if_neg (by simpa using hrelative)]
      dsimp only
      simp only [any_path]
      split
      · rename_i hloaded
        exact sound_record hnames (.refl hordered hapart) hloaded (ih hrest hordered hapart)
      · rename_i hloaded
        split
        · rename_i hactive
          rintro pos path he
          cases he
          -- the imported file is open: it leads to this one, which imports it
          exact ⟨.single himport, .tail' (hopen _ hactive) himport⟩
        · rename_i hactive
          split
          · rintro pos path he
            cases he
          · rename_i text htext
            -- the file is read now, with the files that are open leading to it as well
            have hreads := hnext _ text hactive htext loaded hordered
              (by simpa using ⟨hloaded, hapart⟩)
              (by simpa using ⟨.refl, fun a ha => (hopen a ha).tail himport⟩)
            replace hreads := hreads.mono
              (fun path hpath => ReflTransGen.head himport hpath) (fun _ => id)
            split
            · rename_i he
              rwa [he] at hreads
            · rename_i more hmore
              rw [hmore] at hreads
              obtain ⟨hadds, hpath⟩ := hreads
              have hadds := hadds.mono (fun path hpath => ReflTransGen.head himport hpath)
              exact sound_record hnames hadds hpath (ih hrest hadds.ordered hadds.apart)
    · rw [if_pos (by simpa using hrelative)]
      rintro pos path he
      cases he

/-- **Reading a file**: what it imports is read first, and the file is put behind that. -/
theorem reads {path text : String} (hpath : path ∉ active) (htext : files.get? path = some text) :
    Reads files active path text := by
  refine reading_induction (fun active path text hpath htext hnext => ?_) hpath htext
  intro loaded hordered hapart hopen
  rw [load]
  split
  · rintro pos path he
    cases he
  · rename_i program hprogram
    have hholds : files.Holds path program := ⟨text, htext, hprogram⟩
    have hsound := sound_loadImports hholds hopen hnext (fun _ => id) hordered hapart
    split
    · rename_i he
      rwa [he] at hsound
    · rename_i more recorded hmore
      rw [hmore] at hsound
      obtain ⟨hadds, hrecorded, hfound⟩ := hsound
      refine ⟨⟨?_, ?_, ?_, ?_⟩, by simp⟩
      · refine hadds.ordered.snoc ⟨hholds, hrecorded⟩ (hadds.apart _ List.mem_cons_self) ?_
        intro other hother
        obtain ⟨i, hi, hnames, rfl⟩ := hholds.imports_iff.1 hother
        exact hfound i hi hnames
      · intro other hother
        simp [hadds.kept other hother]
      · intro a ha hmem
        rw [paths_snoc, List.mem_append, List.mem_singleton] at hmem
        obtain hmem | rfl := hmem
        · exact hadds.apart a (List.mem_cons_of_mem _ ha) hmem
        · exact hpath ha
      · intro other hother
        rw [paths_snoc, List.mem_append, List.mem_singleton] at hother
        obtain hother | rfl := hother
        · exact hadds.added other hother
        · exact .inr .refl

/-- Reading one of the files that were asked for. -/
theorem sound_loadEntry {entry : String} (hordered : Ordered files loaded) :
    Sound files (ReflTransGen files.Imports (Path.clean entry))
      (fun more => Adds files (ReflTransGen files.Imports (Path.clean entry)) [] loaded more ∧
        Path.clean entry ∈ paths more)
      (loadEntry files loaded entry) := by
  simp only [loadEntry, any_path]
  split
  · rename_i hloaded
    exact ⟨.refl hordered (by simp), hloaded⟩
  · rename_i hloaded
    split
    · rintro pos path he
      cases he
    · rename_i text htext
      exact reads List.not_mem_nil htext loaded hordered (by simpa using hloaded)
        (by simpa using ReflTransGen.refl)

theorem sound_foldlM {entries : List String} (hordered : Ordered files loaded) :
    Sound files (files.Reached entries)
      (fun more => Adds files (files.Reached entries) [] loaded more ∧
        ∀ entry ∈ entries, Path.clean entry ∈ paths more)
      (entries.foldlM (loadEntry files) loaded) := by
  induction entries generalizing loaded with
  | nil => exact ⟨.refl hordered (by simp), by simp⟩
  | cons entry rest ih =>
    have hfirst : ∀ path, ReflTransGen files.Imports (Path.clean entry) path →
        files.Reached (entry :: rest) path := fun path hpath =>
      ⟨entry, List.mem_cons_self, hpath⟩
    have hothers : ∀ path, files.Reached rest path → files.Reached (entry :: rest) path := by
      rintro path ⟨other, hother, hpath⟩
      exact ⟨other, List.mem_cons_of_mem _ hother, hpath⟩
    have hentry := @sound_loadEntry files loaded entry hordered
    rw [List.foldlM_cons]
    cases hresult : loadEntry files loaded entry with
    | error e =>
      rw [hresult] at hentry
      exact fun pos path he => (hentry pos path he).imp_left (hfirst path)
    | ok more =>
      rw [hresult] at hentry
      obtain ⟨hadds, hfound⟩ := hentry
      refine (ih hadds.ordered).mono hothers ?_
      rintro most ⟨hadds', hfound'⟩
      refine ⟨(hadds.mono hfirst).trans (hadds'.mono hothers), ?_⟩
      simpa using ⟨hadds'.kept _ hfound, hfound'⟩

/-! ## How deep files are read within each other -/

/-- Reads the files behind imports as `loadImports` does, with the given way to read one of them,
which may come to no result. -/
def importsBy (files : Files) (active : List String)
    (read : List SourceFile → String → String → Option (Except Failure (List SourceFile)))
    (importer : String) (loaded : List SourceFile) :
    List Source.Import → Option (Except Failure (List SourceFile × List (Source.Import × String)))
  | [] => some (.ok (loaded, []))
  | i :: rest =>
    if Environment.isModule i.source then importsBy files active read importer loaded rest
    else if !isRelative i.source then
      some (.error (.unresolved i.pos .moduleName i.source Environment.moduleNames))
    else
      let path := importPath importer i.source
      let file : Option (Except Failure (List SourceFile)) :=
        if loaded.any (·.path = path) then some (.ok loaded)
        else if path ∈ active then some (.error (.malformed i.pos (.importCycle path)))
        else
          match files.get? path with
          | none =>
            some (.error (.fault
              { pos := i.pos, cause := .unloadable i.source (files.absence path) }))
          | some text => read loaded path text
      match file with
      | none => none
      | some (.error e) => some (.error e)
      | some (.ok loaded) =>
        (importsBy files active read importer loaded rest).map
          (·.map fun (loaded, imports) => (loaded, (i, path) :: imports))

/-- Reads a file as `load` does, and gives up where more than `depth` files are open within it. -/
def loadWithin (files : Files) :
    Nat → List String → List SourceFile → String → String →
      Option (Except Failure (List SourceFile))
  | 0, _, _, _, _ => none
  | depth + 1, active, loaded, path, text =>
    match Source.parse path text with
    | .error e => some (.error (.fault (.ofSyntaxError e)))
    | .ok program =>
      (importsBy files active
          (fun loaded path text => loadWithin files depth (path :: active) loaded path text)
          path loaded program.imports).map
        (·.map fun (loaded, imports) => loaded ++ [{ path, program, imports }])

/-- Reads a file that the build was asked for, with at most `depth` files open. -/
def entryWithin (files : Files) (depth : Nat) (loaded : List SourceFile) (entry : String) :
    Option (Except Failure (List SourceFile)) :=
  let path := Path.clean entry
  if loaded.any (·.path = path) then some (.ok loaded)
  else
    match files.get? path with
    | none => some (.error (.noEntry (files.absence path)))
    | some text => loadWithin files depth [path] loaded path text

/-- **The files of a build**, read with at most `depth` of them open at a time. -/
def loadAllWithin (files : Files) (depth : Nat) (loaded : List SourceFile) :
    List String → Option (Except Failure (List SourceFile))
  | [] => some (.ok loaded)
  | entry :: rest =>
    match entryWithin files depth loaded entry with
    | none => none
    | some (.error e) => some (.error e)
    | some (.ok loaded) => loadAllWithin files depth loaded rest

/-- A text is read through its characters. Given as a list they are there at once, where a text has
to be decoded first. -/
theorem parse_of_toList {path text : String} {cs : List Char} (h : text.toList = cs) :
    Source.parse path text =
      (Source.Lexer.scanFrom (.start path) cs).bind (Source.readAll Source.rule 34 .program) := by
  subst h
  rfl

/-- The one file of a build is read on its own. -/
theorem loadAllWithin_sole {depth : Nat} {path text : String} (hclean : Path.clean path = path)
    (htext : files.get? path = some text) :
    loadAllWithin files depth [] [path] = loadWithin files depth [path] [] path text := by
  rw [loadAllWithin, entryWithin, hclean]
  simp only [List.any_nil, Bool.false_eq_true, if_false, htext]
  cases loadWithin files depth [path] [] path text with
  | none => rfl
  | some result => cases result <;> rfl

theorem importsBy_eq {read : List SourceFile → String → String →
      Option (Except Failure (List SourceFile))} {importer : String}
    (hread : ∀ loaded path text, path ∉ active → files.get? path = some text →
      read loaded path text = some (load files (path :: active) loaded path text))
    (loaded : List SourceFile) (imports : List Source.Import) :
    importsBy files active read importer loaded imports
      = some (loadImports files active loaded importer imports) := by
  induction imports generalizing loaded with
  | nil => rw [importsBy, loadImports]
  | cons i rest ih =>
    rw [importsBy, loadImports]
    by_cases hmodule : Environment.isModule i.source
    · rw [if_pos hmodule, if_pos hmodule, ih]
    by_cases hrelative : isRelative i.source
    · simp only [hmodule, hrelative, Bool.false_eq_true, if_false, Bool.not_true, any_path]
      by_cases hloaded : importPath importer i.source ∈ paths loaded
      · simp only [hloaded, if_true, ih, Option.map_some, Option.some_inj]
        cases loadImports files active loaded importer rest <;> rfl
      by_cases hactive : importPath importer i.source ∈ active
      · simp only [hloaded, hactive, if_true, if_false, dif_pos]
      simp only [hloaded, hactive, if_false, dif_neg, not_false_eq_true]
      symm
      split
      · rename_i htext
        simp only [htext]
      · rename_i text htext
        simp only [htext, hread loaded _ text hactive htext]
        cases load files (importPath importer i.source :: active) loaded _ text with
        | error e => rfl
        | ok more =>
          simp only [ih, Option.map_some, Option.some_inj]
          cases loadImports files active more importer rest <;> rfl
    · simp [hmodule, hrelative]

/-- Where more files may be open than are not read, none is given up. -/
theorem loadWithin_eq {path text : String} (hpath : path ∉ active)
    (htext : files.get? path = some text) {depth : Nat} (hdepth : pending files active ≤ depth) :
    loadWithin files depth (path :: active) loaded path text
      = some (load files (path :: active) loaded path text) := by
  induction depth generalizing active loaded path text with
  | zero =>
    have := pending_cons_lt htext hpath
    omega
  | succ depth ih =>
    have hless := pending_cons_lt htext hpath
    rw [loadWithin, load]
    cases Source.parse path text with
    | error e => rfl
    | ok program =>
      have hread (loaded : List SourceFile) (next more : String) (hnext : next ∉ path :: active)
          (hmore : files.get? next = some more) :
          loadWithin files depth (next :: path :: active) loaded next more
            = some (load files (next :: path :: active) loaded next more) :=
        ih hnext hmore (by omega)
      have himports := @importsBy_eq files (path :: active) _ path hread loaded program.imports
      simp only [himports, Option.map_some, Option.some_inj]
      cases loadImports files (path :: active) loaded path program.imports <;> rfl

/-- **Reading comes to an end**: no more files are open at a time than there are. -/
theorem loadAllWithin_eq (loaded : List SourceFile) (entries : List String) :
    loadAllWithin files files.texts.length loaded entries
      = some (entries.foldlM (loadEntry files) loaded) := by
  have hentry : ∀ loaded entry,
      entryWithin files files.texts.length loaded entry = some (loadEntry files loaded entry) := by
    intro loaded entry
    simp only [entryWithin, loadEntry]
    split
    · rfl
    · cases htext : files.get? (Path.clean entry) with
      | none => rfl
      | some text =>
        exact loadWithin_eq List.not_mem_nil htext (by simp [pending])
  induction entries generalizing loaded with
  | nil => rfl
  | cons entry rest ih =>
    rw [loadAllWithin, hentry, List.foldlM_cons]
    cases loadEntry files loaded entry with
    | error e => rfl
    | ok more => exact ih more

/-- What is to be known about the files of a build: they are those that can be reached from the ones
that were asked for, each once, as it is found at its path, and behind all those it imports. -/
structure Files.LoadedAs (files : Files) (entries : List String) (loaded : List SourceFile) :
    Prop where
  reached : ∀ path, path ∈ paths loaded ↔ files.Reached entries path
  once : (paths loaded).Nodup
  isOf : ∀ file ∈ loaded, file.IsOf files
  after : ∀ front file back, loaded = front ++ file :: back →
    ∀ path, files.Imports file.path path → path ∈ paths front

/-- **A build has the files it needs, each after those it imports.** Reading them ends with no more
files open at a time than there are. If it succeeds, the files are those that can be reached, in
such an order; it does not succeed where a file that imports itself can be reached, and only there
is an import refused for being part of a cycle. -/
theorem loadAll_spec (files : Files) (entries : List String) :
    loadAllWithin files files.texts.length [] entries = some (loadAll files entries) ∧
      (∀ loaded, loadAll files entries = .ok loaded → files.LoadedAs entries loaded) ∧
      (∀ path, files.Reached entries path → files.Cyclic path →
        ∃ e, loadAll files entries = .error e) ∧
      ∀ pos path, loadAll files entries = .error (.malformed pos (.importCycle path)) →
        files.Reached entries path ∧ files.Cyclic path := by
  have hsound := @sound_foldlM files [] entries .nil
  have hfound : ∀ loaded, loadAll files entries = .ok loaded →
      Ordered files loaded ∧ ∀ path, path ∈ paths loaded ↔ files.Reached entries path := by
    intro loaded hloaded
    rw [← loadAll, hloaded] at hsound
    obtain ⟨hadds, hentries⟩ := hsound
    refine ⟨hadds.ordered, fun path => ⟨fun hpath => ?_, ?_⟩⟩
    · exact (hadds.added path hpath).resolve_left (by simp)
    · rintro ⟨entry, hentry, hreach⟩
      exact hadds.ordered.closed_trans (hentries entry hentry) hreach
  refine ⟨loadAllWithin_eq [] entries, fun loaded hloaded => ?_, fun path hreached hcycle => ?_,
    fun pos path he => ?_⟩
  · obtain ⟨hordered, hreached⟩ := hfound loaded hloaded
    exact ⟨hreached, hordered.nodup, hordered.isOf, fun _ _ _ hsplit _ => hordered.before hsplit⟩
  · cases hloaded : loadAll files entries with
    | error e => exact ⟨e, rfl⟩
    | ok loaded =>
      obtain ⟨hordered, hpaths⟩ := hfound loaded hloaded
      exact absurd hcycle (hordered.acyclic ((hpaths path).2 hreached))
  · rw [← loadAll, he] at hsound
    exact hsound pos path rfl

/-- Files that import one of them along two ways, which are spelled differently. -/
def diamond : Files := .ofTexts
  [("main.ts", "import { L } from \"./left\"; import { R } from \"./lib/../right\";"),
    ("left.ts", "import { B } from \"./base\";"), ("right.ts", "import { B } from \"./base.ts\";"),
    ("base.ts", "")]

/-- Two files that import each other. -/
def ring : Files := .ofTexts
  [("a.ts", "import { B } from \"./b\";"), ("b.ts", "import { A } from \"./a\";")]

/-- The file at which an import was refused for being part of a cycle. -/
def refusedCycle? : Except Failure (List SourceFile) → Option String
  | .error (.fault { cause := .malformed (.importCycle path), .. }) => some path
  | _ => none

theorem exists_of_refusedCycle? {r : Except Failure (List SourceFile)} {path : String}
    (h : refusedCycle? r = some path) : ∃ pos, r = .error (.malformed pos (.importCycle path)) := by
  unfold refusedCycle? at h
  split at h
  · cases h
    exact ⟨_, rfl⟩
  · cases h

/-- The file at the bottom of the diamond is read once and comes first. The ring is refused
at the import that closes it, and so the file it is refused for imports itself. -/
theorem loadAll_spec_diamond :
    (∃ loaded, loadAll diamond ["main.ts"] = .ok loaded ∧
      paths loaded = ["base.ts", "left.ts", "right.ts", "main.ts"] ∧
      diamond.LoadedAs ["main.ts"] loaded) ∧
    ∃ pos, loadAll ring ["a.ts"] = .error (.malformed pos (.importCycle "a.ts")) ∧
      ring.Cyclic "a.ts" := by
  have hdiamond : ((loadAllWithin diamond 4 [] ["main.ts"]).bind Except.toOption).map paths
      = some ["base.ts", "left.ts", "right.ts", "main.ts"] := by
    decide +kernel
  have hring : (loadAllWithin ring 2 [] ["a.ts"]).bind refusedCycle? = some "a.ts" := by
    decide +kernel
  obtain ⟨hends, hloads, -, -⟩ := loadAll_spec diamond ["main.ts"]
  obtain ⟨hends', -, -, hcycle⟩ := loadAll_spec ring ["a.ts"]
  constructor
  · rw [show loadAllWithin diamond 4 [] ["main.ts"] = _ from hends, Option.bind_some,
      Option.map_eq_some_iff] at hdiamond
    obtain ⟨loaded, hloaded, hpaths⟩ := hdiamond
    have hloaded := toOption_eq_some.1 hloaded
    exact ⟨loaded, hloaded, hpaths, hloads loaded hloaded⟩
  · rw [show loadAllWithin ring 2 [] ["a.ts"] = _ from hends', Option.bind_some] at hring
    obtain ⟨pos, herror⟩ := exists_of_refusedCycle? hring
    exact ⟨pos, herror, (hcycle pos _ herror).2⟩

end Build

end Covenant
