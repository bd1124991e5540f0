import Covenant.Proofs.Order.Contracts
import Covenant.Proofs.Order.Objects

/-!
# Builds of the same files in different orders

A build that was asked for the same files in another order reads the same files, gives the same
contracts but for the names of locals, finishes them alike and generates code for them or for
neither (`compile_perm`). It lists the same artifacts under the same names, from the same files and
with the same descriptions. Their assembly texts may differ: these tell the names of locals, and
temporaries are numbered through the whole build.
-/

namespace Covenant

open Emit (Both Kept Store)

namespace Build

/-! ## Artifacts -/

/-- What a build says of an artifact beside its code. -/
structure Listed where
  name : String
  file : String
  abi : String
deriving DecidableEq

/-- What a build says of an artifact: its name, the file that it comes from and its description. -/
def Artifact.listed (a : Artifact) : Listed :=
  ⟨a.contract.name, a.contract.file, a.abi⟩

/-- **What a build lists**, in the order of the names. -/
def Result.listing (r : Result) : List Listed :=
  r.artifacts.map Artifact.listed

/-- **An assembler makes no difference between two builds**: of the texts for a contract it accepts
both or neither. -/
def Assembler.AcceptsAlike (assembler : Assembler) (r r' : Result) : Prop :=
  ∀ a ∈ r.artifacts, ∀ a' ∈ r'.artifacts, a.contract.name = a'.contract.name →
    (assembler a.contract.name a.assembly).isOk = (assembler a'.contract.name a'.assembly).isOk

/-- An artifact with the bytecode that an assembler makes of its text. -/
structure Artifact.Assembled (assembler : Assembler) (plain a : Artifact) : Prop where
  bytecode : assembler plain.contract.name plain.assembly = .ok a.bytecode
  rest : a = { plain with bytecode := a.bytecode }

theorem Artifact.Assembled.listed {assembler : Assembler} {plain a : Artifact}
    (h : plain.Assembled assembler a) : plain.listed = a.listed := by
  rw [h.rest]
  rfl

/-- Artifacts can be assembled where each text is accepted. -/
theorem exists_assembled {assembler : Assembler} {plain : List Artifact}
    (h : ∀ a ∈ plain, (assembler a.contract.name a.assembly).isOk) :
    ∃ artifacts, List.Forall₂ (Artifact.Assembled assembler) plain artifacts := by
  induction plain with
  | nil => exact ⟨[], .nil⟩
  | cons a rest ih =>
    obtain ⟨ha, hrest⟩ := List.forall_mem_cons.1 h
    obtain ⟨others, hothers⟩ := ih hrest
    cases hcode : assembler a.contract.name a.assembly with
    | error e =>
      rw [hcode] at ha
      cases ha
    | ok code => exact ⟨{ a with bytecode := code } :: others, .cons ⟨hcode, rfl⟩ hothers⟩

/-! ## Generating -/

section Generate

variable {assembler : Assembler} {r b : Registry} {store store' : Store} {cs : List Contract}
  {artifacts : List Artifact}

/-- **With an assembler there is what there is without one**, as far as it accepts the texts. -/
theorem generate_eq_ok :
    generate assembler r store cs = .ok artifacts ↔
      ∃ plain, generate noAssembler r store cs = .ok plain ∧
        List.Forall₂ (Artifact.Assembled assembler) plain artifacts := by
  induction cs generalizing store artifacts with
  | nil =>
    constructor
    · rintro ⟨⟩
      exact ⟨[], rfl, .nil⟩
    · rintro ⟨_, ⟨⟩, ⟨⟩⟩
      rfl
  | cons c rest ih =>
    rw [generate, generate]
    obtain ⟨e | object, store⟩ := Emit.emit r store c
    · simp
    dsimp only
    constructor
    · intro h
      obtain ⟨code, hcode, h⟩ := bind_eq_ok.1 h
      obtain ⟨others, hothers, h⟩ := bind_eq_ok.1 h
      obtain ⟨plain, hplain, hassembled⟩ := ih.1 hothers
      cases h
      exact ⟨_, by rw [noAssembler, ok_bind, hplain]; rfl, .cons ⟨hcode, rfl⟩ hassembled⟩
    · rintro ⟨plain, hplain, hassembled⟩
      rw [noAssembler, ok_bind] at hplain
      obtain ⟨others, hothers, h⟩ := bind_eq_ok.1 hplain
      cases h
      cases hassembled with
      | @cons _ a _ _ hfirst hassembled =>
        rw [ih.2 ⟨others, hothers, hassembled⟩, hfirst.rest]
        exact bind_eq_ok.2 ⟨_, hfirst.bytecode, rfl⟩

theorem generate_nameless (h : r.Nameless b) (hcs : ∀ c ∈ cs, r.get? c.name = some c)
    (hstore : Kept r store) (hstore' : Kept b store') :
    Paired (fun as bs => as.map Artifact.listed = bs.map Artifact.listed)
      (generate noAssembler r store cs)
      (generate noAssembler b store' (cs.map Contract.nameless)) := by
  induction cs generalizing store store' with
  | nil => exact rfl
  | cons c rest ih =>
    obtain ⟨hc, hrest⟩ := List.forall_mem_cons.1 hcs
    have hemitted := Emit.emit_nameless h hc hstore hstore'
    have hkept := (Emit.agrees_emit hc hstore).2
    have hkept' := (Emit.agrees_emit (h.get?_nameless hc) hstore').2
    rw [List.map_cons, generate, generate]
    generalize Emit.emit r store c = emitted, Emit.emit b store' c.nameless = emitted' at *
    obtain ⟨e | object, store⟩ := emitted <;> obtain ⟨e' | object', store'⟩ := emitted' <;>
      try exact hemitted.elim
    · exact trivial
    · refine (ih hrest hkept hkept').bind fun as bs hothers => ?_
      rw [paired_pure, List.map_cons, List.map_cons, hothers]
      exact congrArg (· :: _) (congrArg (Listed.mk c.name c.file) (Abi.render_nameless c).symm)

end Generate

/-! ## Builds -/

/-- Finishes contracts and generates what they become. -/
def finish (assembler : Assembler) (r : Registry) : Except Failure (Registry × List Artifact) := do
  let registry ← analyzed r
  let artifacts ← generate assembler registry [] (registry.names.filterMap registry.get?)
  return (registry, artifacts)

variable {files : Files} {entries entries' : List String} {assembler : Assembler}
  {r r' b : Registry}

theorem compile_eq : compile assembler files entries = (do
    let loaded ← loadAll files entries
    let r ← (resolveFiles loaded).mapError Failure.fault
    let done ← finish assembler r.1
    return { artifacts := done.2, warnings := r.2, registry := done.1 }) := by
  simp only [compile, finish, bind_assoc, pure_bind]

theorem finish_nameless (h : r.Nameless b) :
    Paired (fun p q => p.2.map Artifact.listed = q.2.map Artifact.listed) (finish noAssembler r)
      (finish noAssembler b) := by
  refine (analyzed_nameless h).bind fun r b h => ?_
  have hcontracts : b.names.filterMap b.get? =
      (r.names.filterMap r.get?).map Contract.nameless := by
    rw [h.names, List.map_filterMap]
    exact List.filterMap_congr fun name _ => h.get? name
  have hcs : ∀ c ∈ r.names.filterMap r.get?, r.get? c.name = some c := fun c hc => by
    obtain ⟨name, -, hget⟩ := List.mem_filterMap.1 hc
    rwa [(Registry.of_get?_eq_some hget).2]
  rw [hcontracts]
  refine (generate_nameless h hcs ?_ ?_).bind fun as bs hlisted => hlisted
  · simp [Kept]
  · simp [Kept]

theorem finish_alike (h : r.Alike r') :
    Paired (fun p q => p.2.map Artifact.listed = q.2.map Artifact.listed) (finish noAssembler r)
      (finish noAssembler r') := by
  obtain ⟨b, hr, hr'⟩ := h
  refine ((finish_nameless hr).join (finish_nameless hr')).mono fun p q => ?_
  rintro ⟨_, hp, hq⟩
  exact hp.trans hq.symm

/-- **Without an assembler** two orders of what a build was asked for list the same, or neither is
built. -/
theorem plain_paired (h : entries.Perm entries') :
    Paired (fun r r' => r.listing = r'.listing) (compile noAssembler files entries)
      (compile noAssembler files entries') := by
  rw [compile_eq, compile_eq]
  refine (loadAll_paired h).bind fun loaded loaded' hloaded => ?_
  have hresolved : Paired (fun r r' => r.1.Alike r'.1)
      ((resolveFiles loaded).mapError Failure.fault)
      ((resolveFiles loaded').mapError Failure.fault) := by
    have hpaired := resolveFiles_paired hloaded
    generalize resolveFiles loaded = x, resolveFiles loaded' = y at hpaired
    cases x <;> cases y <;> exact hpaired
  exact hresolved.bind fun r r' halike => (finish_alike halike).bind fun _ _ hlisted => hlisted

/-- A build with an assembler is one without, whose texts the assembler accepts. -/
theorem exists_plain {result : Result} (h : compile assembler files entries = .ok result) :
    ∃ plain, compile noAssembler files entries = .ok plain ∧
      List.Forall₂ (Artifact.Assembled assembler) plain.artifacts result.artifacts := by
  obtain ⟨loaded, hloaded, h⟩ := bind_eq_ok.1 h
  obtain ⟨⟨resolved, warnings⟩, hresolved, h⟩ := bind_eq_ok.1 h
  obtain ⟨registry, hregistry, h⟩ := bind_eq_ok.1 h
  obtain ⟨artifacts, hartifacts, h⟩ := bind_eq_ok.1 h
  obtain ⟨plain, hplain, hassembled⟩ := generate_eq_ok.1 hartifacts
  cases h
  refine ⟨⟨plain, warnings, registry⟩, ?_, hassembled⟩
  rw [compile, hloaded, ok_bind, hresolved, ok_bind]
  dsimp only
  rw [hregistry, ok_bind, hplain]
  rfl

theorem exists_compile {plain : Result} (h : compile noAssembler files entries = .ok plain)
    (haccepted : ∀ a ∈ plain.artifacts, (assembler a.contract.name a.assembly).isOk) :
    ∃ result, compile assembler files entries = .ok result := by
  obtain ⟨loaded, hloaded, h⟩ := bind_eq_ok.1 h
  obtain ⟨⟨resolved, warnings⟩, hresolved, h⟩ := bind_eq_ok.1 h
  obtain ⟨registry, hregistry, h⟩ := bind_eq_ok.1 h
  obtain ⟨artifacts, hartifacts, h⟩ := bind_eq_ok.1 h
  cases h
  obtain ⟨assembled, hassembled⟩ := exists_assembled haccepted
  rw [compile, hloaded, ok_bind, hresolved, ok_bind]
  dsimp only
  rw [hregistry, ok_bind, generate_eq_ok.2 ⟨artifacts, hartifacts, hassembled⟩]
  exact ⟨_, rfl⟩

/-- Two builds with an assembler list the same. -/
theorem listing_eq {result result' : Result} (h : entries.Perm entries')
    (hr : compile assembler files entries = .ok result)
    (hr' : compile assembler files entries' = .ok result') : result.listing = result'.listing := by
  have hlisting {entries : List String} {result : Result}
      (hr : compile assembler files entries = .ok result) :
      ∃ plain, compile noAssembler files entries = .ok plain ∧
        plain.listing = result.listing := by
    obtain ⟨plain, hplain, hassembled⟩ := exists_plain hr
    exact ⟨plain, hplain, map_eq_of_forall₂ hassembled fun _ _ ha => ha.listed⟩
  obtain ⟨plain, hplain, heq⟩ := hlisting hr
  obtain ⟨plain', hplain', heq'⟩ := hlisting hr'
  obtain ⟨other, hother, hsame⟩ := (plain_paired h).exists_right hplain
  obtain rfl : other = plain' := Except.ok.inj (hother.symm.trans hplain')
  rw [← heq, hsame, heq']

/-- Where a build succeeds, it succeeds in another order, if the assembler accepts the texts for a
contract alike. -/
theorem exists_compile_perm (h : entries.Perm entries')
    (halike : ∀ r r', compile noAssembler files entries = .ok r →
      compile noAssembler files entries' = .ok r' → assembler.AcceptsAlike r r')
    (hr : ∃ r, compile assembler files entries = .ok r) :
    ∃ r', compile assembler files entries' = .ok r' := by
  obtain ⟨result, hresult⟩ := hr
  obtain ⟨plain, hplain, hassembled⟩ := exists_plain hresult
  obtain ⟨plain', hplain', hlisting⟩ := (plain_paired h).exists_right hplain
  refine exists_compile hplain' fun a' ha' => ?_
  have hlisted : a'.listed ∈ plain.listing := hlisting ▸ List.mem_map_of_mem ha'
  obtain ⟨a, ha, hsame⟩ := List.mem_map.1 hlisted
  have hname : a.contract.name = a'.contract.name := congrArg Listed.name hsame
  obtain ⟨_, -, hcode⟩ := exists_of_mem_left hassembled ha
  rw [← halike plain plain' hplain hplain' a ha a' ha' hname, hcode.bytecode]
  rfl

/-- **A build does not depend on the order of what it was asked for.** For all files, and all lists
of entries that have the same ones in whatever order,

* without an assembler, both builds succeed or neither does, and they list the same artifacts: under
  the same names, from the same files, with the same descriptions;
* with any assembler, two builds that succeed list the same artifacts;
* and with one that accepts both texts for a contract or neither, both builds succeed or neither
  does. -/
theorem compile_perm (files : Files) {entries entries' : List String}
    (h : entries.Perm entries') :
    Paired (fun r r' => r.listing = r'.listing) (compile noAssembler files entries)
        (compile noAssembler files entries') ∧
      ∀ assembler : Assembler,
        (∀ r r', compile assembler files entries = .ok r →
          compile assembler files entries' = .ok r' → r.listing = r'.listing) ∧
        ((∀ r r', compile noAssembler files entries = .ok r →
            compile noAssembler files entries' = .ok r' → assembler.AcceptsAlike r r') →
          ((∃ r, compile assembler files entries = .ok r) ↔
            ∃ r', compile assembler files entries' = .ok r')) := by
  refine ⟨plain_paired h, fun assembler => ⟨fun r r' => listing_eq h, fun halike => ⟨?_, ?_⟩⟩⟩
  · exact exists_compile_perm h halike
  · refine exists_compile_perm h.symm fun r' r hr' hr a' ha' a ha hname => ?_
    exact (halike r r' hr hr' a ha a' ha' hname.symm).symm

/-! ## Two files with temporaries -/

/-- Generating succeeds where there is an object of each contract. -/
theorem exists_generated {cs : List Contract} {store : Store}
    (hcs : ∀ c ∈ cs, r.get? c.name = some c)
    (hobjects : ∀ c ∈ cs, ∃ result,
      Emit.objectWithin r r.contracts.length [c.name] c = some result ∧ result.isOk)
    (hstore : Kept r store) : ∃ artifacts, generate noAssembler r store cs = .ok artifacts := by
  induction cs generalizing store with
  | nil => exact ⟨[], rfl⟩
  | cons c rest ih =>
    obtain ⟨hc, hrest⟩ := List.forall_mem_cons.1 hcs
    obtain ⟨⟨result, hresult, hok⟩, hothers⟩ := List.forall_mem_cons.1 hobjects
    obtain ⟨hagrees, hkept⟩ := Emit.agrees_emit hc hstore
    obtain rfl := Option.some.inj (hresult.symm.trans hagrees)
    rw [generate]
    generalize Emit.emit r store c = emitted at hok hkept
    obtain ⟨e | object, store⟩ := emitted
    · cases hok
    · obtain ⟨artifacts, hartifacts⟩ := ih hrest hothers hkept
      dsimp only
      rw [hartifacts]
      exact ⟨_, rfl⟩

/-- Whether contracts of the given names can be finished, and each has an object. -/
def finishes (names : List String) (r : Registry) : Bool :=
  let completed := Inheritance.completeAll r names
  r.contracts.map Contract.name = names && completed.2.isNone &&
    completed.1.contracts.map Contract.name = names &&
    (analyzeAll completed.1 names).toOption.any fun done =>
      done.contracts.map Contract.name = names && (names.filterMap done.get?).all fun c =>
        (Emit.objectWithin done done.contracts.length [c.name] c).any Except.isOk

theorem exists_finished {names : List String} (hsorted : sortedNames names = names)
    (h : finishes names r = true) : ∃ done, finish noAssembler r = .ok done := by
  have hnames {r : Registry} (hr : r.contracts.map Contract.name = names) : r.names = names := by
    rw [Registry.names, hr, hsorted]
  simp only [finishes, Bool.and_eq_true, decide_eq_true_eq, Option.any_eq_true,
    Option.isNone_iff_eq_none, toOption_eq_some, List.all_eq_true] at h
  obtain ⟨⟨⟨hr, hfault⟩, hcompleted⟩, done, hdone, hkeys, hobjects⟩ := h
  have hflatten : Inheritance.flatten r = ((Inheritance.completeAll r names).1, none) := by
    rw [← hfault, Inheritance.flatten_eq, hnames hr]
    rfl
  have hanalyzed : analyzed r = .ok done := by
    rw [analyzed, hflatten]
    change analyzeAll _ (Registry.names _) = _
    rw [hnames hcompleted, hdone]
  have hcs : ∀ c ∈ names.filterMap done.get?, done.get? c.name = some c := fun c hc => by
    obtain ⟨name, -, hget⟩ := List.mem_filterMap.1 hc
    rwa [(Registry.of_get?_eq_some hget).2]
  have hempty : Kept done [] := fun _ h => absurd h List.not_mem_nil
  obtain ⟨artifacts, hartifacts⟩ := exists_generated hcs hobjects hempty
  rw [finish, hanalyzed, ok_bind, hnames hkeys, hartifacts]
  exact ⟨_, rfl⟩

/-- Two files whose classes each need a temporary: the number in its name depends on the order. -/
def shelf : Files := .ofTexts
  [("a.ts", "class A { private pick(b: boolean): number { return b ? 1 : 2; } }"),
    ("b.ts", "class B { private pick(b: boolean): number { return b ? 3 : 4; } }")]

/-- The two files are built in either order, and both builds list the same. -/
theorem compile_perm_shelf :
    ∃ r r', compile noAssembler shelf ["a.ts", "b.ts"] = .ok r ∧
      compile noAssembler shelf ["b.ts", "a.ts"] = .ok r' ∧ r.listing = r'.listing := by
  have hrun : ((loadAllWithin shelf 2 [] ["a.ts", "b.ts"]).bind Except.toOption).any (fun loaded =>
      (resolveFiles loaded).toOption.any fun r => finishes ["A", "B"] r.1) = true := by
    decide +kernel
  have hsorted : sortedNames ["A", "B"] = ["A", "B"] := by
    rw [sortedNames, List.mergeSort_of_pairwise (by decide)]
    rfl
  rw [show loadAllWithin shelf 2 [] ["a.ts", "b.ts"] = some (loadAll shelf ["a.ts", "b.ts"]) from
    loadAllWithin_eq [] _] at hrun
  simp only [Option.bind_some, Option.any_eq_true, toOption_eq_some] at hrun
  obtain ⟨loaded, hloaded, ⟨registry, warnings⟩, hresolved, hfinishes⟩ := hrun
  obtain ⟨done, hdone⟩ := exists_finished hsorted hfinishes
  have hr : compile noAssembler shelf ["a.ts", "b.ts"] =
      .ok { artifacts := done.2, warnings := warnings, registry := done.1 } := by
    rw [compile_eq, hloaded, ok_bind, hresolved, Except.mapError, ok_bind, hdone]
    rfl
  obtain ⟨r', hr', hlisting⟩ := (compile_perm shelf (.swap "b.ts" "a.ts" [])).1.exists_right hr
  exact ⟨_, r', hr, hr', hlisting⟩

end Build

end Covenant
