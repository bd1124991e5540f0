import Covenant.Proofs.Build.Contracts
import Covenant.Proofs.Names.Placement

/-!
# The scopes of a program

Constants are resolved before there are locals, so their values read none, in whatever file they are
used. Hence every constructor and every method of a program is well scoped, unless one of its own
locals has the name of one of its temporaries (`bodies_wellScoped`).
-/

namespace Covenant

namespace Resolve

open Source (Statement)

variable {scope inner : Scope}

/-- The locals that a member declares: its parameters, and those in its body at any depth. -/
def localNames (m : Source.MemberBody) (ss : List Statement) : List String :=
  (memberParams m).map (·.name) ++ Source.declaredAll ss

/-- **A local clashes**: it has the name of a temporary of its body. -/
structure Clashes (locals : List String) (lo hi : Nat) (x : String) : Prop where
  declared : x ∈ locals
  temporary : ∃ k, lo ≤ k ∧ k < hi ∧ x = Temps.nameOf k

/-- The locals behind some parameters are the parameters and those before. -/
theorem parameters_has {ps : List Source.Param} {params : List Parameter}
    (h : parameters ps scope = .ok (params, inner)) :
    params.map (·.name) = ps.map (·.name) ∧
      ∀ x, inner.locals.has x ↔ x ∈ params.map (·.name) ∨ scope.locals.has x := by
  induction ps generalizing scope params with
  | nil =>
    cases h
    simp
  | cons p rest ih =>
    obtain ⟨-, type, -, -, others, hothers, rfl⟩ := parameters_cons_eq_ok.1 h
    obtain ⟨hnames, hhas⟩ := ih hothers
    refine ⟨by simp [hnames], fun x => ?_⟩
    rw [hhas, has_withLocal, List.map_cons, List.mem_cons]
    tauto

/-- **A body that a member writes is well scoped** behind its parameters, up to locals that
clash. -/
theorem WrittenBy.wellScoped {m : Source.MemberBody} {ss : List Statement} {lo hi : Nat}
    {params : List Parameter} {body : List Stmt} (h : WrittenBy scope m ss lo hi params body)
    (hconstants : ConstantsClosed scope.constants) :
    Stmt.Scoped (Clashes (localNames m ss) lo hi) (params.map (·.name)) body := by
  obtain ⟨-, returns, inner, r, hparams, hresolves, rfl, rfl⟩ := h
  obtain ⟨hnames, hhas⟩ := parameters_has hparams
  have hinner : inner.constants = scope.constants := by
    injection (parameters_withoutLocals hparams :)
  have hclear : Clear (Clashes (localNames m ss) lo r.next) (params.map (·.name)) inner
      (Source.declaredAll ss) lo r.next :=
    { locals := fun x hx => ((hhas x).1 hx).resolve_right (by simp [Scope.withoutLocals, Table.has,
        Table.get?])
      temporaries := fun k h1 h2 hk =>
        ⟨List.mem_append_left _ (hnames ▸ hk), k, h1, h2, rfl⟩
      declared := fun x _ hx => .inl ((hhas x).2 (.inl hx))
      shared := fun x hx k h1 h2 hk => ⟨List.mem_append_right _ hx, k, h1, h2, hk⟩ }
  exact (hresolves.placed (hinner ▸ hconstants) hclear).fits

/-! ## Constants -/

theorem constantValue_closed {d : Source.ConstantDecl} {v : Expr}
    (h : constantValue scope d = .ok v) (hconstants : ConstantsClosed scope.constants)
    (hlocals : scope.locals = []) : v.reads = [] := by
  rw [constantValue, check_eq_ok] at h
  obtain ⟨value, hvalue, h⟩ := bind_eq_ok.1 h.2
  rw [check_eq_ok] at h
  have hvalue : value.reads = [] := by
    refine List.eq_nil_iff_forall_not_mem.2 fun p hp => ?_
    have hlocal := (denotes_of_expression hvalue).readsLocals hconstants p hp
    rw [hlocals] at hlocal
    cases hlocal
  replace h := h.2
  split at h
  · unfold annotate at h
    split at h
    · obtain ⟨type, -, h⟩ := bind_eq_ok.1 h
      split at h
      · cases pure_eq_ok.1 h
        rfl
      · exact absurd h throw_ne_ok
    · cases h
      exact hvalue
  · cases pure_eq_ok.1 h
    exact hvalue

/-- The constants of a file read no locals, where those it imports read none. -/
theorem constants_closed {ds : List Source.ConstantDecl} {found t : Table Expr}
    (h : constants scope ds found = .ok t) (hconstants : ConstantsClosed scope.constants)
    (hlocals : scope.locals = []) (hfound : ConstantsClosed found) : ConstantsClosed t := by
  induction ds generalizing found with
  | nil =>
    cases h
    exact hfound
  | cons d ds ih =>
    rw [constants, check_eq_ok] at h
    obtain ⟨v, hv, h⟩ := bind_eq_ok.1 h.2
    have hvisible : ConstantsClosed (scope.constants.putAll found) :=
      List.forall_mem_append.2 ⟨hfound, hconstants⟩
    exact ih h (List.forall_mem_cons.2 ⟨constantValue_closed hv hvisible hlocals, hfound⟩)

end Resolve

namespace Build

open Resolve

variable {files : List SourceFile}

/-- All constants that are known read no locals. -/
structure KnownClosed (k : Known) : Prop where
  exports : ∀ file ∈ k.exports, ConstantsClosed file.2.constants
  scopes : ∀ f ∈ k.files, ConstantsClosed f.scope.constants

theorem KnownClosed.declareFile {base : Scope} (hbase : base.constants = [])
    (hlocals : base.locals = []) {k k' : Known} {f : SourceFile} (hk : KnownClosed k)
    (h : declareFile base k f = .ok k') : KnownClosed k' := by
  obtain ⟨imported, declared, scope, events, himported, hdeclared, -, rfl⟩ := declareFile_eq_ok h
  obtain ⟨-, hconstants, hinner⟩ := declarations_eq_ok hdeclared
  have himports : ConstantsClosed imported.constants :=
    imports_constants (fun e => e.reads = []) hk.exports
      (by rw [hbase]; exact fun _ h => (nomatch h)) himported
  have hown : ConstantsClosed declared.constants :=
    constants_closed hconstants himports ((imports_locals himported).trans hlocals)
      (fun _ h => (nomatch h))
  refine ⟨List.forall_mem_cons.2 ⟨hown, hk.exports⟩, List.forall_mem_append.2 ⟨hk.scopes, ?_⟩⟩
  rw [List.forall_mem_singleton, hinner]
  exact List.forall_mem_append.2 ⟨hown, himports⟩

/-- **Every constructor and method of a program is well scoped**, but for locals with the name of a
temporary: whatever a body reads or sets is a parameter or is declared before, in the same list of
statements or around it, and what it declares is not visible yet, unless it is both a local that
the source declares and one of the temporaries of the body. Where no local is named like a
temporary, nothing is declared twice. -/
theorem bodies_wellScoped {registry : Registry} {warnings : List Fault}
    (h : resolveFiles files = .ok (registry, warnings)) :
    ∀ c ∈ registry.contracts, ∀ b ∈ c.bodies, ∃ owned ∈ allClasses files, owned.2.name = c.name ∧
      ∃ m ∈ owned.2.members, ∃ scope ss lo hi, WrittenBy scope m.body ss lo hi b.1 b.2 ∧
        Stmt.Scoped (Clashes (localNames m.body ss) lo hi) (b.1.map (·.name)) b.2 ∧
        ((∀ x ∈ localNames m.body ss, ∀ k, x ≠ Temps.nameOf k) →
          Stmt.Scoped (fun _ => False) (b.1.map (·.name)) b.2) := by
  intro c hc b hb
  obtain ⟨-, known, hknown, hmade⟩ := resolveFiles_eq_ok h
  have hclosed : KnownClosed known :=
    foldlM_keeps KnownClosed (fun _ _ _ _ => KnownClosed.declareFile rfl rfl)
      ⟨fun _ h => absurd h List.not_mem_nil, fun _ h => absurd h List.not_mem_nil⟩ hknown
  obtain ⟨fc, hfc, hfcc⟩ := exists_of_mem_right hmade hc
  have hname := hfcc.spec.1
  obtain ⟨next, next', hcontract⟩ := hfcc
  obtain ⟨events, properties, hbodies⟩ := contract_bodies hcontract
  obtain ⟨m, hm, ss, lo, hi, hwritten⟩ := hbodies b hb
  have howned : (fc.1.path, fc.2) ∈ allClasses files := by
    rw [(declared_of_foldlM hknown).allClasses_eq]
    exact List.mem_map_of_mem hfc
  have hfile : fc.1 ∈ known.files := by
    obtain ⟨f, hf, hfc⟩ := List.mem_flatMap.1 hfc
    obtain ⟨written, -, rfl⟩ := List.mem_map.1 hfc
    exact hf
  have hscoped := hwritten.wellScoped (hclosed.scopes fc.1 hfile)
  refine ⟨_, howned, hname.symm, m, hm, _, ss, lo, hi, hwritten, hscoped, fun hnames => ?_⟩
  refine hscoped.mono fun x hx => ?_
  obtain ⟨k, -, -, hk⟩ := hx.temporary
  exact hnames x hx.declared k hk

/-! ## A local with the name of a temporary -/

/-- The method `pick(c: boolean): number { let cond_0 = 1; return c ? cond_0 : 2; }`. -/
def pickMethod : Source.Method where
  pos := {}
  name := "pick"
  params := [{ pos := {}, name := "c", type := .mk {} "boolean" [] 0 }]
  returns := some (.mk {} "number" [] 0)
  body :=
    { pos := {}
      statements :=
        [.declaration {} .letWord "cond_0" none (some (number "1")),
          .returns {} (some (.choice {} (.mk {} (.mk {} [] (.mk {} (.name {} "c") [])) [])
            (Source.bareName {} "cond_0") (number "2")))] }
where
  /-- The expression that is a number. -/
  number (digits : String) : Source.Expression :=
    .chain {} (.mk {} (.mk {} [] (.mk {} (.number {} digits) [])) [])

/-- A class with this method. -/
def pickFile : SourceFile where
  path := "pick.ts"
  program :=
    { pos := {}
      elements := [
        { pos := {}
          exported := true
          body := .classDecl
            { pos := {}
              name := "Picker"
              bases := []
              members := [{ pos := {}, modifiers := [], body := .method pickMethod }] } }] }
  imports := []

/-- The local is declared, and then the temporary of the conditional, in one list of statements. -/
theorem pick_declares :
    ((resolveFiles [pickFile]).toOption.map fun r =>
      r.1.contracts.flatMap fun c => c.bodies.map fun b => b.2.flatMap Stmt.declares) =
        some [["cond_0", "cond_0"]] := by
  decide +kernel

theorem bodies_wellScoped_pick :
    ∃ registry warnings, resolveFiles [pickFile] = .ok (registry, warnings) ∧
      (registry.contracts.flatMap fun c => c.bodies.map fun b => b.2.flatMap Stmt.declares) =
        [["cond_0", "cond_0"]] ∧
      ∀ c ∈ registry.contracts, ∀ b ∈ c.bodies, ∃ owned ∈ allClasses [pickFile],
        owned.2.name = c.name ∧
        ∃ m ∈ owned.2.members, ∃ scope ss lo hi, WrittenBy scope m.body ss lo hi b.1 b.2 ∧
          Stmt.Scoped (Clashes (localNames m.body ss) lo hi) (b.1.map (·.name)) b.2 := by
  obtain ⟨⟨registry, warnings⟩, hok, hdeclares⟩ := Option.map_eq_some_iff.1 pick_declares
  have hok := toOption_eq_some.1 hok
  refine ⟨registry, warnings, hok, hdeclares, fun c hc b hb => ?_⟩
  obtain ⟨owned, howned, hname, m, hm, scope, ss, lo, hi, hwritten, hscoped, -⟩ :=
    bodies_wellScoped hok c hc b hb
  exact ⟨owned, howned, hname, m, hm, scope, ss, lo, hi, hwritten, hscoped⟩

end Build

end Covenant
