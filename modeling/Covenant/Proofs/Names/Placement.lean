import Covenant.Proofs.Names.Renaming
import Covenant.Proofs.Names.Scoping

/-!
# Where a resolved body stands

What is resolved reads locals of its scope, and a local is declared only where the scope has none of
its name. So a resolved body is well scoped where its locals are visible, with one exception:
temporaries are no locals of the scope, and a local of the source can have the name of one. The
later of the two is then declared a second time (`Resolves.placed`).
-/

namespace Covenant

namespace Resolve

open Source (Expression Chain Link Operand Postfix ObjectField Statement)
open Stmt (Scoped BranchesScoped visibleAfter mem_visibleAfter mem_visibleAfter_of_mem)

variable {scope : Scope} {returns : Ty} {clash : String → Prop} {visible : List String}
variable {lo hi : Nat}

/-! ## Locals -/

/-- Every local that is read is one of a scope. -/
def ReadsLocals (scope : Scope) (reads : List (Position × String)) : Prop :=
  ∀ p ∈ reads, scope.locals.has p.2

/-- The values of constants read no locals. -/
def ConstantsClosed (constants : Table Expr) : Prop :=
  ∀ entry ∈ constants, entry.2.reads = []

theorem ReadsLocals.append {reads more : List (Position × String)} :
    ReadsLocals scope (reads ++ more) ↔ ReadsLocals scope reads ∧ ReadsLocals scope more :=
  List.forall_mem_append

theorem ReadsLocals.flatMap {α : Type} {as : List α} {f : α → List (Position × String)} :
    ReadsLocals scope (as.flatMap f) ↔ ∀ a ∈ as, ReadsLocals scope (f a) :=
  List.forall_mem_flatMap

mutual
/-- **An expression reads locals of its scope.** -/
theorem Denotes.readsLocals (hconstants : ConstantsClosed scope.constants) :
    ∀ {e : Expression} {v : Expr}, Denotes scope e v → ReadsLocals scope v.reads
  | _, _, .chain h => h.readsLocals hconstants
  | _, _, .choice hcondition hyes hno => by
    simp [ReadsLocals.append, hcondition.readsLocals hconstants, hyes.readsLocals hconstants,
      hno.readsLocals hconstants]

theorem DenotesChain.readsLocals (hconstants : ConstantsClosed scope.constants) :
    ∀ {c : Chain} {v : Expr}, DenotesChain scope c v → ReadsLocals scope v.reads
  | _, _, .tree hfirst hlinks => by
    rw [collect_operatorTree Expr.reads Expr.reads_binary]
    exact ReadsLocals.append.2
      ⟨hfirst.readsLocals hconstants, ReadsLocals.flatMap.2 (hlinks.readsLocals hconstants)⟩

theorem DenotesLinks.readsLocals (hconstants : ConstantsClosed scope.constants) :
    ∀ {ls : List Link} {vs : List OperatorLink}, DenotesLinks scope ls vs →
      ∀ link ∈ vs, ReadsLocals scope link.operand.reads
  | _, _, .nil => fun _ h => (nomatch h)
  | _, _, .cons h hrest =>
    List.forall_mem_cons.2 ⟨h.readsLocals hconstants, hrest.readsLocals hconstants⟩

theorem DenotesOperand.readsLocals (hconstants : ConstantsClosed scope.constants) :
    ∀ {o : Operand} {v : Expr}, DenotesOperand scope o v → ReadsLocals scope v.reads
  | _, _, .signed h _ => by
    rw [Expr.reads_negated]
    exact h.readsLocals hconstants

/-- **Names and steps read locals that the scope knows.** -/
theorem DenotesPostfix.readsLocals (hconstants : ConstantsClosed scope.constants) :
    ∀ {p : Postfix} {v : Expr}, DenotesPostfix scope p v → ReadsLocals scope v.reads
  | _, _, .this | _, _, .property | _, _, .length _ | _, _, .environment _ _ _ => nofun
  | _, _, .ownCall h | _, _, .propertyCall h | _, _, .hash _ _ h | _, _, .creation _ h
  | _, _, .entry _ h _ => by
    simpa using ReadsLocals.flatMap.2 (h.readsLocals hconstants)
  | _, _, .constant h => by
    rw [hconstants _ (Table.mem_of_get? h)]
    nofun
  | _, _, .variable _ h => List.forall_mem_singleton.2 h
  | _, _, .external _ _ _ h => by simpa using h.readsLocals hconstants
  | _, _, .externalCall _ _ _ h hargs => by
    simpa [ReadsLocals.append] using
      ⟨h.readsLocals hconstants, ReadsLocals.flatMap.2 (hargs.readsLocals hconstants)⟩
  | _, _, .number h => by
    obtain ⟨n, -, -, rfl⟩ := number_eq_ok.1 h
    nofun
  | _, _, .text h => by
    obtain ⟨-, rfl⟩ | ⟨-, -, rfl⟩ := text_eq_ok.1 h <;> nofun
  | _, _, .truth => nofun
  | _, _, .parens h => h.readsLocals hconstants

theorem DenotesEach.readsLocals (hconstants : ConstantsClosed scope.constants) :
    ∀ {es : List Expression} {vs : List Expr}, DenotesEach scope es vs →
      ∀ v ∈ vs, ReadsLocals scope v.reads
  | _, _, .nil => fun _ h => (nomatch h)
  | _, _, .cons h hrest =>
    List.forall_mem_cons.2 ⟨h.readsLocals hconstants, hrest.readsLocals hconstants⟩
end

theorem DenotesRecord.readsLocals (hconstants : ConstantsClosed scope.constants)
    {shape : Interface} {fields : List ObjectField} {vs : List Expr}
    (h : DenotesRecord scope shape fields vs) : ReadsLocals scope (vs.flatMap Expr.reads) := by
  refine ReadsLocals.flatMap.2 fun v hv => ?_
  obtain ⟨param, -, field, -, -, hfield⟩ := exists_of_mem_right h.each hv
  cases hfield with
  | valued h => exact h.readsLocals hconstants
  | shorthand h => exact h.readsLocals hconstants

theorem readsLocals_assigned {pos : Position} {assignment : Source.Assignment} {current v : Expr}
    (hcurrent : ReadsLocals scope current.reads) (hv : ReadsLocals scope v.reads) :
    ReadsLocals scope (assigned pos assignment current v).reads := by
  intro p hp
  rcases mem_reads_assigned.1 hp with ⟨-, hp⟩ | hp
  · exact hcurrent p hp
  · exact hv p hp

/-- A statement reads locals of its scope. -/
theorem States.readsLocals (hconstants : ConstantsClosed scope.constants) {s : Statement} {t : Stmt}
    {after : Scope} (h : States scope returns s t after) :
    ReadsLocals scope (t.operands.flatMap Expr.reads) := by
  cases h with
  | blank | exit | baseCall => nofun
  | annotated _ h | exitWord _ h =>
    simpa [Stmt.operands, reads_retag] using h.readsLocals hconstants
  | inferred _ h | throw _ h | evaluate h =>
    simpa [Stmt.operands] using h.readsLocals hconstants
  | exitRecord _ _ h | emit _ _ _ _ _ h =>
    simpa [Stmt.operands] using h.readsLocals hconstants
  | @setVariable _ _ _ _ _ targetPos _ x _ _ hlocal h =>
    have hcurrent : ReadsLocals scope (Expr.var targetPos x).reads := by
      simp [ReadsLocals, Table.has, hlocal]
    simpa [Stmt.operands, reads_retag] using
      readsLocals_assigned hcurrent (h.readsLocals hconstants)
  | setProperty _ _ _ h | setUnknown _ _ h =>
    simpa [Stmt.operands, reads_retag] using
      readsLocals_assigned (by simp [ReadsLocals]) (h.readsLocals hconstants)
  | setEntry _ _ heach _ h =>
    have hindices := ReadsLocals.flatMap.2 (heach.readsLocals hconstants)
    simpa [Stmt.operands, ReadsLocals.append] using ⟨hindices,
      readsLocals_assigned (by simpa using hindices) (h.readsLocals hconstants)⟩

/-- What a statement sets is a local of its scope. -/
theorem States.sets_local {s : Statement} {t : Stmt} {after : Scope}
    (h : States scope returns s t after) : ∀ p ∈ t.write?, scope.locals.has p.2 := by
  cases h with
  | setVariable _ hlocal =>
    rintro p ⟨⟩
    rw [Table.has, hlocal]
    rfl
  | _ =>
    intro p hp
    cases hp

theorem has_withLocal {x y : String} {type : Ty} :
    (scope.withLocal x type).locals.has y ↔ y = x ∨ scope.locals.has y := by
  rw [Scope.withLocal, Table.put, Table.has, Table.get?_cons]
  by_cases h : y = x
  · simp [h]
  · simp [h, Table.has]

/-- What a statement declares is new among the locals, and is one of them behind it. -/
theorem States.declares_new {s : Statement} {t : Stmt} {after : Scope}
    (h : States scope returns s t after) :
    (∀ x ∈ t.declares, scope.locals.has x = false ∧ x ∈ s.declared) ∧
      ∀ y, after.locals.has y ↔ y ∈ t.declares ∨ scope.locals.has y := by
  cases h with
  | blank hfresh | annotated hfresh | inferred hfresh =>
    refine ⟨List.forall_mem_singleton.2 ⟨hfresh, List.mem_singleton.2 rfl⟩, fun y => ?_⟩
    rw [has_withLocal, Stmt.declares, List.mem_singleton]
  | _ =>
    exact ⟨fun x hx => absurd hx List.not_mem_nil,
      fun y => ⟨.inr, fun h => h.resolve_left List.not_mem_nil⟩⟩

/-! ## Bodies -/

/-- **Where a body can be placed**: its locals are visible, its temporaries and the locals it will
declare are not, up to names that may clash; those that are both may. -/
structure Clear (clash : String → Prop) (visible : List String) (scope : Scope)
    (names : List String) (lo hi : Nat) : Prop where
  locals : ∀ x, scope.locals.has x → x ∈ visible
  temporaries : TempsFree clash visible lo hi
  declared : ∀ x ∈ names, x ∈ visible → scope.locals.has x ∨ clash x
  shared : ∀ x ∈ names, ∀ k, lo ≤ k → k < hi → x = Temps.nameOf k → clash x

/-- **A body is placed**: it is well scoped, what it declares are its locals and temporaries, and
its locals are visible behind it. -/
structure Placed (clash : String → Prop) (visible : List String) (scope : Scope)
    (names : List String) (lo : Nat) (r : Resolved) : Prop where
  le : lo ≤ r.next
  fits : Scoped clash visible r.body
  locals : ∀ x, r.scope.locals.has x → x ∈ visibleAfter visible r.body
  kept : ∀ x, scope.locals.has x → r.scope.locals.has x
  names : ∀ x ∈ r.body.flatMap Stmt.declares, x ∈ names ∧ r.scope.locals.has x ∨
    ∃ k, lo ≤ k ∧ k < r.next ∧ x = Temps.nameOf k

variable {names more : List String} {first r : Resolved}

theorem Clear.of_subset {lo' hi' : Nat} (h : Clear clash visible scope names lo hi)
    (hnames : ∀ x ∈ more, x ∈ names) (hlo : lo ≤ lo') (hhi : hi' ≤ hi) :
    Clear clash visible scope more lo' hi' where
  locals := h.locals
  temporaries := h.temporaries.of_le hlo hhi
  declared x hx := h.declared x (hnames x hx)
  shared x hx k h1 h2 := h.shared x (hnames x hx) k (by omega) (by omega)

/-- Behind statements that bring in temporaries of other numbers there is as much room. -/
theorem Clear.behind {lo' hi' : Nat} {before : List Stmt} {reads : List (Position × String)}
    (h : Clear clash visible scope names lo hi)
    (hshared : ∀ x ∈ names, ∀ k, lo' ≤ k → k < hi' → x = Temps.nameOf k → clash x)
    (hbefore : Prepares clash visible lo' hi' before reads) (hapart : hi' ≤ lo ∨ hi ≤ lo') :
    Clear clash (visibleAfter visible before) scope names lo hi where
  locals x hx := mem_visibleAfter_of_mem (h.locals x hx) before
  temporaries := hbefore.tempsFree h.temporaries hapart
  declared x hx hvisible := by
    rcases mem_visibleAfter.1 hvisible with hvisible | hvisible
    · exact h.declared x hx hvisible
    · obtain ⟨k, h1, h2, hk⟩ := hbefore.names x hvisible
      exact .inr (hshared x hx k h1 h2 hk)
  shared := h.shared

/-- Behind a body that is placed there is room for the next one. -/
theorem Placed.clear (h : Placed clash visible scope names lo first)
    (hclear : Clear clash visible scope (names ++ more) lo hi) (hle : first.next ≤ hi) :
    Clear clash (visibleAfter visible first.body) first.scope more first.next hi where
  locals := h.locals
  temporaries k h1 h2 hk := by
    have hlow := h.le
    rcases mem_visibleAfter.1 hk with hk | hk
    · exact hclear.temporaries k (by omega) h2 hk
    rcases h.names _ hk with ⟨hname, -⟩ | ⟨j, -, hj, hname⟩
    · exact hclear.shared _ (List.mem_append_left _ hname) k (by omega) h2 rfl
    · have := Execution.nameOf_injective hname
      omega
  declared x hx hvisible := by
    have hx := List.mem_append_right names hx
    rcases mem_visibleAfter.1 hvisible with hvisible | hvisible
    · exact (hclear.declared x hx hvisible).imp (h.kept x) id
    rcases h.names x hvisible with ⟨-, hlocal⟩ | ⟨k, h1, h2, hk⟩
    · exact .inl hlocal
    · exact .inr (hclear.shared x hx k h1 (by omega) hk)
  shared x hx k h1 h2 := by
    have hlow := h.le
    exact hclear.shared x (List.mem_append_right names hx) k (by omega) h2

/-- Two parts of a body are placed one behind the other. -/
theorem Placed.append (h : Placed clash visible scope names lo first)
    (h' : Placed clash (visibleAfter visible first.body) first.scope more first.next r) :
    Placed clash visible scope (names ++ more) lo (r.after first.body) where
  le := Nat.le_trans h.le h'.le
  fits := Stmt.scoped_append.2 ⟨h.fits, h'.fits⟩
  locals x hx := by
    rw [Resolved.after, Stmt.visibleAfter_append]
    exact h'.locals x hx
  kept x hx := h'.kept x (h.kept x hx)
  names x hx := by
    have hle := h.le
    have hle' := h'.le
    rw [Resolved.after, List.flatMap_append, List.mem_append] at hx
    rcases hx with hx | hx
    · rcases h.names x hx with ⟨hname, hlocal⟩ | ⟨k, h1, h2, hk⟩
      · exact .inl ⟨List.mem_append_left _ hname, h'.kept x hlocal⟩
      · exact .inr ⟨k, h1, Nat.lt_of_lt_of_le h2 hle', hk⟩
    · rcases h'.names x hx with ⟨hname, hlocal⟩ | ⟨k, h1, h2, hk⟩
      · exact .inl ⟨List.mem_append_right _ hname, hlocal⟩
      · exact .inr ⟨k, by omega, h2, hk⟩

/-- A statement whose branches are free of conditionals stands behind what is taken out of it. -/
theorem normalize_scoped (clash : String → Prop) {s : Stmt} {next : Nat}
    (hfree : Stmt.hasConditional s.inner = false)
    (hreads : ∀ p ∈ s.operands.flatMap Expr.reads, p.2 ∈ visible)
    (hsets : ∀ p ∈ s.write?, p.2 ∈ visible)
    (htemps : TempsFree clash visible next (normalize scope next s).2) :
    ∃ before, Prepares clash visible next (normalize scope next s).2 before [] ∧
      (normalize scope next s).1.flatMap Stmt.declares =
        before.flatMap Stmt.declares ++ s.declares ∧
      ((∀ x ∈ s.declares, x ∈ visibleAfter visible before → clash x) →
        s.BranchesScoped clash (visibleAfter visible before) →
        Scoped clash visible (normalize scope next s).1) := by
  rw [normalize_eq hfree] at htemps ⊢
  have hlength := length_hoistEach scope s.operands { next }
  have hbefore := hoistEach_prepares { next } hreads htemps
  refine ⟨_, ⟨hbefore.le, hbefore.placed, hbefore.names, nofun⟩, ?_, fun hnew hbranches => ?_⟩
  · rw [List.flatMap_append, List.flatMap_singleton, Stmt.declares_withOperands]
  · refine Stmt.scoped_append.2 ⟨hbefore.placed, Stmt.scoped_singleton.2 ⟨⟨?_, ?_, ?_⟩, ?_⟩⟩
    · rw [Stmt.operands_withOperands hlength]
      exact hbefore.known
    · rw [Stmt.write?_withOperands]
      exact fun p hp => mem_visibleAfter_of_mem (hsets p hp) _
    · rwa [Stmt.declares_withOperands]
    · exact Stmt.branchesScoped_withOperands.2 hbranches

theorem States.placed (hconstants : ConstantsClosed scope.constants) {s : Statement} {t : Stmt}
    {after : Scope} {next : Nat} (h : States scope returns s t after)
    (hclear : Clear clash visible scope s.declared next (normalize after next t).2) :
    Placed clash visible scope s.declared next
      ⟨(normalize after next t).1, after, (normalize after next t).2⟩ := by
  obtain ⟨hnew, hafter⟩ := h.declares_new
  obtain ⟨before, hbefore, hnames, hscoped⟩ := normalize_scoped clash h.inner_free
    (fun p hp => hclear.locals _ (h.readsLocals hconstants p hp))
    (fun p hp => hclear.locals _ (h.sets_local p hp)) hclear.temporaries
  refine ⟨hbefore.le, hscoped (fun x hx hvisible => ?_)
    (Stmt.branchesScoped_of_inner_eq_nil h.inner_eq_nil), fun x hx => ?_, fun x hx => ?_,
    fun x hx => ?_⟩
  · obtain ⟨hfresh, hdeclared⟩ := hnew x hx
    rcases mem_visibleAfter.1 hvisible with hvisible | hvisible
    · exact (hclear.declared x hdeclared hvisible).resolve_left (by simp [hfresh])
    · obtain ⟨k, h1, h2, hk⟩ := hbefore.names x hvisible
      exact hclear.shared x hdeclared k h1 h2 hk
  · rw [mem_visibleAfter, hnames, List.mem_append]
    rcases (hafter x).1 hx with hx | hx
    · exact .inr (.inr hx)
    · exact .inl (hclear.locals x hx)
  · exact (hafter x).2 (.inr hx)
  · rw [hnames, List.mem_append] at hx
    rcases hx with hx | hx
    · exact .inr (hbefore.names x hx)
    · exact .inl ⟨(hnew x hx).2, (hafter x).2 (.inl hx)⟩

/-- A branch declares nothing that is seen behind it but the temporaries of its condition. -/
theorem placed_branch {pos : Position} {v : Expr} {yes no : List Stmt} {next : Nat}
    (hle : lo ≤ next) (hfree : Stmt.hasConditional (Stmt.branch pos v yes no).inner = false)
    (hreads : ReadsLocals scope v.reads)
    (hclear : Clear clash visible scope names lo
      (normalize scope next (.branch pos v yes no)).2)
    (hbranches : ∀ visible', Clear clash visible' scope names lo next →
      Scoped clash visible' yes ∧ Scoped clash visible' no) :
    Placed clash visible scope names lo
      ⟨(normalize scope next (.branch pos v yes no)).1, scope,
        (normalize scope next (.branch pos v yes no)).2⟩ := by
  obtain ⟨before, hbefore, hnames, hscoped⟩ := normalize_scoped clash hfree
    (fun p hp => hclear.locals _ (hreads p (by simpa [Stmt.operands] using hp))) nofun
    (hclear.temporaries.of_le hle (Nat.le_refl _))
  have hnext := hbefore.le
  have hinner : Clear clash (visibleAfter visible before) scope names lo next :=
    (hclear.of_subset (fun _ => id) (Nat.le_refl _) hnext).behind
      (fun x hx k h1 h2 => hclear.shared x hx k (by omega) h2) hbefore (.inr (Nat.le_refl _))
  refine ⟨Nat.le_trans hle hnext, hscoped nofun (hbranches _ hinner), fun x hx => ?_,
    fun _ => id, fun x hx => ?_⟩
  · exact mem_visibleAfter_of_mem (hclear.locals x hx) _
  · have hbranch : (Stmt.branch pos v yes no).declares = [] := rfl
    rw [hnames, hbranch, List.append_nil] at hx
    obtain ⟨k, h1, h2, hk⟩ := hbefore.names x hx
    exact .inr ⟨k, by omega, h2, hk⟩

/-- **A resolved body is well scoped** wherever there is room for it. -/
theorem Resolves.placed {ss : List Statement} {next : Nat} {r : Resolved}
    (h : Resolves returns ss scope next r) (hconstants : ConstantsClosed scope.constants)
    {visible : List String}
    (hclear : Clear clash visible scope (Source.declaredAll ss) next r.next) :
    Placed clash visible scope (Source.declaredAll ss) next r := by
  -- the names visible grow on the way, by locals and temporaries of the statements before
  induction h generalizing visible with
  | nil => exact ⟨Nat.le_refl _, trivial, hclear.locals, fun _ => id, nofun⟩
  | plain h hrest ih =>
    have hle := hrest.reads.le
    have hfirst := h.placed hconstants
      (hclear.of_subset (fun x hx => List.mem_append_left _ hx) (Nat.le_refl _) hle)
    exact hfirst.append (ih (h.constants_eq ▸ hconstants) (hfirst.clear hclear hle))
  | block h hrest ihBlock ih =>
    have hle := hrest.reads.le
    have hfirst := ihBlock hconstants
      (hclear.of_subset (fun x hx => List.mem_append_left _ hx) (Nat.le_refl _) hle)
    exact hfirst.append (ih (h.constants_eq ▸ hconstants) (hfirst.clear hclear hle))
  | ifThen hcondition hyes hrest ihYes ih =>
    have hle := hrest.reads.le
    have hfirst := placed_branch hyes.reads.le
      (branch_inner_free hyes.free Stmt.hasConditional_nil _ _) (hcondition.readsLocals hconstants)
      (hclear.of_subset (fun x hx => List.mem_append_left _ hx) (Nat.le_refl _) hle)
      fun visible' hinner => ⟨(ihYes hconstants (hinner.of_subset
        (by simp [Source.declaredAll, Statement.declared]) (Nat.le_refl _) (Nat.le_refl _))).fits,
        trivial⟩
    exact hfirst.append (ih hconstants (hfirst.clear hclear hle))
  | ifElse hcondition hyes hno hrest ihYes ihNo ih =>
    have hle := hrest.reads.le
    have hleYes := hyes.reads.le
    have hleNo := hno.reads.le
    have hfirst := placed_branch (Nat.le_trans hleYes hleNo)
      (branch_inner_free hyes.free hno.free _ _) (hcondition.readsLocals hconstants)
      (hclear.of_subset (fun x hx => List.mem_append_left _ hx) (Nat.le_refl _) hle)
      fun visible' hinner => ⟨
        (ihYes hconstants (hinner.of_subset (by
          simp +contextual [Source.declaredAll, Statement.declared]) (Nat.le_refl _) hleNo)).fits,
        (ihNo hconstants (hinner.of_subset (by
          simp +contextual [Source.declaredAll, Statement.declared]) hleYes (Nat.le_refl _))).fits⟩
    exact hfirst.append (ih hconstants (hfirst.clear hclear hle))
  | empty hrest ih => exact ih hconstants hclear

end Resolve

end Covenant
