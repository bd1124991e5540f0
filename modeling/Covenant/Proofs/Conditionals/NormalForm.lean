import Covenant.Proofs.Names.Scoping
import Mathlib.Algebra.GroupWithZero.Nat
import Mathlib.Data.List.Nodup

/-!
# Bodies without conditionals

Taking the conditionals out of a body ends in a normal form: no conditional is left at any depth,
and a body without any stays as it is. On the way one temporary is handed out for each conditional,
and each of them is declared once, beside whatever the body declares itself.

Main statement: `normalizeAll_complete`.
-/

namespace Covenant

/-! ## Counting -/

/-- The number of conditionals within an expression. -/
def Expr.conditionals (e : Expr) : Nat :=
  e.subexpressions.countP isConditional

namespace Stmt

/-- The number of conditionals within a body. -/
def conditionals (body : List Stmt) : Nat :=
  (expressionsOf body).countP Expr.isConditional

/-- **The names that a body declares**, at any depth, as often as it declares them. -/
def declared (body : List Stmt) : List String :=
  (substatementsAll body).flatMap declares

/-- The conditionals of a body: those of the operands and the branches of its first statement, and
those behind it. -/
theorem conditionals_cons (s : Stmt) (body : List Stmt) :
    conditionals (s :: body) =
      (s.operands.map Expr.conditionals).sum + conditionals s.inner + conditionals body := by
  simp only [conditionals, expressionsOf_cons, List.countP_append, List.countP_flatMap]
  rfl

theorem conditionals_append (first second : List Stmt) :
    conditionals (first ++ second) = conditionals first + conditionals second := by
  simp [conditionals]

@[simp] theorem conditionals_nil : conditionals [] = 0 := rfl

@[simp] theorem declared_nil : declared [] = [] := rfl

@[simp] theorem declared_append (first second : List Stmt) :
    declared (first ++ second) = declared first ++ declared second := by
  simp [declared]

theorem declared_cons (s : Stmt) (body : List Stmt) :
    declared (s :: body) = s.declares ++ declared s.inner ++ declared body := by
  simp [declared, substatementsAll, substatements_eq]

end Stmt

/-- A conditional counts itself and those in its parts. -/
theorem Expr.conditionals_eq (e : Expr) :
    e.conditionals = (if e.isConditional then 1 else 0) + (e.parts.map conditionals).sum := by
  rw [conditionals, subexpressions_eq, List.countP_cons, List.countP_flatMap, Nat.add_comm]
  rfl

namespace Resolve

variable {scope : Scope}

/-! ## Temporaries -/

/-- The names of some temporaries, counted from a number on. -/
def temporaries (next count : Nat) : List String :=
  (List.range' next count).map Temps.nameOf

/-- Temporaries are handed out in a row. -/
theorem temporaries_add (next m n : Nat) :
    temporaries next (m + n) = temporaries next m ++ temporaries (next + m) n := by
  rw [temporaries, temporaries, temporaries, ← List.map_append, List.range'_append_1]

theorem nodup_temporaries (next count : Nat) : (temporaries next count).Nodup :=
  List.Nodup.map (fun _ _ => Execution.nameOf_injective) List.nodup_range'

/-- **Some statements bring in temporaries**, from one number up to another: each is declared once
more than it is among some other names, and nothing else is declared but those names. -/
structure BringsIn (names : List String) (lo count hi : Nat) (result : List Stmt) : Prop where
  next : hi = lo + count
  declared : ∀ x, (Stmt.declared result).count x = names.count x + (temporaries lo count).count x

namespace BringsIn

variable {names names' : List String} {lo m mid n hi : Nat} {result result' : List Stmt}

/-- Statements bring in no temporaries beside the names that they declare. -/
theorem none (lo : Nat) (body : List Stmt) : BringsIn (Stmt.declared body) lo 0 lo body :=
  ⟨rfl, fun _ => rfl⟩

/-- What two parts bring in, one after the other. -/
theorem append (h : BringsIn names lo m mid result) (h' : BringsIn names' mid n hi result') :
    BringsIn (names ++ names') lo (m + n) hi (result ++ result') where
  next := by rw [h'.next, h.next, Nat.add_assoc]
  declared x := by
    have hfirst := h.declared x
    have hsecond := h'.declared x
    rw [h.next] at hsecond
    rw [Stmt.declared_append, temporaries_add]
    simp only [List.count_append]
    omega

/-- The order in which names are declared does not matter. -/
theorem congr (h : BringsIn names lo m mid result)
    (hnames : ∀ x, names'.count x = names.count x)
    (hresult : ∀ x, (Stmt.declared result').count x = (Stmt.declared result).count x) :
    BringsIn names' lo m mid result' :=
  ⟨h.next, fun x => by rw [hresult, hnames, h.declared]⟩

/-- One more temporary is handed out and declared. -/
theorem take (h : BringsIn names lo m mid result)
    (hresult : ∀ x, (Stmt.declared result').count x =
      (Stmt.declared result).count x + [Temps.nameOf mid].count x) :
    BringsIn names lo (m + 1) (mid + 1) result' where
  next := by rw [h.next, Nat.add_assoc]
  declared x := by
    rw [hresult, h.declared, h.next, temporaries_add, List.count_append, Nat.add_assoc]
    rfl

end BringsIn

/-! ## Expressions -/

theorem hoistEach_bringsIn_of {es : List Expr}
    (h : ∀ e ∈ es, ∀ t, BringsIn [] t.next e.conditionals (hoist scope e t).2.2.next
      (hoist scope e t).1) (t : Temps) :
    BringsIn [] t.next (es.map Expr.conditionals).sum (hoistEach scope es t).2.2.next
      (hoistEach scope es t).1 := by
  induction es generalizing t with
  | nil => exact .none t.next []
  | cons e es ih =>
    rw [List.forall_mem_cons] at h
    exact (h.1 t).append (ih h.2 _)

/-- **The statements before an expression declare one temporary for each of its conditionals.** -/
theorem hoist_bringsIn (scope : Scope) (e : Expr) (t : Temps) :
    BringsIn [] t.next e.conditionals (hoist scope e t).2.2.next (hoist scope e t).1 := by
  induction e using Expr.induction_conditional generalizing t with
  | plain e hconditional ih =>
    rw [Expr.conditionals_eq, hoist_eq hconditional, hconditional, if_neg Bool.false_ne_true,
      Nat.zero_add]
    exact hoistEach_bringsIn_of ih t
  | conditional pos condition yes no hcondition hyes hno =>
    have hparts := @hoistEach_bringsIn_of scope [condition, yes, no]
      (by simp [hcondition, hyes, hno]) t
    rw [Expr.conditionals_eq, Expr.isConditional, if_pos rfl, Nat.add_comm, Expr.parts]
    refine hparts.take fun x => ?_
    simp only [hoist, hoistEach, Stmt.declared_append, Stmt.declared_cons, Stmt.declares,
      Stmt.inner, Stmt.declared_nil, List.append_nil, List.nil_append, List.count_append]
    omega

theorem hoistEach_bringsIn (scope : Scope) (es : List Expr) (t : Temps) :
    BringsIn [] t.next (es.map Expr.conditionals).sum (hoistEach scope es t).2.2.next
      (hoistEach scope es t).1 :=
  hoistEach_bringsIn_of (fun e _ => hoist_bringsIn scope e) t

/-! ## Bodies -/

theorem hoistBody_bringsIn_of {body : List Stmt}
    (h : ∀ s ∈ body, ∀ t, BringsIn (Stmt.declared [s]) t.next (Stmt.conditionals [s])
      (hoistStmt scope s t).2.next (hoistStmt scope s t).1) (t : Temps) :
    BringsIn (Stmt.declared body) t.next (Stmt.conditionals body) (hoistBody scope body t).2.next
      (hoistBody scope body t).1 := by
  induction body generalizing t with
  | nil => exact .none t.next []
  | cons s body ih =>
    rw [List.forall_mem_cons] at h
    rw [← List.singleton_append, Stmt.declared_append, Stmt.conditionals_append]
    exact (h.1 t).append (ih h.2 _)

/-- A statement without branches keeps its shape. -/
theorem hoistStmt_of_inner_eq_nil {s : Stmt} (h : s.inner = []) (t : Temps) :
    hoistStmt scope s t = ((hoistEach scope s.operands t).1 ++
      [s.withOperands (hoistEach scope s.operands t).2.1], (hoistEach scope s.operands t).2.2) :=
  hoistStmt_of_fixed (fun _ hpart => absurd (h ▸ hpart) List.not_mem_nil) t

theorem hoistStmt_bringsIn_of_inner_eq_nil {s : Stmt} (h : s.inner = []) (t : Temps) :
    BringsIn (Stmt.declared [s]) t.next (Stmt.conditionals [s]) (hoistStmt scope s t).2.next
      (hoistStmt scope s t).1 := by
  have hself := BringsIn.none (hoistEach scope s.operands t).2.2.next
    [s.withOperands (hoistEach scope s.operands t).2.1]
  have hnames : Stmt.declared [s.withOperands (hoistEach scope s.operands t).2.1] =
      Stmt.declared [s] := by
    simp only [Stmt.declared_cons, Stmt.declares_withOperands, Stmt.inner_withOperands]
  rw [hoistStmt_of_inner_eq_nil h, Stmt.conditionals_cons, h]
  exact hnames ▸ (hoistEach_bringsIn scope s.operands t).append hself

/-- **What a statement becomes declares one temporary for each conditional of the statement**,
beside what the statement declares. -/
theorem hoistStmt_bringsIn (scope : Scope) (s : Stmt) (t : Temps) :
    BringsIn (Stmt.declared [s]) t.next (Stmt.conditionals [s]) (hoistStmt scope s t).2.next
      (hoistStmt scope s t).1 := by
  induction s using Stmt.induction generalizing t with
  | h s ih =>
    cases s with
    | branch pos condition yes no =>
      rw [Stmt.inner, List.forall_mem_append] at ih
      have hparts := ((hoist_bringsIn scope condition t).append
        (hoistBody_bringsIn_of ih.1 _)).append (hoistBody_bringsIn_of ih.2 _)
      have hcount : Stmt.conditionals [.branch pos condition yes no] =
          condition.conditionals + Stmt.conditionals yes + Stmt.conditionals no := by
        rw [Stmt.conditionals_cons, Stmt.inner, Stmt.conditionals_append]
        simp [Stmt.operands, Nat.add_assoc]
      refine hcount ▸ hparts.congr (fun x => ?_) (fun x => ?_)
      · simp [Stmt.declared_cons, Stmt.declares, Stmt.inner]
      · simp [hoistStmt, Stmt.declared_cons, Stmt.declares, Stmt.inner]
    | _ => exact hoistStmt_bringsIn_of_inner_eq_nil rfl t

/-- **What a body becomes declares one temporary for each conditional of the body**, beside what the
body declares. -/
theorem hoistBody_bringsIn (scope : Scope) (body : List Stmt) (t : Temps) :
    BringsIn (Stmt.declared body) t.next (Stmt.conditionals body) (hoistBody scope body t).2.next
      (hoistBody scope body t).1 :=
  hoistBody_bringsIn_of (fun s _ => hoistStmt_bringsIn scope s) t

/-! ## Nothing is left -/

theorem hoistBody_lacks_of {p : Expr → Bool} {body : List Stmt}
    (h : ∀ s ∈ body, ∀ t, Stmt.Lacks p (hoistStmt scope s t).1) (t : Temps) :
    Stmt.Lacks p (hoistBody scope body t).1 := by
  induction body generalizing t with
  | nil => exact Stmt.lacks_nil
  | cons s body ih =>
    rw [List.forall_mem_cons] at h
    exact Stmt.lacks_append.2 ⟨h.1 t, ih h.2 _⟩

/-- **A kind of which a statement has nothing but conditionals is not left** in it. -/
theorem hoistStmt_lacks {p : Expr → Bool} (hp : Expr.IsKind p) (scope : Scope) {s : Stmt}
    (h : Stmt.Lacks (fun e => p e && !e.isConditional) [s]) (t : Temps) :
    Stmt.Lacks p (hoistStmt scope s t).1 := by
  induction s using Stmt.induction generalizing t with
  | h s ih =>
    obtain ⟨hoperands, hinner, -⟩ := Stmt.lacks_cons.1 h
    cases s with
    | branch pos condition yes no =>
      have hbranches : ∀ part ∈ yes ++ no, ∀ t, Stmt.Lacks p (hoistStmt scope part t).1 :=
        fun part hpart => ih part hpart (hinner.of_mem hpart)
      rw [List.forall_mem_append] at hbranches
      obtain ⟨hcondition, hbefore⟩ :=
        hoist_lacks hp scope (hoperands condition (List.mem_singleton.2 rfl)) t
      simp only [hoistStmt, Stmt.lacks_append, Stmt.lacks_cons, Stmt.operands, Stmt.inner,
        List.forall_mem_singleton]
      exact ⟨hbefore, hcondition, ⟨hoistBody_lacks_of hbranches.1 _,
        hoistBody_lacks_of hbranches.2 _⟩, Stmt.lacks_nil⟩
    | _ =>
      obtain ⟨hleft, hbefore⟩ := hoistEach_lacks hp scope hoperands t
      rw [hoistStmt_of_inner_eq_nil rfl, Stmt.lacks_append, Stmt.lacks_cons,
        Stmt.operands_withOperands (length_hoistEach _ _ _), Stmt.inner_withOperands]
      exact ⟨hbefore, hleft, Stmt.lacks_nil, Stmt.lacks_nil⟩

theorem hoistBody_lacks {p : Expr → Bool} (hp : Expr.IsKind p) (scope : Scope) {body : List Stmt}
    (h : Stmt.Lacks (fun e => p e && !e.isConditional) body) (t : Temps) :
    Stmt.Lacks p (hoistBody scope body t).1 :=
  hoistBody_lacks_of (fun _ hs => hoistStmt_lacks hp scope (h.of_mem hs)) t

/-- A body without conditionals stays as it is. -/
theorem hoistBody_of_free {body : List Stmt} (h : Stmt.hasConditional body = false) (t : Temps) :
    hoistBody scope body t = (body, t) := by
  rw [Stmt.hasConditional_eq_any, List.any_eq_false] at h
  exact hoistBody_of_fixed (fun s hs => hoistStmt_of_free (Bool.eq_false_iff.2 (h s hs))) t

/-- **A body without conditionals stays as it is**, and no number is used up. -/
theorem normalizeAll?_of_free {body : List Stmt} (hwhole : Stmt.isWhole body = true)
    (h : Stmt.hasConditional body = false) (next : Nat) :
    normalizeAll? scope next body = some (body, next) := by
  rw [normalizeAll?, if_pos hwhole, normalizeAll, hoistBody_of_free h]

/-- **Taking the conditionals out of a body ends in a normal form.** Every body that is there with
all its expressions becomes one without conditionals at any depth, with as many temporaries as the
body has conditionals; each of them is declared once more than the body declares a variable of that
name itself, and every other name as often as before. A body without conditionals stays as it is and
takes no temporary, and so does the result, in whichever scope and from whichever number on. -/
theorem normalizeAll_complete (scope : Scope) (next : Nat) {body : List Stmt}
    (hwhole : Stmt.isWhole body = true) :
    ∃ result, normalizeAll? scope next body = some (result, next + Stmt.conditionals body) ∧
      Stmt.hasConditional result = false ∧
      (∀ x, (Stmt.declared result).count x = (Stmt.declared body).count x +
        if x ∈ temporaries next (Stmt.conditionals body) then 1 else 0) ∧
      (Stmt.hasConditional body = false → result = body ∧ Stmt.conditionals body = 0) ∧
      ∀ scope' next', normalizeAll? scope' next' result = some (result, next') := by
  have hbrings := hoistBody_bringsIn scope body { next }
  have hfree : Stmt.hasConditional (hoistBody scope body { next }).1 = false :=
    Stmt.hasConditional_eq_false_iff.2 (hoistBody_lacks Expr.isKind_isConditional scope
      (fun e _ => Bool.and_not_self _) _)
  have hwhole' : Stmt.isWhole (hoistBody scope body { next }).1 = true := by
    refine Stmt.isWhole_iff.2 (hoistBody_lacks Expr.isKind_isMissing scope (fun e he => ?_) _)
    exact Bool.and_eq_false_imp.2 fun h => absurd (Stmt.isWhole_iff.1 hwhole e he) (by simp [h])
  refine ⟨(hoistBody scope body { next }).1, ?_, hfree, fun x => ?_, fun h => ?_,
    fun scope' next' => normalizeAll?_of_free hwhole' hfree next'⟩
  · rw [normalizeAll?, if_pos hwhole, ← hbrings.next]
    rfl
  · rw [hbrings.declared, (nodup_temporaries _ _).count]
  · rw [hoistBody_of_free h]
    refine ⟨rfl, List.countP_eq_zero.2 fun e he => ?_⟩
    exact Bool.eq_false_iff.1 (Stmt.hasConditional_eq_false_iff.1 h e he)

/-- A conditional in the condition of a branch, and one in another within the branch. -/
def branchChoice : List Stmt :=
  [.branch {} (.conditional {} (.var {} "a") (.this {}) (.var {} "b"))
    [.declare {} "x" .number
      (some (.conditional {} (.var {} "a")
        (.conditional {} (.var {} "b") (.literal {} .number "1") (.var {} "a"))
        (.literal {} .number "2"))),
      .exit {} (some (.var {} "x"))]
    [.exit {} none]]

/-- Three conditionals, two of them within a branch: the numbers go on by three, and nothing is
declared twice. -/
theorem normalizeAll_complete_branchChoice :
    Stmt.isWhole branchChoice = true ∧ Stmt.hasConditional branchChoice = true ∧
      ∃ result, normalizeAll? {} 7 branchChoice = some (result, 10) ∧
        Stmt.hasConditional result = false ∧
        (Stmt.declared result).count "cond_8" = 1 ∧ (Stmt.declared result).count "x" = 1 ∧
        ∀ scope' next', normalizeAll? scope' next' result = some (result, next') := by
  obtain ⟨result, hresult, hfree, hdeclared, -, hagain⟩ :=
    @normalizeAll_complete {} 7 branchChoice (by decide)
  refine ⟨by decide, by decide, result, hresult, hfree, ?_, ?_, hagain⟩
  · rw [hdeclared]
    decide
  · rw [hdeclared]
    decide

end Resolve

end Covenant
