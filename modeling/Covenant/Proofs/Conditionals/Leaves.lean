import Covenant.Proofs.Conditionals.Elimination
import Mathlib.Tactic.Tauto

/-!
# Leaves

The leaves of an expression are the expressions within it that have no parts: its literals, its
readings of locals, of properties and of the environment. Taking the conditionals out moves leaves
to other places but loses none, and all it adds are readings of the temporaries it hands out.
-/

namespace Covenant

/-- The expressions without parts within an expression. -/
def Expr.leaves (e : Expr) : List Expr :=
  e.subexpressions.filter (·.parts.isEmpty)

/-- The expressions without parts within a body. -/
def Stmt.leaves (body : List Stmt) : List Expr :=
  (expressionsOf body).filter (·.parts.isEmpty)

namespace Expr

/-- The local that an expression is a reading of. -/
def local? : Expr → Option String
  | var _ name => some name
  | _ => none

/-- An expression without parts is its own leaf. -/
theorem leaves_of_parts_eq_nil {e : Expr} (h : e.parts = []) : e.leaves = [e] := by
  simp [leaves, subexpressions_eq, h]

/-- The leaves of an expression with parts are those of its parts. -/
theorem leaves_of_parts_ne_nil {e : Expr} (h : e.parts ≠ []) :
    e.leaves = e.parts.flatMap leaves := by
  rw [leaves, subexpressions_eq, List.filter_cons_of_neg (by simpa using h), List.filter_flatMap]
  rfl

@[simp] theorem leaves_var (pos : Position) (x : String) : (var pos x).leaves = [var pos x] := rfl

end Expr

namespace Stmt

@[simp] theorem leaves_nil : leaves [] = [] := rfl

@[simp] theorem leaves_append (first second : List Stmt) :
    leaves (first ++ second) = leaves first ++ leaves second := by
  simp [leaves]

/-- The leaves of a body: those of the operands and the branches of its first statement, and those
behind it. -/
theorem leaves_cons (s : Stmt) (body : List Stmt) :
    leaves (s :: body) = s.operands.flatMap Expr.leaves ++ leaves s.inner ++ leaves body := by
  simp only [leaves, expressionsOf_cons, List.filter_append, List.filter_flatMap]
  rfl

end Stmt

namespace Resolve

variable {scope : Scope}

/-- **Everything is carried over**, and nothing comes in but what names a temporary from one number
up to another. -/
structure Carries {α : Type} (local? : α → Option String) (lo hi : Nat) (source result : List α) :
    Prop where
  le : lo ≤ hi
  kept : ∀ a ∈ source, a ∈ result
  known : ∀ a ∈ result, a ∈ source ∨ ∃ k, lo ≤ k ∧ k < hi ∧ local? a = some (Temps.nameOf k)

namespace Carries

variable {α : Type} {local? : α → Option String} {lo mid hi : Nat}
variable {source result more result' : List α}

theorem of_mem_iff (n : Nat) (h : ∀ a, a ∈ result ↔ a ∈ source) :
    Carries local? n n source result :=
  ⟨Nat.le_refl n, fun a => (h a).2, fun a ha => .inl ((h a).1 ha)⟩

theorem refl (n : Nat) (source : List α) : Carries local? n n source source :=
  of_mem_iff n fun _ => Iff.rfl

/-- What is carried twice comes with the temporaries of both. -/
theorem trans (h : Carries local? lo mid source result) (h' : Carries local? mid hi result more) :
    Carries local? lo hi source more where
  le := Nat.le_trans h.le h'.le
  kept a ha := h'.kept a (h.kept a ha)
  known a ha := by
    have hle := h.le
    have hle' := h'.le
    rcases h'.known a ha with ha | ⟨k, h1, h2, h3⟩
    · exact (h.known a ha).imp id fun ⟨k, h1, h2, h3⟩ => ⟨k, h1, by omega, h3⟩
    · exact .inr ⟨k, by omega, h2, h3⟩

theorem append (h : Carries local? lo mid source result)
    (h' : Carries local? mid hi more result') :
    Carries local? lo hi (source ++ more) (result ++ result') where
  le := Nat.le_trans h.le h'.le
  kept a ha := by
    rw [List.mem_append] at ha ⊢
    exact ha.imp (h.kept a) (h'.kept a)
  known a ha := by
    have hle := h.le
    have hle' := h'.le
    rw [List.mem_append]
    rcases List.mem_append.1 ha with ha | ha
    · exact (h.known a ha).imp .inl fun ⟨k, h1, h2, h3⟩ => ⟨k, h1, by omega, h3⟩
    · exact (h'.known a ha).imp .inr fun ⟨k, h1, h2, h3⟩ => ⟨k, by omega, h2, h3⟩

/-- The order of what is found does not matter. -/
theorem congr (h : Carries local? lo hi source result) (hresult : ∀ a, a ∈ result' ↔ a ∈ result) :
    Carries local? lo hi source result' :=
  h.trans (of_mem_iff hi hresult)

/-- One more temporary is handed out and named. -/
theorem take (h : Carries local? lo hi source result) {a : α}
    (ha : local? a = some (Temps.nameOf hi)) :
    Carries local? lo (hi + 1) source (result ++ [a]) where
  le := Nat.le_succ_of_le h.le
  kept b hb := List.mem_append_left _ (h.kept b hb)
  known b hb := by
    rcases List.mem_append.1 hb with hb | hb
    · exact (h.known b hb).imp id fun ⟨k, h1, h2, h3⟩ => ⟨k, h1, by omega, h3⟩
    · exact .inr ⟨hi, h.le, Nat.lt_succ_self hi, List.mem_singleton.1 hb ▸ ha⟩

/-- Everything is carried over under a partial map that keeps the names of locals. -/
theorem filterMap {β : Type} {local?' : β → Option String} {f : α → Option β}
    (hf : ∀ a b, f a = some b → local?' b = local? a) (h : Carries local? lo hi source result) :
    Carries local?' lo hi (source.filterMap f) (result.filterMap f) where
  le := h.le
  kept b hb := by
    obtain ⟨a, ha, hab⟩ := List.mem_filterMap.1 hb
    exact List.mem_filterMap.2 ⟨a, h.kept a ha, hab⟩
  known b hb := by
    obtain ⟨a, ha, hab⟩ := List.mem_filterMap.1 hb
    refine (h.known a ha).imp (fun ha => List.mem_filterMap.2 ⟨a, ha, hab⟩) ?_
    exact fun ⟨k, h1, h2, h3⟩ => ⟨k, h1, h2, (hf a b hab).trans h3⟩

end Carries

theorem hoistEach_carries_of {es : List Expr}
    (h : ∀ e ∈ es, ∀ t, Carries Expr.local? t.next (hoist scope e t).2.2.next e.leaves
      (Stmt.leaves (hoist scope e t).1 ++ (hoist scope e t).2.1.leaves)) (t : Temps) :
    Carries Expr.local? t.next (hoistEach scope es t).2.2.next (es.flatMap Expr.leaves)
      (Stmt.leaves (hoistEach scope es t).1 ++ (hoistEach scope es t).2.1.flatMap Expr.leaves) := by
  induction es generalizing t with
  | nil => exact .refl _ _
  | cons e es ih =>
    rw [List.forall_mem_cons] at h
    refine ((h.1 t).append (ih h.2 (hoist scope e t).2.2)).congr fun leaf => ?_
    simp only [hoistEach, Stmt.leaves_append, List.flatMap_cons, List.mem_append]
    tauto

/-- **Taking the conditionals out of an expression carries its leaves over.** -/
theorem hoist_carries (scope : Scope) (e : Expr) (t : Temps) :
    Carries Expr.local? t.next (hoist scope e t).2.2.next e.leaves
      (Stmt.leaves (hoist scope e t).1 ++ (hoist scope e t).2.1.leaves) := by
  induction e using Expr.induction_conditional generalizing t with
  | plain e hconditional ih =>
    rw [hoist_eq hconditional]
    by_cases hparts : e.parts = []
    · have hself : e.withParts [] = e := by rw [← hparts, Expr.withParts_parts]
      simp only [hparts, hoistEach, hself, Stmt.leaves_nil, List.nil_append]
      exact .refl _ _
    · have hlength := length_hoistEach scope e.parts t
      have hparts' : (e.withParts (hoistEach scope e.parts t).2.1).parts ≠ [] := by
        rw [Expr.parts_withParts hlength]
        exact fun hnil => hparts (List.length_eq_zero_iff.1 (by rw [← hlength, hnil]; rfl))
      rw [Expr.leaves_of_parts_ne_nil hparts, Expr.leaves_of_parts_ne_nil hparts',
        Expr.parts_withParts hlength]
      exact hoistEach_carries_of ih t
  | conditional pos condition yes no hcondition hyes hno =>
    have hleaves : (Expr.conditional pos condition yes no).leaves =
        condition.leaves ++ yes.leaves ++ no.leaves := by
      rw [Expr.leaves_of_parts_ne_nil (by simp [Expr.parts])]
      simp [Expr.parts]
    rw [hleaves]
    have hparts := ((hcondition t).append (hyes _)).append (hno _)
    refine (hparts.take (a := .var pos _) rfl).congr fun leaf => ?_
    simp only [hoist, Stmt.leaves_append, Stmt.leaves_cons, Stmt.leaves_nil, Stmt.operands,
      Stmt.inner, Option.toList_some, List.flatMap_cons, List.flatMap_nil, List.append_nil,
      List.mem_append, Expr.leaves_var]
    tauto

theorem hoistEach_carries (scope : Scope) (es : List Expr) (t : Temps) :
    Carries Expr.local? t.next (hoistEach scope es t).2.2.next (es.flatMap Expr.leaves)
      (Stmt.leaves (hoistEach scope es t).1 ++ (hoistEach scope es t).2.1.flatMap Expr.leaves) :=
  hoistEach_carries_of (fun e _ => hoist_carries scope e) t

/-- A statement that keeps its shape has its leaves carried over, those in its branches as they
are. -/
theorem normalize_carries (scope : Scope) {s : Stmt}
    (h : Stmt.hasConditional s.inner = false) (next : Nat) :
    Carries Expr.local? next (normalize scope next s).2 (Stmt.leaves [s])
      (Stmt.leaves (normalize scope next s).1) := by
  have hoperands := hoistEach_carries scope s.operands { next }
  have hsource : Stmt.leaves [s] = s.operands.flatMap Expr.leaves ++ Stmt.leaves s.inner := by
    rw [Stmt.leaves_cons, Stmt.leaves_nil, List.append_nil]
  rw [normalize_eq h, hsource]
  refine (hoperands.append (.refl _ (Stmt.leaves s.inner))).congr fun leaf => ?_
  rw [Stmt.leaves_append, Stmt.leaves_cons, Stmt.operands_withOperands (length_hoistEach _ _ _),
    Stmt.inner_withOperands, Stmt.leaves_nil, List.append_nil, List.append_assoc]

end Resolve

end Covenant
