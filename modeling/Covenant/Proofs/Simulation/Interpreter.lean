import Covenant.Proofs.Computations
import Covenant.Proofs.Simulation.Reference
import Covenant.Proofs.Simulation.Variables

/-!
# What the reference interpreter does

Facts about runs of the interpreter by themselves: what its steps are made of, that a body keeps the
locals it finds (`exec_grown`), and that the words a body is left with are those of one of its exits
(`exec_left`).
-/

namespace Covenant

namespace Reference

variable {w : World}

/-! ## Expressions -/

section Expressions

variable (w) (s : State) (pos : Position)

theorem eval_entry (name : String) (indices : List Expr) :
    eval w s (.entry pos name indices) = (evalEach w s indices).bind (w.entry s.storage name) := rfl

theorem eval_binary (op : BinaryOp) (left right : Expr) :
    eval w s (.binary pos op left right)
      = (eval w s left).bind fun a => (eval w s right).bind (Execution.operate op a) := rfl

theorem eval_hash (inputs : List Expr) :
    eval w s (.hash pos inputs)
      = (evalEach w s inputs).bind fun words => .ok (w.keccak (words.flatMap Word.bytes)) := rfl

theorem evalEach_one (e : Expr) : evalEach w s [e] = (eval w s e).map ([·]) := by
  rw [evalEach, evalEach]
  cases eval w s e <;> rfl

/-- Values are computed from the first to the last. -/
theorem evalEach_concat (es : List Expr) (e : Expr) :
    evalEach w s (es ++ [e]) = (do
      let words ← evalEach w s es
      let a ← eval w s e
      return words ++ [a]) := by
  induction es with
  | nil =>
    rw [List.nil_append, evalEach_one, evalEach]
    cases eval w s e <;> rfl
  | cons first es ih =>
    rw [List.cons_append, evalEach, ih, evalEach]
    cases eval w s first with
    | error panic => rfl
    | ok a =>
      cases evalEach w s es with
      | error panic => rfl
      | ok words => cases eval w s e <;> rfl

variable {w s}

/-- There are as many values as expressions. -/
theorem length_evalEach {es : List Expr} {words : List Word}
    (h : evalEach w s es = .ok words) : words.length = es.length := by
  induction es generalizing words with
  | nil =>
    cases h
    rfl
  | cons e es ih =>
    rw [evalEach] at h
    obtain ⟨a, -, h⟩ := bind_eq_ok.1 h
    obtain ⟨rest, hrest, h⟩ := bind_eq_ok.1 h
    cases pure_eq_ok.1 h
    rw [List.length_cons, List.length_cons, ih hrest]

end Expressions

/-! ## Blocks -/

/-- The end of a block: what it declared is gone. -/
def State.leave (s : State) : State :=
  { s with locals := s.locals.leave }

/-- A branch is taken by the value of its condition, in a block of its own. -/
theorem exec_branch (w : World) (pos : Position) (condition : Expr) (yes no : List Stmt)
    (s : State) :
    exec w (.branch pos condition yes no) s = (do
      let a ← panics (eval w s condition)
      let out ← execAll w (if a = 0 then no else yes) { s with locals := s.locals.enter }
      return (out.1, out.2.leave)) := by
  rw [exec]
  cases panics (eval w s condition) with
  | error failure => rfl
  | ok a =>
    by_cases ha : a = 0
    · simp only [ok_bind, ha, ne_eq, not_true_eq_false, if_false, if_true]
      rfl
    · simp only [ok_bind, ha, ne_eq, not_false_eq_true, if_false, if_true]
      rfl

mutual
/-- What a statement finds of locals stays. -/
theorem exec_grown : ∀ (stmt : Stmt) {s t : State} {ending : Ending},
    exec w stmt s = .ok (ending, t) → s.locals.Grown t.locals
  | .setProperty _ _ _, _, _, _, h | .exit _ (some _), _, _, _, h | .emit _ _ _, _, _, _, h
  | .evaluate _ _, _, _, _, h => by
    rw [exec] at h
    obtain ⟨a, -, h⟩ := bind_eq_ok.1 h
    cases pure_eq_ok.1 h
    exact .refl _
  | .setEntry _ _ _ _, _, _, _, h => by
    rw [exec] at h
    obtain ⟨keys, -, h⟩ := bind_eq_ok.1 h
    obtain ⟨a, -, h⟩ := bind_eq_ok.1 h
    obtain ⟨storage, -, h⟩ := bind_eq_ok.1 h
    cases pure_eq_ok.1 h
    exact .refl _
  | .declare _ name _ none, _, _, _, h => by
    cases h
    exact .declare _ name 0
  | .declare _ name _ (some _), _, _, _, h => by
    rw [exec] at h
    obtain ⟨a, -, h⟩ := bind_eq_ok.1 h
    cases pure_eq_ok.1 h
    exact .declare _ name a
  | .setVariable _ name _, _, _, _, h => by
    rw [exec] at h
    obtain ⟨a, -, h⟩ := bind_eq_ok.1 h
    cases pure_eq_ok.1 h
    exact .set _ name a
  | .exit _ none, _, _, _, h | .skip _, _, _, _, h => by
    cases h
    exact .refl _
  | .throw _ _, _, _, _, h => by
    rw [exec] at h
    obtain ⟨a, -, h⟩ := bind_eq_ok.1 h
    exact absurd h throw_ne_ok
  -- what the side declares is forgotten behind it
  | .branch _ _ yes no, _, _, _, h => by
    rw [exec_branch] at h
    obtain ⟨a, -, h⟩ := bind_eq_ok.1 h
    obtain ⟨⟨ending, t⟩, hrun, h⟩ := bind_eq_ok.1 h
    cases pure_eq_ok.1 h
    split at hrun
    · exact (execAll_grown no hrun).leave
    · exact (execAll_grown yes hrun).leave

/-- **A body keeps the locals it found.** -/
theorem execAll_grown : ∀ (body : List Stmt) {s t : State} {ending : Ending},
    execAll w body s = .ok (ending, t) → s.locals.Grown t.locals
  | [], _, _, _, h => by
    cases h
    exact .refl _
  | stmt :: body, _, _, _, h => by
    rw [execAll] at h
    obtain ⟨⟨ending, u⟩, hfirst, h⟩ := bind_eq_ok.1 h
    have hgrown := exec_grown stmt hfirst
    cases ending with
    | next => exact hgrown.trans (execAll_grown body h)
    | left words =>
      cases pure_eq_ok.1 h
      exact hgrown
end

/-! ## Exits -/

theorem panics_eq_ok {α : Type} {r : Except Execution.Panic α} {a : α} :
    panics r = .ok a ↔ r = .ok a := by
  cases r <;> simp [panics]

mutual
/-- A statement that is left with words has an exit that returns them. -/
theorem exec_left : ∀ (stmt : Stmt) {s t : State} {words : List Word},
    exec w stmt s = .ok (.left (some words), t) →
    ∃ pos value ref, .exit pos (some value) ∈ stmt.substatements ∧
      returned w ref value = .ok words
  | .exit pos (some value), s, _, _, h => by
    rw [exec] at h
    obtain ⟨words, hwords, h⟩ := bind_eq_ok.1 h
    cases pure_eq_ok.1 h
    exact ⟨pos, value, s, List.mem_cons_self, panics_eq_ok.1 hwords⟩
  | .branch _ _ yes no, _, _, _, h => by
    rw [exec_branch] at h
    obtain ⟨a, -, h⟩ := bind_eq_ok.1 h
    obtain ⟨⟨ending, t⟩, hrun, h⟩ := bind_eq_ok.1 h
    cases pure_eq_ok.1 h
    rw [Stmt.substatements]
    split at hrun
    · obtain ⟨pos, value, ref, hmem, hwords⟩ := execAll_left no hrun
      exact ⟨pos, value, ref, List.mem_cons_of_mem _ (List.mem_append_right _ hmem), hwords⟩
    · obtain ⟨pos, value, ref, hmem, hwords⟩ := execAll_left yes hrun
      exact ⟨pos, value, ref, List.mem_cons_of_mem _ (List.mem_append_left _ hmem), hwords⟩
  -- no other statement is left with words
  | .setProperty _ _ _, _, _, _, h | .emit _ _ _, _, _, _, h | .evaluate _ _, _, _, _, h
  | .declare _ _ _ (some _), _, _, _, h | .setVariable _ _ _, _, _, _, h => by
    rw [exec] at h
    obtain ⟨a, -, h⟩ := bind_eq_ok.1 h
    cases pure_eq_ok.1 h
  | .setEntry _ _ _ _, _, _, _, h => by
    rw [exec] at h
    obtain ⟨keys, -, h⟩ := bind_eq_ok.1 h
    obtain ⟨a, -, h⟩ := bind_eq_ok.1 h
    obtain ⟨storage, -, h⟩ := bind_eq_ok.1 h
    cases pure_eq_ok.1 h
  | .throw _ _, _, _, _, h => by
    rw [exec] at h
    obtain ⟨a, -, h⟩ := bind_eq_ok.1 h
    exact absurd h throw_ne_ok
  | .declare _ _ _ none, _, _, _, h | .exit _ none, _, _, _, h | .skip _, _, _, _, h => by cases h

/-- A body that returned words did so by a return within it. -/
theorem execAll_left : ∀ (body : List Stmt) {s t : State} {words : List Word},
    execAll w body s = .ok (.left (some words), t) →
    ∃ pos value ref, .exit pos (some value) ∈ Stmt.substatementsAll body ∧
      returned w ref value = .ok words
  | [], _, _, _, h => by cases h
  | stmt :: body, _, _, _, h => by
    rw [execAll] at h
    obtain ⟨⟨ending, u⟩, hfirst, h⟩ := bind_eq_ok.1 h
    rw [Stmt.substatementsAll]
    cases ending with
    | next =>
      obtain ⟨pos, value, ref, hmem, hwords⟩ := execAll_left body h
      exact ⟨pos, value, ref, List.mem_append_right _ hmem, hwords⟩
    | left words =>
      cases pure_eq_ok.1 h
      obtain ⟨pos, value, ref, hmem, hwords⟩ := exec_left stmt hfirst
      exact ⟨pos, value, ref, List.mem_append_left _ hmem, hwords⟩
end

end Reference

end Covenant
