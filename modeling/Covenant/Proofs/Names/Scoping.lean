import Covenant.Proofs.Conditionals.Temporaries
import Covenant.Proofs.Names.Accesses

/-!
# Well scoped bodies

A name is visible in a body from its declaration on, to the end of the list of statements that
declares it and in all branches on the way. A body is well scoped if whatever it reads or sets is
visible and nothing visible is declared again (`Stmt.Scoped`). Taking the conditionals out of an
expression keeps it well scoped, as long as the temporaries that are handed out are not visible yet
(`hoist_prepares`).
-/

namespace Covenant

namespace Stmt

/-- The name that a statement declares, if it declares one. -/
def declares : Stmt → List String
  | declare _ name _ _ => [name]
  | _ => []

/-- The names that are visible behind some statements. -/
def visibleAfter (visible : List String) (body : List Stmt) : List String :=
  body.foldl (fun names s => s.declares ++ names) visible

/-- **A statement fits where some names are visible**: the names it reads and sets itself are among
them, and the name it declares is not, unless it is one that may clash. -/
structure Fits (clash : String → Prop) (visible : List String) (s : Stmt) : Prop where
  reads : ∀ p ∈ s.operands.flatMap Expr.reads, p.2 ∈ visible
  sets : ∀ p ∈ s.write?, p.2 ∈ visible
  new : ∀ x ∈ s.declares, x ∈ visible → clash x

mutual
/-- **A body is well scoped** where some names are visible, up to names that may clash. -/
def Scoped (clash : String → Prop) : List String → List Stmt → Prop
  | _, [] => True
  | visible, s :: body => s.Fits clash visible ∧ s.BranchesScoped clash visible ∧
      Scoped clash (s.declares ++ visible) body

/-- The branches of a statement see what the statement sees. -/
def BranchesScoped (clash : String → Prop) (visible : List String) : Stmt → Prop
  | branch _ _ yes no => Scoped clash visible yes ∧ Scoped clash visible no
  | _ => True
end

variable {clash : String → Prop} {visible : List String}

/-! ## Visible names -/

@[simp] theorem visibleAfter_nil : visibleAfter visible [] = visible := rfl

@[simp] theorem visibleAfter_append (first second : List Stmt) :
    visibleAfter visible (first ++ second) = visibleAfter (visibleAfter visible first) second :=
  List.foldl_append

theorem visibleAfter_cons (s : Stmt) (body : List Stmt) :
    visibleAfter visible (s :: body) = visibleAfter (s.declares ++ visible) body := rfl

/-- Visible behind a body are the names from before and those that its statements declare. -/
theorem mem_visibleAfter {body : List Stmt} {x : String} :
    x ∈ visibleAfter visible body ↔ x ∈ visible ∨ x ∈ body.flatMap declares := by
  induction body generalizing visible with
  | nil => simp
  | cons s body ih =>
    rw [visibleAfter_cons, ih, List.mem_append, List.flatMap_cons, List.mem_append]
    tauto

theorem mem_visibleAfter_of_mem {x : String} (h : x ∈ visible) (body : List Stmt) :
    x ∈ visibleAfter visible body :=
  mem_visibleAfter.2 (.inl h)

/-! ## Parts of bodies -/

@[simp] theorem scoped_nil : Scoped clash visible [] := trivial

/-- A body is scoped if its first part is, and the second one in what is visible behind it. -/
theorem scoped_append {first second : List Stmt} :
    Scoped clash visible (first ++ second) ↔
      Scoped clash visible first ∧ Scoped clash (visibleAfter visible first) second := by
  induction first generalizing visible with
  | nil => simp
  | cons s first ih => simp only [List.cons_append, Scoped, ih, visibleAfter_cons, and_assoc]

/-- A statement by itself: what it mentions is visible, and its branches are scoped. -/
theorem scoped_singleton {s : Stmt} :
    Scoped clash visible [s] ↔ s.Fits clash visible ∧ s.BranchesScoped clash visible := by
  simp [Scoped]

mutual
/-- More names may clash. -/
theorem Scoped.mono {clash' : String → Prop} (h : ∀ x, clash x → clash' x) :
    ∀ {visible : List String} {body : List Stmt}, Scoped clash visible body →
      Scoped clash' visible body
  | _, [], _ => trivial
  | _, _ :: _, ⟨hs, hbranches, hbody⟩ =>
    ⟨⟨hs.reads, hs.sets, fun x hx hvisible => h x (hs.new x hx hvisible)⟩, hbranches.mono h,
      hbody.mono h⟩

theorem BranchesScoped.mono {clash' : String → Prop} (h : ∀ x, clash x → clash' x) :
    ∀ {visible : List String} {s : Stmt}, BranchesScoped clash visible s →
      BranchesScoped clash' visible s
  | _, branch _ _ _ _, ⟨hyes, hno⟩ => ⟨hyes.mono h, hno.mono h⟩
  | _, setProperty _ _ _, _ | _, declare _ _ _ _, _ | _, setVariable _ _ _, _ => trivial
  | _, setEntry _ _ _ _, _ | _, exit _ _, _ | _, throw _ _, _ | _, emit _ _ _, _ => trivial
  | _, evaluate _ _, _ | _, skip _, _ => trivial
end

theorem branchesScoped_of_inner_eq_nil {s : Stmt} (h : s.inner = []) :
    s.BranchesScoped clash visible := by
  cases s with
  | branch pos condition yes no =>
    obtain ⟨rfl, rfl⟩ := List.append_eq_nil_iff.1 h
    exact ⟨trivial, trivial⟩
  | _ => trivial

theorem declares_withOperands (s : Stmt) (es : List Expr) :
    (s.withOperands es).declares = s.declares := by
  unfold withOperands
  split <;> rfl

theorem branchesScoped_withOperands {s : Stmt} {es : List Expr} :
    (s.withOperands es).BranchesScoped clash visible ↔ s.BranchesScoped clash visible := by
  unfold withOperands
  split <;> exact Iff.rfl

end Stmt

namespace Expr

theorem read?_withParts (e : Expr) (es : List Expr) : (e.withParts es).read? = e.read? := by
  unfold withParts
  split <;> rfl

/-- An expression with other parts reads what these read, unless it is a reading itself. -/
theorem reads_withParts {e : Expr} {es : List Expr} (h : e.read? = none)
    (hlength : es.length = e.parts.length) : (e.withParts es).reads = es.flatMap reads := by
  rw [reads_eq (by rw [read?_withParts, h]), parts_withParts hlength]

end Expr

namespace Resolve

open Stmt (Scoped visibleAfter mem_visibleAfter mem_visibleAfter_of_mem)

variable {scope : Scope} {clash : String → Prop} {visible : List String}
variable {lo mid hi : Nat}

/-! ## Temporaries -/

/-- **The temporaries of some numbers are free**: none of them is visible, unless it may clash. -/
def TempsFree (clash : String → Prop) (visible : List String) (lo hi : Nat) : Prop :=
  ∀ k, lo ≤ k → k < hi → Temps.nameOf k ∈ visible → clash (Temps.nameOf k)

/-- Fewer temporaries are as free. -/
theorem TempsFree.of_le {lo' hi' : Nat} (h : TempsFree clash visible lo hi) (hlo : lo ≤ lo')
    (hhi : hi' ≤ hi) : TempsFree clash visible lo' hi' :=
  fun k h1 h2 => h k (by omega) (by omega)

/-- **Statements to run before an expression**: they are well scoped, declare nothing but
temporaries of some numbers, and let the names that are read be seen. -/
structure Prepares (clash : String → Prop) (visible : List String) (lo hi : Nat)
    (before : List Stmt) (reads : List (Position × String)) : Prop where
  le : lo ≤ hi
  placed : Scoped clash visible before
  names : ∀ x ∈ before.flatMap Stmt.declares, ∃ k, lo ≤ k ∧ k < hi ∧ x = Temps.nameOf k
  known : ∀ p ∈ reads, p.2 ∈ visibleAfter visible before

namespace Prepares

variable {before after : List Stmt} {reads more : List (Position × String)}

/-- Nothing to run before an expression that reads what is visible. -/
theorem nil (n : Nat) (h : ∀ p ∈ reads, p.2 ∈ visible) :
    Prepares clash visible n n [] reads :=
  ⟨Nat.le_refl n, trivial, fun _ h => (nomatch h), h⟩

theorem widen {lo' hi' : Nat} (h : Prepares clash visible lo hi before reads) (hlo : lo' ≤ lo)
    (hhi : hi ≤ hi') : Prepares clash visible lo' hi' before reads where
  le := Nat.le_trans hlo (Nat.le_trans h.le hhi)
  placed := h.placed
  names x hx := by
    obtain ⟨k, h1, h2, hk⟩ := h.names x hx
    exact ⟨k, by omega, by omega, hk⟩
  known := h.known

/-- Two rows of preparations, the second behind what the first declares. -/
theorem append (h : Prepares clash visible lo mid before reads)
    (h' : Prepares clash (visibleAfter visible before) mid hi after more) :
    Prepares clash visible lo hi (before ++ after) (reads ++ more) where
  le := Nat.le_trans h.le h'.le
  placed := Stmt.scoped_append.2 ⟨h.placed, h'.placed⟩
  names x hx := by
    have hle := h.le
    have hle' := h'.le
    rw [List.flatMap_append, List.mem_append] at hx
    rcases hx with hx | hx
    · obtain ⟨k, h1, h2, hk⟩ := h.names x hx
      exact ⟨k, h1, by omega, hk⟩
    · obtain ⟨k, h1, h2, hk⟩ := h'.names x hx
      exact ⟨k, by omega, h2, hk⟩
  known p hp := by
    rw [Stmt.visibleAfter_append]
    rcases List.mem_append.1 hp with hp | hp
    · exact mem_visibleAfter_of_mem (h.known p hp) after
    · exact h'.known p hp

/-- Temporaries of other numbers stay free. -/
theorem tempsFree {lo' hi' : Nat} (h : Prepares clash visible lo hi before reads)
    (hfree : TempsFree clash visible lo' hi') (hapart : hi ≤ lo' ∨ hi' ≤ lo) :
    TempsFree clash (visibleAfter visible before) lo' hi' := by
  intro k h1 h2 hk
  rcases mem_visibleAfter.1 hk with hk | hk
  · exact hfree k h1 h2 hk
  · obtain ⟨j, hj1, hj2, hname⟩ := h.names _ hk
    have := Execution.nameOf_injective hname
    omega

end Prepares

/-- The statements to run before an expression prepare what is left of it. -/
def HoistPrepares (clash : String → Prop) (scope : Scope) (e : Expr) : Prop :=
  ∀ t visible, (∀ p ∈ e.reads, p.2 ∈ visible) →
    TempsFree clash visible t.next (hoist scope e t).2.2.next →
    Prepares clash visible t.next (hoist scope e t).2.2.next (hoist scope e t).1
      (hoist scope e t).2.1.reads

theorem hoistEach_prepares_of {es : List Expr} (h : ∀ e ∈ es, HoistPrepares clash scope e)
    (t : Temps) (hreads : ∀ p ∈ es.flatMap Expr.reads, p.2 ∈ visible)
    (hfree : TempsFree clash visible t.next (hoistEach scope es t).2.2.next) :
    Prepares clash visible t.next (hoistEach scope es t).2.2.next (hoistEach scope es t).1
      ((hoistEach scope es t).2.1.flatMap Expr.reads) := by
  induction es generalizing t visible with
  | nil => exact .nil _ hreads
  | cons e es ih =>
    rw [List.forall_mem_cons] at h
    rw [List.flatMap_cons, List.forall_mem_append] at hreads
    have hle := (hoist_carries scope e t).le
    have hle' := (hoistEach_carries scope es (hoist scope e t).2.2).le
    have hfirst := h.1 t visible hreads.1 (hfree.of_le (Nat.le_refl _) hle')
    have hrest := ih h.2 (hoist scope e t).2.2
      (fun p hp => mem_visibleAfter_of_mem (hreads.2 p hp) _)
      (hfirst.tempsFree (hfree.of_le hle (Nat.le_refl _)) (.inl (Nat.le_refl _)))
    exact hfirst.append hrest

/-- A choice is prepared by those of its parts, the declaration of its temporary and the branch that
sets it. The second value is prepared within the branch, behind temporaries that were numbered after
its own. -/
theorem Prepares.choice {pos : Position} {type : Ty} {condition yes no : Expr} {t1 t2 : Nat}
    {beforeCondition beforeYes beforeNo : List Stmt}
    (hcondition : Prepares clash visible lo t1 beforeCondition condition.reads)
    (hyes : ∀ visible', (∀ x ∈ visible, x ∈ visible') → TempsFree clash visible' t1 t2 →
      Prepares clash visible' t1 t2 beforeYes yes.reads)
    (hle : t1 ≤ t2)
    (hno : Prepares clash (visibleAfter visible beforeCondition) t2 hi beforeNo no.reads)
    (hfree : TempsFree clash visible lo (hi + 1)) :
    Prepares clash visible lo (hi + 1)
      (beforeCondition ++ beforeNo ++ [.declare pos (Temps.nameOf hi) type (some no),
        .branch pos condition (beforeYes ++ [.setVariable pos (Temps.nameOf hi) yes]) []])
      (Expr.var pos (Temps.nameOf hi)).reads := by
  have hlow := hcondition.le
  have hhigh := hno.le
  have hboth := hcondition.append (hno.widen hle (Nat.le_refl hi))
  have hnew : TempsFree clash (visibleAfter visible (beforeCondition ++ beforeNo)) hi (hi + 1) :=
    hboth.tempsFree (hfree.of_le (by omega) (Nat.le_refl _)) (.inl (Nat.le_refl _))
  -- the temporaries of the first value are still free where its statements stand now
  have hyesFree : TempsFree clash
      (Temps.nameOf hi :: visibleAfter visible (beforeCondition ++ beforeNo)) t1 t2 := by
    rw [Stmt.visibleAfter_append]
    intro k h1 h2 hk
    rcases List.mem_cons.1 hk with hk | hk
    · have := Execution.nameOf_injective hk
      omega
    · exact hno.tempsFree (hcondition.tempsFree (hfree.of_le hlow (by omega))
        (.inl (Nat.le_refl _))) (.inr (Nat.le_refl _)) k h1 h2 hk
  have hyes := hyes _ (fun x hx => List.mem_cons_of_mem _ (mem_visibleAfter_of_mem hx _)) hyesFree
  have hyesSet : Scoped clash
      (Temps.nameOf hi :: visibleAfter visible (beforeCondition ++ beforeNo))
      (beforeYes ++ [.setVariable pos (Temps.nameOf hi) yes]) := by
    refine Stmt.scoped_append.2 ⟨hyes.placed, Stmt.scoped_singleton.2 ⟨⟨?_, ?_, nofun⟩, trivial⟩⟩
    · simpa [Stmt.operands] using hyes.known
    · rintro p ⟨⟩
      exact mem_visibleAfter_of_mem List.mem_cons_self _
  refine ⟨by omega, Stmt.scoped_append.2 ⟨hboth.placed, ⟨?_, ?_, ?_⟩, trivial, ⟨?_, nofun, nofun⟩,
    ⟨hyesSet, trivial⟩, trivial⟩, fun x hx => ?_, ?_⟩
  · intro p hp
    exact hboth.known p (List.mem_append_right _ (by simpa [Stmt.operands] using hp))
  · nofun
  · intro x hx hvisible
    obtain rfl := List.mem_singleton.1 hx
    exact hnew hi (Nat.le_refl _) (Nat.lt_succ_self _) hvisible
  · intro p hp
    exact List.mem_append_right _
      (hboth.known p (List.mem_append_left _ (by simpa [Stmt.operands] using hp)))
  · rw [List.flatMap_append, List.mem_append] at hx
    rcases hx with hx | hx
    · obtain ⟨k, h1, h2, hk⟩ := hboth.names x hx
      exact ⟨k, h1, by omega, hk⟩
    · exact ⟨hi, by omega, by omega, by simpa [Stmt.declares] using hx⟩
  · intro p hp
    rw [Stmt.visibleAfter_append, List.mem_singleton.1 hp]
    exact List.mem_cons_self

/-- **Taking the conditionals out of an expression keeps it well scoped.** -/
theorem hoist_prepares (clash : String → Prop) (scope : Scope) (e : Expr) :
    HoistPrepares clash scope e := by
  induction e using Expr.induction_conditional with
  | plain e hconditional ih =>
    intro t visible hreads hfree
    rw [hoist_eq hconditional] at hfree ⊢
    by_cases hself : e.read? = none
    · rw [Expr.reads_eq hself] at hreads
      have hparts := hoistEach_prepares_of ih t hreads hfree
      rwa [Expr.reads_withParts hself (length_hoistEach _ _ _)]
    · cases e with
      | var => exact .nil _ hreads
      | _ => exact absurd rfl hself
  | conditional pos condition yes no hcondition hyes hno =>
    intro t visible hreads hfree
    simp only [Expr.reads_conditional, List.forall_mem_append] at hreads
    obtain ⟨⟨hreadsCondition, hreadsYes⟩, hreadsNo⟩ := hreads
    have hle1 := (hoist_carries scope condition t).le
    have hle2 := (hoist_carries scope yes (hoist scope condition t).2.2).le
    have hle3 := (hoist_carries scope no (hoist scope yes (hoist scope condition t).2.2).2.2).le
    have hfree' : TempsFree clash visible t.next
        ((hoist scope no (hoist scope yes (hoist scope condition t).2.2).2.2).2.2.next + 1) :=
      hfree
    have hfirst := hcondition t visible hreadsCondition
      (hfree'.of_le (Nat.le_refl _) (by omega))
    -- the other side stands before the branch, and sees what was taken out of the condition
    have hlast := hno (hoist scope yes (hoist scope condition t).2.2).2.2 _
      (fun p hp => mem_visibleAfter_of_mem (hreadsNo p hp) _)
      (hfirst.tempsFree (hfree'.of_le (by omega) (by omega)) (.inl hle2))
    exact hfirst.choice (fun visible' hmore hfree => hyes _ visible'
      (fun p hp => hmore _ (hreadsYes p hp)) hfree) hle2 hlast hfree'

/-- **Freeing several expressions of conditionals prepares them all.** -/
theorem hoistEach_prepares {es : List Expr} (t : Temps)
    (hreads : ∀ p ∈ es.flatMap Expr.reads, p.2 ∈ visible)
    (hfree : TempsFree clash visible t.next (hoistEach scope es t).2.2.next) :
    Prepares clash visible t.next (hoistEach scope es t).2.2.next (hoistEach scope es t).1
      ((hoistEach scope es t).2.1.flatMap Expr.reads) :=
  hoistEach_prepares_of (fun e _ => hoist_prepares clash scope e) t hreads hfree

end Resolve

end Covenant
