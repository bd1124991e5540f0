/-!
# Walking a graph of names

Classes extend classes and methods call methods. The walk here visits every name that can be
reached, each once, the nearer ones first.
-/

namespace Covenant

/-- **A graph of names**: each name with those it leads to. -/
abbrev Graph := List (String × List String)

namespace Graph

/-- The names a name leads to; none for a name outside the graph. -/
def successors (g : Graph) (name : String) : List String :=
  (g.lookup name).getD []

/-- How much of the graph is still to be visited: its unseen entries and what they lead to. -/
def unseen (g : Graph) (seen : List String) : Nat :=
  match g with
  | [] => 0
  | (name, next) :: rest => (if name ∈ seen then 0 else next.length + 1) + unseen rest seen

/-- Seeing one more name leaves no more to be visited. -/
theorem unseen_cons_le (g : Graph) (seen : List String) (name : String) :
    g.unseen (name :: seen) ≤ g.unseen seen := by
  induction g with
  | nil => exact Nat.le_refl _
  | cons e g ih =>
    simp only [unseen, List.mem_cons]
    grind

/-- Seeing a new name makes room for what it leads to. -/
theorem unseen_cons_add_le {g : Graph} {seen : List String} {name : String} (hseen : name ∉ seen) :
    g.unseen (name :: seen) + (g.successors name).length ≤ g.unseen seen := by
  induction g with
  | nil => exact Nat.le_refl _
  | cons e g ih =>
    have hle := unseen_cons_le g seen name
    simp only [unseen, List.mem_cons, successors] at ih ⊢
    by_cases hkey : name = e.1
    · subst hkey
      grind
    · grind

/-- **The names that can be reached from a queue of names** without passing a name already seen,
nearer ones first. -/
def reachable (g : Graph) (seen queue : List String) : List String :=
  match queue with
  | [] => []
  | name :: rest =>
    if _ : name ∈ seen then g.reachable seen rest
    else name :: g.reachable (name :: seen) (rest ++ g.successors name)
termination_by g.unseen seen + queue.length
decreasing_by
  · simp
  · have := unseen_cons_add_le (g := g) ‹_›
    simp only [List.length_append, List.length_cons]
    omega

/-- Whether a name leads back to itself. -/
def onCycle (g : Graph) (name : String) : Bool :=
  (g.reachable [] (g.successors name)).contains name

end Graph

end Covenant
