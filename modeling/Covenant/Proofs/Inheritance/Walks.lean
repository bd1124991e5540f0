import Covenant.Resolve.Classes

/-!
# Two walks through a graph of names

A graph without cycles can be walked nearest names first, as `Graph.reachable` does with its queue,
or branch by branch. Both walks visit the same names, those that a chain of edges leads to, but not
in the same order. The number of names the first walk visits decreases along every edge, and so
bounds the depth of the second.
-/

namespace Covenant

namespace Graph

/-! ## Chains of edges -/

/-- One name leads to another. -/
def Leads (g : Graph) (a b : String) : Prop :=
  b ∈ g.successors a

/-- **A name reaches another** by one edge or more. -/
def Reaches (g : Graph) : String → String → Prop :=
  Relation.TransGen g.Leads

/-- **No name reaches itself.** -/
def Acyclic (g : Graph) : Prop :=
  ∀ name, ¬ g.Reaches name name

/-- Every name an entry leads to has an entry itself. -/
def Closed (g : Graph) : Prop :=
  ∀ entry ∈ g, ∀ name ∈ entry.2, name ∈ g.map Prod.fst

instance (g : Graph) : Decidable g.Closed :=
  inferInstanceAs (Decidable (∀ entry ∈ g, ∀ name ∈ entry.2, name ∈ g.map Prod.fst))

variable {g : Graph} {a b c name : String}

theorem Reaches.of_leads (h : g.Leads a b) : g.Reaches a b :=
  .single h

theorem Reaches.head (h : g.Leads a b) (hbc : g.Reaches b c) : g.Reaches a c :=
  .trans (.single h) hbc

/-- A chain of edges begins with an edge. -/
theorem Reaches.cases_head (h : g.Reaches a c) :
    g.Leads a c ∨ ∃ b, g.Leads a b ∧ g.Reaches b c := by
  induction h with
  | single h => exact .inl h
  | tail _ hlast ih =>
    refine .inr ?_
    rcases ih with hfirst | ⟨b, hfirst, hrest⟩
    · exact ⟨_, hfirst, .single hlast⟩
    · exact ⟨b, hfirst, .tail hrest hlast⟩

/-- What a name leads to stands in an entry of the name. -/
theorem exists_entry_of_leads (h : g.Leads a b) : ∃ entry ∈ g, entry.1 = a ∧ b ∈ entry.2 := by
  rw [Leads, successors] at h
  cases hlookup : g.lookup a with
  | none =>
    rw [hlookup] at h
    cases h
  | some names =>
    rw [hlookup] at h
    obtain ⟨front, back, hsplit, -⟩ := List.lookup_eq_some_iff.1 hlookup
    exact ⟨(a, names), by simp [hsplit], rfl, h⟩

theorem Closed.mem_of_leads (hg : g.Closed) (h : g.Leads a b) : b ∈ g.map Prod.fst := by
  obtain ⟨entry, hentry, -, hb⟩ := exists_entry_of_leads h
  exact hg entry hentry b hb

theorem Closed.mem_of_reaches (hg : g.Closed) (h : g.Reaches a b) : b ∈ g.map Prod.fst := by
  cases h with
  | single h => exact hg.mem_of_leads h
  | tail _ h => exact hg.mem_of_leads h

/-- A graph whose edges all lead downwards has no cycle. -/
theorem acyclic_of_descending (height : String → Nat)
    (h : ∀ entry ∈ g, ∀ name ∈ entry.2, height name < height entry.1) : g.Acyclic := by
  have hedge {a b : String} (hab : g.Leads a b) : height b < height a := by
    obtain ⟨entry, hentry, rfl, hb⟩ := exists_entry_of_leads hab
    exact h entry hentry b hb
  have hchain {a b : String} (hab : g.Reaches a b) : height b < height a := by
    induction hab with
    | single h => exact hedge h
    | tail _ h ih => exact Nat.lt_trans (hedge h) ih
  exact fun name hname => Nat.lt_irrefl _ (hchain hname)

/-- What a name reaches is new to a walk that has only seen the name. -/
theorem Acyclic.notMem_start (hg : g.Acyclic) (h : g.Reaches a b) : b ∉ [a] := by
  rw [List.mem_singleton]
  rintro rfl
  exact hg _ h

/-! ## Nearest names first -/

/-- The walk from a queue only visits names of the queue and what they reach. -/
theorem reaches_of_mem_reachable {seen queue : List String} {x : String}
    (h : x ∈ g.reachable seen queue) : x ∉ seen ∧ ∃ q ∈ queue, x = q ∨ g.Reaches q x := by
  fun_induction reachable g seen queue with
  | case1 => cases h
  | case2 seen name rest hseen ih =>
    obtain ⟨hx, q, hq, hreach⟩ := ih h
    exact ⟨hx, q, List.mem_cons_of_mem _ hq, hreach⟩
  | case3 seen name rest hseen ih =>
    rcases List.mem_cons.1 h with rfl | h
    · exact ⟨hseen, x, List.mem_cons_self, .inl rfl⟩
    · obtain ⟨hx, q, hq, hreach⟩ := ih h
      refine ⟨fun hmem => hx (List.mem_cons_of_mem _ hmem), ?_⟩
      rcases List.mem_append.1 hq with hq | hq
      · exact ⟨q, List.mem_cons_of_mem _ hq, hreach⟩
      · -- what the visited name put into the queue is reached through it
        refine ⟨name, List.mem_cons_self, .inr ?_⟩
        rcases hreach with rfl | hreach
        · exact .of_leads hq
        · exact .head hq hreach

/-- The walk leaves nothing out: it visits the queue, and where it visits a name it visits all the
name leads to, unless it was seen before. -/
theorem reachable_closed (g : Graph) (seen queue : List String) :
    (∀ q ∈ queue, q ∈ seen ∨ q ∈ g.reachable seen queue) ∧
      ∀ x ∈ g.reachable seen queue, ∀ y ∈ g.successors x,
        y ∈ seen ∨ y ∈ g.reachable seen queue := by
  fun_induction reachable g seen queue with
  | case1 => exact ⟨fun q hq => (nomatch hq), fun x hx => (nomatch hx)⟩
  | case2 seen name rest hseen ih =>
    refine ⟨fun q hq => ?_, ih.2⟩
    rcases List.mem_cons.1 hq with rfl | hq
    · exact .inl hseen
    · exact ih.1 q hq
  | case3 seen name rest hseen ih =>
    -- a name seen from here on is the visited one or was seen before
    have hlift {y : String}
        (h : y ∈ name :: seen ∨ y ∈ g.reachable (name :: seen) (rest ++ g.successors name)) :
        y ∈ seen ∨ y ∈ name :: g.reachable (name :: seen) (rest ++ g.successors name) := by
      rcases h with h | h
      · rcases List.mem_cons.1 h with rfl | h
        · exact .inr List.mem_cons_self
        · exact .inl h
      · exact .inr (List.mem_cons_of_mem _ h)
    refine ⟨fun q hq => ?_, fun x hx y hy => ?_⟩
    · rcases List.mem_cons.1 hq with rfl | hq
      · exact .inr List.mem_cons_self
      · exact hlift (ih.1 q (List.mem_append_left _ hq))
    · rcases List.mem_cons.1 hx with rfl | hx
      · exact hlift (ih.1 y (List.mem_append_right _ hy))
      · exact hlift (ih.2 x hx y hy)

/-- **A walk that has seen nothing visits the queue and all that is reached from it.** -/
theorem mem_reachable {queue : List String} {x : String} :
    x ∈ g.reachable [] queue ↔ ∃ q ∈ queue, x = q ∨ g.Reaches q x := by
  constructor
  · exact fun h => (reaches_of_mem_reachable h).2
  · rintro ⟨q, hq, hreach⟩
    obtain ⟨hqueue, hsuccessors⟩ := reachable_closed g [] queue
    have hvisited : q ∈ g.reachable [] queue := (hqueue q hq).resolve_left List.not_mem_nil
    rcases hreach with rfl | hreach
    · exact hvisited
    · induction hreach with
      | single hx => exact (hsuccessors _ hvisited _ hx).resolve_left List.not_mem_nil
      | tail _ hx ih => exact (hsuccessors _ ih _ hx).resolve_left List.not_mem_nil

/-- A walk from what a name leads to visits what the name reaches. -/
theorem mem_reachable_successors {x : String} :
    x ∈ g.reachable [] (g.successors name) ↔ g.Reaches name x := by
  rw [mem_reachable]
  constructor
  · rintro ⟨q, hq, rfl | hreach⟩
    · exact .of_leads hq
    · exact .head hq hreach
  · intro h
    rcases h.cases_head with hx | ⟨q, hq, hreach⟩
    · exact ⟨x, hx, .inl rfl⟩
    · exact ⟨q, hq, .inr hreach⟩

/-- A name leads back to itself exactly where it reaches itself. -/
theorem onCycle_iff : g.onCycle name = true ↔ g.Reaches name name := by
  rw [onCycle, List.contains_iff_mem, mem_reachable_successors]

/-- The walk visits no name twice. -/
theorem reachable_nodup (g : Graph) (seen queue : List String) :
    (g.reachable seen queue).Nodup := by
  fun_induction reachable g seen queue with
  | case1 => exact List.nodup_nil
  | case2 seen name rest hseen ih => exact ih
  | case3 seen name rest hseen ih =>
    refine List.nodup_cons.2 ⟨fun h => ?_, ih⟩
    exact (reaches_of_mem_reachable h).1 List.mem_cons_self

/-- **Along an edge to a name that does not lead back to itself fewer names are left to reach.** -/
theorem length_reachable_lt (h : g.Leads a b) (hb : ¬ g.Reaches b b) :
    (g.reachable [] (g.successors b)).length < (g.reachable [] (g.successors a)).length := by
  have hnodup : (b :: g.reachable [] (g.successors b)).Nodup :=
    List.nodup_cons.2 ⟨mt mem_reachable_successors.1 hb, reachable_nodup g [] _⟩
  refine hnodup.length_le_of_subset fun x hx => mem_reachable_successors.2 ?_
  rcases List.mem_cons.1 hx with rfl | hx
  · exact .of_leads h
  · exact .head h (mem_reachable_successors.1 hx)

/-- Starting from what a name leads to, the walk visits exactly what the name reaches. -/
theorem Acyclic.mem_ancestors (hg : g.Acyclic) {x : String} :
    x ∈ Resolve.ancestors g name ↔ g.Reaches name x := by
  rw [Resolve.ancestors]
  constructor
  · intro h
    obtain ⟨-, q, hq, hreach⟩ := reaches_of_mem_reachable h
    rcases hreach with rfl | hreach
    · exact .of_leads hq
    · exact .head hq hreach
  · -- along the chain: its first name is in the queue, and each one leads to the next
    intro h
    obtain ⟨hqueue, hsuccessors⟩ := reachable_closed g [name] (g.successors name)
    induction h with
    | single hx => exact (hqueue _ hx).resolve_left (hg.notMem_start (.single hx))
    | tail hy hx ih => exact (hsuccessors _ ih _ hx).resolve_left (hg.notMem_start (.tail hy hx))

theorem ancestors_nodup (g : Graph) (name : String) : (Resolve.ancestors g name).Nodup :=
  reachable_nodup g [name] _

theorem notMem_ancestors_self (g : Graph) (name : String) : name ∉ Resolve.ancestors g name :=
  fun h => (reaches_of_mem_reachable h).1 List.mem_cons_self

/-- **Along an edge fewer names are left to reach.** -/
theorem Acyclic.length_ancestors_lt (hg : g.Acyclic) (h : g.Leads a b) :
    (Resolve.ancestors g b).length < (Resolve.ancestors g a).length := by
  have hnodup : (b :: Resolve.ancestors g b).Nodup :=
    List.nodup_cons.2 ⟨notMem_ancestors_self g b, ancestors_nodup g b⟩
  refine hnodup.length_le_of_subset fun x hx => hg.mem_ancestors.2 ?_
  rcases List.mem_cons.1 hx with rfl | hx
  · exact .of_leads h
  · exact .head h (hg.mem_ancestors.1 hx)

/-- A name of the graph reaches fewer names than the graph has entries. -/
theorem Closed.length_ancestors_lt (hg : g.Closed) (hacyclic : g.Acyclic)
    (h : name ∈ g.map Prod.fst) : (Resolve.ancestors g name).length < g.length := by
  have hnodup : (name :: Resolve.ancestors g name).Nodup :=
    List.nodup_cons.2 ⟨notMem_ancestors_self g name, ancestors_nodup g name⟩
  have hsubset : name :: Resolve.ancestors g name ⊆ g.map Prod.fst := by
    intro x hx
    rcases List.mem_cons.1 hx with rfl | hx
    · exact h
    · exact hg.mem_of_reaches (hacyclic.mem_ancestors.1 hx)
  have hle := hnodup.length_le_of_subset hsubset
  rw [List.length_map] at hle
  exact hle

/-! ## Branch by branch -/

/-- The names down to a depth, branch by branch: a name comes before what it leads to, and all that
is below one name before the next. -/
def preorder (g : Graph) : Nat → String → List String
  | 0, _ => []
  | depth + 1, name => name :: (g.successors name).flatMap (preorder g depth)

/-- **A name and all it reaches, branch by branch.** A name that several branches lead to is met on
each of them. No chain of a graph without cycles is longer than the graph. -/
def depthFirst (g : Graph) (name : String) : List String :=
  g.preorder g.length name

/-- Below the depth that a name needs there is nothing. -/
theorem Acyclic.preorder_succ (hg : g.Acyclic) {depth : Nat}
    (h : (Resolve.ancestors g name).length < depth) :
    g.preorder (depth + 1) name = g.preorder depth name := by
  induction depth generalizing name with
  | zero => omega
  | succ depth ih =>
    have hbelow : (g.successors name).map (g.preorder (depth + 1)) =
        (g.successors name).map (g.preorder depth) := by
      refine List.map_congr_left fun b hb => ih ?_
      have hlt := hg.length_ancestors_lt hb
      omega
    rw [preorder, preorder, List.flatMap_def, List.flatMap_def, hbelow]

/-- **The walk branch by branch, without its bound.** -/
theorem Acyclic.depthFirst_eq (hg : g.Acyclic) (hclosed : g.Closed)
    (h : name ∈ g.map Prod.fst) :
    g.depthFirst name = name :: (g.successors name).flatMap g.depthFirst := by
  have hname := hclosed.length_ancestors_lt hg h
  calc
    g.depthFirst name = g.preorder (g.length + 1) name := (hg.preorder_succ hname).symm
    _ = name :: (g.successors name).flatMap g.depthFirst := rfl

/-- The walk branch by branch visits the name it begins at and exactly what the name reaches. -/
theorem Acyclic.mem_preorder (hg : g.Acyclic) {depth : Nat} {x : String}
    (h : (Resolve.ancestors g name).length < depth) :
    x ∈ g.preorder depth name ↔ x = name ∨ g.Reaches name x := by
  induction depth generalizing name with
  | zero => omega
  | succ depth ih =>
    have hbelow {b : String} (hb : g.Leads name b) :
        x ∈ g.preorder depth b ↔ x = b ∨ g.Reaches b x := by
      have hlt := hg.length_ancestors_lt hb
      exact ih (by omega)
    rw [preorder, List.mem_cons, List.mem_flatMap]
    constructor
    · rintro (rfl | ⟨b, hb, hx⟩)
      · exact .inl rfl
      · rcases (hbelow hb).1 hx with rfl | hreach
        · exact .inr (.of_leads hb)
        · exact .inr (.head hb hreach)
    · rintro (rfl | hreach)
      · exact .inl rfl
      · refine .inr ?_
        rcases hreach.cases_head with hx | ⟨b, hb, hx⟩
        · exact ⟨x, hx, (hbelow hx).2 (.inl rfl)⟩
        · exact ⟨b, hb, (hbelow hb).2 (.inr hx)⟩

theorem Acyclic.mem_depthFirst (hg : g.Acyclic) (hclosed : g.Closed)
    (h : name ∈ g.map Prod.fst) {x : String} :
    x ∈ g.depthFirst name ↔ x = name ∨ g.Reaches name x :=
  hg.mem_preorder (hclosed.length_ancestors_lt hg h)

/-! ## Where the two walks agree -/

/-- Where nothing that is reached leads to two names, the walk nearest names first goes along the
one branch there is. -/
theorem Acyclic.reachable_of_chain (hg : g.Acyclic) (hclosed : g.Closed) {seen : List String}
    (hname : name ∈ g.map Prod.fst)
    (hchain : ∀ x, x = name ∨ g.Reaches name x → (g.successors x).length ≤ 1)
    (hseen : ∀ x, g.Reaches name x → x ∉ seen) :
    g.reachable seen (g.successors name) = (g.successors name).flatMap g.depthFirst := by
  -- by induction on how many names are reached, with what was seen on the way left open
  obtain ⟨size, hsize⟩ : ∃ size, size = (Resolve.ancestors g name).length := ⟨_, rfl⟩
  induction size using Nat.strongRecOn generalizing name seen with
  | ind size ih =>
    match hsuccessors : g.successors name with
    | [] => simp [reachable]
    | [b] =>
      have hb : g.Leads name b := by simp [Leads, hsuccessors]
      have hmem : b ∈ g.map Prod.fst := hclosed.mem_of_leads hb
      have hrest : g.reachable (b :: seen) (g.successors b) =
          (g.successors b).flatMap g.depthFirst := by
        refine ih _ (hsize ▸ hg.length_ancestors_lt hb) hmem (fun x hx => ?_) (fun x hx => ?_) rfl
        · refine hchain x (.inr ?_)
          rcases hx with rfl | hx
          · exact .of_leads hb
          · exact .head hb hx
        · rw [List.mem_cons]
          rintro (rfl | hmem)
          · exact hg _ hx
          · exact hseen x (.head hb hx) hmem
      rw [reachable, dif_neg (hseen b (.of_leads hb)), List.nil_append, hrest, List.flatMap_cons,
        List.flatMap_nil, List.append_nil, hg.depthFirst_eq hclosed hmem]
    | b :: d :: rest =>
      have hle := hchain name (.inl rfl)
      rw [hsuccessors] at hle
      simp at hle

/-- **On a single chain both walks visit the names in one order.** -/
theorem Acyclic.depthFirst_eq_ancestors (hg : g.Acyclic) (hclosed : g.Closed)
    (hname : name ∈ g.map Prod.fst)
    (hchain : ∀ x, x = name ∨ g.Reaches name x → (g.successors x).length ≤ 1) :
    g.depthFirst name = name :: Resolve.ancestors g name := by
  rw [hg.depthFirst_eq hclosed hname, Resolve.ancestors,
    hg.reachable_of_chain hclosed hname hchain fun _ => hg.notMem_start]

end Graph

end Covenant
