import Covenant.Proofs.Flow.Paths
import Covenant.Proofs.Names.Scoping
import Mathlib.Data.List.Nodup

/-!
# Locals that are never read

A local is seen by the statements behind its declaration in the same list, and by those within them
(`locals`). The analysis knows nothing of this: it has one table of the names that are read
anywhere in the body and one of the last declaration of each name. In a well scoped body every
reading of a local is in the scope of a declaration of its name (`read_by_local`), so no warning is
wrong. But locals of one name share an entry: one that is never read is not reported where another
one is read, or declared later. So the warnings are exact where each local that is never read has a
name of its own, and nowhere else (`unused_warnings_exact_iff`).
-/

namespace Covenant

namespace Flow

/-! ## Locals and their scopes -/

/-- **A local that a body declares**, with the statements that see it. -/
structure Local where
  name : String
  pos : Position
  scope : List Stmt

/-- The local that a statement declares in front of some others. -/
def declaredBefore (rest : List Stmt) : Stmt → List Local
  | .declare pos name _ _ => [⟨name, pos, rest⟩]
  | _ => []

mutual
/-- The locals declared in the branches of a statement. -/
def localsWithin : Stmt → List Local
  | .branch _ _ yes no => locals yes ++ locals no
  | _ => []

/-- **The locals of a body**, in the order of their declarations. -/
def locals : List Stmt → List Local
  | [] => []
  | s :: rest => declaredBefore rest s ++ localsWithin s ++ locals rest
end

/-- Whether an expression is a reading of the local of a name. -/
def isReading (name : String) : Expr → Bool
  | .var _ x => x = name
  | _ => false

/-- Whether an expression within a body reads the local of a name. -/
def reads (body : List Stmt) (name : String) : Bool :=
  (Stmt.expressionsOf body).any (isReading name)

namespace Local

/-- Whether an expression in the scope of a local reads it. -/
def isRead (l : Local) : Bool :=
  reads l.scope l.name

/-- The name and the place of a declaration. -/
def key (l : Local) : String × Position :=
  (l.name, l.pos)

/-- The warning that a local is never read. -/
def warning (l : Local) : Fault :=
  ⟨l.pos, .unusedVariable l.name⟩

end Local

/-- **The locals of a body that are never read.** -/
def unread (body : List Stmt) : List Local :=
  (locals body).filter fun l => !l.isRead

/-- Whether a warning is about a local that is never read. -/
def isUnusedWarning (f : Fault) : Bool :=
  match f.cause with
  | .unusedVariable _ => true
  | _ => false

/-- **The warnings about locals** among those about a body. -/
def unusedWarnings (body : List Stmt) (returns : Ty) (pos : Position) : List Fault :=
  (warnings body returns pos).filter isUnusedWarning

variable {body rest : List Stmt} {s : Stmt} {x : String} {visible : List String}
variable {l : Local}

theorem localsWithin_eq (s : Stmt) :
    localsWithin s = locals (s.side true) ++ locals (s.side false) := by
  cases s <;> rfl

theorem mem_locals_cons : l ∈ locals (s :: rest) ↔
    l ∈ declaredBefore rest s ∨ (∃ first, l ∈ locals (s.side first)) ∨ l ∈ locals rest := by
  rw [locals, localsWithin_eq]
  simp [or_comm, or_assoc]

theorem inner_eq_sides (s : Stmt) : s.inner = s.side true ++ s.side false := by
  cases s <;> rfl

theorem reads_cons : reads (s :: rest) x = true ↔
    (s.operands.flatMap Expr.subexpressions).any (isReading x) = true ∨
      (∃ first, reads (s.side first) x = true) ∨ reads rest x = true := by
  rw [reads, Stmt.expressionsOf_cons, inner_eq_sides, Stmt.expressionsOf_append]
  simp [reads, or_comm, or_assoc]

/-! ## What the analysis collects -/

/-- **No statement of the body is unreachable.** -/
def Live (body : List Stmt) : Prop :=
  ∀ place s, ¬ Dead body place s

theorem Live.side (h : Live (s :: rest)) (first : Bool) : Live (s.side first) :=
  fun place t hdead => h (.inside first place) t (dead_inside hdead)

/-- Nothing stands behind a statement that ends a body. -/
theorem Live.rest_eq_nil (h : Live (s :: rest)) (hends : (ofStmt s).ends = true) : rest = [] := by
  cases rest with
  | nil => rfl
  | cons t rest =>
    refine absurd ⟨rfl, fun hon => ?_⟩ (h (.later .here) t)
    have hpassable := (onPath_later.1 hon).1
    rw [(ofStmt_ends_iff_passable s).2 hpassable] at hends
    cases hends

theorem Live.tail (h : Live (s :: rest)) : Live rest := by
  intro place t hdead
  cases hends : (ofStmt s).ends with
  | true =>
    rw [h.rest_eq_nil hends] at hdead
    exact absurd hdead.1 (by simp)
  | false =>
    exact h (.later place) t ⟨hdead.1, fun hon => hdead.2 (onPath_later.1 hon).2⟩

/-- Where nothing is unreachable, all of the body is looked at. -/
theorem ofBody_cons_of_live (h : Live (s :: rest)) :
    (ofBody (s :: rest)).declared = (ofStmt s).declared ++ (ofBody rest).declared ∧
      (ofBody (s :: rest)).reads = (ofStmt s).reads ++ (ofBody rest).reads := by
  rw [ofBody]
  cases hends : (ofStmt s).ends with
  | true =>
    obtain rfl := h.rest_eq_nil hends
    simp [ofBody]
  | false => exact ⟨rfl, rfl⟩

theorem ofStmt_declared (rest : List Stmt) (s : Stmt) : (ofStmt s).declared =
    (declaredBefore rest s).map Local.key ++
      ((ofBody (s.side true)).declared ++ (ofBody (s.side false)).declared) := by
  cases s <;> rfl

theorem ofStmt_reads (s : Stmt) : (ofStmt s).reads =
    readsOf s.operands ++ ((ofBody (s.side true)).reads ++ (ofBody (s.side false)).reads) := by
  cases s with
  | branch => exact List.append_assoc _ _ _
  | _ => exact (List.append_nil _).symm

theorem mem_readsOf_iff {es : List Expr} :
    x ∈ readsOf es ↔ (es.flatMap Expr.subexpressions).any (isReading x) = true := by
  rw [readsOf, List.mem_filterMap, List.any_eq_true]
  refine exists_congr fun e => and_congr_right fun _ => ?_
  cases e <;> simp [isReading]

/-- **The analysis collects the locals of the body**, in their order. -/
theorem ofBody_declared (h : Live body) : (ofBody body).declared = (locals body).map Local.key := by
  induction body using Stmt.bodyInduction with
  | nil => rfl
  | cons s rest hsides hrest =>
    rw [(ofBody_cons_of_live h).1, ofStmt_declared rest s, hsides true (h.side true),
      hsides false (h.side false), hrest h.tail, locals, localsWithin_eq]
    simp only [List.map_append]

/-- **The analysis collects the names that are read** anywhere in the body. -/
theorem mem_ofBody_reads (h : Live body) : x ∈ (ofBody body).reads ↔ reads body x = true := by
  induction body using Stmt.bodyInduction with
  | nil => simp [ofBody, reads]
  | cons s rest hsides hrest =>
    rw [(ofBody_cons_of_live h).2, ofStmt_reads, reads_cons]
    simp only [List.mem_append, mem_readsOf_iff, hsides true (h.side true),
      hsides false (h.side false), hrest h.tail, Bool.exists_bool]
    tauto

/-! ## Scopes -/

/-- Nothing that is visible is declared again, unless it may clash. -/
theorem not_mem_visible_of_fits (h : s.Fits (fun _ => False) visible)
    (hl : l ∈ declaredBefore rest s) : l.name ∈ s.declares ∧ l.name ∉ visible ∧ l.scope = rest := by
  cases s with
  | declare pos name type value =>
    obtain rfl := List.mem_singleton.1 hl
    have hname : name ∈ Stmt.declares (.declare pos name type value) := List.mem_singleton.2 rfl
    exact ⟨hname, fun hvisible => h.new name hname hvisible, rfl⟩
  | _ => cases hl

theorem scoped_side {clash : String → Prop} (h : Stmt.Scoped clash visible (s :: rest))
    (first : Bool) : Stmt.Scoped clash visible (s.side first) := by
  cases s with
  | branch => cases first with
    | true => exact h.2.1.1
    | false => exact h.2.1.2
  | _ => trivial

theorem mem_reads_of_isReading {es : List Expr}
    (h : (es.flatMap Expr.subexpressions).any (isReading x) = true) :
    ∃ p ∈ es.flatMap Expr.reads, p.2 = x := by
  obtain ⟨e, he, hreading⟩ := List.any_eq_true.1 h
  obtain ⟨operand, hoperand, hwithin⟩ := List.mem_flatMap.1 he
  cases e with
  | var pos name =>
    obtain rfl : name = x := by simpa [isReading] using hreading
    have hleaf : Expr.var pos name ∈ operand.leaves := List.mem_filter.2 ⟨hwithin, rfl⟩
    exact ⟨(pos, name), List.mem_flatMap.2 ⟨operand, hoperand,
      List.mem_filterMap.2 ⟨_, hleaf, rfl⟩⟩, rfl⟩
  | _ => cases hreading

/-- **What is declared was not visible in front.** -/
theorem name_not_mem_visible (h : Stmt.Scoped (fun _ => False) visible body)
    (hl : l ∈ locals body) : l.name ∉ visible := by
  induction body using Stmt.bodyInduction generalizing visible with
  | nil => cases hl
  | cons s rest hsides hrest =>
    rcases mem_locals_cons.1 hl with hl | ⟨first, hl⟩ | hl
    · exact (not_mem_visible_of_fits h.1 hl).2.1
    · exact hsides first (scoped_side h first) hl
    · exact fun hin => hrest h.2.2 hl (List.mem_append_right _ hin)

/-- **Whatever is read is visible in front or a local that sees the reading.** -/
theorem read_by_local (h : Stmt.Scoped (fun _ => False) visible body)
    (hread : reads body x = true) :
    x ∈ visible ∨ ∃ l ∈ locals body, l.name = x ∧ l.isRead = true := by
  induction body using Stmt.bodyInduction generalizing visible with
  | nil => cases hread
  | cons s rest hsides hrest =>
    rcases reads_cons.1 hread with hown | ⟨first, hside⟩ | hlater
    · obtain ⟨p, hp, rfl⟩ := mem_reads_of_isReading hown
      exact .inl (h.1.reads p hp)
    · refine (hsides first (scoped_side h first) hside).imp_right ?_
      rintro ⟨l, hl, hname⟩
      exact ⟨l, mem_locals_cons.2 (.inr (.inl ⟨first, hl⟩)), hname⟩
    · rcases hrest h.2.2 hlater with hvisible | ⟨l, hl, hname⟩
      · rcases List.mem_append.1 hvisible with hnew | hvisible
        · -- the statement itself declares the name, and the reading is behind it
          cases s with
          | declare pos name type value =>
            obtain rfl := List.mem_singleton.1 hnew
            exact .inr ⟨⟨_, pos, rest⟩, mem_locals_cons.2 (.inl (List.mem_singleton.2 rfl)), rfl,
              hlater⟩
          | _ => cases hnew
        · exact .inl hvisible
      · exact .inr ⟨l, mem_locals_cons.2 (.inr (.inr hl)), hname⟩

/-- A local is read within the body that declares it. -/
theorem reads_of_isRead (hl : l ∈ locals body) (hread : l.isRead = true) :
    reads body l.name = true := by
  induction body using Stmt.bodyInduction with
  | nil => cases hl
  | cons s rest hsides hrest =>
    rcases mem_locals_cons.1 hl with hl | ⟨first, hl⟩ | hl
    · have hscope : l.scope = rest := by
        cases s with
        | declare => rw [List.mem_singleton.1 hl]
        | _ => cases hl
      rw [Local.isRead, hscope] at hread
      exact reads_cons.2 (.inr (.inr hread))
    · exact reads_cons.2 (.inr (.inl ⟨first, hsides first hl⟩))
    · exact reads_cons.2 (.inr (.inr (hrest hl)))

/-- **A declared name is read anywhere exactly where a local of the name is read.** -/
theorem reads_iff (h : Stmt.Scoped (fun _ => False) visible body) (hl : l ∈ locals body) :
    reads body l.name = true ↔ ∃ m ∈ locals body, m.name = l.name ∧ m.isRead = true := by
  constructor
  · intro hread
    exact (read_by_local h hread).resolve_left (name_not_mem_visible h hl)
  · rintro ⟨m, hm, hname, hread⟩
    rw [← hname]
    exact reads_of_isRead hm hread

/-! ## Last declarations -/

section LastDeclarations

variable {ds : List (String × Position)} {d : String × Position}

theorem lastDeclarations_sublist (ds : List (String × Position)) :
    (lastDeclarations ds).Sublist ds := by
  induction ds with
  | nil => exact .slnil
  | cons d ds ih =>
    rw [lastDeclarations]
    split
    · exact ih.cons d
    · exact ih.cons_cons d

/-- **What is kept of each name is its last declaration.** -/
theorem mem_lastDeclarations : d ∈ lastDeclarations ds ↔
    ∃ before after, ds = before ++ d :: after ∧ ∀ e ∈ after, e.1 ≠ d.1 := by
  induction ds with
  | nil => simp [lastDeclarations]
  | cons first ds ih =>
    have hcons : (∃ before after, first :: ds = before ++ d :: after ∧ ∀ e ∈ after, e.1 ≠ d.1) ↔
        (first = d ∧ ∀ e ∈ ds, e.1 ≠ d.1) ∨ d ∈ lastDeclarations ds := by
      rw [ih]
      constructor
      · rintro ⟨before, after, hsplit, hlast⟩
        cases before with
        | nil =>
          cases hsplit
          exact .inl ⟨rfl, hlast⟩
        | cons b before =>
          cases hsplit
          exact .inr ⟨before, after, rfl, hlast⟩
      · rintro (⟨rfl, hlast⟩ | ⟨before, after, rfl, hlast⟩)
        · exact ⟨[], ds, rfl, hlast⟩
        · exact ⟨first :: before, after, rfl, hlast⟩
    rw [hcons, lastDeclarations]
    split
    · -- a later declaration has the name of the first one
      rename_i hany
      obtain ⟨e, he, hname⟩ := List.any_eq_true.1 hany
      refine ⟨.inr, fun h => h.resolve_left ?_⟩
      rintro ⟨rfl, hlast⟩
      exact hlast e he (by simpa using hname)
    · -- the first declaration is the only one of its name
      rename_i hnone
      have hother : ∀ e ∈ ds, e.1 ≠ first.1 := fun e he hname =>
        hnone (List.any_eq_true.2 ⟨e, he, decide_eq_true hname⟩)
      rw [List.mem_cons]
      refine or_congr_left ⟨?_, fun h => h.1.symm⟩
      rintro rfl
      exact ⟨rfl, hother⟩

theorem nodup_lastDeclarations (ds : List (String × Position)) :
    ((lastDeclarations ds).map Prod.fst).Nodup := by
  induction ds with
  | nil => exact .nil
  | cons d ds ih =>
    rw [lastDeclarations]
    split
    · exact ih
    · rename_i hnone
      rw [List.map_cons, List.nodup_cons]
      refine ⟨fun hin => ?_, ih⟩
      obtain ⟨e, he, hname⟩ := List.mem_map.1 hin
      have he := (lastDeclarations_sublist ds).subset he
      exact hnone (List.any_eq_true.2 ⟨e, he, by simpa using hname⟩)

/-- Names that are declared once are all kept. -/
theorem lastDeclarations_eq_self (h : (ds.map Prod.fst).Nodup) : lastDeclarations ds = ds := by
  induction ds with
  | nil => rfl
  | cons d ds ih =>
    rw [List.map_cons, List.nodup_cons] at h
    have hnone : ¬ ds.any (·.1 = d.1) = true := by
      intro hany
      obtain ⟨e, he, hname⟩ := List.any_eq_true.1 hany
      exact h.1 (List.mem_map.2 ⟨e, he, by simpa using hname⟩)
    rw [lastDeclarations, if_neg hnone, ih h.2]

/-- It does not matter whether names are dropped before or after. -/
theorem filter_lastDeclarations (p : String → Bool) (ds : List (String × Position)) :
    (lastDeclarations ds).filter (fun d => p d.1) =
      lastDeclarations (ds.filter fun d => p d.1) := by
  induction ds with
  | nil => rfl
  | cons d ds ih =>
    cases hp : p d.1 with
    | false =>
      rw [List.filter_cons_of_neg (by simp [hp]), ← ih, lastDeclarations]
      split
      · rfl
      · rw [List.filter_cons_of_neg (by simp [hp])]
    | true =>
      have hany : (ds.filter fun d => p d.1).any (·.1 = d.1) = ds.any (·.1 = d.1) := by
        rw [List.any_filter]
        refine congrArg (List.any ds) (funext fun e => ?_)
        by_cases hname : e.1 = d.1
        · simp [hname, hp]
        · simp [hname]
      rw [List.filter_cons_of_pos (by simp [hp]), lastDeclarations, lastDeclarations, hany]
      split
      · exact ih
      · rw [List.filter_cons_of_pos (by simp [hp]), ih]

end LastDeclarations

/-! ## The warnings -/

/-- The locals whose names are read nowhere in the body. -/
def nowhereRead (body : List Stmt) : List Local :=
  (locals body).filter fun l => !reads body l.name

/-- A local whose name is read nowhere is not read in its scope either. -/
theorem nowhereRead_sublist (body : List Stmt) : (nowhereRead body).Sublist (unread body) := by
  have hfilter : nowhereRead body = (unread body).filter fun l => !reads body l.name := by
    rw [nowhereRead, unread, List.filter_filter]
    refine List.filter_congr fun l hl => ?_
    cases hread : l.isRead with
    | true => simp [reads_of_isRead hl hread]
    | false => simp
  rw [hfilter]
  exact List.filter_sublist

theorem unusedWarnings_eq (body : List Stmt) (returns : Ty) (pos : Position) :
    unusedWarnings body returns pos =
      (unused (ofBody body)).map fun d => ⟨d.2, .unusedVariable d.1⟩ := by
  have hunreachable : ((ofBody body).unreachable.map fun q => (⟨q, .unreachable⟩ : Fault)).filter
      isUnusedWarning = [] := by
    rw [List.filter_eq_nil_iff]
    rintro f hf hunused
    obtain ⟨q, -, rfl⟩ := List.mem_map.1 hf
    cases hunused
  have hmissing (b : Bool) : (if b then [(⟨pos, .missingReturn⟩ : Fault)] else []).filter
      isUnusedWarning = [] := by
    cases b <;> rfl
  rw [unusedWarnings, warnings, List.filter_append, List.filter_append, hunreachable, hmissing]
  refine List.filter_eq_self.2 fun f hf => ?_
  obtain ⟨d, -, rfl⟩ := List.mem_map.1 hf
  rfl

/-- **One warning for each name that is read nowhere**, about its last declaration. -/
theorem unusedWarnings_perm (h : Live body) (returns : Ty) (pos : Position) :
    (unusedWarnings body returns pos).Perm
      ((lastDeclarations ((nowhereRead body).map Local.key)).map fun d =>
        ⟨d.2, .unusedVariable d.1⟩) := by
  have hnames : (fun d : String × Position => !(ofBody body).reads.contains d.1) =
      fun d => !reads body d.1 := by
    funext d
    rw [Bool.eq_iff_iff, Bool.not_eq_true', Bool.not_eq_true', ← Bool.not_eq_true,
      ← Bool.not_eq_true, ← mem_ofBody_reads h, List.contains_iff_mem]
  have hkeys : ((locals body).map Local.key).filter (fun d => !reads body d.1) =
      (nowhereRead body).map Local.key := by
    rw [List.filter_map]
    rfl
  rw [unusedWarnings_eq, unused, hnames, ofBody_declared h,
    filter_lastDeclarations fun x => !reads body x, hkeys]
  exact (List.mergeSort_perm _ _).map _

theorem map_warning (ls : List Local) :
    ls.map Local.warning = (ls.map Local.key).map fun d => ⟨d.2, .unusedVariable d.1⟩ := by
  rw [List.map_map]
  rfl

theorem map_fst_key (ls : List Local) : (ls.map Local.key).map Prod.fst = ls.map Local.name := by
  rw [List.map_map]
  rfl

/-- **No warning is wrong**, and none is given twice. -/
theorem unusedWarnings_subperm (h : Live body) (returns : Ty) (pos : Position) :
    (unusedWarnings body returns pos).Subperm ((unread body).map Local.warning) := by
  have hsublist := (lastDeclarations_sublist ((nowhereRead body).map Local.key)).trans
    ((nowhereRead_sublist body).map Local.key)
  rw [map_warning]
  exact ⟨_, (unusedWarnings_perm h returns pos).symm, hsublist.map _⟩

/-- The locals of a name that is read nowhere are all among those whose names are read nowhere. -/
theorem count_nowhereRead (hx : reads body x = false) :
    ((nowhereRead body).map Local.name).count x = ((locals body).map Local.name).count x := by
  have hfilter : (nowhereRead body).map Local.name =
      ((locals body).map Local.name).filter fun y => !reads body y := by
    rw [List.filter_map]
    rfl
  rw [hfilter, List.count_filter (by simp [hx])]

/-- A name that is declared once belongs to one local. -/
theorem eq_of_count_eq_one {l m : Local} (hl : l ∈ locals body) (hm : m ∈ locals body)
    (hname : m.name = l.name) (hcount : ((locals body).map Local.name).count l.name = 1) :
    l = m := by
  rw [List.count_eq_countP, List.countP_map, List.countP_eq_length_filter,
    List.length_eq_one_iff] at hcount
  obtain ⟨only, honly⟩ := hcount
  have hmem (k : Local) (hk : k ∈ locals body) (hkname : k.name = l.name) : k = only := by
    have hin : k ∈ (locals body).filter ((· == l.name) ∘ Local.name) :=
      List.mem_filter.2 ⟨hk, by simpa using hkname⟩
    rw [honly] at hin
    exact List.mem_singleton.1 hin
  rw [hmem l hl rfl, hmem m hm hname]

/-- Where each local that is never read has a name of its own, its name is read nowhere. -/
theorem nowhereRead_eq (hscoped : Stmt.Scoped (fun _ => False) visible body)
    (honce : ∀ l ∈ unread body, ((locals body).map Local.name).count l.name = 1) :
    nowhereRead body = unread body := by
  refine List.filter_congr fun l hl => congrArg Bool.not ?_
  cases hread : l.isRead with
  | true => exact reads_of_isRead hl hread
  | false =>
    rw [Bool.eq_false_iff]
    intro hname
    obtain ⟨m, hm, hsame, hmread⟩ := (reads_iff hscoped hl).1 hname
    have hunread : l ∈ unread body := List.mem_filter.2 ⟨hl, by simp [hread]⟩
    obtain rfl := eq_of_count_eq_one hl hm hsame (honce l hunread)
    cases hread.symm.trans hmread

/-- **All locals that are never read are reported where each has a name of its own**, and nowhere
else. -/
theorem unusedWarnings_perm_iff (hscoped : Stmt.Scoped (fun _ => False) visible body)
    (hlive : Live body) (returns : Ty) (pos : Position) :
    (unusedWarnings body returns pos).Perm ((unread body).map Local.warning) ↔
      ∀ l ∈ unread body, ((locals body).map Local.name).count l.name = 1 := by
  have hperm := unusedWarnings_perm hlive returns pos
  constructor
  · intro hexact l hl
    -- both steps from the locals never read to the warnings keep the number of them
    have hlength := (hperm.symm.trans hexact).length_eq
    have hlast := (lastDeclarations_sublist ((nowhereRead body).map Local.key)).length_le
    have hnowhere := (nowhereRead_sublist body).length_le
    simp only [List.length_map] at hlength hlast
    have hall := (nowhereRead_sublist body).eq_of_length (by omega)
    have hkeep := (lastDeclarations_sublist ((nowhereRead body).map Local.key)).eq_of_length
      (by rw [List.length_map]; omega)
    have hnodup := nodup_lastDeclarations ((nowhereRead body).map Local.key)
    rw [hkeep, map_fst_key] at hnodup
    rw [← hall] at hl
    have hname : reads body l.name = false := by simpa using (List.mem_filter.1 hl).2
    rw [← count_nowhereRead hname]
    exact List.count_eq_one_of_mem hnodup (List.mem_map_of_mem hl)
  · intro honce
    have hall := nowhereRead_eq hscoped honce
    have hnodup : ((unread body).map Local.name).Nodup := by
      rw [List.nodup_iff_count_le_one]
      intro x
      by_cases hx : x ∈ (unread body).map Local.name
      · obtain ⟨l, hl, rfl⟩ := List.mem_map.1 hx
        rw [← honce l hl]
        exact (List.filter_sublist.map Local.name).count_le _
      · rw [List.count_eq_zero.2 hx]
        exact Nat.zero_le 1
    rw [hall, lastDeclarations_eq_self (by rwa [map_fst_key]), ← map_warning] at hperm
    exact hperm

/-- A name is read nowhere exactly where none of its locals is read. -/
theorem reads_eq_false_iff (hscoped : Stmt.Scoped (fun _ => False) visible body)
    (hl : l ∈ locals body) : reads body l.name = false ↔
      ∀ m ∈ locals body, m.name = l.name → m.isRead = false := by
  rw [← Bool.not_eq_true, reads_iff hscoped hl]
  simp

/-- **A warning is about the last declaration of a name of which no local is read.** -/
theorem mem_unusedWarnings (hscoped : Stmt.Scoped (fun _ => False) visible body)
    (hlive : Live body) (returns : Ty) (pos q : Position) :
    ⟨q, .unusedVariable x⟩ ∈ unusedWarnings body returns pos ↔
      ∃ before l after, locals body = before ++ l :: after ∧ l.name = x ∧ l.pos = q ∧
        (∀ m ∈ after, m.name ≠ x) ∧ ∀ m ∈ locals body, m.name = x → m.isRead = false := by
  have hkeys : (nowhereRead body).map Local.key =
      ((locals body).map Local.key).filter fun d => !reads body d.1 := by
    rw [List.filter_map]
    rfl
  -- one warning for each name, at the last declaration of it
  have hlast : ⟨q, .unusedVariable x⟩ ∈ unusedWarnings body returns pos ↔
      (x, q) ∈ lastDeclarations ((locals body).map Local.key) ∧ reads body x = false := by
    rw [(unusedWarnings_perm hlive returns pos).mem_iff, hkeys,
      ← filter_lastDeclarations fun y => !reads body y, List.mem_map]
    simp
  rw [hlast, mem_lastDeclarations]
  constructor
  · rintro ⟨⟨before, after, hsplit, hafter⟩, hname⟩
    obtain ⟨front, back, hlocals, rfl, hback⟩ := List.map_eq_append_iff.1 hsplit
    obtain ⟨l, behind, rfl, hkey, rfl⟩ := List.map_eq_cons_iff.1 hback
    obtain ⟨rfl, rfl⟩ : l.name = x ∧ l.pos = q := Prod.mk.inj hkey
    have hl : l ∈ locals body := by simp [hlocals]
    exact ⟨front, l, behind, hlocals, rfl, rfl,
      fun m hm => hafter m.key (List.mem_map_of_mem hm), (reads_eq_false_iff hscoped hl).1 hname⟩
  · rintro ⟨before, l, after, hlocals, rfl, rfl, hafter, hunread⟩
    have hl : l ∈ locals body := by simp [hlocals]
    refine ⟨⟨before.map Local.key, after.map Local.key, ?_, ?_⟩,
      (reads_eq_false_iff hscoped hl).2 hunread⟩
    · rw [hlocals, List.map_append, List.map_cons]
      rfl
    · rintro e he
      obtain ⟨m, hm, rfl⟩ := List.mem_map.1 he
      exact hafter m hm

/-- **The warnings about locals are exact where each local that is never read has a name of its
own.** In a well scoped body of which no statement is unreachable: every warning is about a local
that no expression in its scope reads, and none is given twice; there is one for each such local,
at its declaration, exactly where no other local of the body has the name of one of them; and what
is reported of a name is its last declaration, where none of the locals of the name is read. -/
theorem unused_warnings_exact_iff (hscoped : Stmt.Scoped (fun _ => False) visible body)
    (hlive : ∀ place s, ¬ Dead body place s) (returns : Ty) (pos : Position) :
    (unusedWarnings body returns pos).Subperm ((unread body).map Local.warning) ∧
    ((unusedWarnings body returns pos).Perm ((unread body).map Local.warning) ↔
      ∀ l ∈ unread body, ((locals body).map Local.name).count l.name = 1) ∧
    ∀ x q, ⟨q, .unusedVariable x⟩ ∈ unusedWarnings body returns pos ↔
      ∃ before l after, locals body = before ++ l :: after ∧ l.name = x ∧ l.pos = q ∧
        (∀ m ∈ after, m.name ≠ x) ∧ ∀ m ∈ locals body, m.name = x → m.isRead = false :=
  ⟨unusedWarnings_subperm hlive returns pos, unusedWarnings_perm_iff hscoped hlive returns pos,
    fun _ q => mem_unusedWarnings hscoped hlive returns pos q⟩

/-- A statement that lies on no path is reported, so where none is reported all are reached. -/
theorem live_of_unreachable_eq_nil (h : (ofBody body).unreachable = []) : Live body :=
  fun _ _ hdead => unreachable_ne_nil hdead h

/-- A body with a local that is read and, in a branch, one that is not:
`let sum = 0; if (flag) { let step = sum; } return sum;`. -/
def tally : List Stmt :=
  [.declare { offset := 1 } "sum" .number (some (.literal {} .number "0")),
    .branch { offset := 2 } (.var {} "flag")
      [.declare { offset := 3 } "step" .number (some (.var {} "sum"))] [],
    .exit { offset := 4 } (some (.var {} "sum"))]

/-- The local that is not read is reported where it is declared, and nothing else is. -/
theorem unused_warnings_exact_iff_tally :
    Stmt.Scoped (fun _ => False) ["flag"] tally ∧ (∀ place s, ¬ Dead tally place s) ∧
      (unusedWarnings tally .number {}).Perm [⟨{ offset := 3 }, .unusedVariable "step"⟩] := by
  have hscoped : Stmt.Scoped (fun _ => False) ["flag"] tally := by
    refine ⟨⟨?_, ?_, ?_⟩, trivial, ⟨?_, ?_, ?_⟩, ⟨⟨⟨?_, ?_, ?_⟩, trivial, trivial⟩, trivial⟩,
      ⟨?_, ?_, ?_⟩, trivial, trivial⟩
    all_goals decide
  have hlive : ∀ place s, ¬ Dead tally place s := live_of_unreachable_eq_nil (by decide)
  refine ⟨hscoped, hlive, ?_⟩
  exact (unused_warnings_exact_iff hscoped hlive .number {}).2.1.2 (by decide)

/-- A body that declares two locals of one name, of which it reads one:
`if (flag) { let x; return x; } else { let x; } return 0;`. -/
def forked : List Stmt :=
  [.branch { offset := 1 } (.var {} "flag")
      [.declare { offset := 2 } "x" .number none, .exit { offset := 3 } (some (.var {} "x"))]
      [.declare { offset := 4 } "x" .number none],
    .exit { offset := 5 } (some (.literal {} .number "0"))]

/-- **A local that is never read is not reported if another one of its name is read.** -/
theorem namesake_not_reported :
    ¬ ∀ (visible : List String) (body : List Stmt) (returns : Ty) (pos : Position),
      Stmt.Scoped (fun _ => False) visible body → (∀ place s, ¬ Dead body place s) →
        (unusedWarnings body returns pos).Perm ((unread body).map Local.warning) := by
  intro h
  have hscoped : Stmt.Scoped (fun _ => False) ["flag"] forked := by
    refine ⟨⟨?_, ?_, ?_⟩, ⟨⟨⟨?_, ?_, ?_⟩, trivial, ⟨?_, ?_, ?_⟩, trivial, trivial⟩,
      ⟨⟨?_, ?_, ?_⟩, trivial, trivial⟩⟩, ⟨?_, ?_, ?_⟩, trivial, trivial⟩
    all_goals decide
  have hlive : Live forked := live_of_unreachable_eq_nil (by decide)
  have honce := (unusedWarnings_perm_iff hscoped hlive .number {}).1
    (h ["flag"] forked .number {} hscoped hlive)
  exact absurd honce (by decide)

end Flow

end Covenant
