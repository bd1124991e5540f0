import Covenant.Proofs.Keys
import Covenant.Proofs.Order.Declarations
import Covenant.Proofs.Order.Members

/-!
# The contracts of files in another order

The contracts of a build are those of its classes, each resolved in the scope of its file with the
events of the classes above it. None of this depends on the order of the files, but for the names of
temporaries: these are numbered through the whole build. So two orders of the same files give the
same contracts but for the names of locals, or contracts in neither order
(`resolveFiles_paired`).
-/

namespace Covenant

namespace Table

variable {α : Type} {t t' : Table α}

/-- Where all names differ, the order of the entries does not count. -/
theorem get?_of_perm (hnames : (t.map Prod.fst).Nodup) (h : t.Perm t') (name : String) :
    t.get? name = t'.get? name := by
  have hnames' : (t'.map Prod.fst).Nodup := (h.map Prod.fst).nodup_iff.1 hnames
  refine Option.ext fun a => ⟨fun ha => ?_, fun ha => ?_⟩
  · exact get?_of_mem hnames' (h.mem_iff.1 (mem_of_get? ha))
  · exact get?_of_mem hnames (h.mem_iff.2 (mem_of_get? ha))

end Table

namespace Graph

/-- A walk depends on what each name leads to. -/
theorem reachable_congr {g g' : Graph} (h : ∀ name, g.successors name = g'.successors name)
    (seen queue : List String) : g.reachable seen queue = g'.reachable seen queue := by
  fun_induction reachable g seen queue with
  | case1 => rw [reachable]
  | case2 seen name rest hseen ih => rw [reachable, dif_pos hseen, ih]
  | case3 seen name rest hseen ih => rw [reachable, dif_neg hseen, ih, h]

end Graph

namespace Build

open Resolve

variable {files : Files} {loaded loaded' : List SourceFile} {k k' : Known}

/-! ## Classes -/

theorem allClasses_perm (h : loaded.Perm loaded') :
    (allClasses loaded).Perm (allClasses loaded') :=
  h.flatMap_right _

/-- Classes are accepted where no two have one name. -/
theorem checkClasses_of_nodup {seen : Table String} {classes : List OwnedClass}
    (hnew : ∀ c ∈ classes, seen.get? c.2.name = none) (hnodup : (classes.map (·.2.name)).Nodup) :
    checkClasses seen classes = .ok () := by
  induction classes generalizing seen with
  | nil => rfl
  | cons owned rest ih =>
    obtain ⟨file, c⟩ := owned
    obtain ⟨hc, hrest⟩ := List.forall_mem_cons.1 hnew
    rw [List.map_cons, List.nodup_cons] at hnodup
    rw [checkClasses, hc]
    refine ih (fun other hother => ?_) hnodup.2
    rw [Table.put, Table.get?_cons, if_neg, hrest other hother]
    exact fun hname => hnodup.1 (List.mem_map.2 ⟨other, hother, hname⟩)

/-- What the classes above a class are does not depend on the order of the files. -/
theorem ancestors_perm (h : (allClasses loaded).Perm (allClasses loaded'))
    (hnodup : ((allClasses loaded).map (·.2.name)).Nodup) (name : String) :
    ancestors (extensions (allClasses loaded)) name =
      ancestors (extensions (allClasses loaded')) name := by
  have hnames : ((extensions (allClasses loaded)).map Prod.fst).Nodup := by
    simpa [extensions, Function.comp_def] using hnodup
  have hsuccessors (name : String) : (extensions (allClasses loaded)).successors name =
      (extensions (allClasses loaded')).successors name :=
    congrArg (Option.getD · []) (Table.get?_of_perm hnames (h.map _) name)
  rw [ancestors, ancestors, hsuccessors, Graph.reachable_congr hsuccessors]

/-! ## Events -/

theorem Declared.classNames (hk : Declared loaded k) :
    (allClasses loaded).map (·.2.name) = (ownedClasses k.files).map (·.2.name) := by
  rw [hk.allClasses_eq, List.map_map]
  rfl

theorem Declared.names_of_made (hk : Declared loaded k) {bases : Graph}
    {events : Table (List Event)} {contracts : List Contract}
    (hmade : List.Forall₂ (Made bases events) (ownedClasses k.files) contracts) :
    (allClasses loaded).map (·.2.name) = contracts.map Contract.name := by
  rw [hk.classNames]
  exact map_eq_of_forall₂ hmade fun _ _ h => h.spec.1.symm

/-- The events of a class are known by its name. -/
theorem Declared.get?_events (hk : Declared loaded k)
    (hnodup : ((ownedClasses k.files).map (·.2.name)).Nodup)
    {fc : DeclaredFile × Source.ClassDecl} (hfc : fc ∈ ownedClasses k.files) :
    ∃ es, ownEvents fc.1.scope fc.2 = .ok es ∧ k.events.get? fc.2.name = some es := by
  obtain ⟨es, hes, hmem⟩ := hk.events fc hfc
  have hnames : (k.events.map Prod.fst).Nodup := by
    rw [hk.names]
    exact List.nodup_reverse.2 hnodup
  exact ⟨es, hes, Table.get?_of_mem hnames hmem⟩

/-- Two classes are one, in scopes that know the contracts in different orders. -/
structure SameClass (names : List String) (fc fc' : DeclaredFile × Source.ClassDecl) : Prop where
  path : fc'.1.path = fc.1.path
  written : fc'.2 = fc.2
  scope : SameScope names fc.1.scope fc'.1.scope

/-- Every class of some files is one of others. -/
def SameClasses (names : List String) (k k' : Known) : Prop :=
  ∀ fc' ∈ ownedClasses k'.files, ∃ fc ∈ ownedClasses k.files, SameClass names fc fc'

variable {names : List String}

theorem sameClasses_of_files (h : ∀ f' ∈ k'.files, ∃ f ∈ k.files, SameFile names f f') :
    SameClasses names k k' := fun fc' hfc' => by
  obtain ⟨f', hf', hfc'⟩ := List.mem_flatMap.1 hfc'
  obtain ⟨written, hwritten, rfl⟩ := List.mem_map.1 hfc'
  obtain ⟨f, hf, hsame⟩ := h f' hf'
  rw [hsame.classes] at hwritten
  exact ⟨(f, written), List.mem_flatMap.2 ⟨f, hf, List.mem_map_of_mem hwritten⟩, hsame.path, rfl,
    hsame.scope⟩

/-- **The events of a class do not depend on the order of the files.** -/
theorem events_reordered (hk : Declared loaded k) (hk' : Declared loaded' k')
    (hnodup : ((ownedClasses k.files).map (·.2.name)).Nodup)
    (hperm : ((ownedClasses k.files).map (·.2.name)).Perm
      ((ownedClasses k'.files).map (·.2.name)))
    (hsame : SameClasses names k k') (name : String) :
    k.events.get? name = k'.events.get? name := by
  by_cases hname : name ∈ (ownedClasses k'.files).map (·.2.name)
  · obtain ⟨fc', hfc', rfl⟩ := List.mem_map.1 hname
    obtain ⟨fc, hfc, -, hwritten, hscope⟩ := hsame fc' hfc'
    obtain ⟨es, hes, hget⟩ := hk.get?_events hnodup hfc
    obtain ⟨es', hes', hget'⟩ := hk'.get?_events (hperm.nodup_iff.1 hnodup) hfc'
    rw [hscope.eq, hwritten] at hes'
    obtain rfl : es = es' := Except.ok.inj (hes.symm.trans hes')
    rw [hget', hwritten, hget]
  · have hnone {files : List SourceFile} {k : Known} (hk : Declared files k)
        (hname : name ∉ (ownedClasses k.files).map (·.2.name)) : k.events.get? name = none :=
      Table.get?_eq_none fun entry hentry heq => by
        have hmem := List.mem_map_of_mem (f := Prod.fst) hentry
        rw [hk.names, List.mem_reverse] at hmem
        exact hname (heq ▸ hmem)
    rw [hnone hk' hname, hnone hk (mt hperm.mem_iff.1 hname)]

/-! ## Contracts -/

/-- The scope that a class is resolved in. -/
def scopeOf (bases : Graph) (events : Table (List Event)) (fc : DeclaredFile × Source.ClassDecl) :
    Scope :=
  { fc.1.scope with events := inheritedEvents bases events fc.2.name }

variable {bases bases' : Graph} {events events' : Table (List Event)}
  {fc fc' : DeclaredFile × Source.ClassDecl}

/-- **A class becomes the same contract, but for the names of locals**, after whatever classes. -/
theorem SameClass.contract (h : SameClass names fc fc')
    (hevents : inheritedEvents bases events fc.2.name = inheritedEvents bases' events' fc.2.name)
    (next next' : Nat) :
    Paired (SameMember Contract.nameless) (contract (scopeOf bases events fc) next fc.1.path fc.2)
      (contract (scopeOf bases' events' fc') next' fc'.1.path fc'.2) := by
  rw [scopeOf, scopeOf, h.path, h.written, h.scope.eq, ← hevents]
  exact @contract_knowing { fc.1.scope with events := inheritedEvents bases events fc.2.name } names
    h.scope.perm fc.2 fc.1.path next next'

/-- All classes are resolved where each can be, after whatever classes. -/
theorem exists_resolved {declared : List DeclaredFile}
    (h : ∀ fc ∈ ownedClasses declared, ∀ next, ∃ r,
      contract (scopeOf bases events fc) next fc.1.path fc.2 = .ok r) :
    ∃ resolved : Build.Resolved, declared.foldlM
      (fun r f => f.classes.foldlM (resolveClass bases events f) r) {} = .ok resolved := by
  have hall : ∀ f ∈ declared, ∀ r, True → ∃ r' : Build.Resolved,
      f.classes.foldlM (resolveClass bases events f) r = .ok r' ∧ True := fun f hf r hr => by
    refine exists_foldlM (fun _ => True) (fun c hc r _ => ?_) hr
    have hfc : (f, c) ∈ ownedClasses declared :=
      List.mem_flatMap.2 ⟨f, hf, List.mem_map_of_mem hc⟩
    obtain ⟨result, hresult⟩ := h (f, c) hfc r.next
    rw [scopeOf] at hresult
    exact ⟨_, by rw [resolveClass, hresult]; rfl, trivial⟩
  obtain ⟨resolved, hresolved, -⟩ := exists_foldlM (fun _ => True) hall trivial
  exact ⟨resolved, hresolved⟩

end Build

/-! ## Registries -/

namespace Registry

variable {r r' : Registry}

/-- Two registries have the same contracts but for the names of locals, in whatever order. -/
def Alike (r r' : Registry) : Prop :=
  ∃ b, r.Nameless b ∧ r'.Nameless b

theorem nameless_of_contracts (hnodup : (r.contracts.map Contract.name).Nodup)
    (hnames : (r.contracts.map Contract.name).Perm (r'.contracts.map Contract.name))
    (h : ∀ c' ∈ r'.contracts, ∃ c ∈ r.contracts, c.nameless = c'.nameless) :
    r'.Nameless { contracts := r.contracts.map Contract.nameless } := by
  have hkeys : (r.contracts.map Contract.nameless).map Contract.name =
      r.contracts.map Contract.name := by
    rw [List.map_map]
    rfl
  have hdistinct : ((r.contracts.map Contract.nameless).reverse.map Contract.name).Nodup := by
    rw [List.map_reverse, hkeys]
    exact List.nodup_reverse.2 hnodup
  refine ⟨hkeys ▸ hnames, fun name => ?_⟩
  cases hget : r'.get? name with
  | some c' =>
    obtain ⟨hc', rfl⟩ := of_get?_eq_some hget
    obtain ⟨c, hc, hsame⟩ := h c' hc'
    refine (find?_key_iff hdistinct).2 ⟨?_, rfl⟩
    rw [List.mem_reverse, ← hsame]
    exact List.mem_map_of_mem hc
  | none =>
    cases hb : Registry.get? { contracts := r.contracts.map Contract.nameless } name with
    | none => rfl
    | some d =>
      obtain ⟨hd, rfl⟩ := of_get?_eq_some hb
      have hname := List.mem_map_of_mem (f := Contract.name) hd
      rw [hkeys, hnames.mem_iff, ← keys_extensions] at hname
      obtain ⟨c', hc'⟩ := exists_get? hname
      rw [hget] at hc'
      cases hc'

theorem Alike.of_contracts (hnodup : (r.contracts.map Contract.name).Nodup)
    (hnames : (r.contracts.map Contract.name).Perm (r'.contracts.map Contract.name))
    (h : ∀ c' ∈ r'.contracts, ∃ c ∈ r.contracts, c.nameless = c'.nameless) : r.Alike r' :=
  ⟨_, nameless_of_contracts hnodup (.refl _) fun c hc => ⟨c, hc, rfl⟩,
    nameless_of_contracts hnodup hnames h⟩

theorem Alike.symm (h : r.Alike r') : r'.Alike r := by
  obtain ⟨b, hr, hr'⟩ := h
  exact ⟨b, hr', hr⟩

end Registry

namespace Build

open Resolve

variable {files : Files} {loaded loaded' : List SourceFile} {k k' : Known}

/-- What is known of two orders of the same files, without repeated classes. -/
structure SameKnown (loaded loaded' : List SourceFile) (k k' : Known) : Prop where
  classes : (allClasses loaded).Perm (allClasses loaded')
  nodup : ((allClasses loaded).map (·.2.name)).Nodup
  declared : Declared loaded k
  declared' : Declared loaded' k'
  same : SameClasses ((allClasses loaded').map (·.2.name)) k k'

namespace SameKnown

theorem inherited (h : SameKnown loaded loaded' k k') (name : String) :
    inheritedEvents (extensions (allClasses loaded)) k.events name =
      inheritedEvents (extensions (allClasses loaded')) k'.events name := by
  have hnodup := h.nodup
  have hnames := h.classes.map (·.2.name)
  rw [h.declared.classNames] at hnodup hnames
  rw [h.declared'.classNames] at hnames
  rw [inheritedEvents_congr (events_reordered h.declared h.declared' hnodup hnames h.same),
    inheritedEvents, inheritedEvents, ancestors_perm h.classes h.nodup]

/-- **Each class becomes a contract that another order of the files gives too**, but for the names
of locals. -/
theorem exists_contract (h : SameKnown loaded loaded' k k') {contracts : List Contract}
    (hmade : List.Forall₂ (Made (extensions (allClasses loaded)) k.events) (ownedClasses k.files)
      contracts)
    {fc' : DeclaredFile × Source.ClassDecl} (hfc' : fc' ∈ ownedClasses k'.files) :
    ∃ c ∈ contracts, ∀ next', ∃ r',
      contract (scopeOf (extensions (allClasses loaded')) k'.events fc') next' fc'.1.path fc'.2 =
        .ok r' ∧ r'.1.nameless = c.nameless := by
  obtain ⟨fc, hfc, hclass⟩ := h.same fc' hfc'
  obtain ⟨c, hc, next, after, hcontract⟩ := exists_of_mem_left hmade hfc
  exact ⟨c, hc, fun next' => (hclass.contract (h.inherited _) next next').exists_right hcontract⟩

end SameKnown

/-- Another order of the same files is known alike. -/
theorem exists_sameKnown (h : Reordered files loaded loaded')
    (hcheck : checkClasses [] (allClasses loaded) = .ok ())
    (hk : loaded.foldlM (declareFile (baseScope loaded)) {} = .ok k) :
    ∃ k', loaded'.foldlM (declareFile (baseScope loaded')) {} = .ok k' ∧
      SameKnown loaded loaded' k k' := by
  have hclasses := allClasses_perm h.perm
  have hbase : (baseScope loaded).contracts.Perm (baseScope loaded').contracts := hclasses.map _
  obtain ⟨k', hk', hfiles⟩ := exists_known_reordered h hbase hk
  exact ⟨k', hk', hclasses, (nodup_of_checkClasses hcheck).2, declared_of_foldlM hk,
    declared_of_foldlM hk', sameClasses_of_files hfiles⟩

theorem resolveFiles_reordered {registry : Registry} {warnings : List Fault}
    (h : Reordered files loaded loaded') (hr : resolveFiles loaded = .ok (registry, warnings)) :
    ∃ r', resolveFiles loaded' = .ok r' ∧ registry.Alike r'.1 := by
  obtain ⟨hcheck, k, hk, hmade⟩ := resolveFiles_eq_ok hr
  obtain ⟨k', hk', hsame⟩ := exists_sameKnown h hcheck hk
  have hnodup' := (hsame.classes.map (·.2.name)).nodup_iff.1 hsame.nodup
  -- every class is resolved in the other order too, whichever temporaries were handed out before
  have heach : ∀ fc' ∈ ownedClasses k'.files, ∀ next', ∃ r',
      contract (scopeOf (extensions (allClasses loaded')) k'.events fc') next' fc'.1.path fc'.2 =
        .ok r' := fun fc' hfc' next' => by
    obtain ⟨c, -, hall⟩ := hsame.exists_contract hmade hfc'
    obtain ⟨r', hr', -⟩ := hall next'
    exact ⟨r', hr'⟩
  obtain ⟨resolved, hresolved⟩ := exists_resolved heach
  have hr' : resolveFiles loaded' =
      .ok ({ contracts := resolved.contracts }, resolved.warnings) := by
    rw [baseScope] at hk'
    rw [resolveFiles, checkClasses_of_nodup (fun _ _ => rfl) hnodup', ok_bind]
    dsimp only
    rw [hk', ok_bind, hresolved]
    rfl
  obtain ⟨-, k'', hk'', hmade'⟩ := resolveFiles_eq_ok hr'
  obtain rfl : k' = k'' := Except.ok.inj (hk'.symm.trans hk'')
  -- names are the same, and so is what stands behind each of them
  refine ⟨_, hr', .of_contracts ?_ ?_ fun c' hc' => ?_⟩
  · rw [← hsame.declared.names_of_made hmade]
    exact hsame.nodup
  · rw [← hsame.declared.names_of_made hmade, ← hsame.declared'.names_of_made hmade']
    exact hsame.classes.map _
  · obtain ⟨fc', hfc', next', after, hcontract⟩ := exists_of_mem_right hmade' hc'
    obtain ⟨c, hc, hall⟩ := hsame.exists_contract hmade hfc'
    obtain ⟨r', hr', hnameless⟩ := hall next'
    obtain rfl : r' = (c', after) := Except.ok.inj (hr'.symm.trans hcontract)
    exact ⟨c, hc, hnameless.symm⟩

/-- **Two orders of the same files give the same contracts** but for the names of locals, or neither
gives any. -/
theorem resolveFiles_paired (h : Reordered files loaded loaded') :
    Paired (fun r r' => r.1.Alike r'.1) (resolveFiles loaded) (resolveFiles loaded') := by
  refine paired_iff.2 ⟨fun r hr => resolveFiles_reordered h hr, fun r' hr' => ?_⟩
  obtain ⟨r, hr, halike⟩ := resolveFiles_reordered h.symm hr'
  exact ⟨r, hr, halike.symm⟩

end Build

end Covenant
