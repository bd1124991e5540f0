import Covenant.Proofs.Code.References

/-!
# What names denote

A call of another contract applies a function whose name is glued together from the names of the
contract and of the method. Two targets share such a name exactly if one reaches into the other
(`Overlaps`), and then the function calls the one that comes first (`CallsDenote`). Objects are
referred to by the names of contracts, and the object with the code that stays by a name that is
built from one (`ReferencesDenote`). So all references are unambiguous unless a contract of just
that name is deployed.
-/

namespace Covenant

namespace Yul.Object

/-- **The names under which code finds objects**: that of the object it belongs to, and those of the
objects within. The code that creates a contract finds the code that stays there. -/
def names (creation : Bool) (object : Object) : List String :=
  (if creation then [object.name] else []) ++
    runtimeName object.name :: (object.children creation).map name

end Yul.Object

namespace Emit

/-! ## Glued names -/

/-- Texts that are glued together with an underscore can be told apart, unless a part of one reaches
into the other. -/
theorem glued_eq_iff {a m b n : List Char} :
    a ++ '_' :: m = b ++ '_' :: n ↔
      (a = b ∧ m = n) ∨ (∃ s, b = a ++ '_' :: s ∧ m = s ++ '_' :: n) ∨
        ∃ s, a = b ++ '_' :: s ∧ n = s ++ '_' :: m := by
  rw [List.append_eq_append_iff]
  constructor
  -- one text begins with the other; if it goes on, it does so with an underscore
  · rintro (⟨s, rfl, h⟩ | ⟨s, rfl, h⟩)
    · cases s with
      | nil =>
        cases h
        exact .inl ⟨(List.append_nil a).symm, rfl⟩
      | cons first s =>
        cases h
        exact .inr (.inl ⟨s, rfl, rfl⟩)
    · cases s with
      | nil =>
        cases h
        exact .inl ⟨List.append_nil b, rfl⟩
      | cons first s =>
        cases h
        exact .inr (.inr ⟨s, rfl, rfl⟩)
  · rintro (⟨rfl, rfl⟩ | ⟨s, rfl, rfl⟩ | ⟨s, rfl, rfl⟩)
    · exact .inl ⟨[], (List.append_nil a).symm, rfl⟩
    · exact .inl ⟨'_' :: s, rfl, rfl⟩
    · exact .inr ⟨'_' :: s, rfl, rfl⟩

/-- **A target reaches into another one**: the other contract has a longer name, whose end is where
the name of the method begins. -/
def Overlaps (t u : String × Routine) : Prop :=
  ∃ middle, u.1 = t.1 ++ "_" ++ middle ∧ t.2.name = middle ++ "_" ++ u.2.name

theorem overlaps_iff {t u : String × Routine} :
    Overlaps t u ↔ ∃ s, u.1.toList = t.1.toList ++ '_' :: s ∧
      t.2.name.toList = s ++ '_' :: u.2.name.toList := by
  constructor
  · rintro ⟨middle, hcontract, hmethod⟩
    exact ⟨middle.toList, by simp [hcontract], by simp [hmethod]⟩
  · rintro ⟨s, hcontract, hmethod⟩
    refine ⟨String.ofList s, ?_, ?_⟩
    · simp [← String.toList_inj, hcontract]
    · simp [← String.toList_inj, hmethod]

/-- **Targets that share a name** are one target, or one reaches into the other. -/
theorem targetName_eq_iff {t u : String × Routine} :
    targetName t = targetName u ↔
      (t.1 = u.1 ∧ t.2.name = u.2.name) ∨ Overlaps t u ∨ Overlaps u t := by
  rw [overlaps_iff, overlaps_iff, ← @String.toList_inj t.1, ← @String.toList_inj t.2.name,
    ← glued_eq_iff, ← String.toList_inj]
  simp [targetName, callFunction]

/-! ## Calls -/

section Calls

variable {x : Context} {mark : String} {entry : Yul.Section} {functions : List Yul.Function}
  {bodies : List Stmt} {number : Nat}

/-- Targets of one contract and of one name are the same. -/
theorem targets_ext {t u : String × Routine} (ht : t ∈ targets x bodies) (hu : u ∈ targets x bodies)
    (hcontract : t.1 = u.1) (hname : t.2.name = u.2.name) : t = u := by
  obtain ⟨_, _, _, _, -, -, c, hc, hm⟩ := mem_targets.1 ht
  obtain ⟨_, _, _, _, -, -, d, hd, hn⟩ := mem_targets.1 hu
  rw [hcontract] at hc
  cases hc.symm.trans hd
  obtain ⟨-, hm'⟩ := of_method?_eq_some hm
  obtain ⟨-, hn'⟩ := of_method?_eq_some hn
  rw [← hm', hname, hn'] at hm
  exact Prod.ext hcontract (Option.some.inj (hm.symm.trans hn))

/-- **Targets of some bodies share a name** exactly if they are the same or one reaches into the
other. -/
theorem targetName_eq_iff_of_mem {t u : String × Routine} (ht : t ∈ targets x bodies)
    (hu : u ∈ targets x bodies) :
    targetName t = targetName u ↔ t = u ∨ Overlaps t u ∨ Overlaps u t := by
  rw [targetName_eq_iff]
  refine or_congr_left ⟨fun h => targets_ext ht hu h.1 h.2, ?_⟩
  rintro rfl
  exact ⟨rfl, rfl⟩

/-- The first target of a name has a function. -/
theorem exists_callDefinition (number : Nat) {name : String} {first : String × Routine}
    (h : (targets x bodies).find? (targetName · = name) = some first) :
    ∃ n, callDefinition first.1 first.2 n ∈ x.callDefinitions bodies number := by
  rw [← find?_firstByKey] at h
  obtain ⟨i, hi, rfl⟩ := List.getElem_of_mem (List.mem_of_find?_eq_some h)
  rw [callDefinitions_eq]
  exact ⟨_, List.mem_mapIdx.2 ⟨i, hi, rfl⟩⟩

/-- **A target's name has one function**, which calls the first target of the name. -/
theorem filter_targetName (hentry : entry.items.filterMap Yul.Item.function? = [])
    (hbodies : AreBodies functions) {t : String × Routine} (ht : t ∈ targets x bodies) :
    ∃ first n, (targets x bodies).find? (targetName · = targetName t) = some first ∧
      (x.sections mark entry functions bodies number).code.functions.filter
        (·.name = targetName t) = [callDefinition first.1 first.2 n] := by
  obtain ⟨first, hfirst⟩ :
      ∃ first, (targets x bodies).find? (targetName · = targetName t) = some first :=
    Option.isSome_iff_exists.1 (List.find?_isSome.2 ⟨t, ht, by simp⟩)
  obtain ⟨n, hmem⟩ := exists_callDefinition number hfirst
  have hsame : targetName first = targetName t := by simpa using List.find?_some hfirst
  have hname : (callDefinition first.1 first.2 n).name = targetName t := hsame
  have hnodup : ((x.callDefinitions bodies number).map Yul.Function.name).Nodup := by
    rw [names_callDefinitions]
    exact nodup_firstByKey _
  refine ⟨first, n, hfirst, ?_⟩
  -- a function of this name begins as those that call other contracts
  rw [← filter_key_eq hnodup hmem, ← filter_callDefinitions hentry hbodies, List.filter_filter,
    hname]
  refine List.filter_congr fun g _ => ?_
  by_cases hg : g.name = targetName t
  · rw [hg, targetName, stem_callFunction]
    simp
  · simp [hg]

/-- A call of a method of another contract applies the function that is named for both. -/
theorem Receives.external_of_contract {receiver : Expr} {method function contract : String}
    {m : Routine} {before : List Yul.Expr} (h : Receives x receiver method m function before)
    (hcontract : x.receiverContract? receiver = some contract) :
    function = callFunction contract m.name ∧
      ∃ other, x.lookup contract = some other ∧ other.method? method = some m := by
  cases h with
  | own => cases hcontract
  | external hother hm =>
    cases hcontract
    exact ⟨rfl, _, hother, hm⟩
  | stored hv htype hother hm =>
    rw [Context.receiverContract?, hv, Option.map_some, htype] at hcontract
    cases hcontract
    exact ⟨rfl, _, hother, hm⟩

/-- **What the calls of other contracts in a piece of code reach.** The code of a call applies the
function that is named for its target. There is one function of that name, and it calls the first
target of the bodies that has it. Targets share a name exactly if one reaches into the other; where
none does, each target has a function of its own. -/
structure CallsDenote (x : Context) (bodies : List Stmt) (code : Yul.Code) : Prop where
  applied : ∀ pos method receiver args contract y,
    .call pos method receiver args ∈ Stmt.expressionsOf bodies →
    x.receiverContract? receiver = some contract →
    x.expr (.call pos method receiver args) = .ok y →
      ∃ m ys, (contract, m) ∈ targets x bodies ∧ m.name = method ∧
        y = .call (targetName (contract, m)) ys
  function : ∀ t ∈ targets x bodies, ∃ first number,
    (targets x bodies).find? (targetName · = targetName t) = some first ∧
      code.functions.filter (·.name = targetName t) = [callDefinition first.1 first.2 number]
  names : ∀ t ∈ targets x bodies, ∀ u ∈ targets x bodies,
    targetName t = targetName u ↔ t = u ∨ Overlaps t u ∨ Overlaps u t
  own : (∀ t ∈ targets x bodies, ∀ u ∈ targets x bodies, ¬ Overlaps t u) →
    ∀ t ∈ targets x bodies, ∃ number,
      code.functions.filter (·.name = targetName t) = [callDefinition t.1 t.2 number]

theorem sections_callsDenote (hentry : entry.items.filterMap Yul.Item.function? = [])
    (hbodies : AreBodies functions) :
    CallsDenote x bodies (x.sections mark entry functions bodies number).code where
  applied pos method receiver args contract y hcall hcontract hcode := by
    cases codes_of_expr hcode with
    | call hreceiver _ _ _ =>
      obtain ⟨rfl, other, hother, hm⟩ := hreceiver.external_of_contract hcontract
      have htarget := mem_targets.2
        ⟨pos, method, receiver, args, hcall, hcontract, other, hother, hm⟩
      exact ⟨_, _, htarget, (of_method?_eq_some hm).2, rfl⟩
  function _ := filter_targetName hentry hbodies
  names _ ht _ hu := targetName_eq_iff_of_mem ht hu
  own hapart t ht := by
    -- the first target of the name overlaps with none, so it is this one
    obtain ⟨first, n, hfirst, hfilter⟩ := filter_targetName (x := x) hentry hbodies ht
    have hmem := List.mem_of_find?_eq_some hfirst
    have hname : targetName first = targetName t := by simpa using List.find?_some hfirst
    rcases (targetName_eq_iff_of_mem hmem ht).1 hname with rfl | hoverlaps | hoverlaps
    · exact ⟨n, hfilter⟩
    · exact absurd hoverlaps (hapart _ hmem _ ht)
    · exact absurd hoverlaps (hapart _ ht _ hmem)

end Calls

/-! ## References -/

/-- **What the references in one code of an object denote.** Each is to an object that the code
finds under that name: to the object itself, to the object with the code that stays, or to one that
is deployed. The function that deploys a contract refers to its object, which was generated for it.
Deployed objects have different names; all names that the code finds are different exactly if none
of these is the name of the object with the code that stays. -/
structure ReferencesDenote (r : Registry) (object : Yul.Object) (creation : Bool) : Prop where
  found : ∀ name ∈ (object.code creation).references, name ∈ object.names creation
  deployed : ∀ f ∈ (object.code creation).functions, ∀ name ∈ f.references,
    f.name = deployFunction name ∧ name ∈ (object.children creation).map Yul.Object.name
  children : ∀ child ∈ object.children creation,
    ∃ d, r.get? child.name = some d ∧ Generated r d child
  childNames : ((object.children creation).map Yul.Object.name).Nodup
  names : (object.names creation).Nodup ↔
    Yul.Object.runtimeName object.name ∉ (object.children creation).map Yul.Object.name

/-- The bodies that a piece of code has code for. -/
def codedBodies (x : Context) : List Stmt :=
  if x.creation then creationBodies x else x.contract.methods.flatMap Routine.body

theorem runtimeName_ne (contract : String) : contract ≠ Yul.Object.runtimeName contract := by
  intro h
  have hlength := congrArg (fun name => name.toList.length) h
  simp [Yul.Object.runtimeName] at hlength

section Objects

variable {r : Registry} {c : Contract} {object : Yul.Object} {layout : Storage.Layout}
  {created staying : Piece}

/-- Both pieces of a contract are put together alike. -/
theorem Accepted.denotes (h : Accepted r c layout created staying) (creation : Bool) :
    CallsDenote ⟨r, c, layout, creation⟩ (codedBodies ⟨r, c, layout, creation⟩)
        (cond creation created staying).code ∧
      (cond creation created staying).deploys.Nodup ∧
      Refers (cond creation [c.name, Yul.Object.runtimeName c.name] [])
        (cond creation created staying) := by
  cases creation with
  | true =>
    refine ⟨?_, ?_, creationPiece_refers h.creation⟩
    all_goals obtain ⟨_, _, _, -, hconstructor, hcodes, rfl⟩ := creationPiece_eq_ok h.creation
    · exact sections_callsDenote rfl (areBodies_creation hconstructor hcodes)
    · exact nodup_deployed _ _
  | false =>
    refine ⟨?_, ?_, runtimePiece_refers h.runtime⟩
    all_goals obtain ⟨_, hcodes, rfl⟩ := runtimePiece_eq_ok h.runtime
    · exact sections_callsDenote (dispatcher_functions _) (areBodies_methods hcodes)
    · exact nodup_deployed _ _

/-- The names that code finds are different unless a deployed contract takes one. -/
theorem nodup_names_iff {creation : Bool}
    (hchildren : ((object.children creation).map Yul.Object.name).Nodup)
    (hown : object.name ∉ (object.children creation).map Yul.Object.name) :
    (object.names creation).Nodup ↔
      Yul.Object.runtimeName object.name ∉ (object.children creation).map Yul.Object.name := by
  have hne := runtimeName_ne object.name
  cases creation with
  | true => simp [Yul.Object.names, hchildren, hown, hne]
  | false => simp [Yul.Object.names, hchildren]

theorem Generated.references (hc : r.get? c.name = some c) (h : Generated r c object)
    (creation : Bool) : ReferencesDenote r object creation := by
  obtain ⟨layout, created, staying, haccepted, hcodes⟩ := h.accepted
  obtain ⟨hcode, heach⟩ := hcodes creation
  obtain ⟨-, hdeploys, hrefers⟩ := haccepted.denotes creation
  rw [← heach.names_eq] at hdeploys
  have hown := h.name_not_mem_children hc creation
  rw [← h.name_eq] at hown hrefers
  refine ⟨fun name hname => ?_, fun f hf name hname => ?_, fun child hchild => ?_, hdeploys,
    nodup_names_iff hdeploys hown⟩
  -- the code that stays does not refer to its own object
  · rw [hcode] at hname
    have hfound := hrefers.code name hname
    rw [← heach.names_eq] at hfound
    cases creation with
    | true => exact hfound
    | false => exact List.mem_cons_of_mem _ hfound
  · rw [hcode] at hf
    rw [heach.names_eq]
    exact hrefers.functions f hf name hname
  · exact heach.exists_of_mem hchild

/-- **What generated names denote.** Whatever a build has generated before: if an object is
generated for a contract, then in each of the two codes of every object within it

* the code of a call of another contract applies a function named for the contract and the method;
  there is exactly one function of that name, and it calls the first target in the code that has the
  name; so a call reaches its own target unless an earlier target shares the name, which is so
  exactly if one reaches into the other;
* every reference to an object is to one that the code finds under its name, and what deploys a
  contract refers to the object that was generated for that contract; all these names are different,
  unless a contract is deployed whose name is that of the object with the code that stays. -/
theorem emitted_names_denote {store : Store} (hstore : Grown r store)
    (hc : r.get? c.name = some c) (h : (emit r store c).1 = .ok object) {inner : Yul.Object}
    (hin : inner.Within object) :
    ∃ d layout, r.get? inner.name = some d ∧ Storage.plan d = .ok layout ∧ ∀ creation,
      CallsDenote ⟨r, d, layout, creation⟩ (codedBodies ⟨r, d, layout, creation⟩)
          (inner.code creation) ∧
        ReferencesDenote r inner creation := by
  obtain ⟨d, hd, hgenerated⟩ := (hstore.generated hc h).within hc hin
  obtain ⟨layout, created, staying, haccepted, hcodes⟩ := hgenerated.accepted
  refine ⟨d, layout, hd, haccepted.plan, fun creation => ⟨?_, ?_⟩⟩
  · rw [(hcodes creation).1]
    exact (haccepted.denotes creation).1
  · exact hgenerated.references (hgenerated.name_eq ▸ hd) creation

end Objects

/-! ## Two targets of one name -/

/-- A method `b_c(): number`. -/
def joined : Routine where
  name := "b_c"
  returns := .number
  body := [.exit {} (some (.literal {} .number "1"))]

/-- A method `c(): number`. -/
def single : Routine where
  name := "c"
  returns := .number
  body := [.exit {} (some (.literal {} .number "2"))]

/-- A contract with a method whose body is `return A.at(p).b_c() + A_b.at(q).c();`. -/
def caller : Contract where
  name := "C"
  methods :=
    [{ name := "f", returns := .number, visibility := .hidden
       params := [⟨"p", .address none⟩, ⟨"q", .address none⟩]
       body :=
        [.exit {} (some (.binary {} .add
          (.call {} "b_c" (.external {} "A" (.var {} "p")) [])
          (.call {} "c" (.external {} "A_b" (.var {} "q")) [])))] }]

/-- The contracts `A` with `b_c`, `A_b` with `c`, and one that calls both. -/
def clash : Registry where
  contracts :=
    [{ name := "A", methods := [joined] }, { name := "A_b", methods := [single] }, caller]

/-- One target reaches into the other, and the function for both calls `b_c` of `A`. -/
theorem emitted_names_denote_clash :
    ∃ object number, (emit clash [] caller).1 = .ok object ∧
      Overlaps ("A", joined) ("A_b", single) ∧
      (object.code false).functions.filter (·.name = targetName ("A_b", single)) =
        [callDefinition "A" joined number] := by
  have hdeploys : deploys? clash caller = some ([], []) := by
    decide +kernel
  obtain ⟨object, -, -, hobject⟩ := build_of_deploys ["C"] [] hdeploys buildAll_nil buildAll_nil
  have hemit : (emit clash [] caller).1 = .ok object := congrArg Prod.fst hobject
  obtain ⟨d, layout, hd, -, hdenote⟩ := emitted_names_denote .empty rfl hemit .self
  have hname : object.name = "C" := (Grown.empty.generated rfl hemit).name_eq
  rw [hname] at hd
  obtain rfl : caller = d := Option.some.inj hd
  have htargets : targets ⟨clash, caller, layout, false⟩
      (codedBodies ⟨clash, caller, layout, false⟩) = [("A", joined), ("A_b", single)] := rfl
  have hfunction := (hdenote false).1.function ("A_b", single)
  rw [htargets] at hfunction
  obtain ⟨first, number, hfirst, hfilter⟩ :=
    hfunction (List.mem_cons_of_mem _ List.mem_cons_self)
  obtain rfl : ("A", joined) = first := Option.some.inj hfirst
  exact ⟨object, number, hemit, ⟨"b", rfl, rfl⟩, hfilter⟩

end Emit

end Covenant
