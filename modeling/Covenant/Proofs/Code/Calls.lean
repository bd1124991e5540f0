import Covenant.Proofs.Code.Pieces

/-!
# What calls yield

In a contract that is accepted, every call goes to a method that exists and takes as many arguments,
and none goes to a method that returns a record. That a method returns nothing is looked at only
where a call is a statement of its own. So a call whose value is used yields exactly one word unless
its method returns nothing, and then it is accepted all the same (`used_calls_yield`).
-/

namespace Covenant

/-- The statements of a contract: those of its constructor and of its methods, at any depth. -/
def Contract.statements (c : Contract) : List Stmt :=
  Stmt.substatementsAll (c.constructorBody ++ c.methods.flatMap Routine.body)

/-- **The expressions of a contract whose values are used**: operands, arguments, indices,
conditions, initial, assigned and returned values, what is logged and what is thrown. -/
def Contract.values (c : Contract) : List Expr :=
  c.statements.flatMap (fun s => s.values.flatMap Expr.subexpressions) ++
    c.stateVars.flatMap fun v => v.initial.toList.flatMap Expr.subexpressions

namespace Emit

variable {r : Registry} {c : Contract} {layout : Storage.Layout} {created staying : Piece}

/-- **A call is answered** by a method that takes as many arguments and returns no record. -/
structure Answered (x : Context) (receiver : Expr) (target : String) (args : List Expr)
    (m : Routine) : Prop where
  callee : x.callee? receiver target = some m
  count : args.length = m.params.length
  returns : isRecord m.returns = false

theorem answered_of_hasCode {x : Context} {pos : Position} {target : String} {receiver : Expr}
    {args : List Expr} (h : HasCode x (.call pos target receiver args)) :
    ∃ m, Answered x receiver target args m := by
  obtain ⟨y, h⟩ := h
  cases h with
  | call hreceiver hcount hreturns => exact ⟨_, hreceiver.callee?_eq, hcount, hreturns⟩

/-- A method that returns no record returns one word or nothing. -/
theorem Answered.length_resultVars {x : Context} {receiver : Expr} {target : String}
    {args : List Expr} {m : Routine} (h : Answered x receiver target args m) :
    (resultVars m.returns).length = if m.returns.isVoid then 0 else 1 := by
  have hreturns := h.returns
  cases hm : m.returns <;> rw [hm] at hreturns <;> first
    | rfl
    | cases hreturns

/-- A call that is a statement of its own leaves a word behind if its method returns one. -/
theorem Answered.leavesWord_eq {x : Context} {pos : Position} {receiver : Expr} {target : String}
    {args : List Expr} {m : Routine} (h : Answered x receiver target args m) :
    x.leavesWord (.call pos target receiver args) = !m.returns.isVoid := by
  have hcallee := h.callee
  cases receiver with
  | this =>
    rw [Context.callee?] at hcallee
    rw [Context.leavesWord, hcallee]
  | _ =>
    simp only [Context.callee?] at hcallee
    simp only [Context.leavesWord, hcallee]

namespace Accepted

/-- Every statement of the constructor and of the methods has code. -/
theorem statements (h : Accepted r c layout created staying) {s : Stmt} (hs : s ∈ c.statements) :
    ∃ creation returns code, CodesStmt ⟨r, c, layout, creation⟩ returns s code := by
  rw [Contract.statements, Stmt.substatementsAll_append, List.mem_append] at hs
  rcases hs with hs | hs
  · cases hk : c.construction with
    | none =>
      rw [Contract.constructorBody, hk] at hs
      cases hs
    | some k =>
      rw [Contract.constructorBody, hk] at hs
      obtain ⟨code, hcode⟩ := h.construction k hk
      obtain ⟨code, hcode⟩ := hcode.substatements s hs
      exact ⟨true, _, code, hcode⟩
  · rw [Stmt.substatementsAll_eq_flatMap, List.flatMap_assoc] at hs
    obtain ⟨m, hm, hs⟩ := List.mem_flatMap.1 hs
    rw [← Stmt.substatementsAll_eq_flatMap] at hs
    obtain ⟨code, hcode⟩ := h.methods m hm
    obtain ⟨code, hcode⟩ := hcode.substatements s hs
    exact ⟨false, _, code, hcode⟩

/-- Every expression whose value is used has code, but for literals that are written into it. -/
theorem values (h : Accepted r c layout created staying) {e : Expr} (he : e ∈ c.values) :
    (∃ creation, HasCode ⟨r, c, layout, creation⟩ e) ∨
      ∃ pos type text, e = .literal pos type text := by
  rcases List.mem_append.1 he with he | he
  · obtain ⟨s, hs, he⟩ := List.mem_flatMap.1 he
    obtain ⟨value, hvalue, he⟩ := List.mem_flatMap.1 he
    obtain ⟨creation, returns, code, hcode⟩ := h.statements hs
    exact .inl ⟨creation, (hcode.values value hvalue).subexpressions he⟩
  · obtain ⟨v, hv, he⟩ := List.mem_flatMap.1 he
    obtain ⟨value, hvalue, he⟩ := List.mem_flatMap.1 he
    rcases h.initials hv (Option.mem_toList.1 hvalue) with hcode | ⟨pos, type, text, rfl⟩
    · exact .inl ⟨true, hcode.subexpressions he⟩
    · exact .inr ⟨pos, type, text, List.mem_singleton.1 he⟩

end Accepted

/-- **A call whose value is used yields one word, or its method returns nothing.** In a contract
that is accepted, every call whose value is used goes to a method that takes as many arguments and
returns no record, so that it yields one word, or none if the method returns nothing. All of them
yield exactly one word if and only if none goes to a method that returns nothing. A call that is a
statement of its own goes to such a method too, and a word is dropped exactly if there is one. -/
theorem used_calls_yield {active : List String} {store : Store} {object : Yul.Object}
    (h : (build r active store c).1 = .ok object) (x : Context) (hregistry : x.registry = r)
    (hcontract : x.contract = c) :
    (∀ pos target receiver args, .call pos target receiver args ∈ c.values →
      ∃ m, Answered x receiver target args m ∧
        (resultVars m.returns).length = if m.returns.isVoid then 0 else 1) ∧
    ((∀ pos target receiver args, .call pos target receiver args ∈ c.values →
        ∃ m, Answered x receiver target args m ∧ (resultVars m.returns).length = 1) ↔
      ∀ pos target receiver args, .call pos target receiver args ∈ c.values →
        ∀ m, x.callee? receiver target = some m → m.returns.isVoid = false) ∧
    ∀ pos callPos target receiver args,
      .evaluate pos (.call callPos target receiver args) ∈ c.statements →
      ∃ m, Answered x receiver target args m ∧
        x.leavesWord (.call callPos target receiver args) = !m.returns.isVoid := by
  obtain ⟨layout, created, staying, -, -, haccepted, -⟩ := accepted_of_build h
  -- which method a call goes to depends on the contract and the registry alone
  have hsame {creation : Bool} {receiver : Expr} {target : String} {args : List Expr} {m : Routine}
      (hm : Answered ⟨r, c, layout, creation⟩ receiver target args m) :
      Answered x receiver target args m := by
    subst hregistry hcontract
    exact ⟨hm.callee, hm.count, hm.returns⟩
  have hused (pos : Position) (target : String) (receiver : Expr) (args : List Expr)
      (hmem : .call pos target receiver args ∈ c.values) :
      ∃ m, Answered x receiver target args m := by
    rcases haccepted.values hmem with ⟨creation, hcode⟩ | ⟨_, _, _, hliteral⟩
    · obtain ⟨m, hm⟩ := answered_of_hasCode hcode
      exact ⟨m, hsame hm⟩
    · cases hliteral
  refine ⟨fun pos target receiver args hmem => ?_, ⟨fun hone pos target receiver args hmem m hm => ?_,
    fun hvoid pos target receiver args hmem => ?_⟩, fun pos callPos target receiver args hmem => ?_⟩
  · obtain ⟨m, hm⟩ := hused pos target receiver args hmem
    exact ⟨m, hm, hm.length_resultVars⟩
  · obtain ⟨m', hm', hlength⟩ := hone pos target receiver args hmem
    obtain rfl : m' = m := Option.some.inj (hm'.callee.symm.trans hm)
    rw [hm'.length_resultVars] at hlength
    cases hvoid : m'.returns.isVoid with
    | false => rfl
    | true => simp [hvoid] at hlength
  · obtain ⟨m, hm⟩ := hused pos target receiver args hmem
    refine ⟨m, hm, ?_⟩
    rw [hm.length_resultVars, hvoid pos target receiver args hmem m hm.callee]
    rfl
  · obtain ⟨creation, returns, code, hcode⟩ := haccepted.statements hmem
    cases hcode with
    | evaluate hvalue =>
      obtain ⟨m, hm⟩ := answered_of_hasCode ⟨_, hvalue⟩
      exact ⟨m, hsame hm, (hsame hm).leavesWord_eq⟩

/-! ## A call of a method that returns nothing -/

/-- A contract with `read(): number { return this.reset(); }` and `reset(): void { this.n = 0; }`,
and with a method that calls both for their effect. All of it is private. -/
def relay : Contract where
  name := "Relay"
  stateVars := [{ name := "n", type := .number, visibility := .hidden }]
  methods :=
    [{ name := "read", returns := .number, visibility := .hidden
       body := [.exit {} (some (.call {} "reset" (.this {}) []))] },
      { name := "reset", returns := .void, visibility := .hidden
        body := [.setProperty {} "n" (.literal {} .number "0")] },
      { name := "both", returns := .void, visibility := .hidden
        body :=
          [.evaluate {} (.call {} "read" (.this {}) []),
            .evaluate {} (.call {} "reset" (.this {}) [])] }]

theorem relay_created :
    ((contextFor { contracts := [relay] } relay).toOption.bind fun x =>
      x.1.creationPiece.toOption.map Piece.deploys) = some [] := by
  decide +kernel

theorem relay_stays :
    ((contextFor { contracts := [relay] } relay).toOption.bind fun x =>
      x.2.runtimePiece.toOption.map Piece.deploys) = some [] := by
  decide +kernel

/-- The call of `reset` stands for the value that `read` returns, and it is accepted. -/
theorem used_calls_yield_relay :
    ∃ object, (build { contracts := [relay] } ["Relay"] [] relay).1 = .ok object ∧
      .call {} "reset" (.this {}) [] ∈ relay.values ∧
      ∃ m, Answered ⟨{ contracts := [relay] }, relay, ⟨[], 0⟩, false⟩ (.this {}) "reset" [] m ∧
        (resultVars m.returns).length = if m.returns.isVoid then 0 else 1 := by
  obtain ⟨x, hx, hcreated⟩ := Option.bind_eq_some_iff.1 relay_created
  obtain ⟨created, hcreated, hdeploys⟩ := Option.map_eq_some_iff.1 hcreated
  obtain ⟨x', hx', hstaying⟩ := Option.bind_eq_some_iff.1 relay_stays
  obtain ⟨staying, hstaying, hdeploys'⟩ := Option.map_eq_some_iff.1 hstaying
  cases hx.symm.trans hx'
  have hbuild := build_of_pieces ["Relay"] [] (toOption_eq_some.1 hx) (toOption_eq_some.1 hcreated)
    (toOption_eq_some.1 hstaying) hdeploys hdeploys'
  have hmem : .call {} "reset" (.this {}) [] ∈ relay.values := List.mem_of_mem_head? (by rfl)
  exact ⟨_, hbuild, hmem, (used_calls_yield hbuild _ rfl rfl).1 _ _ _ _ hmem⟩

end Emit

end Covenant
