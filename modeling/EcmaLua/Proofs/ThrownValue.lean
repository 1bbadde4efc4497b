import EcmaLua.Proofs.Execution.Attempt

/-!
# Thrown values

A `throw` wraps its value in a table, and the code in front of a handler takes it out again: the
field of the table, or else the table. So a value arrives unless it counts as false.
-/

namespace EcmaLua

open Emission

namespace Protection

variable {H : Host}

/-- The code that throws the value of an expression. -/
def throwing (e : Lua.Expr) : List Lua.Stat :=
  [.call (.call (.name "error") [.table [.keyed (.string "data") e]])]

/-- The memory with a value wrapped for a throw. -/
def Memory.wrapping {W : Type} (μ : Memory W) (v : Value) : Memory W :=
  { μ with tables := μ.tables ++ [fun key => if key = .string "data" then v else .nil] }

theorem execList_throwing {env : Env} {e : Lua.Expr} {m m' : Machine H} {results : List Value}
    (h : eval env e m = (.ok results, m')) :
    execList env (throwing e) m = (.error (.table m'.memory.tables.length),
      { m' with memory := m'.memory.wrapping (first results) }) := by
  rw [throwing, execList_call]
  simp only [eval, evalArgs, pure_bind, bind_assoc, first_cons]
  rw [Run.bind_apply, h]
  rfl

/-- A handler is called with the field of the value that was raised, or with the value itself. -/
theorem makes_handler {v data h : Value} (f : Option Value) {m : Machine H}
    (hfield : fieldOf v (.string "data") m = (.ok data, m)) :
    ∃ y rest r, Makes (recover v f (some h)) m
      (⟨h, [if data.truth then data else v], y⟩ :: rest) r := by
  have hfinish (results : List Value) (m' : Machine H) :
      ∃ calls r, Makes (finish f >>= fun _ => pure (some (first results))) m' calls r := by
    cases f with
    | none => exact ⟨[], .ok (some (first results)), rfl, (List.append_nil _).symm, rfl⟩
    | some F =>
      obtain ⟨e, he⟩ := makes_finish F (k := pure (some (first results))) m' fun _ => rfl
      exact ⟨_, _, he⟩
  obtain ⟨calls, r, hmakes, y, rest, rfl⟩ := Makes.bind_call (m := m)
    (fun calls _ => ∃ y rest, calls = ⟨h, [if data.truth then data else v], y⟩ :: rest) h
    [if data.truth then data else v] (fun w => ⟨.raises w, [], rfl⟩) (fun y _ results _ m' => by
      obtain ⟨calls, r, hk⟩ := hfinish results m'
      exact ⟨calls, r, hk, y, calls, rfl⟩)
  exact ⟨y, rest, r, .bind_ok hfield (List.append_nil _).symm rfl hmakes⟩

theorem fieldOf_wrapping (μ : Memory H.World) (v : Value) {m : Machine H}
    (hm : m.memory = μ.wrapping v) :
    fieldOf (.table μ.tables.length) (.string "data") m = (.ok v, m) := by
  have hget : m.memory.tables[μ.tables.length]? =
      some fun key => if key = .string "data" then v else .nil := by
    rw [hm, Memory.wrapping]
    simp
  simp [fieldOf, hget]

theorem Value.truth_iff (v : Value) : v.truth = true ↔ v ≠ .nil ∧ v ≠ .bool false := by
  cases v with
  | bool b => cases b <;> simp
  | _ => simp [Value.truth]

/-- The protocol when the body has thrown a value. -/
theorem trying_of_thrown (b : List Lua.Stat) (f : Option (List Lua.Stat))
    (c : List String × List Lua.Stat) {m : Machine H} {μ : Memory H.World} {v : Value}
    (hcall : H.call (.closure m.closures.length) [] m.memory =
      (.raises (.table μ.tables.length), μ.wrapping v)) :
    ∃ n y rest, (trying b f (some c) m).2.closures[n]? = some c ∧
      (trying b f (some c) m).2.log =
        m.log ++ ⟨.closure m.closures.length, [], .raises (.table μ.tables.length)⟩ ::
          ⟨.closure n, [if v.truth then v else .table μ.tables.length], y⟩ :: rest := by
  let n := m.closures.length + 1 + (f.map fun _ => ()).toList.length
  let start := m.poised b ((f.map fun code => ([], code)).toList ++ [c])
  have hmemory : start.memory = μ.wrapping v := congrArg Prod.snd hcall
  have hlog : start.log =
      m.log ++ [⟨.closure m.closures.length, [], .raises (.table μ.tables.length)⟩] := by
    have hexit := congrArg Prod.fst hcall
    simp only [start, Machine.poised, hexit]
  have hclosure : start.closures[n]? = some c := by
    have hn : n = (m.closures ++ ([], b) :: (f.map fun code => ([], code)).toList).length := by
      cases f <;> simp [n]
    have hstart : start.closures =
        (m.closures ++ ([], b) :: (f.map fun code => ([], code)).toList) ++ [c] := by
      simp [start, Machine.poised]
    rw [hstart, hn, List.getElem?_concat_length]
  obtain ⟨y, rest, r, -, hcalls, hclosures⟩ := makes_handler (h := .closure n)
    (f.map fun _ => .closure (m.closures.length + 1)) (fieldOf_wrapping μ v hmemory)
  have hrun : trying b f (some c) m = recover (.table μ.tables.length)
      (f.map fun _ => .closure (m.closures.length + 1)) (some (.closure n)) start := by
    rw [trying_apply, hcall]
    rfl
  refine ⟨n, y, rest, ?_, ?_⟩
  · rw [hrun, hclosures, hclosure]
  · rw [hrun, hcalls, hlog, List.append_assoc]
    rfl

end Protection

open Protection

theorem Stmt.emit_throwStmt (arg : Expr) (place : Place) (s : State) :
    ∃ e, Yields arg.emit.value e ∧
      ((Stmt.throwStmt arg).emit place s).1 = nested place.labels (throwing e) := by
  have hthrown : Always (fun code => ∃ e, Yields arg.emit.value e ∧ code = throwing e)
      (thrown arg.emit.value) :=
    (always_yields _).bind fun e he => .pure ⟨e, he, rfl⟩
  obtain ⟨⟨e, he, hcode⟩, -⟩ := hthrown.labeled place.labels s trivial
  refine ⟨e, he, ?_⟩
  rw [Stmt.emit]
  exact congrArg (nested place.labels) hcode

/-- A `throw` whose value is `v` raises a table around `v`. A `try` statement with a `catch` clause
whose body ends with this calls its handler, and the handler gets `v` if and only if `v` is neither
nil nor false; else it gets the table. -/
theorem Stmt.handler_receives (H : Host) (arg : Expr) (place₀ : Place) (s₀ : State) :
    ∃ e, Yields arg.emit.value e ∧ ∀ (env₀ : Env) (m₀ m₁ : Machine H) (results : List Value),
      eval env₀ e m₀ = (.ok results, m₁) →
      let v := first results
      let t := Value.table m₁.memory.tables.length
      execList env₀ ((Stmt.throwStmt arg).emit place₀ s₀).1 m₀ =
          (.error t, { m₁ with memory := m₁.memory.wrapping v }) ∧
        ∀ (block : List Stmt) (clause : CatchClause) (clauses : List CatchClause)
          (final : Option (List Stmt)) (span : Span) (place : Place) (s : State) (env : Env)
          (m : Machine H),
          H.call (.closure m.closures.length) [] m.memory = (.raises t, m₁.memory.wrapping v) →
          let code := ((Stmt.tryStmt block (clause :: clauses) final span).emit place s).1
          let run := execList env code m
          ∃ c n a y rest, Yields (handlerCode clause.param (Stmt.emitList clause.body)) c ∧
            run.2.closures[n]? = some c ∧
            run.2.log = m.log ++ ⟨.closure m.closures.length, [], .raises t⟩ ::
              ⟨.closure n, [a], y⟩ :: rest ∧
            (a = v ↔ v ≠ .nil ∧ v ≠ .bool false) ∧ (a ≠ v → a = t) := by
  obtain ⟨e, he, hcode⟩ := Stmt.emit_throwStmt arg place₀ s₀
  refine ⟨e, he, fun env₀ m₀ m₁ results heval => ?_⟩
  rw [hcode, execList_nested, execList_throwing heval]
  refine ⟨rfl, ?_⟩
  rintro block ⟨param, body⟩ clauses final span place s env m hcall code run
  obtain ⟨b, f, c, -, -, ⟨s', hc⟩, hrun⟩ :=
    Stmt.execList_tryStmt H block (⟨param, body⟩ :: clauses) final span place s env
  obtain rfl : some (handlerCode param (Stmt.emitList body) s').1 = c := hc
  have heq : run = trying b f _ m := congrFun hrun m
  obtain ⟨n, y, rest, hclosure, hlog⟩ := trying_of_thrown b f _ hcall
  refine ⟨_, n, _, y, rest, ⟨s', rfl⟩, heq ▸ hclosure, heq ▸ hlog, ?_, ?_⟩
  · rw [← Value.truth_iff]
    by_cases htruth : (first results).truth
    · simp [htruth]
    · refine iff_of_false (fun heq => ?_) htruth
      rw [if_neg htruth] at heq
      exact htruth (heq ▸ rfl)
  · intro hne
    by_cases htruth : (first results).truth
    · exact absurd (if_pos htruth) hne
    · exact if_neg htruth

/-- The host in which the first closure that is made throws a value. -/
def Protection.throwsFirst (v : Value) : Host :=
  { scripted [] with
    call := fun f _ μ =>
      if f = .closure 0 then (.raises (.table μ.tables.length), μ.wrapping v)
      else (.completes, μ) }

/-- A run starts without tables and closures. -/
def Protection.start (v : Value) : Machine (throwsFirst v) := { memory := ⟨[], ()⟩ }

/-- `try { throw l; } catch (e) { f(e); }` -/
def catching (l : Literal) : Stmt :=
  .tryStmt [.throwStmt (.lit l)] [⟨some "e", [.exprStmt (.call (.ident "f") [.ident "e"])]⟩] none
    .nowhere

/-- A thrown string arrives. -/
theorem catching_string :
    ∃ n a y rest, (execList [] ((catching (.string "no")).emit (.statement []) {}).1
        (start (.string "no"))).2.log =
      ⟨.closure 0, [], .raises (.table 0)⟩ :: ⟨.closure n, [a], y⟩ :: rest ∧
      a = .string "no" := by
  obtain ⟨e, ⟨s, he⟩, hthrow⟩ := Stmt.handler_receives (throwsFirst (.string "no"))
    (.lit (.string "no")) (.statement []) {}
  obtain rfl : .string "no" = e := by
    rw [← he, Expr.emit]
    rfl
  have heval : eval [] (.string "no") (start (.string "no")) =
      (.ok [.string "no"], start (.string "no")) := by
    rw [eval]
    rfl
  have hcatch := (hthrow [] _ _ _ heval).2
    [.throwStmt (.lit (.string "no"))] ⟨some "e", [.exprStmt (.call (.ident "f") [.ident "e"])]⟩ []
    none .nowhere (.statement []) {} [] (start (.string "no")) (by simp [throwsFirst, start])
  obtain ⟨c, n, a, y, rest, -, -, hlog, harrives, -⟩ := hcatch
  refine ⟨n, a, y, rest, ?_, harrives.mpr ⟨by simp, by simp⟩⟩
  rw [catching, hlog]
  rfl

/-- A thrown `false` does not arrive: the handler gets the table around it. -/
theorem catching_false :
    execList [] ((Stmt.throwStmt (.lit (.bool false))).emit (.statement []) {}).1
        (start (.bool false)) =
      (.error (.table 0), { memory := (⟨[], ()⟩ : Memory Unit).wrapping (.bool false) }) ∧
    (execList [] ((catching (.bool false)).emit (.statement []) {}).1
        (start (.bool false))).2.log =
      [⟨.closure 0, [], .raises (.table 0)⟩, ⟨.closure 1, [.table 0], .completes⟩] := by
  constructor
  · obtain ⟨e, ⟨s, he⟩, hcode⟩ := Stmt.emit_throwStmt (.lit (.bool false)) (.statement []) {}
    obtain rfl : .bool false = e := by
      rw [← he, Expr.emit]
      rfl
    have heval : eval [] (.bool false) (start (.bool false)) =
        (.ok [.bool false], start (.bool false)) := by
      rw [eval]
      rfl
    rw [hcode, execList_nested, execList_throwing heval]
    rfl
  · obtain ⟨b, f, c, -, ⟨s, hf⟩, ⟨s', hc⟩, hrun⟩ := Stmt.execList_tryStmt
      (throwsFirst (.bool false)) [.throwStmt (.lit (.bool false))]
      [⟨some "e", [.exprStmt (.call (.ident "f") [.ident "e"])]⟩] none .nowhere (.statement []) {}
      []
    obtain rfl : none = f := hf
    obtain rfl : some _ = c := hc
    rw [catching, hrun]
    rfl

end EcmaLua
