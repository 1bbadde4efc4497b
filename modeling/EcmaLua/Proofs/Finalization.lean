import EcmaLua.Proofs.Execution.Attempt

/-!
# Finalizers

Which closures a `try` statement with a finalizer calls, in which order, and what it comes to. The
finalizer is called once, behind everything else, unless a handler does not come to its end: then
it is not called at all.
-/

namespace EcmaLua

open Emission

namespace Protection

variable {H : Host}

/-- The calls that a `try` statement makes, and what it comes to: `B` is its body, `F` its
finalizer. -/
inductive Tried (B F : Value) : Option Value → List Call → Except Value (Option Value) → Prop where
  | completed {h : Option Value} {x e : Exit} (hx : x = .completes ∨ x = .returns .nil) :
      Tried B F h [⟨B, [], x⟩, ⟨F, [], e⟩] (e.after (.ok none))
  | returned {h : Option Value} {v : Value} {e : Exit} (hv : v ≠ .nil) :
      Tried B F h [⟨B, [], .returns v⟩, ⟨F, [], e⟩] (e.after (.ok (some v)))
  | unhandled {v : Value} {e : Exit} :
      Tried B F none [⟨B, [], .raises v⟩, ⟨F, [], e⟩] (e.after (.error v))
  | handled {h v a : Value} {y e : Exit} (hy : ∀ w, y ≠ .raises w) :
      Tried B F (some h) [⟨B, [], .raises v⟩, ⟨h, [a], y⟩, ⟨F, [], e⟩]
        (e.after (.ok (some y.value)))
  | escaped {h v a w : Value} :
      Tried B F (some h) [⟨B, [], .raises v⟩, ⟨h, [a], .raises w⟩] (.error w)
  | unreadable {h v w : Value} : Tried B F (some h) [⟨B, [], .raises v⟩] (.error w)

theorem makes_recover (B F v : Value) (h : Option Value) (m : Machine H) :
    ∃ calls r, Makes (recover v (some F) h) m calls r ∧
      Tried B F h (⟨B, [], .raises v⟩ :: calls) r := by
  cases h with
  | none =>
    obtain ⟨e, he⟩ := makes_finish F (k := throw v) m fun _ => rfl
    exact ⟨_, _, he, .unhandled⟩
  | some h =>
    rw [recover]
    obtain ⟨hlog, hclosures⟩ := fieldOf_frame v (.string "data") m
    rcases hfield : fieldOf v (.string "data") m with ⟨w | data, m₁⟩ <;>
      rw [hfield] at hlog hclosures
    · have hnone : m₁.log = m.log ++ [] := hlog.trans (List.append_nil _).symm
      exact ⟨[], _, .bind_error hfield hnone hclosures, .unreadable⟩
    · have hnone : m₁.log = m.log ++ [] := hlog.trans (List.append_nil _).symm
      obtain ⟨calls, r, hmakes, htried⟩ := Makes.bind_call (m := m₁)
        (fun calls r => Tried B F (some h) (⟨B, [], .raises v⟩ :: calls) r) h
        [if data.truth then data else v] (fun w => .escaped) (fun y hy results hr m' => by
          obtain ⟨e, he⟩ := makes_finish F (k := pure (some (first results))) m' fun _ => rfl
          exact ⟨_, _, he, hr ▸ .handled hy⟩)
      exact ⟨_, _, .bind_ok hfield hnone hclosures hmakes, htried⟩

theorem makes_settle (B F : Value) (h : Option Value) (x : Exit) (m : Machine H) :
    ∃ calls r, Makes (settle (first x.shielded) (first x.shielded.tail) (some F) h) m calls r ∧
      Tried B F h (⟨B, [], x⟩ :: calls) r := by
  cases x with
  | completes =>
    obtain ⟨e, he⟩ := makes_finish F (k := pure none) m fun _ => rfl
    exact ⟨_, _, he, .completed (Or.inl rfl)⟩
  | returns v =>
    by_cases hv : v = .nil
    · subst hv
      obtain ⟨e, he⟩ := makes_finish F (k := pure none) m fun _ => rfl
      exact ⟨_, _, he, .completed (Or.inr rfl)⟩
    · obtain ⟨e, he⟩ := makes_finish F (k := pure (some v)) m fun _ => rfl
      refine ⟨_, _, ?_, .returned (e := e) hv⟩
      simpa [settle, Exit.shielded, hv, first] using he
  | raises v => exact makes_recover B F v h m

/-- The finalizer was called once, when all other calls had ended. -/
def CalledLast (F : Value) (calls : List Call) : Prop :=
  ∃ before e, calls = before ++ [⟨F, [], e⟩] ∧ ∀ c ∈ before, c.callee ≠ F

/-- There is a handler, and it does not come to its end: it raises something, or what the body
raised cannot even be looked into. -/
def HandlerFails (B : Value) (handler : Option Value) (calls : List Call)
    (result : Except Value (Option Value)) : Prop :=
  ∃ h v w, handler = some h ∧ result = .error w ∧
    (calls = [⟨B, [], .raises v⟩] ∨ ∃ a, calls = [⟨B, [], .raises v⟩, ⟨h, [a], .raises w⟩])

theorem Tried.calledLast_iff {B F : Value} {handler : Option Value} {calls : List Call}
    {result : Except Value (Option Value)} (hB : B ≠ F) (hh : ∀ h ∈ handler, h ≠ F)
    (ht : Tried B F handler calls result) :
    CalledLast F calls ↔ ¬ HandlerFails B handler calls result := by
  -- of two calls with the finalizer last, neither is a failed handler: it has no argument
  have hfinished {x e : Exit} {h : Option Value} {r : Except Value (Option Value)} :
      CalledLast F [⟨B, [], x⟩, ⟨F, [], e⟩] ↔
        ¬ HandlerFails B h [⟨B, [], x⟩, ⟨F, [], e⟩] r := by
    refine iff_of_true ⟨[_], e, rfl, List.forall_mem_singleton.mpr hB⟩ ?_
    rintro ⟨_, _, _, -, -, hcalls | ⟨_, hcalls⟩⟩ <;> simp at hcalls
  cases ht with
  | completed hx => exact hfinished
  | returned hv => exact hfinished
  | unhandled => exact hfinished
  | @handled h v a y e hy =>
    refine iff_of_true ⟨[_, _], e, rfl, ?_⟩ ?_
    · exact List.forall_mem_cons.mpr ⟨hB, List.forall_mem_singleton.mpr (hh h rfl)⟩
    · rintro ⟨_, _, _, -, -, hcalls | ⟨_, hcalls⟩⟩ <;> simp at hcalls
  | escaped =>
    refine iff_of_false ?_ (not_not.mpr ⟨_, _, _, rfl, rfl, Or.inr ⟨_, rfl⟩⟩)
    rintro ⟨before, e, hcalls, -⟩
    have hlast := congrArg List.getLast? hcalls
    simp at hlast
  | unreadable =>
    refine iff_of_false ?_ (not_not.mpr ⟨_, _, _, rfl, rfl, Or.inl rfl⟩)
    rintro ⟨before, e, hcalls, -⟩
    have hlast := congrArg List.getLast? hcalls
    simp [hB] at hlast

end Protection

open Protection

/-- A `try` statement with a finalizer calls its closures in one of the orders of `Tried`, whatever
its parts do. So the finalizer is called once, after the body and the handler have ended and before
the statement is left, if and only if there is no handler that fails; and a value that no handler
stops is raised again as it is. -/
theorem Stmt.finalizer_called_once (H : Host) (block : List Stmt) (handlers : List CatchClause)
    (final : List Stmt) (span : Span) (place : Place) (s : State) (env : Env) (m : Machine H) :
    ∃ b f c, Yields (Stmt.emitList block) b ∧ Yields (Stmt.emitList final) f ∧
      Yields (optional (CatchClause.emitFirst handlers)) c ∧
      let run := execList env ((Stmt.tryStmt block handlers (some final) span).emit place s).1 m
      let body := Value.closure m.closures.length
      let finalizer := Value.closure (m.closures.length + 1)
      let handler := c.map fun _ => Value.closure (m.closures.length + 2)
      run.2.closures = m.closures ++ ([], b) :: ([], f) :: c.toList ∧
      ∃ calls, run.2.log = m.log ++ calls ∧ Tried body finalizer handler calls run.1 ∧
        (CalledLast finalizer calls ↔ ¬ HandlerFails body handler calls run.1) := by
  obtain ⟨b, f, c, hb, ⟨s', hf⟩, hc, hrun⟩ :=
    Stmt.execList_tryStmt H block handlers (some final) span place s env
  obtain rfl : some (Stmt.emitList final s').1 = f := hf
  refine ⟨b, (Stmt.emitList final s').1, c, hb, ⟨s', rfl⟩, hc, ?_⟩
  intro run body finalizer handler
  obtain ⟨calls, r, ⟨rfl, hlog, hclosures⟩, htried⟩ := makes_settle body finalizer handler
    (H.call body [] m.memory).1 (m.poised b (([], (Stmt.emitList final s').1) :: c.toList))
  have heq : run = _ := (congrFun hrun m).trans (trying_apply b _ c m)
  have hbody : body ≠ finalizer := by simp [body, finalizer]
  have hhandler : ∀ h ∈ handler, h ≠ finalizer := by
    intro h hh
    obtain ⟨_, -, rfl⟩ := Option.map_eq_some_iff.mp hh
    simp [finalizer]
  rw [heq]
  refine ⟨hclosures, ⟨body, [], (H.call body [] m.memory).1⟩ :: calls, ?_, htried, ?_⟩
  · exact hlog.trans (List.append_assoc ..)
  · exact htried.calledLast_iff hbody hhandler

/-- `try { f(); } catch (e) { throw e; } finally { g(); }` -/
def rethrowing : Stmt :=
  .tryStmt [.exprStmt (.call (.ident "f") [])] [⟨some "e", [.throwStmt (.ident "e")]⟩]
    (some [.exprStmt (.call (.ident "g") [])]) .nowhere

/-- The handler raises what it has caught, and the finalizer is never called. -/
theorem rethrowing_skips_finalizer :
    let H := scripted [.raises (.string "no"), .completes, .raises (.string "no")]
    let run := execList (H := H) [] (rethrowing.emit (.statement []) {}).1 { memory := ⟨[], ()⟩ }
    run.1 = .error (.string "no") ∧
      run.2.log = [⟨.closure 0, [], .raises (.string "no")⟩,
        ⟨.closure 2, [.string "no"], .raises (.string "no")⟩] ∧
      ¬ CalledLast (.closure 1) run.2.log := by
  intro H run
  obtain ⟨b, f, c, -, ⟨s, hf⟩, ⟨s', hc⟩, hrun⟩ := Stmt.execList_tryStmt H
    [.exprStmt (.call (.ident "f") [])] [⟨some "e", [.throwStmt (.ident "e")]⟩]
    (some [.exprStmt (.call (.ident "g") [])]) .nowhere (.statement []) {} []
  obtain rfl : some _ = f := hf
  obtain rfl : some _ = c := hc
  have heq : run = _ := congrFun hrun _
  have hlog : run.2.log = [⟨.closure 0, [], .raises (.string "no")⟩,
      ⟨.closure 2, [.string "no"], .raises (.string "no")⟩] := by
    rw [heq]
    rfl
  refine ⟨by rw [heq]; rfl, hlog, ?_⟩
  rintro ⟨before, e, hcalls, -⟩
  have hlast := congrArg List.getLast? (hlog.symm.trans hcalls)
  simp at hlast

end EcmaLua
