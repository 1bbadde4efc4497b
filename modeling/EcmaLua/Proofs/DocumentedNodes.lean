import EcmaLua.Proofs.Surface.Lowering
import EcmaLua.Proofs.Surface.Nodes

/-!
# What is documented about nodes

An assignment, an update and the head of a loop over keys write to an identifier or a member, a
function declaration has a name, and a `try` statement has one `catch` clause at most. The programs
of scripts keep all of this, before and after hoisting, except for the heads of loops: an
expression there is taken as it is, place or not.
-/

namespace EcmaLua

open scoped List

/-- What is documented about a node. -/
def Node.Documented : Node → Prop
  | .assign _ target _ => target.isTarget = true
  | .update _ _ arg => arg.isTarget = true
  | .function f => f.name ≠ none
  | .forIn (.target e) => e.isTarget = true
  | .attempt clauses _ => clauses ≤ 1
  | .forIn (.var _ _) | .initializer _ _ | .breaks _ | .continues _ | .withScope _
  | .unsupported _ => True

theorem Expr.isTarget_hoist (e : Expr) : e.hoist.isTarget = e.isTarget := by
  cases e <;> rfl

/-- Hoisting neither breaks nor mends a node; the assignments that it makes write to a variable. -/
theorem Node.documented_hoist (n : Node) : n.hoist.Documented ↔ n.Documented := by
  cases n with
  | assign op target value => exact Eq.congr_left target.isTarget_hoist
  | update op leading arg => exact Eq.congr_left arg.isTarget_hoist
  | initializer name value => exact iff_of_true rfl trivial
  | function f => exact not_congr (Eq.congr_left f.name_hoist)
  | forIn head =>
    cases head with
    | var kind name => exact iff_of_true rfl trivial
    | target e => exact Eq.congr_left e.isTarget_hoist
  | attempt | breaks | continues | withScope | unsupported => exact Iff.rfl

/-- The assignments of a hoisted program are those of its source, and those of its initializers to
their variables. -/
theorem Program.mem_nodes_hoist_assign {p : Program} {op : Option BinaryOp} {target value : Expr}
    (h : .assign op target value ∈ p.hoist.nodes) :
    (∃ target₀ value₀, .assign op target₀ value₀ ∈ p.nodes ∧ target = target₀.hoist ∧
      value = value₀.hoist) ∨
    ∃ name init, .initializer name init ∈ p.nodes ∧ op = none ∧ target = .ident name ∧
      value = init.hoist := by
  obtain ⟨n, hn, heq⟩ := List.mem_map.mp (p.nodes_hoist.mem_iff.mp h)
  cases n with
  | assign op₀ target₀ value₀ =>
    obtain ⟨rfl, rfl, rfl⟩ := Node.assign.inj heq
    exact Or.inl ⟨target₀, value₀, hn, rfl, rfl⟩
  | initializer name init =>
    obtain ⟨rfl, rfl, rfl⟩ := Node.assign.inj heq
    exact Or.inr ⟨name, init, hn, rfl, rfl, rfl⟩
  | _ => cases heq

namespace Surface

/-- A loop over keys whose head is what the script has there, and the script has no place there. -/
def StrayHead (numbering : Numbering) (script : Script) (n : Node) : Prop :=
  ∃ head findings, .head head ∈ script.parts ∧ head.isCorePlace = false ∧
    n = .forIn (.target (head.toCore numbering findings).1)

theorem Lowered.documented {numbering : Numbering} {script : Script} {n : Node}
    (h : Lowered numbering (· ∈ script.parts) n) :
    n.Documented ∨ StrayHead numbering script n := by
  cases n with
  | forIn head =>
    cases head with
    | var kind name => exact Or.inl trivial
    | target e =>
      obtain ⟨head, findings, hhead, rfl⟩ := h
      have hplace := head.isTarget_toCore numbering findings
      cases hp : head.isCorePlace with
      | true => exact Or.inl (hplace.trans hp)
      | false => exact Or.inr ⟨head, findings, hhead, hp, rfl⟩
  | attempt clauses span => exact Or.inl h.1
  | assign | update | function => exact Or.inl h
  | initializer | breaks | continues | withScope | unsupported => exact Or.inl trivial

/-- An update of what is no place is outside the subset. -/
theorem Expr.toCore_update (numbering : Numbering) (op : UpdateOp) (leading : Bool) {arg : Expr}
    (h : arg.isCorePlace = false) (extent : Extent) (findings : List Finding) :
    ((arg.update op leading extent).toCore numbering findings).1 =
      foreignExpr numbering "UpdateExpression" extent := by
  change updateCore numbering op leading (arg.toCore numbering findings).1 extent = _
  rw [updateCore, Expr.isTarget_toCore, h]
  rfl

/-- An assignment to what is no place is outside the subset. -/
theorem Expr.toCore_assign (numbering : Numbering) {op : AssignOp} {core : Option BinaryOp}
    (hop : op.toCore? = some core) {target : Expr} (h : target.isCorePlace = false) (value : Expr)
    (extent : Extent) (findings : List Finding) :
    ((target.assign op value extent).toCore numbering findings).1 =
      foreignExpr numbering "AssignmentExpression" extent := by
  change (assignCore numbering op (target.toCore numbering) (value.toCore numbering) extent
    findings).1 = _
  rw [assignCore, hop]
  change ((if (target.toCore numbering findings).1.isTarget = true then _ else _ :
    Collect EcmaLua.Expr) _).1 = _
  rw [Expr.isTarget_toCore, h]
  rfl

/-- Every node of a script's program is as documented, unless it is a loop over keys and the script
has no place in its head; hoisting keeps every node and what is documented about it. What an
initializer becomes writes to its variable, and assignments and updates of what is no place are
outside the subset. -/
theorem Script.documented_toProgram (numbering : Numbering) (script : Script) :
    let p := (script.toProgram numbering).1
    (∀ n ∈ p.nodes, n.Documented ∨ StrayHead numbering script n) ∧
      p.hoist.nodes ~ p.nodes.map Node.hoist ∧
      (∀ n ∈ p.hoist.nodes, n.Documented ∨ ∃ m ∈ p.nodes, StrayHead numbering script m ∧
        n = m.hoist) ∧
      (∀ op target value, .assign op target value ∈ p.hoist.nodes →
        (∃ target₀ value₀, .assign op target₀ value₀ ∈ p.nodes ∧ target = target₀.hoist ∧
          value = value₀.hoist) ∨
        ∃ name init, .initializer name init ∈ p.nodes ∧ op = none ∧ target = .ident name ∧
          value = init.hoist) ∧
      (∀ op leading arg extent findings, Expr.isCorePlace arg = false →
        ((Expr.update op leading arg extent).toCore numbering findings).1 =
          foreignExpr numbering "UpdateExpression" extent) ∧
      ∀ op core target value extent findings, AssignOp.toCore? op = some core →
        Expr.isCorePlace target = false →
        ((Expr.assign op target value extent).toCore numbering findings).1 =
          foreignExpr numbering "AssignmentExpression" extent := by
  intro p
  have hsource : ∀ n ∈ p.nodes, n.Documented ∨ StrayHead numbering script n :=
    fun n hn => ((script.lowered_toProgram numbering fun _ hx => hx).1 n hn).documented
  refine ⟨hsource, p.nodes_hoist, Program.forall_mem_nodes_hoist.mpr fun n hn => ?_,
    fun _ _ _ => Program.mem_nodes_hoist_assign, fun op leading arg extent findings h => ?_,
    fun op core target value extent findings hop h => ?_⟩
  · rcases hsource n hn with hdoc | hstray
    · exact Or.inl (n.documented_hoist.mpr hdoc)
    · exact Or.inr ⟨n, hn, hstray, rfl⟩
  · exact Expr.toCore_update numbering op leading h extent findings
  · exact Expr.toCore_assign numbering hop h value extent findings

/-- `for (f() in o);` -/
def callHead : Script where
  body := [.forInStmt (.target (.call (.ident "f") [] ⟨6, 9⟩)) (.ident "o") .empty ⟨1, 16⟩]

/-- The head of a loop over keys stays a call, before and after hoisting. -/
theorem callHead_undocumented :
    let p := (callHead.toProgram ⟨⟨0⟩, 1⟩).1
    let n := Node.forIn (.target (.call (.ident "f") []))
    n ∈ p.nodes ∧ n ∈ p.hoist.nodes ∧ ¬ n.Documented :=
  ⟨List.mem_cons_self, List.mem_cons_self, nofun⟩

end Surface

end EcmaLua
