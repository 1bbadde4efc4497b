import EcmaLua.Diagnostic.Finding
import EcmaLua.Proofs.Program.Shape

/-!
# Nodes of a program

The nodes that something is asked of or that are reported with a place, at any depth: assignments,
updates, declared functions, loops over keys, jumps, `try` and `with` statements, and what is
outside the subset. Hoisting keeps each of them once. The only ones that it makes are assignments,
and these come from the initializers of variables.
-/

namespace EcmaLua

open scoped List

/-- A node that something is asked of. -/
inductive Node where
  | assign (op : Option BinaryOp) (target value : Expr)
  | update (op : UpdateOp) (leading : Bool) (arg : Expr)
  /-- a variable that is declared with a value -/
  | initializer (name : String) (value : Expr)
  /-- a function declaration -/
  | function (f : Func)
  | forIn (head : ForInHead)
  /-- a `try` statement with its number of `catch` clauses -/
  | attempt (clauses : Nat) (span : Span)
  | breaks (span : Span)
  | continues (span : Span)
  | withScope (span : Span)
  | unsupported (node : Unsupported)

namespace Node

/-- The place that is reported with the node. -/
def span? : Node → Option Span
  | .assign .. | .update .. | .initializer .. | .function _ | .forIn _ => none
  | .attempt _ span | .breaks span | .continues span | .withScope span => some span
  | .unsupported node => some node.span

/-- What hoisting makes of the node. -/
def hoist : Node → Node
  | .assign op target value => .assign op target.hoist value.hoist
  | .update op leading arg => .update op leading arg.hoist
  | .initializer name value => .assign none (.ident name) value.hoist
  | .function f => .function f.hoist
  | .forIn head => .forIn head.residue
  | .attempt clauses span => .attempt clauses span
  | .breaks span => .breaks span
  | .continues span => .continues span
  | .withScope span => .withScope span
  | .unsupported node => .unsupported node

theorem span?_hoist (n : Node) : n.hoist.span? = n.span? := by
  cases n <;> rfl

/-- Only allowed findings can come from the node. -/
def Admits (allowed : Finding → Prop) : Node → Prop
  | .assign .. | .update .. | .initializer .. | .forIn _ => True
  | .function f => f.name = none → allowed .namelessFunction
  | .attempt clauses span => 1 < clauses → allowed (.manyCatches clauses span)
  | .breaks span => allowed (.blockedBreak span) ∧ allowed (.strayBreak span)
  | .continues span => allowed (.blockedContinue span) ∧ allowed (.strayContinue span)
  | .withScope span => ∀ names, allowed (.withScope names span)
  | .unsupported node => allowed (.unsupported node)

/-- Hoisting a node brings no new findings. -/
theorem Admits.hoist {allowed : Finding → Prop} {n : Node} (h : n.Admits allowed) :
    n.hoist.Admits allowed := by
  cases n with
  | initializer name value => trivial
  | function f => exact fun hnone => h (f.name_hoist.symm.trans hnone)
  | _ => exact h

end Node

mutual

/-- The nodes of an expression, at any depth. -/
def Expr.nodes : Expr → List Node
  | .ident _ | .this | .lit _ => []
  | .array items => Expr.nodesItems items
  | .object props => Property.nodes props
  | .func f => f.nodes
  | .unary _ arg => arg.nodes
  | .update op leading arg => .update op leading arg :: arg.nodes
  | .binary _ left right => left.nodes ++ right.nodes
  | .logical _ left right => left.nodes ++ right.nodes
  | .assign op target value => .assign op target value :: (target.nodes ++ value.nodes)
  | .cond test cons alt => test.nodes ++ cons.nodes ++ alt.nodes
  | .call callee args => callee.nodes ++ Expr.nodesList args
  | .new callee args => callee.nodes ++ Expr.nodesList args
  | .member object _ => object.nodes
  | .index object key => object.nodes ++ key.nodes
  | .seq items => Expr.nodesList items
  | .unsupported node => [.unsupported node]

def Expr.nodesList : List Expr → List Node
  | [] => []
  | e :: rest => e.nodes ++ Expr.nodesList rest

def Expr.nodesOpt : Option Expr → List Node
  | none => []
  | some e => e.nodes

def Expr.nodesItems : List (Option Expr) → List Node
  | [] => []
  | item :: rest => Expr.nodesOpt item ++ Expr.nodesItems rest

def Property.nodes : List Property → List Node
  | [] => []
  | .named _ value :: rest => value.nodes ++ Property.nodes rest
  | .computed key value :: rest => key.nodes ++ value.nodes ++ Property.nodes rest

/-- The nodes of a function's body. -/
def Func.nodes : Func → List Node
  | ⟨_, _, body⟩ => Stmt.nodesList body

def Declarator.nodes : List Declarator → List Node
  | [] => []
  | ⟨_, none⟩ :: rest => Declarator.nodes rest
  | ⟨name, some init⟩ :: rest =>
    .initializer name init :: (init.nodes ++ Declarator.nodes rest)

def ForInit.nodes : ForInit → List Node
  | .none => []
  | .vars _ decls => Declarator.nodes decls
  | .expr e => e.nodes

def ForInHead.nodes : ForInHead → List Node
  | .var _ _ => []
  | .target e => e.nodes

/-- The nodes of a statement, at any depth. -/
def Stmt.nodes : Stmt → List Node
  | .empty => []
  | .exprStmt e => e.nodes
  | .varStmt _ decls => Declarator.nodes decls
  | .funcStmt f => .function f :: f.nodes
  | .returnStmt arg => Expr.nodesOpt arg
  | .throwStmt arg => arg.nodes
  | .breakStmt _ span => [.breaks span]
  | .continueStmt _ span => [.continues span]
  | .ifStmt test cons alt => test.nodes ++ cons.nodes ++ Stmt.nodesOpt alt
  | .whileStmt test body => test.nodes ++ body.nodes
  | .doWhileStmt body test => body.nodes ++ test.nodes
  | .forStmt init test update body =>
    init.nodes ++ Expr.nodesOpt test ++ Expr.nodesOpt update ++ body.nodes
  | .forInStmt head object body => .forIn head :: (head.nodes ++ object.nodes ++ body.nodes)
  | .switchStmt discriminant cases => discriminant.nodes ++ SwitchCase.nodes cases
  | .tryStmt block handlers finalizer span =>
    .attempt handlers.length span ::
      (Stmt.nodesList block ++ CatchClause.nodes handlers ++ Stmt.nodesBlock finalizer)
  | .withStmt object body span => .withScope span :: (object.nodes ++ body.nodes)
  | .labeled _ body => body.nodes
  | .block body => Stmt.nodesList body
  | .unsupported node => [.unsupported node]

def Stmt.nodesList : List Stmt → List Node
  | [] => []
  | s :: rest => s.nodes ++ Stmt.nodesList rest

def Stmt.nodesOpt : Option Stmt → List Node
  | none => []
  | some s => s.nodes

def Stmt.nodesBlock : Option (List Stmt) → List Node
  | none => []
  | some body => Stmt.nodesList body

def SwitchCase.nodes : List SwitchCase → List Node
  | [] => []
  | ⟨test, body⟩ :: rest =>
    Expr.nodesOpt test ++ Stmt.nodesList body ++ SwitchCase.nodes rest

def CatchClause.nodes : List CatchClause → List Node
  | [] => []
  | ⟨_, body⟩ :: rest => Stmt.nodesList body ++ CatchClause.nodes rest

end

/-- The nodes of a program, at any depth. -/
def Program.nodes (p : Program) : List Node := Stmt.nodesList p.body

/-- The places that are reported with nodes of a program. -/
def Program.spans (p : Program) : List Span := p.nodes.filterMap Node.span?

theorem CatchClause.length_residue (clauses : List CatchClause) :
    (CatchClause.residue clauses).length = clauses.length := by
  induction clauses with
  | nil => rfl
  | cons clause rest ih =>
    obtain ⟨param, body⟩ := clause
    exact congrArg (· + 1) ih

namespace Fragment

/-- The node that the fragment itself is. -/
def node : Fragment → List Node
  | .expr (.update op leading arg) => [.update op leading arg]
  | .expr (.assign op target value) => [.assign op target value]
  | .expr (.unsupported node) | .stmt (.unsupported node) => [.unsupported node]
  | .decl ⟨name, some value⟩ => [.initializer name value]
  | .stmt (.funcStmt f) => [.function f]
  | .stmt (.breakStmt _ span) => [.breaks span]
  | .stmt (.continueStmt _ span) => [.continues span]
  | .stmt (.forInStmt target _ _) => [.forIn target]
  | .stmt (.tryStmt _ handlers _ span) => [.attempt handlers.length span]
  | .stmt (.withStmt _ _ span) => [.withScope span]
  | _ => []

def nodes : Fragment → List Node
  | .expr e => e.nodes
  | .prop (.named _ value) => value.nodes
  | .prop (.computed key value) => key.nodes ++ value.nodes
  | .func f => f.nodes
  | .decl ⟨_, none⟩ => []
  | .decl ⟨name, some value⟩ => .initializer name value :: value.nodes
  | .clause c => Stmt.nodesList c.body
  | .case c => Expr.nodesOpt c.test ++ Stmt.nodesList c.body
  | .init i => i.nodes
  | .head i => i.nodes
  | .stmt s => s.nodes

theorem reads_nodes : Reads true node nodes := by
  have hexprs : Expr.nodesList = _ := eq_flatMap rfl fun _ _ => rfl
  have hexpr : Expr.nodesOpt = _ := eq_flatMapOpt (g := Expr.nodes) rfl fun _ => rfl
  have hitems : Expr.nodesItems = _ := eq_flatMap rfl fun _ _ => rfl
  have hprops : Property.nodes = List.flatMap fun p => nodes (.prop p) :=
    eq_flatMap rfl fun p _ => by cases p <;> simp [Property.nodes, nodes]
  have hdecls : Declarator.nodes = List.flatMap fun d => nodes (.decl d) :=
    eq_flatMap rfl fun d _ => by obtain ⟨name, _ | e⟩ := d <;> simp [Declarator.nodes, nodes]
  have hstmts : Stmt.nodesList = _ := eq_flatMap rfl fun _ _ => rfl
  have hstmt : Stmt.nodesOpt = _ := eq_flatMapOpt (g := Stmt.nodes) rfl fun _ => rfl
  have hblock : Stmt.nodesBlock = _ := eq_flatMapOpt (g := Stmt.nodesList) rfl fun _ => rfl
  have hcases : SwitchCase.nodes = List.flatMap fun c => nodes (.case c) :=
    eq_flatMap rfl fun c _ => by cases c; rfl
  have hclauses : CatchClause.nodes = List.flatMap fun c => nodes (.clause c) :=
    eq_flatMap rfl fun c _ => by cases c; rfl
  intro p
  rcases p with x | x | x | x | x | x | x | x | x <;> cases x
  case decl.mk name value => cases value <;> simp [nodes, node, parts]
  all_goals
    simp [*, nodes, node, parts, Expr.nodes, Func.nodes, ForInit.nodes, ForInHead.nodes,
      Stmt.nodes, List.flatMap_assoc, List.flatMap_map]

theorem moves_node :
    Moves (M := Multiset Node) (fun p => p.node) fun p => p.node.map Node.hoist where
  expr e := by cases e <;> rfl
  func _ := rfl
  initializer _ _ := rfl
  head _ _ := rfl
  stmt s r hr hvar := by
    cases s with
    | varStmt kind decls => exact absurd rfl (hvar kind decls)
    | funcStmt f => cases hr
    | tryStmt block handlers finalizer span =>
      cases hr
      simp [node, Node.hoist, CatchClause.length_residue]
    | _ => cases hr; rfl
  funcStmt _ := rfl
  newBlank := by rintro _ ⟨⟩ <;> rfl
  oldBlank := by rintro _ ⟨⟩ <;> rfl

end Fragment

/-- Hoisting keeps the nodes of a program, each of them hoisted, up to order. -/
theorem Program.nodes_hoist (p : Program) : p.hoist.nodes ~ p.nodes.map Node.hoist :=
  Fragment.reads_nodes.perm_hoist Fragment.moves_node ⟨none, [], p.body⟩

theorem Program.forall_mem_nodes_hoist {p : Program} {P : Node → Prop} :
    (∀ n ∈ p.hoist.nodes, P n) ↔ ∀ n ∈ p.nodes, P n.hoist := by
  simp only [p.nodes_hoist.mem_iff, List.forall_mem_map]

/-- Hoisting changes no place. -/
theorem Program.spans_hoist (p : Program) : p.hoist.spans ~ p.spans := by
  have hspans := p.nodes_hoist.filterMap Node.span?
  rwa [List.filterMap_map, funext (f := Node.span? ∘ Node.hoist) Node.span?_hoist] at hspans

/-- Only allowed findings can come from the nodes. -/
def Admitted (allowed : Finding → Prop) (nodes : List Node) : Prop :=
  ∀ n ∈ nodes, n.Admits allowed

namespace Admitted

variable {allowed : Finding → Prop} {n : Node} {l m : List Node}

theorem head (h : Admitted allowed (n :: l)) : n.Admits allowed := h n List.mem_cons_self

theorem tail (h : Admitted allowed (n :: l)) : Admitted allowed l :=
  fun x hx => h x (List.mem_cons_of_mem n hx)

theorem left (h : Admitted allowed (l ++ m)) : Admitted allowed l :=
  fun x hx => h x (List.mem_append_left m hx)

theorem right (h : Admitted allowed (l ++ m)) : Admitted allowed m :=
  fun x hx => h x (List.mem_append_right l hx)

end Admitted

/-- Where every finding is allowed, every node admits them. -/
theorem admitted_all (nodes : List Node) : Admitted (fun _ => True) nodes := by
  intro n _
  cases n <;> simp [Node.Admits]

/-- What the program can have reported comes from its nodes. -/
def Program.Admits (allowed : Finding → Prop) (p : Program) : Prop := Admitted allowed p.nodes

/-- Hoisting a program brings no new findings. -/
theorem Program.Admits.hoist {allowed : Finding → Prop} {p : Program} (h : p.Admits allowed) :
    p.hoist.Admits allowed :=
  Program.forall_mem_nodes_hoist.mpr fun n hn => (h n hn).hoist

end EcmaLua
