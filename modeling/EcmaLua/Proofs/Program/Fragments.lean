import Mathlib.Algebra.BigOperators.Group.List.Basic
import Mathlib.Algebra.Order.Group.Multiset
import Mathlib.Tactic.Common
import EcmaLua.Program.Basic

/-!
# Fragments of a program

Expressions, functions, statements and what statements are made of are the fragments of a program.
A fragment has parts, which are fragments again, and is larger than each of them. A reading of a
program lists what it finds at a fragment and then reads its parts in order; what it lists in all
is what there is at the fragments within.
-/

namespace EcmaLua

/-- A part of a program, of any kind. -/
inductive Fragment where
  | expr (e : Expr)
  | prop (p : Property)
  | func (f : Func)
  | decl (d : Declarator)
  | clause (c : CatchClause)
  | case (c : SwitchCase)
  | init (i : ForInit)
  | head (h : ForInHead)
  | stmt (s : Stmt)

namespace Fragment

/-- The fragments that a fragment is made of, in order. -/
def parts : Fragment → List Fragment
  | .expr (.ident _) | .expr .this | .expr (.lit _) | .expr (.unsupported _) => []
  | .expr (.array items) => items.flatMap fun item => item.toList.map .expr
  | .expr (.object props) => props.map .prop
  | .expr (.func f) => [.func f]
  | .expr (.unary _ e) | .expr (.update _ _ e) | .expr (.member e _) => [.expr e]
  | .expr (.binary _ a b) | .expr (.logical _ a b) | .expr (.assign _ a b)
  | .expr (.index a b) => [.expr a, .expr b]
  | .expr (.cond test cons alt) => [.expr test, .expr cons, .expr alt]
  | .expr (.call callee args) | .expr (.new callee args) => .expr callee :: args.map .expr
  | .expr (.seq items) => items.map .expr
  | .prop (.named _ value) => [.expr value]
  | .prop (.computed key value) => [.expr key, .expr value]
  | .func f => f.body.map .stmt
  | .decl d => d.init.toList.map .expr
  | .clause c => c.body.map .stmt
  | .case c => c.test.toList.map .expr ++ c.body.map .stmt
  | .init .none | .head (.var ..) => []
  | .init (.vars _ decls) => decls.map .decl
  | .init (.expr e) | .head (.target e) => [.expr e]
  | .stmt .empty | .stmt (.breakStmt ..) | .stmt (.continueStmt ..) | .stmt (.unsupported _) => []
  | .stmt (.exprStmt e) | .stmt (.throwStmt e) => [.expr e]
  | .stmt (.varStmt _ decls) => decls.map .decl
  | .stmt (.funcStmt f) => [.func f]
  | .stmt (.returnStmt arg) => arg.toList.map .expr
  | .stmt (.ifStmt test cons alt) => .expr test :: .stmt cons :: alt.toList.map .stmt
  | .stmt (.whileStmt test body) => [.expr test, .stmt body]
  | .stmt (.doWhileStmt body test) => [.stmt body, .expr test]
  | .stmt (.forStmt start test update body) =>
    .init start :: (test.toList.map .expr ++ update.toList.map .expr ++ [.stmt body])
  | .stmt (.forInStmt target object body) => [.head target, .expr object, .stmt body]
  | .stmt (.switchStmt discriminant cases) => .expr discriminant :: cases.map .case
  | .stmt (.tryStmt block handlers finalizer _) =>
    block.map .stmt ++ handlers.map .clause ++ finalizer.toList.flatMap (List.map .stmt)
  | .stmt (.withStmt object body _) => [.expr object, .stmt body]
  | .stmt (.labeled _ body) => [.stmt body]
  | .stmt (.block body) => body.map .stmt

theorem sizeOf_lt {p q : Fragment} (h : q ∈ p.parts) : sizeOf q < sizeOf p := by
  have hmem {α : Type} [SizeOf α] {l : List α} {x : α} (hx : x ∈ l) : sizeOf x < sizeOf l :=
    List.sizeOf_lt_of_mem hx
  rcases p with x | x | x | x | x | x | x | x | x <;> cases x <;> simp [parts] at h ⊢ <;> grind

theorem induct {P : Fragment → Prop} (h : ∀ p, (∀ q ∈ p.parts, P q) → P p) (p : Fragment) :
    P p := by
  induction hn : sizeOf p using Nat.strongRecOn generalizing p with
  | ind n ih => exact h p fun q hq => ih _ (hn ▸ sizeOf_lt hq) q rfl

/-- Whether a fragment counts as a part of the fragment around it. -/
def isOpen (functions : Bool) : Fragment → Bool
  | .func _ => functions
  | _ => true

@[simp]
theorem isOpen_true (p : Fragment) : p.isOpen true = true := by
  cases p <;> rfl

/-- The fragment and the fragments in it, at any depth. Functions in it are entered if asked for. -/
def within (functions : Bool) (p : Fragment) : List Fragment :=
  p :: p.parts.attach.flatMap fun q => if q.1.isOpen functions then q.1.within functions else []
termination_by sizeOf p
decreasing_by exact sizeOf_lt q.2

theorem within_eq (functions : Bool) (p : Fragment) : p.within functions =
    p :: p.parts.flatMap fun q => if q.isOpen functions then q.within functions else [] := by
  have hparts (g : Fragment → List Fragment) :
      (p.parts.attach.flatMap fun q => g q.1) = p.parts.flatMap g := by
    rw [← List.flatMap_map, List.attach_map_subtype_val]
  rw [within, hparts fun q => if q.isOpen functions then q.within functions else []]

theorem mem_within (functions : Bool) (p : Fragment) : p ∈ p.within functions := by
  rw [within_eq]
  exact .head _

theorem mem_within_of_parts {p q part : Fragment} (hq : q ∈ p.within true) (h : part ∈ q.parts) :
    part ∈ p.within true := by
  induction p using induct with
  | h p ih =>
    rw [within_eq] at hq ⊢
    simp only [isOpen_true, if_true] at hq ⊢
    refine .tail _ (List.mem_flatMap.mpr ?_)
    rcases List.mem_cons.mp hq with rfl | hq
    · exact ⟨part, h, mem_within true part⟩
    · obtain ⟨r, hr, hq⟩ := List.mem_flatMap.mp hq
      exact ⟨r, hr, ih r hr hq⟩

section Total

variable {M : Type} [AddCommMonoid M] {functions : Bool} {own read : Fragment → M}

/-- What there is at the fragments within a fragment, together. -/
def total (functions : Bool) (own : Fragment → M) (p : Fragment) : M :=
  ((p.within functions).map own).sum

theorem total_eq (p : Fragment) : p.total functions own =
    own p + (p.parts.map fun q => if q.isOpen functions then q.total functions own else 0).sum := by
  unfold total
  rw [within_eq]
  simp only [List.map_cons, List.sum_cons, List.flatMap_def, List.map_flatten, List.sum_flatten,
    List.map_map, Function.comp_def, apply_ite, List.map_nil, List.sum_nil]

/-- A reading that adds up what it finds at a fragment and at its parts is the total. -/
theorem eq_total (h : ∀ p, read p =
      own p + (p.parts.map fun q => if q.isOpen functions then read q else 0).sum)
    (p : Fragment) : read p = p.total functions own := by
  induction p using induct with
  | h p ih =>
    rw [h, total_eq, List.map_congr_left fun q hq => ?_]
    split
    · exact ih q hq
    · rfl

theorem total_add (own own' : Fragment → M) (p : Fragment) :
    p.total functions (fun q => own q + own' q) = p.total functions own + p.total functions own' :=
  List.sum_map_add

end Total

section Reading

variable {α β : Type} {functions : Bool} {own read : Fragment → List α}

/-- A list of what there is at a fragment, and then at its parts in order. -/
def Reads (functions : Bool) (own read : Fragment → List α) : Prop :=
  ∀ p, read p = own p ++ p.parts.flatMap fun q => if q.isOpen functions then read q else []

theorem Reads.eq_flatMap (h : Reads functions own read) (p : Fragment) :
    read p = (p.within functions).flatMap own := by
  induction p using induct with
  | h p ih =>
    rw [h, within_eq, List.flatMap_cons, List.flatMap_assoc]
    congr 1
    refine List.flatMap_congr fun q hq => ?_
    split
    · exact ih q hq
    · rfl

theorem Reads.map (h : Reads functions own read) (f : α → β) :
    Reads functions (fun p => (own p).map f) fun p => (read p).map f := by
  intro p
  dsimp only
  rw [h, List.map_append, List.map_flatMap]
  simp only [apply_ite (List.map f), List.map_nil]

/-- Without its order, a reading is a total. -/
theorem Reads.total (h : Reads functions own read) (p : Fragment) :
    (read p : Multiset α) = p.total functions fun q => (own q : Multiset α) := by
  rw [h.eq_flatMap, Fragment.total]
  induction p.within functions with
  | nil => rfl
  | cons q rest ih => rw [List.flatMap_cons, ← Multiset.coe_add, ih, List.map_cons, List.sum_cons]

/-- A list function that appends what it makes of each item. -/
theorem eq_flatMap {f : List α → List β} {g : α → List β} (hnil : f [] = [])
    (hcons : ∀ x rest, f (x :: rest) = g x ++ f rest) : f = List.flatMap g := by
  funext l
  induction l with
  | nil => exact hnil
  | cons x rest ih => rw [hcons, ih, List.flatMap_cons]

theorem eq_flatMapOpt {f : Option α → List β} {g : α → List β} (hnone : f none = [])
    (hsome : ∀ x, f (some x) = g x) : f = fun o => o.toList.flatMap g := by
  funext o
  cases o <;> simp [hnone, hsome]

end Reading

end Fragment

end EcmaLua
