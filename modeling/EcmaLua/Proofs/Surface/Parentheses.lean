import EcmaLua.Surface.ToCore

/-!
# Parentheses

A script without its parentheses has the same program and the same findings. The target of an
assignment keeps one pair if what is in it is no place, as it could not stand there without.
-/

namespace EcmaLua.Surface

/-- Names and members, which can be assigned to as they are. -/
def Expr.isBarePlace : Expr → Bool
  | .ident _ | .member .. | .index .. | .foreign .privateMember _ => true
  | _ => false

/-- The target of an assignment, from how it was written and what is within its parentheses. -/
def Expr.asTarget (written inner : Expr) : Expr :=
  match written with
  | .paren _ => if inner.isBarePlace then inner else .paren inner
  | _ => inner

mutual

@[simp] def Expr.bare : Expr → Expr
  | .paren e => e.bare
  | .array elements extent => .array (Arg.bareElements elements) extent
  | .object members => .object (Member.bare members)
  | .func name f => .func name f.bare
  | .unary op arg => .unary op arg.bare
  | .update op leading arg extent => .update op leading arg.bare extent
  | .binary op left right extent => .binary op left.bare right.bare extent
  | .assign op target value extent => .assign op (target.asTarget target.bare) value.bare extent
  | .cond test cons alt => .cond test.bare cons.bare alt.bare
  | .member object name => .member object.bare name
  | .index object key => .index object.bare key.bare
  | .call callee args extent => .call callee.bare (Arg.bare args) extent
  | .new callee args => .new callee.bare (Arg.bare args)
  | .seq items => .seq (Expr.bareList items)
  | .this => .this
  | .ident name => .ident name
  | .null => .null
  | .bool value => .bool value
  | .number value => .number value
  | .string value => .string value
  | .regex pattern flags => .regex pattern flags
  | .assignForeign op target extent => .assignForeign op target extent
  | .foreign kind extent => .foreign kind extent

@[simp] def Expr.bareList : List Expr → List Expr
  | [] => []
  | e :: rest => e.bare :: Expr.bareList rest

@[simp] def Expr.bareOpt : Option Expr → Option Expr
  | none => none
  | some e => some e.bare

@[simp] def Arg.bareElements : List (Option Arg) → List (Option Arg)
  | [] => []
  | none :: rest => none :: Arg.bareElements rest
  | some ⟨dots, e⟩ :: rest => some ⟨dots, e.bare⟩ :: Arg.bareElements rest

@[simp] def Arg.bare : List Arg → List Arg
  | [] => []
  | ⟨dots, e⟩ :: rest => ⟨dots, e.bare⟩ :: Arg.bare rest

@[simp] def Key.bare : Key → Key
  | .computed e => .computed e.bare
  | .ident name => .ident name
  | .string value => .string value
  | .number value => .number value
  | .bigint value => .bigint value

@[simp] def Member.bare : List Member → List Member
  | [] => []
  | .shorthand name :: rest => .shorthand name :: Member.bare rest
  | .keyValue key value :: rest => .keyValue key.bare value.bare :: Member.bare rest
  | .method key f :: rest => .method key.bare f.bare :: Member.bare rest
  | .getter key extent :: rest => .getter key.bare extent :: Member.bare rest
  | .setter key extent :: rest => .setter key.bare extent :: Member.bare rest
  | .assigned name extent :: rest => .assigned name extent :: Member.bare rest
  | .spread dots e :: rest => .spread dots e.bare :: Member.bare rest

@[simp] def Func.bare : Func → Func
  | ⟨params, body, isGenerator, isAsync, extent⟩ =>
    ⟨params, Stmt.bareList body, isGenerator, isAsync, extent⟩

@[simp] def Declarator.bare : List Declarator → List Declarator
  | [] => []
  | ⟨pattern, init⟩ :: rest => ⟨pattern, Expr.bareOpt init⟩ :: Declarator.bare rest

@[simp] def ForInit.bare : ForInit → ForInit
  | .none => .none
  | .vars kind decls => .vars kind (Declarator.bare decls)
  | .expr e => .expr e.bare

@[simp] def ForInHead.bare : ForInHead → ForInHead
  | .target e => .target e.bare
  | .var kind pattern => .var kind pattern
  | .pattern kind extent => .pattern kind extent
  | .usingDecl extent => .usingDecl extent

@[simp] def Catch.bare : Option Catch → Option Catch
  | none => none
  | some ⟨param, body⟩ => some ⟨param, Stmt.bareList body⟩

@[simp] def Case.bare : List Case → List Case
  | [] => []
  | ⟨test, body⟩ :: rest => ⟨Expr.bareOpt test, Stmt.bareList body⟩ :: Case.bare rest

@[simp] def Stmt.bare : Stmt → Stmt
  | .exprStmt e => .exprStmt e.bare
  | .block body => .block (Stmt.bareList body)
  | .varStmt kind decls => .varStmt kind (Declarator.bare decls)
  | .funcStmt name f => .funcStmt name f.bare
  | .returnStmt arg => .returnStmt (Expr.bareOpt arg)
  | .throwStmt arg => .throwStmt arg.bare
  | .ifStmt test cons alt => .ifStmt test.bare cons.bare (Stmt.bareOpt alt)
  | .whileStmt test body => .whileStmt test.bare body.bare
  | .doWhileStmt body test => .doWhileStmt body.bare test.bare
  | .forStmt init test update body =>
    .forStmt init.bare (Expr.bareOpt test) (Expr.bareOpt update) body.bare
  | .forInStmt head object body extent => .forInStmt head.bare object.bare body.bare extent
  | .switchStmt discriminant cases => .switchStmt discriminant.bare (Case.bare cases)
  | .tryStmt block handler finalizer extent =>
    .tryStmt (Stmt.bareList block) (Catch.bare handler) (Stmt.bareBlock finalizer) extent
  | .withStmt object body extent => .withStmt object.bare body.bare extent
  | .labeled label body => .labeled label body.bare
  | .empty => .empty
  | .breakStmt label extent => .breakStmt label extent
  | .continueStmt label extent => .continueStmt label extent
  | .foreign kind extent => .foreign kind extent

@[simp] def Stmt.bareList : List Stmt → List Stmt
  | [] => []
  | s :: rest => s.bare :: Stmt.bareList rest

@[simp] def Stmt.bareOpt : Option Stmt → Option Stmt
  | none => none
  | some s => some s.bare

@[simp] def Stmt.bareBlock : Option (List Stmt) → Option (List Stmt)
  | none => none
  | some body => some (Stmt.bareList body)

end

/-- The script without the parentheses around its expressions. -/
def Script.bare (script : Script) : Script := ⟨Stmt.bareList script.body⟩

variable (numbering : Numbering)

/-- It does not matter to a target whether its parentheses are kept. -/
theorem Expr.toCore_asTarget (written inner : Expr) :
    (written.asTarget inner).toCore numbering = inner.toCore numbering := by
  unfold asTarget
  split
  · split
    · rfl
    · rw [Expr.toCore]
  · rfl

mutual

theorem Expr.toCore_bare : (e : Expr) → e.bare.toCore numbering = e.toCore numbering
  | .paren e => by simp only [Expr.bare, Expr.toCore, e.toCore_bare]
  | .array elements extent => by
    simp only [Expr.bare, Expr.toCore, Arg.toCoreElements_bare extent elements]
  | .object members => by simp only [Expr.bare, Expr.toCore, Member.toCore_bare members]
  | .func _ f => by simp only [Expr.bare, Expr.toCore, f.toCore_bare]
  | .unary _ arg => by simp only [Expr.bare, Expr.toCore, arg.toCore_bare]
  | .update _ _ arg _ => by simp only [Expr.bare, Expr.toCore, arg.toCore_bare]
  | .binary _ left right _ => by
    simp only [Expr.bare, Expr.toCore, left.toCore_bare, right.toCore_bare]
  | .assign _ target value _ => by
    simp only [Expr.bare, Expr.toCore, Expr.toCore_asTarget, target.toCore_bare, value.toCore_bare]
  | .cond test cons alt => by
    simp only [Expr.bare, Expr.toCore, test.toCore_bare, cons.toCore_bare, alt.toCore_bare]
  | .member object _ => by simp only [Expr.bare, Expr.toCore, object.toCore_bare]
  | .index object key => by
    simp only [Expr.bare, Expr.toCore, object.toCore_bare, key.toCore_bare]
  | .call callee args _ => by
    simp only [Expr.bare, Expr.toCore, callee.toCore_bare, Arg.toCore_bare args]
  | .new callee args => by
    simp only [Expr.bare, Expr.toCore, callee.toCore_bare, Arg.toCore_bare args]
  | .seq items => by simp only [Expr.bare, Expr.toCore, Expr.toCoreList_bare items]
  | .this | .ident _ | .null | .bool _ | .number _ | .string _ | .regex .. | .assignForeign ..
  | .foreign .. => by simp only [Expr.bare]

theorem Expr.toCoreList_bare : (es : List Expr) →
    Expr.toCoreList numbering (Expr.bareList es) = Expr.toCoreList numbering es
  | [] => rfl
  | e :: rest => by
    simp only [Expr.bareList, Expr.toCoreList, e.toCore_bare, Expr.toCoreList_bare rest]

theorem Expr.toCoreOpt_bare : (e : Option Expr) →
    Expr.toCoreOpt numbering (Expr.bareOpt e) = Expr.toCoreOpt numbering e
  | none => rfl
  | some e => by simp only [Expr.bareOpt, Expr.toCoreOpt, e.toCore_bare]

theorem Arg.toCoreElements_bare (extent : Extent) : (elements : List (Option Arg)) →
    Arg.toCoreElements numbering extent (Arg.bareElements elements) =
      Arg.toCoreElements numbering extent elements
  | [] => rfl
  | none :: rest => by
    simp only [Arg.bareElements, Arg.toCoreElements, Arg.toCoreElements_bare extent rest]
  | some ⟨none, e⟩ :: rest => by
    simp only [Arg.bareElements, Arg.toCoreElements, e.toCore_bare,
      Arg.toCoreElements_bare extent rest]
  | some ⟨some _, _⟩ :: _ => by simp only [Arg.bareElements, Arg.toCoreElements]

theorem Arg.toCore_bare : (args : List Arg) →
    Arg.toCore numbering (Arg.bare args) = Arg.toCore numbering args
  | [] => rfl
  | ⟨none, e⟩ :: rest => by
    simp only [Arg.bare, Arg.toCore, e.toCore_bare, Arg.toCore_bare rest]
  | ⟨some _, _⟩ :: _ => by simp only [Arg.bare, Arg.toCore]

theorem Key.toCore_bare : (key : Key) → key.bare.toCore numbering = key.toCore numbering
  | .computed e => by simp only [Key.bare, Key.toCore, e.toCore_bare]
  | .ident _ | .string _ | .number _ | .bigint _ => by simp only [Key.bare]

theorem Member.toCore_bare : (members : List Member) →
    Member.toCore numbering (Member.bare members) = Member.toCore numbering members
  | [] => rfl
  | .shorthand _ :: rest | .assigned .. :: rest => by
    simp only [Member.bare, Member.toCore, Member.toCore_bare rest]
  | .keyValue key value :: rest => by
    simp only [Member.bare, Member.toCore, key.toCore_bare, value.toCore_bare,
      Member.toCore_bare rest]
  | .method key f :: rest => by
    simp only [Member.bare, Member.toCore, key.toCore_bare, f.toCore_bare, Member.toCore_bare rest]
  | .getter key _ :: rest | .setter key _ :: rest => by
    simp only [Member.bare, Member.toCore, key.toCore_bare, Member.toCore_bare rest]
  | .spread .. :: _ => by simp only [Member.bare, Member.toCore]

theorem Func.toCore_bare (name : Option String) : (f : Func) →
    f.bare.toCore numbering name = f.toCore numbering name
  | ⟨_, body, _, _, _⟩ => by simp only [Func.bare, Func.toCore, Stmt.toCoreList_bare body]

theorem Declarator.toCore_bare : (decls : List Declarator) →
    Declarator.toCore numbering (Declarator.bare decls) = Declarator.toCore numbering decls
  | [] => rfl
  | ⟨_, init⟩ :: rest => by
    simp only [Declarator.bare, Declarator.toCore, Expr.toCoreOpt_bare init,
      Declarator.toCore_bare rest]

theorem ForInit.toCore_bare : (init : ForInit) →
    init.bare.toCore numbering = init.toCore numbering
  | .none => rfl
  | .vars _ decls => by simp only [ForInit.bare, ForInit.toCore, Declarator.toCore_bare decls]
  | .expr e => by simp only [ForInit.bare, ForInit.toCore, e.toCore_bare]

theorem ForInHead.toCore_bare (extent : Extent) : (head : ForInHead) →
    head.bare.toCore numbering extent = head.toCore numbering extent
  | .target e => by simp only [ForInHead.bare, ForInHead.toCore, e.toCore_bare]
  | .var .. | .pattern .. | .usingDecl _ => by simp only [ForInHead.bare]

theorem Catch.toCore_bare : (handler : Option Catch) →
    Catch.toCore numbering (Catch.bare handler) = Catch.toCore numbering handler
  | none => rfl
  | some ⟨_, body⟩ => by simp only [Catch.bare, Catch.toCore, Stmt.toCoreList_bare body]

theorem Case.toCore_bare : (cases : List Case) →
    Case.toCore numbering (Case.bare cases) = Case.toCore numbering cases
  | [] => rfl
  | ⟨test, body⟩ :: rest => by
    simp only [Case.bare, Case.toCore, Expr.toCoreOpt_bare test, Stmt.toCoreList_bare body,
      Case.toCore_bare rest]

theorem Stmt.toCore_bare : (s : Stmt) → s.bare.toCore numbering = s.toCore numbering
  | .exprStmt e => by simp only [Stmt.bare, Stmt.toCore, e.toCore_bare]
  | .block body => by simp only [Stmt.bare, Stmt.toCore, Stmt.toCoreList_bare body]
  | .varStmt _ decls => by simp only [Stmt.bare, Stmt.toCore, Declarator.toCore_bare decls]
  | .funcStmt _ f => by simp only [Stmt.bare, Stmt.toCore, f.toCore_bare]
  | .returnStmt arg => by simp only [Stmt.bare, Stmt.toCore, Expr.toCoreOpt_bare arg]
  | .throwStmt arg => by simp only [Stmt.bare, Stmt.toCore, arg.toCore_bare]
  | .ifStmt test cons alt => by
    simp only [Stmt.bare, Stmt.toCore, test.toCore_bare, cons.toCore_bare, Stmt.toCoreOpt_bare alt]
  | .whileStmt test body => by
    simp only [Stmt.bare, Stmt.toCore, test.toCore_bare, body.toCore_bare]
  | .doWhileStmt body test => by
    simp only [Stmt.bare, Stmt.toCore, test.toCore_bare, body.toCore_bare]
  | .forStmt init test update body => by
    simp only [Stmt.bare, Stmt.toCore, init.toCore_bare, Expr.toCoreOpt_bare test,
      Expr.toCoreOpt_bare update, body.toCore_bare]
  | .forInStmt head object body _ => by
    simp only [Stmt.bare, Stmt.toCore, head.toCore_bare, object.toCore_bare, body.toCore_bare]
  | .switchStmt discriminant cases => by
    simp only [Stmt.bare, Stmt.toCore, discriminant.toCore_bare, Case.toCore_bare cases]
  | .tryStmt block handler finalizer _ => by
    simp only [Stmt.bare, Stmt.toCore, Stmt.toCoreList_bare block, Catch.toCore_bare handler,
      Stmt.toCoreBlock_bare finalizer]
  | .withStmt object body _ => by
    simp only [Stmt.bare, Stmt.toCore, object.toCore_bare, body.toCore_bare]
  | .labeled _ body => by simp only [Stmt.bare, Stmt.toCore, body.toCore_bare]
  | .empty | .breakStmt .. | .continueStmt .. | .foreign .. => by simp only [Stmt.bare]

theorem Stmt.toCoreList_bare : (body : List Stmt) →
    Stmt.toCoreList numbering (Stmt.bareList body) = Stmt.toCoreList numbering body
  | [] => rfl
  | s :: rest => by
    simp only [Stmt.bareList, Stmt.toCoreList, s.toCore_bare, Stmt.toCoreList_bare rest]

theorem Stmt.toCoreOpt_bare : (s : Option Stmt) →
    Stmt.toCoreOpt numbering (Stmt.bareOpt s) = Stmt.toCoreOpt numbering s
  | none => rfl
  | some s => by simp only [Stmt.bareOpt, Stmt.toCoreOpt, s.toCore_bare]

theorem Stmt.toCoreBlock_bare : (body : Option (List Stmt)) →
    Stmt.toCoreBlock numbering (Stmt.bareBlock body) = Stmt.toCoreBlock numbering body
  | none => rfl
  | some body => by simp only [Stmt.bareBlock, Stmt.toCoreBlock, Stmt.toCoreList_bare body]

end

/-- Parentheses change neither the program of a script nor what is reported about it. -/
theorem Script.toProgram_bare (script : Script) :
    script.bare.toProgram numbering = script.toProgram numbering := by
  rw [toProgram, toProgram, Script.bare, Stmt.toCoreList_bare]

end EcmaLua.Surface
