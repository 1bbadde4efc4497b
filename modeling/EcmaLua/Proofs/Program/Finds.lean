import EcmaLua.Proofs.Program.Sites

/-!
# Finds of a program

What there is to find in a part of a program, as far as code is made of it: its `with` statements,
and the names that it mentions and that no function and no `catch` clause inside of it binds. A
mention is sure where the name is looked up. It is not sure as the key of a `for`-`in` loop, as the
bare operand of a `delete`, and in the body of a `with` statement inside of the part.
-/

namespace EcmaLua

open Emission

/-- A name that is mentioned, or a `with` statement. -/
inductive Find where
  | name (text : String) (sure : Bool)
  | scope (body : Stmt) (span : Span)

namespace Find

/-- Whether the find is more than a mention that is not sure. -/
def isSure : Find → Bool
  | .name _ sure => sure
  | .scope _ _ => true

/-- The find, from outside of a `with` statement that it is in the body of. -/
def outward : Find → Find
  | .name text _ => .name text false
  | .scope body span => .scope body span

/-- Whether the find is no name that the frame binds. -/
def passes (frame : Frame) : Find → Bool
  | .name text _ => (frame.role? text).isNone
  | .scope _ _ => true

end Find

/-- The finds of an operand, from those of its uses as a value and under `delete`. -/
def UnaryOp.finds (op : UnaryOp) (value deleted : List Find) : List Find :=
  match op with
  | .void => []
  | .delete => deleted
  | _ => value

/-- The finds outside of a function expression, where its name is bound if it is mentioned. -/
def selfFinds (name : Option String) (references : List String) (finds : List Find) : List Find :=
  match name with
  | none => finds
  | some name =>
    if references.contains name then
      finds.filter (Find.passes (.lexical "named-function" [] [name] []))
    else finds

mutual

def Expr.finds : Expr → List Find
  | .ident name => [.name name true]
  | .this | .lit _ | .unsupported _ => []
  | .array items => Expr.findsItems items
  | .object props => Property.finds props
  | .func f => selfFinds f.name f.references f.finds
  | .unary op arg => op.finds arg.finds arg.findsDeleted
  | .update _ _ arg => arg.finds
  | .binary _ left right | .logical _ left right => left.finds ++ right.finds
  | .assign _ target value => target.finds ++ value.finds
  | .cond test cons alt => test.finds ++ (cons.finds ++ alt.finds)
  | .call callee args | .new callee args => callee.finds ++ Expr.findsList args
  | .member object _ => object.finds
  | .index object key => object.finds ++ key.finds
  | .seq items => Expr.findsList items

/-- The finds of an operand of `delete`. What is no place is not evaluated. -/
def Expr.findsDeleted : Expr → List Find
  | .ident name => [.name name false]
  | .member object _ => object.finds
  | .index object key => object.finds ++ key.finds
  | _ => []

def Expr.findsList : List Expr → List Find
  | [] => []
  | e :: rest => e.finds ++ Expr.findsList rest

def Expr.findsOpt : Option Expr → List Find
  | none => []
  | some e => e.finds

def Expr.findsItems : List (Option Expr) → List Find
  | [] => []
  | item :: rest => Expr.findsOpt item ++ Expr.findsItems rest

def Property.finds : List Property → List Find
  | [] => []
  | .named _ value :: rest => value.finds ++ Property.finds rest
  | .computed key value :: rest => key.finds ++ (value.finds ++ Property.finds rest)

def Func.finds : Func → List Find
  | ⟨_, params, body⟩ =>
    (Stmt.findsList body).filter (Find.passes (functionFrame params (.ofBody body)))

/-- A variable with an initializer is written to. -/
def Declarator.finds : List Declarator → List Find
  | [] => []
  | ⟨_, none⟩ :: rest => Declarator.finds rest
  | ⟨name, some init⟩ :: rest => .name name true :: (init.finds ++ Declarator.finds rest)

def ForInit.finds : ForInit → List Find
  | .none => []
  | .vars _ decls => Declarator.finds decls
  | .expr e => e.finds

def ForInHead.finds : ForInHead → List Find
  | .var _ name | .target (.ident name) => [.name name false]
  | .target e => e.finds

def Stmt.finds : Stmt → List Find
  | .empty | .breakStmt _ _ | .continueStmt _ _ | .unsupported _ => []
  | .exprStmt e | .throwStmt e => e.finds
  | .varStmt _ decls => Declarator.finds decls
  | .funcStmt f =>
    match f.name with
    | none => []
    | some name => .name name true :: f.finds
  | .returnStmt arg => Expr.findsOpt arg
  | .ifStmt test cons alt => test.finds ++ (cons.finds ++ Stmt.findsOpt alt)
  | .whileStmt test body => test.finds ++ body.finds
  | .doWhileStmt body test => body.finds ++ test.finds
  | .forStmt init test update body =>
    init.finds ++ (Expr.findsOpt test ++ (body.finds ++ Expr.findsOpt update))
  | .forInStmt head object body => object.finds ++ (head.finds ++ body.finds)
  | .switchStmt discriminant cases =>
    discriminant.finds ++ (SwitchCase.findsTests cases ++ SwitchCase.findsBodies cases)
  | .tryStmt block handlers finalizer _ =>
    Stmt.findsList block ++ (Stmt.findsBlock finalizer ++ CatchClause.findsFirst handlers)
  | .withStmt object body span =>
    object.finds ++ (body.finds.map Find.outward ++ [.scope body span])
  | .labeled _ body => body.finds
  | .block body => Stmt.findsList body

/-- The finds of statements, up to one that has to be the last of its block. -/
def Stmt.findsList : List Stmt → List Find
  | [] => []
  | s :: rest => s.finds ++ if s.endsBlock then [] else Stmt.findsList rest

def Stmt.findsOpt : Option Stmt → List Find
  | none => []
  | some s => s.finds

def Stmt.findsBlock : Option (List Stmt) → List Find
  | none => []
  | some body => Stmt.findsList body

def SwitchCase.findsTests : List SwitchCase → List Find
  | [] => []
  | ⟨test, _⟩ :: rest => Expr.findsOpt test ++ SwitchCase.findsTests rest

def SwitchCase.findsBodies : List SwitchCase → List Find
  | [] => []
  | ⟨_, body⟩ :: rest => Stmt.findsList body ++ SwitchCase.findsBodies rest

/-- The finds of the first `catch` clause, the only one that is used. -/
def CatchClause.findsFirst : List CatchClause → List Find
  | [] => []
  | ⟨param, body⟩ :: _ =>
    (Stmt.findsList body).filter (Find.passes (.lexical "catch" [] [] param.toList))

end

end EcmaLua
