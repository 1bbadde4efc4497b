import EcmaLua.Emission.Code

/-!
# Sites of a program

A site is a mention of an identifier, with its use and with what the frames around it bind the
name to. The sites come in the order in which the code mentions them: an identifier that the code
of a construct reads twice has two sites there, and one that it leaves out or only introduces has
none. Between the sites stand the phases of the program and of its `try` statements.
-/

namespace EcmaLua

open Emission

/-- What a mention of an identifier is for. -/
inductive Mention where
  | read
  /-- the value is evaluated and dropped -/
  | dropped
  | written
  /-- by `typeof`, for which an unassigned variable is no fault -/
  | inspected
deriving DecidableEq, Repr

/-- A mention of an identifier. -/
structure Site where
  name : String
  mention : Mention
  resolution : Resolution
deriving DecidableEq, Repr

/-- Whether a check has something to find at the site: its value counts, and it is neither a
parameter nor a function nor built in, nor one of the names that are always there. -/
def Site.isChecked (site : Site) : Bool :=
  (site.mention == .read || site.mention == .dropped)
    && !(site.resolution == .bound .parameter || site.resolution == .bound .function
      || site.resolution == .bound .builtin)
    && !Lua.neverGuarded site.name

/-- A phase of the program or of a `try` statement. -/
inductive Phase where
  | beginning
  | ending
  | tryBody
  | finalizer
  | handler
  | earlyReturn
  | checkCatch
  | justFinalizer
deriving DecidableEq, Repr

/-- The word for a phase. -/
def Phase.word : Phase → String
  | .beginning => "BEGIN"
  | .ending => "END"
  | .tryBody => "TryBody"
  | .finalizer => "Finally"
  | .handler => "Catch"
  | .earlyReturn => "EarlyReturn"
  | .checkCatch => "CheckCatch"
  | .justFinalizer => "JustFinalizer"

/-- A site, or the beginning of a phase. -/
inductive Landmark where
  | site (s : Site)
  | phase (p : Phase)
deriving DecidableEq, Repr

namespace Landmark

def site? : Landmark → Option Site
  | .site s => some s
  | .phase _ => none

def phase? : Landmark → Option Phase
  | .site _ => none
  | .phase p => some p

end Landmark

/-- The frame of a function's body. One that mentions `arguments` binds it. -/
def Emission.functionFrame (params : List String) (names : Declarations) : Frame :=
  .lexical "function" names.vars names.funcs
    (if names.references "arguments" then params ++ ["arguments"] else params)

/-- The frames around a function expression, with one for its own name if it is mentioned. -/
def Emission.selfScope (F : Scope) (name : Option String) (references : List String) : Scope :=
  match name with
  | none => F
  | some name =>
    if references.contains name then .lexical "named-function" [] [name] [] :: F else F

/-- The mention of its own name that stands before or behind a function expression. -/
def Emission.selfSite (F : Scope) (m : Mention) (name : Option String)
    (references : List String) : List Landmark :=
  match name with
  | none => []
  | some self =>
    if references.contains self then
      [.site ⟨self, m, (selfScope F name references).resolve self⟩]
    else []

mutual

/-- The landmarks of an expression that is used as the mention says, within frames. -/
def Expr.landmarks (F : Scope) (m : Mention) : Expr → List Landmark
  | .ident name => [.site ⟨name, m, F.resolve name⟩]
  | .this | .lit _ | .unsupported _ => []
  | .array items => Expr.landmarksItems F items
  | .object props => Property.landmarks F props
  | .func f =>
    selfSite F .written f.name f.references ++ f.landmarks (selfScope F f.name f.references)
      ++ selfSite F .read f.name f.references
  | .unary op arg =>
    match op with
    | .minus | .plus | .not | .bitNot => arg.landmarks F .read
    | .typeof => arg.landmarks F .inspected
    | .void => []
    | .delete => arg.landmarksDeleted F
  | .update _ leading arg =>
    let place := arg.landmarks F .written
    let current := arg.landmarks F .read
    match m, leading with
    | .dropped, _ => place ++ current
    | _, true => place ++ current ++ current
    | _, false => current ++ place ++ current
  | .binary _ left right | .logical _ left right =>
    left.landmarks F .read ++ right.landmarks F .read
  | .assign op target value =>
    let current := if op.isSome then target.landmarks F .read else []
    let result := if m = .dropped then [] else target.landmarks F .read
    target.landmarks F .written ++ (current ++ value.landmarks F .read) ++ result
  | .cond test cons alt =>
    test.landmarks F .read ++ cons.landmarks F .read ++ alt.landmarks F .read
  | .call callee args | .new callee args =>
    callee.landmarks F .read ++ Expr.landmarksList F .read args
  | .member object _ => object.landmarks F .read
  | .index object key => object.landmarks F .read ++ key.landmarks F .read
  | .seq items => Expr.landmarksList F (if m = .dropped then .dropped else .read) items

/-- The landmarks of an operand of `delete`; a name is not mentioned there, only spelled out. -/
def Expr.landmarksDeleted (F : Scope) : Expr → List Landmark
  | .member object _ => object.landmarks F .read
  | .index object key => object.landmarks F .read ++ key.landmarks F .read
  | _ => []

def Expr.landmarksList (F : Scope) (m : Mention) : List Expr → List Landmark
  | [] => []
  | e :: rest => e.landmarks F m ++ Expr.landmarksList F m rest

def Expr.landmarksOpt (F : Scope) (m : Mention) : Option Expr → List Landmark
  | none => []
  | some e => e.landmarks F m

def Expr.landmarksItems (F : Scope) : List (Option Expr) → List Landmark
  | [] => []
  | item :: rest => Expr.landmarksOpt F .read item ++ Expr.landmarksItems F rest

def Property.landmarks (F : Scope) : List Property → List Landmark
  | [] => []
  | .named _ value :: rest => value.landmarks F .read ++ Property.landmarks F rest
  | .computed key value :: rest =>
    key.landmarks F .read ++ value.landmarks F .read ++ Property.landmarks F rest

def Func.landmarks (F : Scope) : Func → List Landmark
  | ⟨_, params, body⟩ => Stmt.landmarksList (functionFrame params (.ofBody body) :: F) body

def Declarator.landmarks (F : Scope) : List Declarator → List Landmark
  | [] => []
  | ⟨name, init⟩ :: rest =>
    (if init.isSome then [.site ⟨name, .written, F.resolve name⟩] else [])
      ++ Expr.landmarksOpt F .read init ++ Declarator.landmarks F rest

def ForInit.landmarks (F : Scope) : ForInit → List Landmark
  | .none => []
  | .vars _ decls => Declarator.landmarks F decls
  | .expr e => e.landmarks F .dropped

/-- The landmarks of what a loop over keys writes to; the loop introduces a name by itself. -/
def ForInHead.landmarks (F : Scope) : ForInHead → List Landmark
  | .var _ _ | .target (.ident _) => []
  | .target e => e.landmarks F .written

/-- The landmarks of a statement within frames. -/
def Stmt.landmarks (F : Scope) : Stmt → List Landmark
  | .empty | .breakStmt _ _ | .continueStmt _ _ | .unsupported _ => []
  | .exprStmt e => e.landmarks F .dropped
  | .varStmt _ decls => Declarator.landmarks F decls
  | .funcStmt f =>
    match f.name with
    | none => []
    | some name => .site ⟨name, .written, F.resolve name⟩ :: f.landmarks F
  | .returnStmt arg => Expr.landmarksOpt F .read arg
  | .throwStmt arg => arg.landmarks F .read
  | .ifStmt test cons alt =>
    test.landmarks F .read ++ cons.landmarks F ++ Stmt.landmarksOpt F alt
  | .whileStmt test body => test.landmarks F .read ++ body.landmarks F
  | .doWhileStmt body test => body.landmarks F ++ test.landmarks F .read
  | .forStmt init test update body =>
    init.landmarks F ++ Expr.landmarksOpt F .read test ++ body.landmarks F
      ++ Expr.landmarksOpt F .dropped update
  | .forInStmt head object body =>
    object.landmarks F .read ++ head.landmarks F ++ body.landmarks F
  | .switchStmt discriminant cases =>
    discriminant.landmarks F .read ++ SwitchCase.landmarksTests F cases
      ++ SwitchCase.landmarksBodies F cases
  | .tryStmt block handlers finalizer _ =>
    [.phase .tryBody] ++ Stmt.landmarksList F block ++ Stmt.landmarksBlock F finalizer
      ++ CatchClause.landmarksFirst F handlers ++ [.phase .earlyReturn, .phase .checkCatch]
      ++ (if finalizer.isSome then [.phase .justFinalizer] else [])
  | .withStmt object body _ => object.landmarks F .read ++ body.landmarks (.object "with" "" :: F)
  | .labeled _ body => body.landmarks F
  | .block body => Stmt.landmarksList F body

/-- The landmarks of statements in order, up to one that has to be the last of its block. -/
def Stmt.landmarksList (F : Scope) : List Stmt → List Landmark
  | [] => []
  | s :: rest => s.landmarks F ++ (if s.endsBlock then [] else Stmt.landmarksList F rest)

def Stmt.landmarksOpt (F : Scope) : Option Stmt → List Landmark
  | none => []
  | some s => s.landmarks F

/-- The landmarks of a `finally` block, if there is one. -/
def Stmt.landmarksBlock (F : Scope) : Option (List Stmt) → List Landmark
  | none => []
  | some body => .phase .finalizer :: Stmt.landmarksList F body

def SwitchCase.landmarksTests (F : Scope) : List SwitchCase → List Landmark
  | [] => []
  | ⟨test, _⟩ :: rest => Expr.landmarksOpt F .read test ++ SwitchCase.landmarksTests F rest

def SwitchCase.landmarksBodies (F : Scope) : List SwitchCase → List Landmark
  | [] => []
  | ⟨_, body⟩ :: rest => Stmt.landmarksList F body ++ SwitchCase.landmarksBodies F rest

/-- The landmarks of the first `catch` clause, the only one that is used. -/
def CatchClause.landmarksFirst (F : Scope) : List CatchClause → List Landmark
  | [] => []
  | ⟨param, body⟩ :: _ =>
    .phase .handler :: Stmt.landmarksList (.lexical "catch" [] [] param.toList :: F) body

end

/-- The landmarks of a program. -/
def Program.landmarks (p : Program) : List Landmark :=
  [.phase .beginning]
    ++ Stmt.landmarksList [rootFrame (.ofBody p.body), .object "program" ""] p.body
    ++ [.phase .ending]

/-- The mentions of identifiers in the code of a program, in order. -/
def Program.sites (p : Program) : List Site := p.landmarks.filterMap Landmark.site?

/-- The phases of a program and of its `try` statements, in the order of the code. -/
def Program.phases (p : Program) : List Phase := p.landmarks.filterMap Landmark.phase?

end EcmaLua
