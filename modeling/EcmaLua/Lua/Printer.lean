import EcmaLua.Lua.Chunk
import EcmaLua.Lua.Literal
import EcmaLua.Settings.Basic

/-!
# The text of a chunk

Every statement starts on a line of its own, four blanks deeper for every enclosing block. The
printer adds what Lua's grammar needs around a text: parentheses around a literal in front of a
call or an index, and a semicolon before a statement that starts with a parenthesis, since it
would otherwise continue the line before.
-/

namespace EcmaLua.Lua

def indentation (depth : Nat) : String := String.ofList (List.replicate (4 * depth) ' ')

def line (depth : Nat) (text : String) : String := indentation depth ++ text ++ "\n"

/-- A text in front of a call or an index: literals need parentheses there. -/
def asPrefix (text : String) : String :=
  let bare := text == "nil" || text == "true" || text == "false"
  let literal :=
    match text.toList with
    | [] => false
    | c :: _ => c.isDigit || c == '"' || c == '{'
  if bare || literal then "(" ++ text ++ ")" else text

/-- A statement that starts with a parenthesis is kept apart from the line before. -/
def separated (text : String) : String :=
  match text.toList with
  | '(' :: _ => ";" ++ text
  | _ => text

def commaSeparated (texts : List String) : String := ", ".intercalate texts

/-- The comment for a construct. -/
def noteText (text : String) : String := "--[[" ++ text ++ "]]"

/-- A read, checked if the settings ask for it. -/
def readText (settings : Settings) (name : String) : String :=
  if settings.refGuard then Helper.refCheck.name ++ "(" ++ name ++ ")" else name

/-- A marking comment, if the settings ask for it. -/
def markerText (settings : Settings) (text : String) : String :=
  if settings.markers then "-- " ++ text else ""

variable (settings : Settings)

mutual

/-- The text of an expression on a line at the given depth. -/
def Expr.render (depth : Nat) : Expr → String
  | .nil => "nil"
  | .bool true => "true"
  | .bool false => "false"
  | .vararg => "..."
  | .int n => toString n
  | .number x => numeral x
  | .string s => quote s
  | .bytes b => quoteBytes b
  | .name text => text
  | .read text => readText settings text
  | .paren e => "(" ++ e.render depth ++ ")"
  | .call f args =>
    asPrefix (f.render depth) ++ "(" ++ commaSeparated (Expr.renderList depth args) ++ ")"
  | .field e name => asPrefix (e.render depth) ++ fieldSuffix name
  | .index e key => asPrefix (e.render depth) ++ "[" ++ key.render depth ++ "]"
  | .unop .not e => "not " ++ e.render depth
  | .unop .neg e => "-" ++ e.render depth
  | .binop op left right =>
    left.render depth ++ " " ++ op.text ++ " " ++ right.render depth
  | .table fields => "\x7b" ++ commaSeparated (Field.render depth fields) ++ "\x7d"
  | .func params variadic body =>
    let all := if variadic then params ++ ["..."] else params
    "function (" ++ commaSeparated all ++ ")\n" ++ Stat.renderList (depth + 1) body
      ++ indentation depth ++ "end"
  | .lambda steps result =>
    "function () " ++ Step.renderList depth steps ++ "return " ++ result.render depth ++ " end"
  | .noted e note => e.render depth ++ " " ++ noteText note

def Expr.renderList (depth : Nat) : List Expr → List String
  | [] => []
  | e :: rest => e.render depth :: Expr.renderList depth rest

def Field.render (depth : Nat) : List Field → List String
  | [] => []
  | .item value :: rest => value.render depth :: Field.render depth rest
  | .keyed key value :: rest =>
    ("[" ++ key.render depth ++ "]=" ++ value.render depth) :: Field.render depth rest

def Step.render (depth : Nat) : Step → String
  | .define name value => "local " ++ name ++ " = " ++ value.render depth
  | .assign target value => target.render depth ++ " = " ++ value.render depth

def Step.renderList (depth : Nat) : List Step → String
  | [] => ""
  | s :: rest => s.render depth ++ "; " ++ Step.renderList depth rest

/-- The lines of a selection's arms, the first with the given keyword. -/
def Arm.render (depth : Nat) (keyword : String) : List Arm → String
  | [] => ""
  | .mk cond step :: rest =>
    line depth (keyword ++ " " ++ cond.render depth ++ " then " ++ step.render depth)
      ++ Arm.render depth "elseif" rest

def Step.renderElse (depth : Nat) : Option Step → String
  | none => ""
  | some step => line depth ("else " ++ step.render depth)

/-- The further branches of a conditional; their conditions belong to the inner depth. -/
def Tail.render (depth : Nat) : Tail → String
  | .none => ""
  | .otherwise body => line depth "else" ++ Stat.renderList (depth + 1) body
  | .elseif cond body tail =>
    line depth ("elseif " ++ cond.render (depth + 1) ++ " then")
      ++ Stat.renderList (depth + 1) body ++ tail.render depth

/-- The lines of a statement at the given depth. -/
def Stat.render (depth : Nat) : Stat → String
  | .note text => line depth (noteText text)
  | .marker text => if settings.markers then line depth (markerText settings text) else ""
  | .declare names => line depth ("local " ++ commaSeparated names)
  | .define names value =>
    line depth ("local " ++ commaSeparated names ++ " = " ++ value.render depth)
  | .assign target value =>
    line depth (separated (target.render depth ++ " = " ++ value.render depth))
  | .store target key => line depth (target.render depth ++ " = " ++ key)
  | .call e => line depth (separated (e.render depth))
  | .doBlock body => line depth "do" ++ Stat.renderList (depth + 1) body ++ line depth "end"
  | .whileLoop cond body =>
    line depth ("while " ++ cond.render depth ++ " do") ++ Stat.renderList (depth + 1) body
      ++ line depth "end"
  | .repeatUntil body cond =>
    line depth "repeat" ++ Stat.renderList (depth + 1) body
      ++ line depth ("until " ++ cond.render (depth + 1))
  | .ifThen cond body tail =>
    line depth ("if " ++ cond.render depth ++ " then") ++ Stat.renderList (depth + 1) body
      ++ tail.render depth ++ line depth "end"
  | .select arms otherwise =>
    Arm.render depth "if" arms ++ Step.renderElse depth otherwise ++ line depth "end"
  | .forIn key value iterator body =>
    line depth ("for " ++ key ++ ", " ++ value ++ " in " ++ iterator.render depth ++ " do")
      ++ Stat.renderList (depth + 1) body ++ line depth "end"
  | .scoped proxy object body =>
    let opening := if settings.markers then " " ++ markerText settings "WithStmt" else ""
    let closing := if settings.markers then " " ++ markerText settings "WithStmtEnd" else ""
    line depth "do"
      ++ line (depth + 1) ("local " ++ proxy ++ " = " ++ object.render depth ++ opening)
      ++ Stat.renderList (depth + 1) body ++ line depth ("end" ++ closing)
  | .goTo label => line depth ("goto " ++ label)
  | .label name => line depth ("::" ++ name ++ "::")
  | .breakLoop => line depth "break"
  | .ret value => line depth ("return " ++ value.render depth)

def Stat.renderList (depth : Nat) : List Stat → String
  | [] => ""
  | s :: rest => s.render depth ++ Stat.renderList depth rest

end

/-- A text with its line feeds replaced by the line terminator. -/
def withNewlines (newline : Newline) (text : String) : String :=
  match newline with
  | .lf => text
  | .crlf => String.ofList (text.toList.flatMap fun c => if c = '\n' then ['\r', '\n'] else [c])

/-- The text of a chunk. -/
def Chunk.render (chunk : Chunk) : String :=
  withNewlines settings.newline (Stat.renderList settings 0 chunk.body)

end EcmaLua.Lua
