import EcmaLua.Proofs.Lua.Lexer

/-!
# The grammar of Lua

The productions of Lua 5.2 as predicates on token lists, one predicate for each nonterminal and
one constructor for each alternative. A `return` statement is no statement: it can only come
last in a block. `IsChunk` is the whole: a text whose tokens are a block.
-/

namespace EcmaLua.Lua

namespace Grammar

/-- A keyword as a token list. -/
def kw (text : String) : List Token := [.keyword text]

/-- A symbol as a token list. -/
def sym (text : String) : List Token := [.symbol text]

/-- A name as a token list. -/
def name (text : String) : List Token := [.name text]

/-- The binary operators. -/
def binops : List Token :=
  [.symbol "+", .symbol "-", .symbol "*", .symbol "/", .symbol "^", .symbol "%", .symbol "..",
    .symbol "<", .symbol "<=", .symbol ">", .symbol ">=", .symbol "==", .symbol "~=",
    .keyword "and", .keyword "or"]

/-- The unary operators. -/
def unops : List Token := [.symbol "-", .keyword "not", .symbol "#"]

/-- Names between commas. -/
inductive NameList : List Token → Prop where
  | one (n : String) : NameList (name n)
  | more (n : String) {rest : List Token} (h : NameList rest) :
    NameList (name n ++ sym "," ++ rest)

/-- The parameters of a function. -/
inductive ParList : List Token → Prop where
  | none : ParList []
  | names {ns : List Token} (h : NameList ns) : ParList ns
  | variadic {ns : List Token} (h : NameList ns) : ParList (ns ++ sym "," ++ sym "...")
  | onlyVariadic : ParList (sym "...")

/-- The name of a function statement. -/
inductive FuncName : List Token → Prop where
  | one (n : String) : FuncName (name n)
  | field {ts : List Token} (h : FuncName ts) (n : String) : FuncName (ts ++ sym "." ++ name n)

mutual

inductive Exp : List Token → Prop where
  | nil : Exp (kw "nil")
  | falsity : Exp (kw "false")
  | truth : Exp (kw "true")
  | numeral (text : String) : Exp [.numeral text]
  | string (bytes : List UInt8) : Exp [.string bytes]
  | vararg : Exp (sym "...")
  | function {body : List Token} (h : FuncBody body) : Exp (kw "function" ++ body)
  | prefixExp {ts : List Token} (h : PrefixExp ts) : Exp ts
  | table {ts : List Token} (h : Table ts) : Exp ts
  | binop {a b : List Token} {op : Token} (ha : Exp a) (ho : op ∈ binops) (hb : Exp b) :
    Exp (a ++ [op] ++ b)
  | unop {a : List Token} {op : Token} (ho : op ∈ unops) (ha : Exp a) : Exp ([op] ++ a)

/-- What can stand in front of a call or an index. -/
inductive PrefixExp : List Token → Prop where
  | var {ts : List Token} (h : Var ts) : PrefixExp ts
  | call {ts : List Token} (h : Call ts) : PrefixExp ts
  | paren {ts : List Token} (h : Exp ts) : PrefixExp (sym "(" ++ ts ++ sym ")")

/-- What can stand on the left of an assignment. -/
inductive Var : List Token → Prop where
  | name (n : String) : Var (name n)
  | index {p k : List Token} (hp : PrefixExp p) (hk : Exp k) : Var (p ++ sym "[" ++ k ++ sym "]")
  | field {p : List Token} (hp : PrefixExp p) (n : String) : Var (p ++ sym "." ++ name n)

inductive Call : List Token → Prop where
  | plain {p a : List Token} (hp : PrefixExp p) (ha : Args a) : Call (p ++ a)
  | method {p a : List Token} (hp : PrefixExp p) (n : String) (ha : Args a) :
    Call (p ++ sym ":" ++ name n ++ a)

inductive Args : List Token → Prop where
  | none : Args (sym "(" ++ sym ")")
  | list {ts : List Token} (h : ExpList ts) : Args (sym "(" ++ ts ++ sym ")")
  | table {ts : List Token} (h : Table ts) : Args ts
  | string (bytes : List UInt8) : Args [.string bytes]

inductive ExpList : List Token → Prop where
  | one {ts : List Token} (h : Exp ts) : ExpList ts
  | more {ts rest : List Token} (h : Exp ts) (hr : ExpList rest) : ExpList (ts ++ sym "," ++ rest)

inductive Table : List Token → Prop where
  | empty : Table (sym "\x7b" ++ sym "\x7d")
  | fields {ts : List Token} (h : FieldList ts) : Table (sym "\x7b" ++ ts ++ sym "\x7d")

inductive FieldList : List Token → Prop where
  | one {ts : List Token} (h : Field ts) : FieldList ts
  | oneClosed {ts : List Token} {s : String} (h : Field ts) (hs : s ∈ [",", ";"]) :
    FieldList (ts ++ sym s)
  | more {ts rest : List Token} {s : String} (h : Field ts) (hs : s ∈ [",", ";"])
    (hr : FieldList rest) : FieldList (ts ++ sym s ++ rest)

inductive Field : List Token → Prop where
  | keyed {k v : List Token} (hk : Exp k) (hv : Exp v) :
    Field (sym "[" ++ k ++ sym "]" ++ sym "=" ++ v)
  | named (n : String) {v : List Token} (hv : Exp v) : Field (name n ++ sym "=" ++ v)
  | item {v : List Token} (hv : Exp v) : Field v

inductive FuncBody : List Token → Prop where
  | mk {ps b : List Token} (hp : ParList ps) (hb : Block b) :
    FuncBody (sym "(" ++ ps ++ sym ")" ++ b ++ kw "end")

/-- The left sides of an assignment. -/
inductive VarList : List Token → Prop where
  | one {ts : List Token} (h : Var ts) : VarList ts
  | more {ts rest : List Token} (h : Var ts) (hr : VarList rest) : VarList (ts ++ sym "," ++ rest)

inductive Stat : List Token → Prop where
  | empty : Stat (sym ";")
  | assign {vs es : List Token} (hv : VarList vs) (he : ExpList es) : Stat (vs ++ sym "=" ++ es)
  | call {ts : List Token} (h : Call ts) : Stat ts
  | label (n : String) : Stat (sym "::" ++ name n ++ sym "::")
  | leave : Stat (kw "break")
  | goTo (n : String) : Stat (kw "goto" ++ name n)
  | block {b : List Token} (h : Block b) : Stat (kw "do" ++ b ++ kw "end")
  | whileLoop {c b : List Token} (hc : Exp c) (hb : Block b) :
    Stat (kw "while" ++ c ++ kw "do" ++ b ++ kw "end")
  | repeatLoop {b c : List Token} (hb : Block b) (hc : Exp c) :
    Stat (kw "repeat" ++ b ++ kw "until" ++ c)
  | conditional {c b t : List Token} (hc : Exp c) (hb : Block b) (ht : Branches t) :
    Stat (kw "if" ++ c ++ kw "then" ++ b ++ t ++ kw "end")
  | numericFor (n : String) {a b : List Token} {body : List Token} (ha : Exp a) (hb : Exp b)
    (hs : Block body) :
    Stat (kw "for" ++ name n ++ sym "=" ++ a ++ sym "," ++ b ++ kw "do" ++ body ++ kw "end")
  | steppedFor (n : String) {a b c : List Token} {body : List Token} (ha : Exp a) (hb : Exp b)
    (hc : Exp c) (hs : Block body) :
    Stat (kw "for" ++ name n ++ sym "=" ++ a ++ sym "," ++ b ++ sym "," ++ c ++ kw "do" ++ body
      ++ kw "end")
  | genericFor {ns es body : List Token} (hn : NameList ns) (he : ExpList es) (hb : Block body) :
    Stat (kw "for" ++ ns ++ kw "in" ++ es ++ kw "do" ++ body ++ kw "end")
  | function {n : List Token} (hn : FuncName n) {b : List Token} (hb : FuncBody b) :
    Stat (kw "function" ++ n ++ b)
  | method {n : List Token} (hn : FuncName n) (m : String) {b : List Token} (hb : FuncBody b) :
    Stat (kw "function" ++ n ++ sym ":" ++ name m ++ b)
  | localFunction (n : String) {b : List Token} (hb : FuncBody b) :
    Stat (kw "local" ++ kw "function" ++ name n ++ b)
  | declare {ns : List Token} (hn : NameList ns) : Stat (kw "local" ++ ns)
  | define {ns es : List Token} (hn : NameList ns) (he : ExpList es) :
    Stat (kw "local" ++ ns ++ sym "=" ++ es)

/-- The further branches of a conditional. -/
inductive Branches : List Token → Prop where
  | none : Branches []
  | otherwise {b : List Token} (h : Block b) : Branches (kw "else" ++ b)
  | elseif {c b t : List Token} (hc : Exp c) (hb : Block b) (ht : Branches t) :
    Branches (kw "elseif" ++ c ++ kw "then" ++ b ++ t)

/-- Statements one after the other. -/
inductive Stats : List Token → Prop where
  | nil : Stats []
  | cons {ts rest : List Token} (h : Stat ts) (hr : Stats rest) : Stats (ts ++ rest)

inductive Return : List Token → Prop where
  | bare : Return (kw "return")
  | bareClosed : Return (kw "return" ++ sym ";")
  | values {es : List Token} (h : ExpList es) : Return (kw "return" ++ es)
  | valuesClosed {es : List Token} (h : ExpList es) : Return (kw "return" ++ es ++ sym ";")

inductive Block : List Token → Prop where
  | plain {ts : List Token} (h : Stats ts) : Block ts
  | closed {ts r : List Token} (h : Stats ts) (hr : Return r) : Block (ts ++ r)

end

end Grammar

/-- Whether a text is a chunk of Lua 5.2. -/
def IsChunk (text : String) : Prop :=
  ∃ tokens, scan text.toList = some tokens ∧ Grammar.Block tokens

end EcmaLua.Lua
