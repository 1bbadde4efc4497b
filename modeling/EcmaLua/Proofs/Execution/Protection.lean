import EcmaLua.Lua.Chunk

/-!
# Running the scaffold of protected code

How Lua runs the code around protected calls: closures are made and called, `pcall` stops what
`error` raises, and locals, conditionals and `return` decide what comes next. What a closure does
when it is called, and what all other code does, is up to a host. Every call is noted in a log
together with the way it ended, so that the log of a run tells which closures were called, how
often and in which order.
-/

namespace EcmaLua.Protection

open Lua (Stat)

/-- The values of a run. -/
inductive Value where
  | nil
  | bool (b : Bool)
  | int (n : Nat)
  | number (x : Double)
  | string (text : String)
  /-- a table that a constructor made, by its address -/
  | table (address : Nat)
  /-- a closure of the scaffold, by its number -/
  | closure (number : Nat)
  /-- the function `pcall` -/
  | protect
  /-- the function `error` -/
  | raise
  /-- what only the host knows -/
  | foreign (id : Nat)
deriving DecidableEq, Repr

/-- All values but nil and false count as true. -/
def Value.truth : Value → Bool
  | .nil => false
  | .bool b => b
  | _ => true

/-- How a call ends. -/
inductive Exit where
  | completes
  | returns (v : Value)
  | raises (v : Value)
deriving DecidableEq, Repr

/-- A call that was made, and how it ended. -/
structure Call where
  callee : Value
  args : List Value
  exit : Exit
deriving DecidableEq, Repr

/-- Locals with their values, the innermost first. -/
abbrev Env := List (String × Value)

/-- What running code can change: the tables, each of which gives every key a value, and the rest
of the world. A key that a table lacks has the value nil. -/
structure Memory (W : Type) where
  tables : List (Value → Value)
  world : W

/-- The behaviour of everything that is not part of the scaffold. -/
structure Host where
  World : Type
  call : Value → List Value → Memory World → Exit × Memory World
  /-- a field of a value that is no table of `Memory` -/
  index : Value → Value → Memory World → Except Value Value × Memory World
  value : Lua.Expr → Env → Memory World → Except Value Value × Memory World
  perform : Stat → Env → Memory World → Exit × Memory World
  /-- a message with the place where it was raised in front -/
  locate : String → String

/-- The state of a run. -/
structure Machine (H : Host) where
  memory : Memory H.World
  /-- the closures made so far, with their parameters and code -/
  closures : List (List String × List Stat) := []
  log : List Call := []

/-- A computation that gives a result or raises a value. -/
abbrev Run (H : Host) (α : Type) := ExceptT Value (StateM (Machine H)) α

namespace Run

variable {H : Host} {α β : Type}

theorem bind_apply (x : Run H α) (f : α → Run H β) (m : Machine H) :
    (x >>= f) m = match x m with
      | (.ok a, m') => f a m'
      | (.error v, m') => (.error v, m') := by
  change ExceptT.bindCont f (x m).1 (x m).2 = _
  rcases x m with ⟨_ | _, _⟩ <;> rfl

theorem pure_apply (a : α) (m : Machine H) : (pure a : Run H α) m = (.ok a, m) := rfl

end Run

variable {H : Host}

/-- An action of the host on the memory. -/
def ofHost (act : Memory H.World → Except Value Value × Memory H.World) : Run H Value :=
  fun m => ((act m.memory).1, { m with memory := (act m.memory).2 })

/-- The values that a call gives to its caller, if it does not raise. -/
def Exit.results : Exit → Except Value (List Value)
  | .completes => .ok []
  | .returns v => .ok [v]
  | .raises v => .error v

/-- Call a value and note the call. -/
def call (f : Value) (args : List Value) : Run H (List Value) := fun m =>
  let (exit, memory) := H.call f args m.memory
  (exit.results, { m with memory, log := m.log ++ [⟨f, args, exit⟩] })

/-- The value that `error` raises: a message gets a position, unless the level is zero. -/
def raisedBy (H : Host) (args : List Value) : Value :=
  match args.headD .nil with
  | .string text => if args[1]? = some (.int 0) then .string text else .string (H.locate text)
  | v => v

/-- Call a value that may be `error`. -/
def invoke (f : Value) (args : List Value) : Run H (List Value) :=
  match f with
  | .raise => throw (raisedBy H args)
  | f => call f args

/-- Stop what a computation raises: the first result tells whether it came through. -/
def shield (x : Run H (List Value)) : Run H (List Value) := fun m =>
  match x m with
  | (.ok results, m') => (.ok (.bool true :: results), m')
  | (.error v, m') => (.ok [.bool false, v], m')

/-- Call a value that may be `pcall` or `error`. -/
def apply (f : Value) (args : List Value) : Run H (List Value) :=
  match f, args with
  | .protect, g :: rest => shield (invoke g rest)
  | f, args => invoke f args

/-- A new closure. -/
def newClosure (params : List String) (code : List Stat) : Run H Value := fun m =>
  (.ok (.closure m.closures.length), { m with closures := m.closures ++ [(params, code)] })

/-- A new table with one field. -/
def newTable (key value : Value) : Run H Value := fun m =>
  let table : Value → Value := fun k => if k = key then value else .nil
  (.ok (.table m.memory.tables.length),
    { m with memory := { m.memory with tables := m.memory.tables ++ [table] } })

/-- The value of a field. -/
def fieldOf (v key : Value) : Run H Value := fun m =>
  match v with
  | .table address =>
    match m.memory.tables[address]? with
    | some table => (.ok (table key), m)
    | none => ofHost (H.index v key) m
  | v => ofHost (H.index v key) m

/-- The first of several results. -/
def first (results : List Value) : Value := results.headD .nil

mutual

/-- The results of an expression. Locals never have the names of `pcall` and `error`. -/
def eval (env : Env) : Lua.Expr → Run H (List Value)
  | .nil => pure [.nil]
  | .bool b => pure [.bool b]
  | .int n => pure [.int n]
  | .number x => pure [.number x]
  | .string text => pure [.string text]
  | .name "pcall" => pure [.protect]
  | .name "error" => pure [.raise]
  | .name text =>
    match env.lookup text with
    | some v => pure [v]
    | none => do pure [← ofHost (H.value (.name text) env)]
  | .paren e => do pure [first (← eval env e)]
  | .call f args => do
    let callee := first (← eval env f)
    apply callee (← evalArgs env args)
  | .field e name => do pure [← fieldOf (first (← eval env e)) (.string name)]
  | .unop .not e => do pure [.bool !(first (← eval env e)).truth]
  | .binop .and l r => do
    let v := first (← eval env l)
    if v.truth then pure [first (← eval env r)] else pure [v]
  | .binop .or l r => do
    let v := first (← eval env l)
    if v.truth then pure [v] else pure [first (← eval env r)]
  | .binop .ne .nil e => do pure [.bool (decide (first (← eval env e) ≠ .nil))]
  | .table [.keyed key value] => do
    let k := first (← eval env key)
    pure [← newTable k (first (← eval env value))]
  | .func params _ body => do pure [← newClosure params body]
  | e => do pure [← ofHost (H.value e env)]

def evalArgs (env : Env) : List Lua.Expr → Run H (List Value)
  | [] => pure []
  | e :: rest => do
    let v := first (← eval env e)
    pure (v :: (← evalArgs env rest))

end

/-- One piece of code behind another, unless the first returns. -/
def andThen (x next : Run H (Option Value)) : Run H (Option Value) := do
  match ← x with
  | none => next
  | some v => pure (some v)

/-- Locals for names, with nil where the values run out. -/
def bindAll : List String → List Value → Env → Env
  | [], _, env => env
  | name :: rest, values, env => bindAll rest values.tail ((name, first values) :: env)

mutual

/-- Run a statement; the value is that of a `return`. -/
def exec (env : Env) : Stat → Run H (Option Value)
  | .note _ => pure none
  | .marker _ => pure none
  | .label _ => pure none
  | .call e => do
    let _ ← eval env e
    pure none
  | .ret e => do pure (some (first (← eval env e)))
  | .doBlock body => execList env body
  | .ifThen cond body tail => do
    if (first (← eval env cond)).truth then execList env body else execTail env tail
  | s => fun m =>
    let (exit, memory) := H.perform s env m.memory
    (exit.results.map List.head?, { m with memory })

def execTail (env : Env) : Lua.Tail → Run H (Option Value)
  | .none => pure none
  | .otherwise body => execList env body
  | .elseif cond body tail => do
    if (first (← eval env cond)).truth then execList env body else execTail env tail

/-- Run statements in order, up to a `return`. -/
def execList (env : Env) : List Stat → Run H (Option Value)
  | [] => pure none
  | .define names value :: rest => do
    let results ← eval env value
    execList (bindAll names results env) rest
  | s :: rest => andThen (exec env s) (execList env rest)

end

@[simp] theorem Value.truth_bool (b : Bool) : (Value.bool b).truth = b := rfl

@[simp] theorem first_cons (v : Value) (results : List Value) : first (v :: results) = v := rfl

theorem lookup_cons_of_ne {env : Env} {name other : String} {v : Value} (h : name ≠ other) :
    ((other, v) :: env).lookup name = env.lookup name := by
  rw [List.lookup_cons, beq_false_of_ne h]

theorem eval_local {env : Env} {text : String} {v : Value} (hp : text ≠ "pcall")
    (he : text ≠ "error") (h : env.lookup text = some v) :
    eval (H := H) env (.name text) = pure [v] := by
  rw [eval, h]
  · exact hp
  · exact he

theorem newClosure_bind {α : Type} {params : List String} {code : List Stat}
    {k k' : Value → Run H α} (h : ∀ n, k (.closure n) = k' (.closure n)) :
    newClosure params code >>= k = newClosure params code >>= k' := by
  funext m
  rw [Run.bind_apply, Run.bind_apply]
  exact congrFun (h _) _

theorem andThen_bind {α : Type} (x : Run H α) (k : α → Run H (Option Value))
    (next : Run H (Option Value)) : andThen (x >>= k) next = x >>= fun a => andThen (k a) next :=
  bind_assoc ..

@[simp] theorem andThen_none (next : Run H (Option Value)) : andThen (pure none) next = next :=
  pure_bind ..

@[simp] theorem andThen_some (v : Value) (next : Run H (Option Value)) :
    andThen (pure (some v)) next = pure (some v) :=
  pure_bind ..

@[simp] theorem andThen_throw (v : Value) (next : Run H (Option Value)) :
    andThen (throw v) next = throw v := rfl

@[simp] theorem andThen_pure_none (x : Run H (Option Value)) : andThen x (pure none) = x := by
  calc andThen x (pure none)
    _ = x >>= pure := bind_congr fun result => by cases result <;> rfl
    _ = x := bind_pure x

theorem call_apply (f : Value) (args : List Value) (m : Machine H) :
    call f args m = ((H.call f args m.memory).1.results,
      { m with
        memory := (H.call f args m.memory).2
        log := m.log ++ [⟨f, args, (H.call f args m.memory).1⟩] }) := rfl

/-- Looking into a value changes the memory only. -/
theorem fieldOf_frame (v key : Value) (m : Machine H) :
    (fieldOf v key m).2.log = m.log ∧ (fieldOf v key m).2.closures = m.closures := by
  unfold fieldOf
  split
  · split
    · exact ⟨rfl, rfl⟩
    · exact ⟨rfl, rfl⟩
  · exact ⟨rfl, rfl⟩

section Steps

variable (env : Env) (rest : List Stat)

attribute [local simp] exec execList

@[simp] theorem execList_marker (text : String) :
    execList (H := H) env (.marker text :: rest) = execList env rest := by
  simp

@[simp] theorem execList_define (names : List String) (e : Lua.Expr) :
    execList (H := H) env (.define names e :: rest) =
      eval env e >>= fun results => execList (bindAll names results env) rest := by
  simp

@[simp] theorem execList_call (e : Lua.Expr) :
    execList (H := H) env (.call e :: rest) = eval env e >>= fun _ => execList env rest := by
  rw [execList, exec, andThen_bind]
  · simp only [andThen_none]
  · nofun

@[simp] theorem execList_ret (e : Lua.Expr) :
    execList (H := H) env (.ret e :: rest) =
      eval env e >>= fun results => pure (some (first results)) := by
  rw [execList, exec, andThen_bind]
  · simp only [andThen_some]
  · nofun

@[simp] theorem execList_ifThen (cond : Lua.Expr) (body : List Stat) :
    execList (H := H) env (.ifThen cond body .none :: rest) =
      eval env cond >>= fun results =>
        if (first results).truth then andThen (execList env body) (execList env rest)
        else execList env rest := by
  rw [execList, exec, andThen_bind]
  · refine bind_congr fun results => ?_
    split
    · rfl
    · rw [execTail, andThen_none]
  · nofun

@[simp] theorem execList_nil : execList (H := H) env [] = pure none := by
  rw [execList]

@[simp] theorem execList_note (text : String) :
    execList (H := H) env (.note text :: rest) = execList env rest := by
  simp

@[simp] theorem execList_doBlock (code : List Stat) :
    execList (H := H) env [.doBlock code] = execList env code := by
  rw [execList, exec, execList_nil, andThen_pure_none]
  nofun

/-- A label behind code changes nothing. -/
theorem execList_append_label (code : List Stat) (name : String) :
    execList (H := H) env (code ++ [.label name]) = execList env code := by
  induction code generalizing env with
  | nil => simp
  | cons s rest ih =>
    by_cases hs : ∃ names e, s = .define names e
    · obtain ⟨names, e, rfl⟩ := hs
      rw [List.cons_append, execList_define, execList_define]
      exact bind_congr fun results => ih _
    · rw [List.cons_append, execList, execList]
      · rw [ih]
      · exact fun names e h => hs ⟨names, e, h⟩
      · exact fun names e h => hs ⟨names, e, h⟩

end Steps

/-- The host of closures that end in given ways, in the order in which they are made. -/
def scripted (exits : List Exit) : Host where
  World := Unit
  call f _ μ :=
    match f with
    | .closure n => (exits.getD n .completes, μ)
    | _ => (.completes, μ)
  index _ _ μ := (.ok .nil, μ)
  value _ _ μ := (.ok .nil, μ)
  perform _ _ μ := (.completes, μ)
  locate := id

end EcmaLua.Protection
