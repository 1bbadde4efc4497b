import EcmaLua.Lua.Printer

/-!
# Writing line by line

A writer goes through a chunk once. It appends lines to its output, each at the present indent,
goes one level deeper behind the first line of a block and one level back before the last; to go
back from the outermost level is a failure. The text of a function is written to an output of its
own, and the writer then goes on as before. A writer never fails, it writes what the printer
prints, and it ends at the level where it began.
-/

namespace EcmaLua.Lua

structure Writer where
  out : String := ""
  indent : Nat := 0

/-- An action of a writer, which may fail. -/
abbrev Write := StateT Writer Option

namespace Writer

def writeLine (text : String) : Write Unit :=
  modify fun w => { w with out := w.out ++ line w.indent text }

def deeper : Write Unit := modify fun w => { w with indent := w.indent + 1 }

/-- Go one level back. -/
def back : Write Unit := do
  let w ← get
  match w.indent with
  | 0 => failure
  | n + 1 => set { w with indent := n }

/-- The first line of a block. -/
def opening (text : String) : Write Unit := do
  writeLine text
  deeper

/-- The last line of a block. -/
def closing (text : String) : Write Unit := do
  back
  writeLine text

/-- A line between two parts of a block. -/
def between (text : String) : Write Unit := do
  back
  writeLine text
  deeper

/-- The blanks at the present level. -/
def blanks : Write String := do pure (indentation (← get).indent)

/-- What an action writes one level deeper, to an output of its own. -/
def apart (act : Write Unit) : Write String := do
  let outer ← get
  set { out := "", indent := outer.indent + 1 : Writer }
  act
  let inner ← get
  set outer
  pure inner.out

end Writer

open Writer

variable (settings : Settings)

mutual

/-- The text of an expression. -/
def Expr.write : Expr → Write String
  | .nil => pure "nil"
  | .bool true => pure "true"
  | .bool false => pure "false"
  | .vararg => pure "..."
  | .int n => pure (toString n)
  | .number x => pure (numeral x)
  | .string s => pure (quote s)
  | .bytes b => pure (quoteBytes b)
  | .name text => pure text
  | .read text => pure (readText settings text)
  | .paren e => do pure ("(" ++ (← e.write) ++ ")")
  | .call f args => do
    let callee ← f.write
    let texts ← Expr.writeList args
    pure (asPrefix callee ++ "(" ++ commaSeparated texts ++ ")")
  | .field e name => do pure (asPrefix (← e.write) ++ fieldSuffix name)
  | .index e key => do
    let base ← e.write
    pure (asPrefix base ++ "[" ++ (← key.write) ++ "]")
  | .unop .not e => do pure ("not " ++ (← e.write))
  | .unop .neg e => do pure ("-" ++ (← e.write))
  | .binop op left right => do
    let l ← left.write
    pure (l ++ " " ++ op.text ++ " " ++ (← right.write))
  | .table fields => do pure ("\x7b" ++ commaSeparated (← Field.write fields) ++ "\x7d")
  | .func params variadic body => do
    let all := if variadic then params ++ ["..."] else params
    let text ← apart (Stat.writeList body)
    pure ("function (" ++ commaSeparated all ++ ")\n" ++ text ++ (← blanks) ++ "end")
  | .lambda steps result => do
    let texts ← Step.writeList steps
    pure ("function () " ++ texts ++ "return " ++ (← result.write) ++ " end")
  | .noted e note => do pure ((← e.write) ++ " " ++ noteText note)

def Expr.writeList : List Expr → Write (List String)
  | [] => pure []
  | e :: rest => do
    let text ← e.write
    pure (text :: (← Expr.writeList rest))

def Field.write : List Field → Write (List String)
  | [] => pure []
  | .item value :: rest => do
    let text ← value.write
    pure (text :: (← Field.write rest))
  | .keyed key value :: rest => do
    let k ← key.write
    let v ← value.write
    pure (("[" ++ k ++ "]=" ++ v) :: (← Field.write rest))

def Step.write : Step → Write String
  | .define name value => do pure ("local " ++ name ++ " = " ++ (← value.write))
  | .assign target value => do
    let t ← target.write
    pure (t ++ " = " ++ (← value.write))

def Step.writeList : List Step → Write String
  | [] => pure ""
  | s :: rest => do
    let text ← s.write
    pure (text ++ "; " ++ (← Step.writeList rest))

/-- Write the arms of a selection, the first with the given keyword. -/
def Arm.write (keyword : String) : List Arm → Write Unit
  | [] => pure ()
  | .mk cond step :: rest => do
    let c ← cond.write
    let s ← step.write
    writeLine (keyword ++ " " ++ c ++ " then " ++ s)
    Arm.write "elseif" rest

def Step.writeElse : Option Step → Write Unit
  | none => pure ()
  | some step => do writeLine ("else " ++ (← step.write))

/-- Write the further branches of a conditional, from inside of the first. -/
def Tail.write : Tail → Write Unit
  | .none => pure ()
  | .otherwise body => do
    between "else"
    Stat.writeList body
  | .elseif cond body tail => do
    between ("elseif " ++ (← cond.write) ++ " then")
    Stat.writeList body
    tail.write

/-- Write the lines of a statement. -/
def Stat.write : Stat → Write Unit
  | .note text => writeLine (noteText text)
  | .marker text => if settings.markers then writeLine (markerText settings text) else pure ()
  | .declare names => writeLine ("local " ++ commaSeparated names)
  | .define names value => do
    writeLine ("local " ++ commaSeparated names ++ " = " ++ (← value.write))
  | .assign target value => do
    let t ← target.write
    writeLine (separated (t ++ " = " ++ (← value.write)))
  | .store target key => do writeLine ((← target.write) ++ " = " ++ key)
  | .call e => do writeLine (separated (← e.write))
  | .doBlock body => do
    opening "do"
    Stat.writeList body
    closing "end"
  | .whileLoop cond body => do
    opening ("while " ++ (← cond.write) ++ " do")
    Stat.writeList body
    closing "end"
  | .repeatUntil body cond => do
    opening "repeat"
    Stat.writeList body
    closing ("until " ++ (← cond.write))
  | .ifThen cond body tail => do
    opening ("if " ++ (← cond.write) ++ " then")
    Stat.writeList body
    tail.write
    closing "end"
  | .select arms otherwise => do
    Arm.write "if" arms
    Step.writeElse otherwise
    writeLine "end"
  | .forIn key value iterator body => do
    opening ("for " ++ key ++ ", " ++ value ++ " in " ++ (← iterator.write) ++ " do")
    Stat.writeList body
    closing "end"
  | .scoped proxy object body => do
    let o ← object.write
    opening "do"
    writeLine ("local " ++ proxy ++ " = " ++ o ++
      if settings.markers then " " ++ markerText settings "WithStmt" else "")
    Stat.writeList body
    closing ("end" ++ if settings.markers then " " ++ markerText settings "WithStmtEnd" else "")
  | .goTo label => writeLine ("goto " ++ label)
  | .label name => writeLine ("::" ++ name ++ "::")
  | .breakLoop => writeLine "break"
  | .ret value => do writeLine ("return " ++ (← value.write))

def Stat.writeList : List Stat → Write Unit
  | [] => pure ()
  | s :: rest => do
    s.write
    Stat.writeList rest

end

section Specifications

variable {α β : Type} {x : Write α} {act act' body : Write Unit} {value : Nat → α}
  {text text' : Nat → String}

/-- At each level the action has the value, and leaves the writer as it was. -/
def Tells (x : Write α) (value : Nat → α) : Prop := ∀ w, x w = some (value w.indent, w)

/-- At each level the action appends the text, and does nothing else. -/
def Prints (act : Write Unit) (text : Nat → String) : Prop :=
  ∀ w, act w = some ((), { w with out := w.out ++ text w.indent })

/-- Inside of a block the action appends the text, which is for the level outside. -/
def PrintsInside (act : Write Unit) (text : Nat → String) : Prop :=
  ∀ out depth, act ⟨out, depth + 1⟩ = some ((), ⟨out ++ text depth, depth + 1⟩)

theorem Writer.run_bind {f : α → Write β} {w w' : Writer} {a : α} (h : x w = some (a, w')) :
    (x >>= f) w = f a w' := by
  change (x w).bind (fun p => f p.1 p.2) = _
  rw [h]
  rfl

theorem Tells.pure (a : α) : Tells (Pure.pure a : Write α) fun _ => a := fun _ => rfl

theorem Tells.bind {f : α → Write β} {value' : α → Nat → β} (h : Tells x value)
    (hf : ∀ a, Tells (f a) (value' a)) :
    Tells (x >>= f) fun depth => value' (value depth) depth := by
  intro w
  rw [run_bind (h w)]
  exact hf _ w

theorem Tells.print {f : α → Write Unit} {text : α → Nat → String} (h : Tells x value)
    (hf : ∀ a, Prints (f a) (text a)) :
    Prints (x >>= f) fun depth => text (value depth) depth := by
  intro w
  rw [run_bind (h w)]
  exact hf _ w

theorem tells_blanks : Tells blanks indentation := fun _ => rfl

theorem prints_writeLine (text : String) : Prints (writeLine text) (line · text) := fun _ => rfl

theorem prints_nothing : Prints (pure ()) fun _ => "" := by
  intro w
  rw [String.append_empty]
  rfl

theorem Prints.append (h : Prints act text) (h' : Prints act' text') :
    Prints (do
      act
      act') fun depth => text depth ++ text' depth := by
  intro w
  rw [run_bind (h w), h', String.append_assoc]

/-- Three parts, one after the other. -/
theorem Prints.append₂ {act'' : Write Unit} {text'' : Nat → String} (h : Prints act text)
    (h' : Prints act' text') (h'' : Prints act'' text'') :
    Prints (do
      act
      act'
      act'') fun depth => text depth ++ text' depth ++ text'' depth := by
  intro w
  simp only [String.append_assoc]
  exact h.append (h'.append h'') w

theorem Prints.inside (h : Prints act text) : PrintsInside act fun depth => text (depth + 1) :=
  fun out depth => h ⟨out, depth + 1⟩

theorem PrintsInside.append (h : PrintsInside act text) (h' : PrintsInside act' text') :
    PrintsInside (do
      act
      act') fun depth => text depth ++ text' depth := by
  intro out depth
  rw [run_bind (h out depth), h', String.append_assoc]

theorem PrintsInside.append₂ {act'' : Write Unit} {text'' : Nat → String}
    (h : PrintsInside act text) (h' : PrintsInside act' text') (h'' : PrintsInside act'' text'') :
    PrintsInside (do
      act
      act'
      act'') fun depth => text depth ++ text' depth ++ text'' depth := by
  intro out depth
  simp only [String.append_assoc]
  exact h.append (h'.append h'') out depth

theorem Tells.printInside {f : α → Write Unit} {text : α → Nat → String} (h : Tells x value)
    (hf : ∀ a, PrintsInside (f a) (text a)) :
    PrintsInside (x >>= f) fun depth => text (value (depth + 1)) depth := by
  intro out depth
  rw [run_bind (h ⟨out, depth + 1⟩)]
  exact hf _ out depth

theorem printsInside_nothing : PrintsInside (pure ()) fun _ => "" := by
  intro out depth
  rw [String.append_empty]
  rfl

/-- A line between two parts stands at the level of the block. -/
theorem printsInside_between (text : String) : PrintsInside (between text) (line · text) :=
  fun _ _ => rfl

/-- A block: what is in it stands one level deeper, and its last line is made there. -/
theorem PrintsInside.blockUntil (h : PrintsInside act text) (hx : Tells x value) (head : String)
    (foot : α → String) :
    Prints (do
      opening head
      act
      closing (foot (← x)))
      fun depth => line depth head ++ text depth ++ line depth (foot (value (depth + 1))) := by
  intro w
  have hopen : opening head w = some ((), ⟨w.out ++ line w.indent head, w.indent + 1⟩) := rfl
  have hclose (out last : String) (depth : Nat) :
      closing last ⟨out, depth + 1⟩ = some ((), ⟨out ++ line depth last, depth⟩) := rfl
  rw [run_bind hopen, run_bind (h _ _), run_bind (hx _), hclose]
  simp only [String.append_assoc]

theorem PrintsInside.block (h : PrintsInside act text) (head foot : String) :
    Prints (do
      opening head
      act
      closing foot) fun depth => line depth head ++ text depth ++ line depth foot :=
  h.blockUntil (.pure ()) head fun _ => foot

/-- A block of two parts. -/
theorem PrintsInside.block₂ (h : PrintsInside act text) (h' : PrintsInside act' text')
    (head foot : String) :
    Prints (do
      opening head
      act
      act'
      closing foot)
      fun depth => line depth head ++ text depth ++ text' depth ++ line depth foot := by
  have hboth := (h.append h').block head foot
  simp only [bind_assoc, ← String.append_assoc] at hboth
  exact hboth

/-- The text of a function, from what its body prints. -/
theorem Prints.apart (h : Prints act text) : Tells (apart act) fun depth => text (depth + 1) := by
  intro w
  have hact := h ⟨"", w.indent + 1⟩
  have happly : Writer.apart act w =
      (act ⟨"", w.indent + 1⟩).bind fun result => some (result.2.out, w) := rfl
  rw [happly, hact, String.empty_append]
  rfl

end Specifications

-- the walk puts the specifications together and never opens them
attribute [local irreducible] Tells Prints PrintsInside

mutual

/-- The text of an expression is what the printer prints, and the writer stays as it was. -/
theorem Expr.tells_write : (e : Expr) → Tells (e.write settings) (e.render settings ·)
  | .nil | .bool true | .bool false | .vararg | .int _ | .number _ | .string _ | .bytes _
  | .name _ | .read _ => .pure _
  | .paren e | .field e _ | .unop .not e | .unop .neg e
  | .noted e _ => (Expr.tells_write e).bind fun _ => .pure _
  | .call f args =>
    (Expr.tells_write f).bind fun _ => (Expr.tells_writeList args).bind fun _ => .pure _
  | .index e key => (Expr.tells_write e).bind fun _ => (Expr.tells_write key).bind fun _ => .pure _
  | .binop _ left right =>
    (Expr.tells_write left).bind fun _ => (Expr.tells_write right).bind fun _ => .pure _
  | .table fields => (Field.tells_write fields).bind fun _ => .pure _
  | .func _ _ body =>
    (Stat.prints_writeList body).apart.bind fun _ => tells_blanks.bind fun _ => .pure _
  | .lambda steps result =>
    (Step.tells_writeList steps).bind fun _ => (Expr.tells_write result).bind fun _ => .pure _

theorem Expr.tells_writeList : (es : List Expr) →
    Tells (Expr.writeList settings es) (Expr.renderList settings · es)
  | [] => .pure _
  | e :: rest =>
    (Expr.tells_write e).bind fun _ => (Expr.tells_writeList rest).bind fun _ => .pure _

theorem Field.tells_write : (fields : List Field) →
    Tells (Field.write settings fields) (Field.render settings · fields)
  | [] => .pure _
  | .item value :: rest =>
    (Expr.tells_write value).bind fun _ => (Field.tells_write rest).bind fun _ => .pure _
  | .keyed key value :: rest =>
    (Expr.tells_write key).bind fun _ => (Expr.tells_write value).bind fun _ =>
      (Field.tells_write rest).bind fun _ => .pure _

theorem Step.tells_write : (s : Step) → Tells (s.write settings) (s.render settings ·)
  | .define _ value => (Expr.tells_write value).bind fun _ => .pure _
  | .assign target value =>
    (Expr.tells_write target).bind fun _ => (Expr.tells_write value).bind fun _ => .pure _

theorem Step.tells_writeList : (steps : List Step) →
    Tells (Step.writeList settings steps) (Step.renderList settings · steps)
  | [] => .pure _
  | s :: rest =>
    (Step.tells_write s).bind fun _ => (Step.tells_writeList rest).bind fun _ => .pure _

theorem Arm.prints_write (keyword : String) : (arms : List Arm) →
    Prints (Arm.write settings keyword arms) (Arm.render settings · keyword arms)
  | [] => prints_nothing
  | .mk cond step :: rest =>
    (Expr.tells_write cond).print fun _ => (Step.tells_write step).print fun _ =>
      (prints_writeLine _).append (Arm.prints_write "elseif" rest)

theorem Step.prints_writeElse : (step : Option Step) →
    Prints (Step.writeElse settings step) (Step.renderElse settings · step)
  | none => prints_nothing
  | some step => (Step.tells_write step).print fun _ => prints_writeLine _

theorem Tail.printsInside_write : (tail : Tail) →
    PrintsInside (tail.write settings) (tail.render settings ·)
  | .none => printsInside_nothing
  | .otherwise body => (printsInside_between _).append (Stat.prints_writeList body).inside
  | .elseif cond body tail =>
    (Expr.tells_write cond).printInside fun _ =>
      (printsInside_between _).append₂ (Stat.prints_writeList body).inside
        (Tail.printsInside_write tail)

/-- Writing a statement appends what the printer prints. -/
theorem Stat.prints_write : (s : Stat) → Prints (s.write settings) (s.render settings ·)
  | .note _ | .declare _ | .goTo _ | .label _ | .breakLoop => prints_writeLine _
  | .marker text => by
    unfold Stat.write Stat.render
    cases settings.markers with
    | true => exact prints_writeLine _
    | false => exact prints_nothing
  | .define _ value | .ret value => (Expr.tells_write value).print fun _ => prints_writeLine _
  | .assign target value =>
    (Expr.tells_write target).print fun _ => (Expr.tells_write value).print fun _ =>
      prints_writeLine _
  | .store target _ => (Expr.tells_write target).print fun _ => prints_writeLine _
  | .call e => (Expr.tells_write e).print fun _ => prints_writeLine _
  | .doBlock body => (Stat.prints_writeList body).inside.block _ _
  | .whileLoop cond body =>
    (Expr.tells_write cond).print fun _ => (Stat.prints_writeList body).inside.block _ _
  | .repeatUntil body cond =>
    (Stat.prints_writeList body).inside.blockUntil (Expr.tells_write cond) _ _
  | .ifThen cond body tail =>
    (Expr.tells_write cond).print fun _ =>
      (Stat.prints_writeList body).inside.block₂ (Tail.printsInside_write tail) _ _
  | .select arms otherwise =>
    (Arm.prints_write "if" arms).append₂ (Step.prints_writeElse otherwise) (prints_writeLine _)
  | .forIn _ _ iterator body =>
    (Expr.tells_write iterator).print fun _ => (Stat.prints_writeList body).inside.block _ _
  | .scoped _ object body =>
    (Expr.tells_write object).print fun _ =>
      (prints_writeLine _).inside.block₂ (Stat.prints_writeList body).inside _ _

theorem Stat.prints_writeList : (code : List Stat) →
    Prints (Stat.writeList settings code) (Stat.renderList settings · code)
  | [] => prints_nothing
  | s :: rest => (Stat.prints_write s).append (Stat.prints_writeList rest)

end

end EcmaLua.Lua
