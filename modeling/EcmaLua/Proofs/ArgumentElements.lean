import EcmaLua.Proofs.Execution.Attempt

/-!
# Elements of the arguments

A function that mentions `arguments` packs what it is called with into a table, where the element
with the number `n` has the position `n + 1`. Every operation on an element goes to the position
behind its number, with one exception: a deletion goes to the position of the number itself.
-/

namespace EcmaLua

open Emission

open Lua (Helper Stat)

namespace Lua

/-- An object and the key that it is asked for. -/
structure Access where
  object : Expr
  key : Expr

/-- The access that a call makes: two support functions are called with an object and a key. -/
def callAccess : Expr → List Expr → List Access
  | .name text, object :: key :: _ =>
    if text = Helper.callMember.name ∨ text = Helper.delete.name then [⟨object, key⟩] else []
  | _, _ => []

mutual

/-- The accesses with a computed key. -/
@[simp] def Expr.accesses : Expr → List Access
  | .nil | .bool _ | .vararg | .int _ | .number _ | .string _ | .bytes _ | .name _ | .read _ => []
  | .paren e | .field e _ | .unop _ e | .noted e _ => e.accesses
  | .call f args => callAccess f args ++ f.accesses ++ Expr.accessesList args
  | .index e key => ⟨e, key⟩ :: e.accesses ++ key.accesses
  | .binop _ left right => left.accesses ++ right.accesses
  | .table fields => Field.accessesList fields
  | .func _ _ body => Stat.accessesList body
  | .lambda steps result => Step.accessesList steps ++ result.accesses

@[simp] def Expr.accessesList : List Expr → List Access
  | [] => []
  | e :: rest => e.accesses ++ Expr.accessesList rest

@[simp] def Field.accessesList : List Field → List Access
  | [] => []
  | .item value :: rest => value.accesses ++ Field.accessesList rest
  | .keyed key value :: rest => key.accesses ++ value.accesses ++ Field.accessesList rest

@[simp] def Step.accesses : Step → List Access
  | .define _ value => value.accesses
  | .assign target value => target.accesses ++ value.accesses

@[simp] def Step.accessesList : List Step → List Access
  | [] => []
  | s :: rest => s.accesses ++ Step.accessesList rest

@[simp] def Step.accessesOpt : Option Step → List Access
  | none => []
  | some s => s.accesses

@[simp] def Arm.accessesList : List Arm → List Access
  | [] => []
  | .mk cond step :: rest => cond.accesses ++ step.accesses ++ Arm.accessesList rest

@[simp] def Tail.accesses : Tail → List Access
  | .none => []
  | .otherwise body => Stat.accessesList body
  | .elseif cond body tail => cond.accesses ++ Stat.accessesList body ++ tail.accesses

@[simp] def Stat.accesses : Stat → List Access
  | .note _ | .marker _ | .declare _ | .goTo _ | .label _ | .breakLoop => []
  | .define _ value => value.accesses
  | .assign target value => target.accesses ++ value.accesses
  | .store target _ => target.accesses
  | .call e => e.accesses
  | .doBlock body => Stat.accessesList body
  | .whileLoop cond body => cond.accesses ++ Stat.accessesList body
  | .repeatUntil body cond => Stat.accessesList body ++ cond.accesses
  | .ifThen cond body tail => cond.accesses ++ Stat.accessesList body ++ tail.accesses
  | .select arms otherwise => Arm.accessesList arms ++ Step.accessesOpt otherwise
  | .forIn _ _ iterator body => iterator.accesses ++ Stat.accessesList body
  | .scoped _ object body => object.accesses ++ Stat.accessesList body
  | .ret value => value.accesses

@[simp] def Stat.accessesList : List Stat → List Access
  | [] => []
  | s :: rest => s.accesses ++ Stat.accessesList rest

end

/-- The other support functions make no access themselves. -/
theorem accesses_helper {h : Helper} (hm : h ≠ .callMember) (hd : h ≠ .delete)
    (args : List Expr) : (h.call args).accesses = Expr.accessesList args := by
  have hown : callAccess h.expr args = [] ∧ h.expr.accesses = [] := by
    cases h
    case callMember => exact absurd rfl hm
    case delete => exact absurd rfl hd
    all_goals
      rcases args with _ | ⟨object, _ | ⟨key, rest⟩⟩ <;>
        simp [Helper.expr, Helper.library, Helper.name, callAccess]
  rw [Helper.call, Expr.accesses, hown.1, hown.2, List.append_nil, List.nil_append]

theorem accesses_callMember (object key : Expr) (args : List Expr) :
    (Helper.callMember.call (object :: key :: args)).accesses =
      ⟨object, key⟩ :: (object.accesses ++ (key.accesses ++ Expr.accessesList args)) := by
  simp [Helper.call, Helper.expr, Helper.library, callAccess]

theorem accesses_delete (object key : Expr) :
    (Helper.delete.call [object, key]).accesses =
      ⟨object, key⟩ :: (object.accesses ++ key.accesses) := by
  simp [Helper.call, Helper.expr, Helper.library, callAccess]

/-- What expressions are as numbers, if they are any; addition is that of numbers. -/
structure Valuation where
  number : Expr → Option Nat
  add : ∀ left n, number (.binop .add left (.int n)) = (number left).map (· + n)

/-- Names, whole numbers, and sums of them with a number. -/
def Expr.number? (env : String → Option Nat) : Expr → Option Nat
  | .name text | .read text => env text
  | .int n => some n
  | .binop .add left (.int n) => (left.number? env).map (· + n)
  | _ => none

/-- The valuation where names have the given values. -/
def Valuation.ofNames (env : String → Option Nat) : Valuation := ⟨Expr.number? env, fun _ _ => rfl⟩

/-- One more than a number. -/
def Expr.next (number : Expr) : Expr := .binop .add number (.int 1)

/-- The contents of a table of packed values: the first value has the position one. -/
def packed {α : Type} (values : List α) : Nat → Option α
  | 0 => none
  | position + 1 => values[position]?

end Lua

/-- An operation on a place of the program. -/
inductive PlaceOp where
  | read
  | assign (value : Expr)
  | compound (op : BinaryOp) (value : Expr)
  | update (op : UpdateOp) (leading : Bool)
  | invoke (args : List Expr)
  | delete

namespace PlaceOp

/-- The operation as an expression. -/
def on (place : Expr) : PlaceOp → Expr
  | .read => place
  | .assign value => .assign none place value
  | .compound op value => .assign (some op) place value
  | .update op leading => .update op leading place
  | .invoke args => .call place args
  | .delete => .unary .delete place

/-- The operands apart from the place. -/
def operands : PlaceOp → List Expr
  | .read | .update _ _ | .delete => []
  | .assign value | .compound _ value => [value]
  | .invoke args => args

/-- The key for an element of the arguments, from the code of its number. -/
def key : PlaceOp → Lua.Expr → Lua.Expr
  | .delete => id
  | _ => Lua.Expr.next

end PlaceOp

/-- An element of the arguments. -/
def argument (k : Expr) : Expr := .index (.ident "arguments") k

/-- The code of the packed arguments. -/
def Lua.Expr.IsArguments (e : Lua.Expr) : Prop := e = .name "arguments" ∨ e = .read "arguments"

/-- Among accesses, there are `n` of the element of the arguments, with keys that `shift` gives
from code for `k`. All others belong to code for `k` or for one of the operands. -/
def Reaches (shift : Lua.Expr → Lua.Expr) (k : Expr) (operands : List Expr) (n : Nat)
    (found : List Lua.Access) : Prop :=
  ∃ (own : List (Lua.Expr × Lua.Expr)) (inner : List Lua.Expr), own.length = n ∧
    (∀ p ∈ own, p.1.IsArguments ∧ Yields k.emit.value p.2) ∧
    (∀ e ∈ inner, ∃ operand ∈ k :: operands, Yields operand.emit.value e) ∧
    found.Perm (own.map (fun p => ⟨p.1, shift p.2⟩) ++ inner.flatMap Lua.Expr.accesses)

namespace Reaches

variable {shift : Lua.Expr → Lua.Expr} {k : Expr} {operands : List Expr} {n m : Nat}
  {found found' : List Lua.Access}

theorem nil : Reaches shift k operands 0 [] :=
  ⟨[], [], rfl, nofun, nofun, List.Perm.refl _⟩

theorem append (h : Reaches shift k operands n found) (h' : Reaches shift k operands m found') :
    Reaches shift k operands (n + m) (found ++ found') := by
  obtain ⟨own, inner, hn, ho, hi, hp⟩ := h
  obtain ⟨own', inner', hm, ho', hi', hp'⟩ := h'
  refine ⟨own ++ own', inner ++ inner', by rw [List.length_append, hn, hm], fun p hmem => ?_,
    fun e hmem => ?_, (hp.append hp').trans ?_⟩
  · exact (List.mem_append.mp hmem).elim (ho p) (ho' p)
  · exact (List.mem_append.mp hmem).elim (hi e) (hi' e)
  · simp only [List.map_append, List.flatMap_append, List.append_assoc]
    exact List.Perm.append_left _ (List.perm_append_comm_assoc _ _ _)

/-- The code of an operand makes its own accesses. -/
theorem operand {e : Expr} {code : Lua.Expr} (he : e ∈ k :: operands)
    (hcode : Yields e.emit.value code) : Reaches shift k operands 0 code.accesses :=
  ⟨[], [code], rfl, nofun, fun x hx => ⟨e, he, List.mem_singleton.mp hx ▸ hcode⟩,
    by simp⟩

/-- An access of the element, with the accesses of the code for its number. -/
theorem element (shift : Lua.Expr → Lua.Expr) (operands : List Expr) {object number : Lua.Expr}
    (ho : object.IsArguments) (hn : Yields k.emit.value number) :
    Reaches shift k operands 1
      (⟨object, shift number⟩ :: (object.accesses ++ number.accesses)) := by
  have hobject : object.accesses = [] := by rcases ho with rfl | rfl <;> rfl
  rw [hobject, List.nil_append]
  refine ⟨[(object, number)], [number], rfl, fun p hp => ?_,
    fun e he => ⟨k, List.mem_cons_self, ?_⟩, by simp⟩
  · rw [List.mem_singleton.mp hp]
    exact ⟨ho, hn⟩
  · rw [List.mem_singleton.mp he]
    exact hn

end Reaches

section Operations

variable (shift : Lua.Expr → Lua.Expr) (k : Expr) (operands : List Expr)

theorem always_arguments : Always Lua.Expr.IsArguments (Rendition.readName "arguments") := by
  refine Ensures.bind (P := fun _ => True) (fun s _ => ⟨trivial, trivial⟩) fun resolution _ =>
    Ensures.pure ?_
  have hspell : Lua.spell "arguments" = "arguments" := by decide
  rw [hspell]
  split
  · exact Or.inl rfl
  · exact Or.inr rfl

/-- The code for the position of the element. -/
theorem always_position : Always (fun e => ∃ number, e = number.next ∧
      Yields k.emit.value number)
    (do pure ((Rendition.ident "arguments").key (← k.emit.value))) :=
  Ensures.bind (always_yields k.emit.value) fun number hn => Ensures.pure ⟨number, rfl, hn⟩

/-- The place of the element, whether it is read or written. -/
theorem always_element : Always (fun e => Reaches Lua.Expr.next k operands 1 e.accesses)
    (argument k).emit.value := by
  refine Ensures.bind always_arguments fun object ho => ?_
  refine Ensures.bind (always_position k) fun e he => ?_
  obtain ⟨number, rfl, hn⟩ := he
  apply Ensures.pure
  simpa [Lua.Expr.next] using Reaches.element Lua.Expr.next operands ho hn

theorem always_operand {operands : List Expr} {e : Expr} (he : e ∈ operands) :
    Always (fun code => Reaches shift k operands 0 code.accesses) e.emit.value :=
  (always_yields e.emit.value).mono fun _ => Reaches.operand (List.mem_cons_of_mem k he)

/-- The arguments of a call are operands. -/
theorem always_operands {operands args : List Expr} (h : ∀ e ∈ args, e ∈ operands) :
    Always (fun codes => Reaches shift k operands 0 (Lua.Expr.accessesList codes))
      (Expr.emitValues args) := by
  induction args with
  | nil => exact Ensures.pure Reaches.nil
  | cons e rest ih =>
    refine Ensures.bind (always_operand shift k (h e List.mem_cons_self)) fun code hcode => ?_
    refine Ensures.bind (ih fun x hx => h x (List.mem_cons_of_mem e hx)) fun codes hcodes => ?_
    exact Ensures.pure (hcode.append hcodes)

theorem accesses_performing (steps : List Lua.Step) (result : Lua.Expr) :
    (Rendition.performing steps result).accesses =
      Lua.Step.accessesList steps ++ result.accesses := by
  simp [Rendition.performing, Lua.callAccess]

theorem accesses_stepped (op : UpdateOp) (current : Lua.Expr) :
    (Rendition.stepped op current).accesses = current.accesses := by
  cases op with
  | increment =>
    rw [Rendition.stepped, Lua.accesses_helper (by decide) (by decide)]
    simp
  | decrement => simp [Rendition.stepped]

theorem accesses_binaryValue (op : BinaryOp) (left right : Lua.Expr) :
    (Rendition.binaryValue op left right).accesses = left.accesses ++ right.accesses := by
  cases op <;>
    simp [Rendition.binaryValue, Rendition.spelling, Lua.accesses_helper]

theorem accesses_sink (value : Lua.Expr) :
    Stat.accessesList [.call (Helper.sink.call [value])] = value.accesses := by
  simp [Lua.accesses_helper]

/-- The result of an assignment to the element: the place is written once, and read before if the
assignment has an operator. -/
theorem always_assigned (op : Option BinaryOp) (value : Expr) :
    Always (fun new => ∃ n, Reaches Lua.Expr.next k [value] n new.accesses)
      (Rendition.assigned op (argument k).emit value.emit) := by
  have hvalue := always_operand Lua.Expr.next k (List.mem_singleton_self value)
  cases op with
  | none => exact hvalue.mono fun _ h => ⟨0, h⟩
  | some op =>
    refine Ensures.bind (always_element k [value]) fun current hcurrent => ?_
    refine Ensures.bind hvalue fun operand hoperand => Ensures.pure ⟨1 + 0, ?_⟩
    rw [accesses_binaryValue]
    exact hcurrent.append hoperand

end Operations

/-- At least one access goes to the element, and with the key of the operation. -/
def PlaceOp.Touches (op : PlaceOp) (k : Expr) (found : List Lua.Access) : Prop :=
  ∃ n, Reaches op.key k op.operands (n + 1) found

section Uses

variable (k : Expr)

theorem touches_read : Always (fun e => PlaceOp.read.Touches k e.accesses)
    (argument k).emit.value :=
  (always_element k []).mono fun _ h => ⟨0, h⟩

/-- An assignment, plain or with an operator, as a value. -/
theorem reaches_assign (op : Option BinaryOp) (value : Expr) :
    Always (fun e => ∃ n, Reaches Lua.Expr.next k [value] (n + 1) e.accesses)
        (Expr.assign op (argument k) value).emit.value ∧
      Always (fun code => ∃ n, Reaches Lua.Expr.next k [value] (n + 1)
          (Stat.accessesList code))
        (Expr.assign op (argument k) value).emit.effect := by
  constructor
  · refine Ensures.bind (always_element k [value]) fun place hplace => ?_
    refine Ensures.bind (always_assigned k op value) fun new ⟨n, hnew⟩ => ?_
    refine Ensures.bind (always_element k [value]) fun result hresult => Ensures.pure ⟨1 + n, ?_⟩
    rw [accesses_performing]
    simpa using (hplace.append hnew).append hresult
  · refine Ensures.bind (always_element k [value]) fun place hplace => ?_
    refine Ensures.bind (always_assigned k op value) fun new ⟨n, hnew⟩ => Ensures.pure ⟨n, ?_⟩
    simpa [Nat.add_comm] using hplace.append hnew

theorem reaches_update (op : UpdateOp) (leading : Bool) :
    Always (fun e => ∃ n, Reaches Lua.Expr.next k [] (n + 1) e.accesses)
        (Expr.update op leading (argument k)).emit.value ∧
      Always (fun code => ∃ n, Reaches Lua.Expr.next k [] (n + 1) (Stat.accessesList code))
        (Expr.update op leading (argument k)).emit.effect := by
  constructor
  · refine Ensures.bind (always_element k []) fun target htarget => ?_
    refine Ensures.bind (always_element k []) fun current hcurrent => ?_
    cases leading with
    | true =>
      refine Ensures.pure ⟨2, ?_⟩
      rw [accesses_performing]
      simpa [accesses_stepped] using (htarget.append hcurrent).append hcurrent
    | false =>
      refine Ensures.bind (P := fun _ => True) (fun s _ => ⟨trivial, trivial⟩) fun old _ =>
        Ensures.pure ⟨2, ?_⟩
      rw [accesses_performing]
      simpa [accesses_stepped] using hcurrent.append (htarget.append hcurrent)
  · refine Ensures.bind (always_element k []) fun target htarget => ?_
    refine Ensures.bind (always_element k []) fun current hcurrent => Ensures.pure ⟨1, ?_⟩
    simpa [accesses_stepped] using htarget.append hcurrent

/-- A call of the element as a method of the arguments. -/
theorem reaches_invoke (args : List Expr) :
    Always (fun e => Reaches Lua.Expr.next k args 1 e.accesses)
      ((argument k).emit.invoke (Expr.emitValues args)) := by
  refine Ensures.bind always_arguments fun object ho => ?_
  refine Ensures.bind (always_position k) fun e he => ?_
  obtain ⟨number, rfl, hn⟩ := he
  refine Ensures.bind (always_operands Lua.Expr.next k fun _ => id) fun codes hcodes =>
    Ensures.pure ?_
  rw [Lua.accesses_callMember]
  simpa [Lua.Expr.next] using (Reaches.element Lua.Expr.next args ho hn).append hcodes

/-- A deletion passes the number on as it is. -/
theorem reaches_delete :
    Always (fun e => Reaches id k [] 1 e.accesses) (argument k).emit.delete := by
  refine always_arguments.bind fun object ho => ?_
  refine Ensures.bind (always_yields k.emit.value) fun number hn => Ensures.pure ?_
  rw [Lua.accesses_delete]
  exact Reaches.element id [] ho hn

theorem touches_value (op : PlaceOp) :
    Always (fun e => op.Touches k e.accesses) (op.on (argument k)).emit.value := by
  cases op with
  | read => exact touches_read k
  | assign value => exact (reaches_assign k none value).1
  | compound op value => exact (reaches_assign k (some op) value).1
  | update op leading => exact (reaches_update k op leading).1
  | invoke args => exact (reaches_invoke k args).mono fun _ h => ⟨0, h⟩
  | delete => exact (reaches_delete k).mono fun _ h => ⟨0, h⟩

/-- The effect of evaluating and dropping a value. -/
theorem touches_drop {op : PlaceOp} {value : Emit Lua.Expr}
    (h : Always (fun e => op.Touches k e.accesses) value) :
    Always (fun code => op.Touches k (Stat.accessesList code)) (Rendition.drop value) :=
  h.bind fun e he => Ensures.pure (by rwa [accesses_sink])

theorem touches_effect (op : PlaceOp) :
    Always (fun code => op.Touches k (Stat.accessesList code))
      (op.on (argument k)).emit.effect := by
  cases op with
  | read => exact touches_drop k (touches_read k)
  | assign value => exact (reaches_assign k none value).2
  | compound op value => exact (reaches_assign k (some op) value).2
  | update op leading => exact (reaches_update k op leading).2
  | invoke args =>
    refine Ensures.bind (reaches_invoke k args) fun e he => Ensures.pure ⟨0, ?_⟩
    rw [Stat.accessesList, Stat.accessesList, List.append_nil]
    exact he
  | delete => exact touches_drop k (touches_value k .delete)

end Uses

/-- The operation mentions the arguments. -/
theorem PlaceOp.mentions (op : PlaceOp) (k : Expr) :
    "arguments" ∈ (op.on (argument k)).refs := by
  cases op <;> simp [PlaceOp.on, argument, Expr.refs, Expr.namings, Naming.reference?]

/-- A function whose body mentions the arguments starts with packing them. -/
theorem Func.packs_arguments {f : Func} (h : "arguments" ∈ Stmt.refsList f.body) (s : State) :
    ∃ code, (f.emit s).1 =
      Helper.defineFunction.call [.func ["self"] true (Lua.prologue f.params ++ code)] := by
  obtain ⟨name, params, body⟩ := f
  have hpacked : (Declarations.ofBody body).references "arguments" = true := by
    rw [Declarations.ofBody_eq]
    exact List.contains_iff_mem.mpr (mem_nameSet.mpr h)
  obtain ⟨code, hcode⟩ : ∃ code, (functionCode params (.ofBody body) (Stmt.emitList body) s).1 =
      Helper.defineFunction.call [if (Declarations.ofBody body).references "arguments" then
        .func ["self"] true (Lua.prologue params ++ code)
        else .func ("self" :: params.map Lua.spell) false code] := ⟨_, rfl⟩
  exact ⟨code, by rw [Func.emit, hcode, if_pos hpacked]⟩

/-- Where the key of an operation leads to in the packed arguments. -/
theorem PlaceOp.packed_key (op : PlaceOp) (σ : Lua.Valuation) {number : Lua.Expr} {n : Nat}
    (h : σ.number number = some n) {α : Type} (values : List α) :
    (σ.number (op.key number)).bind (Lua.packed values) =
      match op with
      | .delete => Lua.packed values n
      | _ => values[n]? := by
  have hnext : (σ.number number.next).bind (Lua.packed values) = values[n]? := by
    rw [Lua.Expr.next, σ.add, h]
    rfl
  cases op with
  | delete =>
    change (σ.number number).bind _ = _
    rw [h]
    rfl
  | _ => exact hnext

/-- A function that mentions the arguments packs them. Each operation on an element, as a value
and as a statement, goes to that element of the packed arguments and to none else, apart from the
code for its number and its operands; but a deletion goes to the position of the number, where the
element before is. -/
theorem arguments_reached_behind_number {α : Type} (f : Func) (op : PlaceOp) (k : Expr)
    (s : State) (values : List α) (σ : Lua.Valuation) (number : Lua.Expr) (n : Nat)
    (hf : "arguments" ∈ Stmt.refsList f.body) (hnumber : σ.number number = some n) :
    (∃ code, (f.emit s).1 =
        Helper.defineFunction.call [.func ["self"] true (Lua.prologue f.params ++ code)]) ∧
      "arguments" ∈ (op.on (argument k)).refs ∧
      op.Touches k ((op.on (argument k)).emit.value s).1.accesses ∧
      op.Touches k (Lua.Stat.accessesList ((op.on (argument k)).emit.effect s).1) ∧
      (σ.number (op.key number)).bind (Lua.packed values) =
        match op with
        | .delete => Lua.packed values n
        | _ => values[n]? :=
  ⟨Func.packs_arguments hf s, op.mentions k, (touches_value k op s trivial).1,
    (touches_effect k op s trivial).1, op.packed_key σ hnumber values⟩

/-- A function that updates the element whose number is a variable. -/
theorem arguments_reached_behind_variable :
    let op : PlaceOp := .update .increment false
    let update := op.on (argument (.ident "i"))
    let σ := Lua.Valuation.ofNames fun _ => some 1
    (∃ code, ((Func.mk none ["a"] [.returnStmt (some update)]).emit {}).1 =
        Helper.defineFunction.call [.func ["self"] true (Lua.prologue ["a"] ++ code)]) ∧
      op.Touches (.ident "i") (update.emit.value {}).1.accesses ∧
      (σ.number (op.key (.read "i"))).bind (Lua.packed ["x", "y"]) = some "y" := by
  intro op update σ
  have h := arguments_reached_behind_number ⟨none, ["a"], [.returnStmt (some update)]⟩ op
    (.ident "i") {} ["x", "y"] σ (.read "i") 1 (by decide) rfl
  exact ⟨h.1, h.2.2.1, h.2.2.2.2⟩

/-- A read and a deletion of the first element: the one goes to the first position, the other to
the position zero, which no element has. -/
theorem delete_element_misplaced :
    let first := argument (.lit (.number ⟨0⟩))
    (first.emit.value {}).1 = .index (.read "arguments") (.binop .add (.number ⟨0⟩) (.int 1)) ∧
      ((PlaceOp.delete.on first).emit.value {}).1 =
        Helper.delete.call [.read "arguments", .number ⟨0⟩] ∧
      Lua.packed ["x"] (0 + 1) = some "x" ∧ Lua.packed ["x"] 0 = none :=
  ⟨rfl, rfl, rfl, rfl⟩

end EcmaLua
