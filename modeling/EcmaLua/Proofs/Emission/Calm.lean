import EcmaLua.Proofs.Emission.Judgement

/-!
# Expressions leave the constructs alone

No use of an expression touches the constructs around it: a function has its own, and gives them
up at its end. The code of every use is settled.
-/

namespace EcmaLua.Emission

open Lua (Helper Vocabulary Field Arm Stat)

/-- The action leaves the constructs alone, and its result has the property. -/
def Gives {α : Type} (P : α → Prop) (act : Emit α) : Prop :=
  ∀ s, Steady s (act s).2 ∧ P (act s).1

namespace Gives

variable {α β : Type} {P Q : α → Prop} {R : β → Prop}

theorem pure {a : α} (h : P a) : Gives P (Pure.pure a : Emit α) :=
  fun s => ⟨.refl s, h⟩

theorem bind {x : Emit α} {f : α → Emit β} (hx : Gives P x) (hf : ∀ a, P a → Gives R (f a)) :
    Gives R (x >>= f) := by
  intro s
  obtain ⟨hs, ha⟩ := hx s
  obtain ⟨hs', hb⟩ := hf _ ha (x s).2
  exact ⟨hs.trans hs', hb⟩

end Gives

section Primitives

variable {v : Vocabulary} {α : Type} {P : α → Prop} {act : Emit α}

theorem gives_fresh (hv : Covers v) {stem : String} (h : stem ∈ stems) :
    Gives v.name (fresh stem) :=
  fun s => ⟨⟨rfl, Nat.le_succ _⟩, hv.numbered stem h (s.supply.last + 1)⟩

theorem gives_report (finding : Finding) : Gives (fun _ => True) (report finding) :=
  fun _ => ⟨⟨rfl, Nat.le_refl _⟩, trivial⟩

theorem gives_lookup (name : String) : Gives (fun _ => True) (lookup name) := by
  intro s
  exact ⟨⟨lookup_control name s, Nat.le_of_eq (by rw [lookup_supply])⟩, trivial⟩

theorem gives_declareNew (names : List String) : Gives (fun _ => True) (declareNew names) := by
  intro s
  rw [declareNew_eq]
  exact ⟨⟨rfl, Nat.le_refl _⟩, trivial⟩

theorem gives_inFrame (frame : Frame) (h : Gives P act) : Gives P (inFrame frame act) :=
  fun s => h { s with scope := frame :: s.scope }

theorem gives_declareLocals (hv : Covers v) (names : List String) :
    Gives (Quiet v) (declareLocals names) := by
  refine (gives_declareNew names).bind fun new _ => .pure ?_
  split
  · exact .nil
  · refine .one rfl fun _ _ n hn => ?_
    obtain ⟨m, -, rfl⟩ := List.mem_map.mp hn
    exact hv.spell m

end Primitives

section Trees

variable {v : Vocabulary}

theorem settled_helper (hv : Covers v) (h : Helper) {args : List Lua.Expr}
    (ha : Lua.Expr.SettledList v args) : (h.call args).Settled v := by
  refine ⟨?_, ha⟩
  unfold Helper.expr
  split
  · exact hv.helper h
  · next library hl =>
      have hbit : library = "bit32" := by cases h <;> simp_all [Helper.library]
      rw [hbit]
      exact hv.fixed "bit32" (by decide)

theorem settledList_append {a b : List Field} (ha : Field.SettledList v a)
    (hb : Field.SettledList v b) : Field.SettledList v (a ++ b) := by
  induction a with
  | nil => exact hb
  | cons f rest ih =>
    cases f with
    | item value => exact ⟨ha.1, ih ha.2⟩
    | keyed key value => exact ⟨ha.1, ha.2.1, ih ha.2.2⟩

theorem settledList_items {es : List Lua.Expr} (h : Lua.Expr.SettledList v es) :
    Field.SettledList v (es.map .item) := by
  induction es with
  | nil => trivial
  | cons e rest ih => exact ⟨h.1, ih h.2⟩

theorem settledArms_append {a b : List Arm} (ha : Arm.SettledList v a)
    (hb : Arm.SettledList v b) : Arm.SettledList v (a ++ b) := by
  induction a with
  | nil => exact hb
  | cons arm rest ih =>
    cases arm with
    | mk cond step => exact ⟨ha.1, ha.2.1, ih ha.2.2⟩

theorem quiet_assign {target value : Lua.Expr} (ht : target.Settled v) (hv : value.Settled v) :
    Quiet v [.assign target value] :=
  .one rfl fun _ _ => ⟨ht, hv⟩

theorem quiet_call {e : Lua.Expr} (h : e.Settled v) : Quiet v [.call e] := .one rfl fun _ _ => h

theorem quiet_ifThen {c : Lua.Expr} (hc : c.Settled v) {code : List Stat} (h : Quiet v code) :
    Quiet v [.ifThen c code .none] := by
  refine .one ?_ fun visible loop => ⟨hc, h.2 visible loop, trivial⟩
  rw [Stat.ownMarks, h.1]
  rfl

theorem quiet_note {text : String} (h : v.note text) : Quiet v [.note text] :=
  .one rfl fun _ _ => h

end Trees

/-- Settled code. -/
abbrev Judgement.settled (v : Vocabulary) : Judgement where
  value := Lua.Expr.Settled v
  operand := Lua.Expr.Settled v
  place := Lua.Expr.Settled v
  action := Lua.Expr.Settled v
  args := Lua.Expr.SettledList v
  fields := Field.SettledList v
  arms := Arm.SettledList v
  code := Quiet v
  block := Quiet v
  body := Stat.SettledBlock v [] false
  temporary := v.name
  parameter := v.name
  lax := True

/-- Every use of an expression leaves the constructs alone and gets settled code. -/
abbrev Rendition.Calm (v : Vocabulary) (r : Rendition) : Prop := r.Lawful (.settled v) Gives false

theorem Covers.law {v : Vocabulary} (hv : Covers v) : (Judgement.settled v).Lawful Gives where
  pure := .pure
  bind := .bind
  lookup := gives_lookup
  report := gives_report
  fresh := gives_fresh hv
  declareNew := gives_declareNew
  inFrame := gives_inFrame
  ofOperand := id
  ofPlace := id
  ofAction := id
  ofLax _ := id
  nil := trivial
  int _ := trivial
  literal
    | .null => hv.fixed "null" (by decide)
    | .regex _ _ => settled_helper hv .new ⟨hv.fixed "RegExp" (by decide), trivial, trivial⟩
    | .bool _ | .number _ | .string _ | .bytes _ => trivial
  fixed := hv.fixed _
  ofTemporary := id
  paren := id
  neg := id
  not := id
  binop _ _ _ := And.intro
  call := And.intro
  helper := settled_helper hv
  field _ := id
  index := And.intro
  table := id
  assigning ht he hr := ⟨⟨⟨ht, he⟩, trivial⟩, hr⟩
  saving hn ho ht he := ⟨⟨⟨hn, ho⟩, ⟨ht, he⟩, trivial⟩, hn⟩
  none := trivial
  cons := And.intro
  items := settledList_items
  keyed hk he hf := ⟨hk, he, hf⟩
  snoc hf hk he := settledList_append hf ⟨hk, he, trivial⟩
  guarded hb := ⟨hv.fixed "pcall" (by decide), ⟨nofun, hb⟩, trivial⟩
  closure := And.intro
  named hn hf := ⟨⟨nofun, List.forall_mem_singleton.mpr hn, ⟨hn, hf⟩, hn, trivial⟩, trivial⟩
  empty := .nil
  append := .append
  ofCode := id
  before := .append
  ret h := .one rfl fun _ _ => h
  act := quiet_call
  assign := quiet_assign
  note h := quiet_note (hv.note _ h)
  marker h := .one rfl fun _ _ => hv.note _ h
  define _ hn he := .one rfl fun _ _ => ⟨hn, he⟩
  ifThen he h := quiet_ifThen he h
  doBlock h := .one h.1 h.2
  noArms := trivial
  arm _ he hn := ⟨he, ⟨hn, trivial⟩, trivial⟩
  select
    | none, _, ha, _ => .one rfl fun _ _ => ⟨ha, trivial⟩
    | some _, _, ha, hn => .one rfl fun _ _ => ⟨ha, hn, trivial⟩

end EcmaLua.Emission
