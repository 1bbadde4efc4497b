import EcmaLua.Proofs.Emission.Judgement
import EcmaLua.Proofs.Lua.Name
import EcmaLua.Proofs.Lua.WellFormed
import EcmaLua.Proofs.Program.Rules

/-!
# Emission makes well-formed chunks

From a program whose names can be spelled and whose places can be written to, every use of an
expression gets an expression of the right form, and every statement gets statements that make
a block. The only invariant of the state is that the landings of the open loops are names. What
is asked of identifiers, and what follows for names, is left to a spelling.
-/

namespace EcmaLua

open Lua (isName isRemark Helper spell Field Vocabulary)

/-- How the identifiers of a program come out in its chunk. The vocabulary has all names of Lua and
all words as comments, and the spelling of every identifier that the program may have. -/
structure Spelling extends Vocabulary where
  /-- the identifiers and labels of the program -/
  identifier : String → Prop
  word : ∀ {text}, isName text = true → name text
  remark : ∀ {text}, isRemark text = true → note text
  spell : ∀ {text}, identifier text → name (Lua.spell text)
  after : ∀ {text}, identifier text → name (Emission.afterLabel text)

instance : Coe Spelling Vocabulary := ⟨Spelling.toVocabulary⟩

/-- The spelling of identifiers that are not empty and start with no digit. -/
def Spelling.grammatical : Spelling where
  toVocabulary := .grammatical
  identifier text := isIdentifier text = true
  word h := h
  remark h := h
  spell h := Lua.isName_spell h
  after h := Lua.isName_afterLabel h

namespace Lua

/-- An expression that can stand in front of a call or an index. -/
def Operand (v : Vocabulary) (e : Expr) : Prop := e.isPrefixable = true ∧ e.WellFormed v

/-- An expression that can be assigned to. -/
def Variable (v : Vocabulary) (e : Expr) : Prop := e.isVar = true ∧ e.WellFormed v

/-- An expression that is a statement. -/
def Application (v : Vocabulary) (e : Expr) : Prop := e.isCall = true ∧ e.WellFormed v

/-- Statements that others can follow. -/
def Plain (v : Vocabulary) (code : List Stat) : Prop :=
  ∀ s ∈ code, s.WellFormed v none ∧ s.isReturn = false

section Trees

variable {σ : Spelling} {e f : Expr} {args : List Expr} {code rest : List Stat} {s : Stat}

theorem Variable.operand (h : Variable σ e) : Operand σ e := by
  obtain ⟨hv, hw⟩ := h
  refine ⟨?_, hw⟩
  cases e <;> simp_all [Expr.isVar, Expr.isPrefixable]

theorem Application.operand (h : Application σ e) : Operand σ e := by
  obtain ⟨hc, hw⟩ := h
  refine ⟨?_, hw⟩
  cases e <;> simp_all [Expr.isCall, Expr.isPrefixable]

theorem Operand.call (hf : Operand σ f) (ha : Expr.WellFormedList σ args) :
    Application σ (.call f args) :=
  ⟨rfl, hf.1, hf.2, ha⟩

theorem Operand.paren (h : e.WellFormed σ) : Operand σ (.paren e) := ⟨rfl, h⟩

theorem Variable.name {text : String} (h : σ.name text) : Variable σ (.name text) := ⟨rfl, h⟩

theorem Variable.field (h : Operand σ e) (name : String) : Variable σ (.field e name) := ⟨rfl, h⟩

theorem Variable.index {key : Expr} (h : Operand σ e) (hk : key.WellFormed σ) :
    Variable σ (.index e key) :=
  ⟨rfl, h.1, h.2, hk⟩

theorem Helper.isName_name (h : Helper) : isName h.name = true := by
  cases h <;> decide

theorem Helper.operand_expr (h : Helper) : Operand σ h.expr := by
  unfold Helper.expr
  split
  · exact (Variable.name (σ.word h.isName_name)).operand
  · next library hl =>
      have hname : isName library = true := by
        revert hl
        cases h <;> simp only [Helper.library, Option.some.injEq, reduceCtorEq, false_implies]
        all_goals
          rintro rfl
          decide
      exact (Variable.field (Variable.name (σ.word hname)).operand h.name).operand

/-- The call of a support function can stand anywhere. -/
theorem Helper.application_call (h : Helper) (ha : Expr.WellFormedList σ args) :
    Application σ (h.call args) :=
  h.operand_expr.call ha

theorem Helper.wellFormed_call (h : Helper) (ha : Expr.WellFormedList σ args) :
    (h.call args).WellFormed σ :=
  (h.application_call ha).2

theorem Plain.nil : Plain σ [] := by simp [Plain]

theorem Plain.one (h : s.WellFormed σ none) (hr : s.isReturn = false) : Plain σ [s] := by
  simpa [Plain] using ⟨h, hr⟩

theorem Plain.note {text : String} (h : σ.note text) : Plain σ [.note text] :=
  .one h rfl

theorem Plain.append (ha : Plain σ code) (hb : Plain σ rest) : Plain σ (code ++ rest) := by
  unfold Plain at *
  rw [List.forall_mem_append]
  exact ⟨ha, hb⟩

/-- Plain statements in front of a block make a block. -/
theorem Plain.prepend (ha : Plain σ code) (hb : Stat.WellFormedBlock σ none rest) :
    Stat.WellFormedBlock σ none (code ++ rest) := by
  induction code with
  | nil => exact hb
  | cons s code ih =>
    obtain ⟨hs, hcode⟩ := List.forall_mem_cons.mp ha
    exact ⟨hs.1, by simp [hs.2], ih hcode⟩

theorem Plain.block (h : Plain σ code) : Stat.WellFormedBlock σ none code := by
  have hb : Stat.WellFormedBlock σ none (code ++ []) := h.prepend trivial
  rwa [List.append_nil] at hb

/-- A block with comments behind it is a block. -/
theorem Stat.WellFormedBlock.comment (h : Stat.WellFormedBlock σ none code)
    (hs : s.isComment = true) (hw : s.WellFormed σ none) :
    Stat.WellFormedBlock σ none (code ++ [s]) := by
  induction code with
  | nil => exact ⟨hw, by simp, trivial⟩
  | cons t code ih =>
    refine ⟨h.1, fun hr u hu => ?_, ih h.2.2⟩
    rcases List.mem_append.mp hu with hu | hu
    · exact h.2.1 hr u hu
    · rwa [List.mem_singleton.mp hu]

theorem Field.WellFormedList.append {a b : List Field} (ha : Field.WellFormedList σ a)
    (hb : Field.WellFormedList σ b) : Field.WellFormedList σ (a ++ b) := by
  induction a with
  | nil => exact hb
  | cons f rest ih =>
    cases f with
    | item value => exact ⟨ha.1, ih ha.2⟩
    | keyed key value => exact ⟨ha.1, ha.2.1, ih ha.2.2⟩

theorem Field.wellFormedList_items (h : Expr.WellFormedList σ args) :
    Field.WellFormedList σ (args.map .item) := by
  induction args with
  | nil => trivial
  | cons e rest ih => exact ⟨h.1, ih h.2⟩

theorem Arm.WellFormedList.append {a b : List Arm} (ha : Arm.WellFormedList σ a)
    (hb : Arm.WellFormedList σ b) : Arm.WellFormedList σ (a ++ b) := by
  induction a with
  | nil => exact hb
  | cons arm rest ih =>
    cases arm with
    | mk cond step => exact ⟨ha.1, ha.2.1, ih ha.2.2⟩

theorem areNames_map_spell {names : List String} (hne : names ≠ [])
    (h : ∀ n ∈ names, σ.identifier n) : AreNames σ (names.map spell) := by
  refine ⟨by simpa using hne, fun n hn => ?_⟩
  obtain ⟨m, hm, rfl⟩ := List.mem_map.mp hn
  exact σ.spell (h m hm)

end Trees

end Lua

namespace Emission

open Lua (Operand Variable Application Plain isName_numbered)

/-- The landing of a loop is a name. -/
def Enclosure.Named (v : Vocabulary) : Enclosure → Prop
  | .loop _ (some name) => v.name name
  | _ => True

/-- The landings of the open loops are names. -/
def State.Named (v : Vocabulary) (s : State) : Prop := ∀ e ∈ s.control, e.Named v

/-- The result has the property, in every state with named landings. -/
abbrev Makes {α : Type} (v : Vocabulary) (P : α → Prop) (act : Emit α) : Prop :=
  Ensures (State.Named v) P act

section Actions

variable {σ : Spelling} {α : Type} {P : α → Prop} {act : Emit α}

theorem makes_fresh {stem : String} {cs : List Char} (hl : stem.toList = '_' :: cs)
    (hc : cs.all Lua.isNameChar = true) : Makes σ σ.name (fresh stem) :=
  fun _ hs => ⟨σ.word (isName_numbered hl hc _), hs⟩

theorem makes_stem {stem : String} (h : stem ∈ stems) : Makes σ σ.name (fresh stem) := by
  simp only [stems, List.mem_cons, List.not_mem_nil, or_false] at h
  rcases h with rfl | rfl | rfl | rfl | rfl | rfl | rfl <;> exact makes_fresh rfl rfl

theorem makes_report (finding : Finding) : Makes σ (fun _ => True) (report finding) :=
  fun _ hs => ⟨trivial, hs⟩

theorem makes_lookup (name : String) : Makes σ (fun _ => True) (lookup name) := by
  intro s hs
  refine ⟨trivial, ?_⟩
  unfold State.Named
  rwa [lookup_control]

theorem makes_declareNew (names : List String) :
    Makes σ (fun new => ∀ n ∈ new, n ∈ names) (declareNew names) := by
  intro s hs
  refine ⟨fun n hn => mem_declareNew hn, ?_⟩
  rw [declareNew_eq]
  exact hs

theorem makes_inFrame (frame : Frame) (h : Makes σ P act) : Makes σ P (inFrame frame act) :=
  fun s hs => h { s with scope := frame :: s.scope } hs

theorem makes_capturing (h : Makes σ P act) : Makes σ (fun result => P result.1) (capturing act) :=
  fun s hs => h { s with captured := [] :: s.captured } hs

theorem makes_detached (h : Makes σ P act) : Makes σ P (detached act) := by
  intro s hs
  exact ⟨(h { s with control := [] } (by simp [State.Named])).1, hs⟩

theorem makes_enclosed (enclosure : Enclosure) (he : enclosure.Named σ) (h : Makes σ P act) :
    Makes σ (fun result => P result.1 ∧ result.2.Named σ) (enclosed enclosure act) := by
  intro s hs
  have hopen : State.Named σ { s with control := enclosure :: s.control } :=
    List.forall_mem_cons.mpr ⟨he, hs⟩
  obtain ⟨hp, hclosed⟩ := h _ hopen
  unfold State.Named at hclosed
  refine ⟨⟨hp, ?_⟩, fun e hm => hclosed e (List.mem_of_mem_tail hm)⟩
  change ((act _).2.control.headD enclosure).Named σ
  cases hc : (act { s with control := enclosure :: s.control }).2.control with
  | nil => exact he
  | cons e rest =>
    rw [hc] at hclosed
    exact hclosed e List.mem_cons_self

theorem makes_walled (h : Makes σ P act) : Makes σ P (walled act) :=
  (makes_enclosed .barrier trivial h).bind fun _ hr => .pure hr.1

theorem makes_labeled (labels : List String) (h : Makes σ P act) :
    Makes σ P (labeled labels act) := by
  induction labels with
  | nil => exact h
  | cons label rest ih =>
    exact (makes_enclosed (.labeled label) trivial ih).bind fun _ hr => .pure hr.1

/-- A jump that goes somewhere goes to a name. -/
def Jump.Named (v : Vocabulary) : Jump → Prop
  | .goTo name => v.name name
  | _ => True

theorem Control.breakJump_named {label : Option String}
    (hl : ∀ name ∈ label, σ.identifier name) (control : Control) :
    (control.breakJump label).Named σ := by
  induction control with
  | nil => trivial
  | cons enclosure rest ih =>
    cases enclosure with
    | barrier => trivial
    | switch =>
      cases label with
      | none => trivial
      | some wanted => exact ih
    | loop labels landing =>
      cases label with
      | none => trivial
      | some wanted =>
        rw [Control.breakJump]
        split
        · exact σ.after (hl wanted rfl)
        · exact ih
    | labeled name =>
      rw [Control.breakJump]
      split
      · next heq => exact σ.after (hl name heq)
      · exact ih

theorem Control.continueJump_named {label : Option String}
    (hl : ∀ name ∈ label, σ.identifier name) (supply : Supply) {control : Control}
    (hc : ∀ e ∈ control, e.Named σ) :
    (control.continueJump label supply).1.Named σ ∧
      ∀ e ∈ (control.continueJump label supply).2.1, e.Named σ := by
  induction control with
  | nil => exact ⟨trivial, hc⟩
  | cons enclosure rest ih =>
    obtain ⟨he, hrest⟩ := List.forall_mem_cons.mp hc
    obtain ⟨hj, hr⟩ := ih hrest
    have hcons := List.forall_mem_cons.mpr ⟨he, hr⟩
    cases enclosure with
    | barrier => exact ⟨trivial, hc⟩
    | switch => exact ⟨hj, hcons⟩
    | labeled name => exact ⟨hj, hcons⟩
    | loop labels landing =>
      cases label with
      | some wanted =>
        rw [Control.continueJump]
        simp only
        split
        · exact ⟨σ.spell (hl wanted rfl), hc⟩
        · exact ⟨hj, hcons⟩
      | none =>
        cases landing with
        | some name => exact ⟨he, hc⟩
        | none =>
          have hname : σ.name (supply.fresh "__Continue").1 :=
            σ.word (isName_numbered rfl rfl _)
          exact ⟨hname, List.forall_mem_cons.mpr ⟨hname, hrest⟩⟩

/-- The code of a jump is a single statement that is well formed. -/
theorem makes_jumpCode {note : String} (hnote : σ.note note) (blocked missing : Finding)
    {jump : Jump} (h : jump.Named σ) : Makes σ (Plain σ) (jumpCode note blocked missing jump) := by
  cases jump with
  | leave => exact .pure (.one trivial rfl)
  | goTo name => exact .pure (.one h rfl)
  | blocked | missing => exact (makes_report _).bind fun _ _ => .pure (.note hnote)

theorem makes_breakCode {label : Option String}
    (hl : ∀ name ∈ label, σ.identifier name) (span : Span) :
    Makes σ (Plain σ) (breakCode label span) := by
  have hjump : Makes σ (Jump.Named σ) (Emission.breakJump label) := fun s hs =>
    ⟨Control.breakJump_named hl s.control, hs⟩
  exact hjump.bind fun _ => makes_jumpCode (σ.remark (by decide)) _ _

theorem makes_continueCode {label : Option String}
    (hl : ∀ name ∈ label, σ.identifier name) (span : Span) :
    Makes σ (Plain σ) (continueCode label span) := by
  have hjump : Makes σ (Jump.Named σ) (Emission.continueJump label) := fun s hs =>
    Control.continueJump_named hl s.supply hs
  exact hjump.bind fun _ => makes_jumpCode (σ.remark (by decide)) _ _

theorem makes_declareLocals {names : List String} (h : ∀ n ∈ names, σ.identifier n) :
    Makes σ (Plain σ) (declareLocals names) := by
  refine (makes_declareNew names).bind fun new hnew => .pure ?_
  split
  · exact .nil
  · next hne =>
      refine .one (Lua.areNames_map_spell ?_ fun n hn => h n (hnew n hn)) rfl
      simpa using hne

end Actions

/-- Well-formed code, of the form that its place asks for. -/
abbrev Judgement.wellFormed (σ : Spelling) : Judgement where
  value := Lua.Expr.WellFormed σ
  operand := Operand σ
  place := Variable σ
  action := Application σ
  args := Lua.Expr.WellFormedList σ
  fields := Field.WellFormedList σ
  arms := Lua.Arm.WellFormedList σ
  code := Plain σ
  block := Lua.Stat.WellFormedBlock σ none
  body := Lua.Stat.WellFormedBlock σ none
  temporary := σ.name
  parameter := σ.name
  lax := False

/-- Every use of an expression gets code of the form that the use asks for. -/
abbrev Rendition.Sound (σ : Spelling) (writable : Bool) (r : Rendition) : Prop :=
  r.Lawful (.wellFormed σ) (Makes σ) writable

end Emission

open Emission Lua in
theorem Spelling.law (σ : Spelling) : (Judgement.wellFormed σ).Lawful (Makes σ) where
  pure := .pure
  bind := .bind
  lookup := makes_lookup
  report := makes_report
  fresh := makes_stem
  declareNew names := (makes_declareNew names).mono fun _ _ => trivial
  inFrame := makes_inFrame
  ofOperand := And.right
  ofPlace := Variable.operand
  ofAction := Application.operand
  ofLax := False.elim
  nil := ⟨rfl, trivial⟩
  int _ := trivial
  literal
    | .null => (σ.word (by decide) : σ.name "null")
    | .regex _ _ =>
      Helper.new.wellFormed_call ⟨(σ.word (by decide) : σ.name "RegExp"), trivial, trivial⟩
    | .bool _ | .number _ | .string _ | .bytes _ => trivial
  fixed h := .name (σ.word ((by decide : ∀ n ∈ fixedNames, isName n = true) _ h))
  ofTemporary := .name
  paren := .paren
  neg := id
  not := id
  binop _ _ _ := And.intro
  call := Operand.call
  helper h := h.application_call
  field name h := .field h name
  index := .index
  table := id
  assigning ht he hr := ⟨⟨⟨ht.1, ht.2, he⟩, trivial⟩, hr⟩
  saving hn ho ht he := ⟨⟨⟨hn, ho⟩, ⟨ht.1, ht.2, he⟩, trivial⟩, hn⟩
  none := trivial
  cons := And.intro
  items := Field.wellFormedList_items
  keyed hk he hf := ⟨hk, he, hf⟩
  snoc hf hk he := hf.append ⟨hk, he, trivial⟩
  guarded hb := ⟨rfl, (σ.word (by decide) : σ.name "pcall"), ⟨nofun, hb⟩, trivial⟩
  closure := And.intro
  named hn hf :=
    Operand.call (.paren ⟨nofun, ⟨nofun, List.forall_mem_singleton.mpr hn⟩, nofun,
      ⟨rfl, hn, hf.2⟩, nofun, hn, nofun, trivial⟩) trivial
  empty := .nil
  append := .append
  ofCode := Plain.block
  before := Plain.prepend
  ret he := ⟨he, nofun, trivial⟩
  act h := .one h rfl
  assign ht he := .one ⟨ht.1, ht.2, he⟩ rfl
  note h := .note (σ.remark ((by decide : ∀ t ∈ fixedNotes, isRemark t = true) _ h))
  marker h := .one (σ.remark ((by decide : ∀ t ∈ fixedNotes, isRemark t = true) _ h)) rfl
  define hne hn he := .one ⟨⟨hne, hn⟩, he⟩ rfl
  ifThen he h := .one ⟨he, h, trivial⟩ rfl
  doBlock h := .one h rfl
  noArms := trivial
  arm _ he hn := ⟨he, ⟨rfl, hn, trivial⟩, trivial⟩
  select
    | none, hne, ha, _ => .one ⟨hne, ha, trivial⟩ rfl
    | some _, hne, ha, hn => .one ⟨hne, ha, rfl, hn, trivial⟩ rfl

end EcmaLua
