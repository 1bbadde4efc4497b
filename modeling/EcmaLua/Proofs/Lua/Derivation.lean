import EcmaLua.Proofs.Lua.Layout
import EcmaLua.Proofs.Lua.WellFormed

/-!
# The text of a well-formed chunk is Lua

By recursion over the tree: one case for each constructor, each closed by the lemma about the
text that the printer makes of it.
-/

namespace EcmaLua.Lua

/-- What the text of an expression can be used as. -/
structure Expr.Reads (settings : Settings) (depth : Nat) (e : Expr) : Prop where
  exp : ExpText settings.newline (e.render settings depth)
  pre : e.isPrefixable = true →
    PrefixText settings.newline (asPrefix (e.render settings depth))
  var : e.isVar = true → VarText settings.newline (e.render settings depth)
  call : e.isCall = true → CallText settings.newline (e.render settings depth)

section Kinds

variable {settings : Settings} {depth : Nat} {e : Expr}

/-- An expression that only stands for its value. -/
theorem Expr.Reads.of_value (h : ExpText settings.newline (e.render settings depth))
    (hp : e.isPrefixable = false) (hv : e.isVar = false) (hc : e.isCall = false) :
    e.Reads settings depth :=
  ⟨h, by simp [hp], by simp [hv], by simp [hc]⟩

/-- A literal, which gets parentheses in front of a call or an index. -/
theorem Expr.Reads.of_literal (h : ExpText settings.newline (e.render settings depth))
    (hl : leads startsLiteral (e.render settings depth) = true ∨ e.render settings depth = "nil" ∨
      e.render settings depth = "true" ∨ e.render settings depth = "false")
    (hv : e.isVar = false) (hc : e.isCall = false) : e.Reads settings depth :=
  ⟨h, fun _ => h.asPrefix hl, by simp [hv], by simp [hc]⟩

theorem Expr.Reads.of_operand (h : PrefixText settings.newline (e.render settings depth))
    (hv : e.isVar = false) (hc : e.isCall = false) : e.Reads settings depth :=
  ⟨h.exp, fun _ => h.asPrefix, by simp [hv], by simp [hc]⟩

theorem Expr.Reads.of_var (h : VarText settings.newline (e.render settings depth))
    (hc : e.isCall = false) : e.Reads settings depth :=
  ⟨h.pre.exp, fun _ => h.pre.asPrefix, fun _ => h, by simp [hc]⟩

theorem Expr.Reads.of_call (h : CallText settings.newline (e.render settings depth))
    (hv : e.isVar = false) : e.Reads settings depth :=
  ⟨h.pre.exp, fun _ => h.pre.asPrefix, by simp [hv], fun _ => h⟩

/-- What the text of a statement can be used as. -/
structure Stat.Reads (settings : Settings) (depth : Nat) (s : Stat) : Prop where
  block : BlockText settings.newline (s.render settings depth)
  stats : s.isReturn = false → StatsText settings.newline (s.render settings depth)

theorem Stat.Reads.of_stats {s : Stat} (h : StatsText settings.newline (s.render settings depth)) :
    s.Reads settings depth :=
  ⟨h.block, fun _ => h⟩

end Kinds

variable (settings : Settings)

/-- A read is a name or the call of its check. -/
theorem prefixText_readText {name : String} (h : isName name = true) :
    PrefixText settings.newline (readText settings name) := by
  unfold readText
  have hname : VarText settings.newline name := VarText.name h
  split
  · have hcheck : VarText settings.newline Helper.refCheck.name := VarText.name rfl
    have hcall := CallText.of_args hcheck.pre [name] (by simpa using hname.pre.exp)
    simpa [commaSeparated] using hcall.pre
  · exact hname.pre

/-- Comments have no tokens. -/
theorem Stat.lexes_comment (depth : Nat) {s : Stat} (h : s.isComment = true) :
    Lexes settings.newline anything (s.render settings depth) [] := by
  cases s <;> simp only [Stat.isComment, Bool.false_eq_true] at h
  case note text =>
    rw [Stat.render]
    exact lexes_line depth (lexes_noteText settings.newline h) ⟨rfl, rfl⟩
  case marker text =>
    rw [Stat.render, markerText]
    split
    · exact lexes_line depth (lexes_lineComment settings.newline h) ⟨rfl, rfl⟩
    · exact Lexes.nil

theorem Stat.lexes_comments (depth : Nat) {body : List Stat} (h : ∀ s ∈ body, s.isComment = true) :
    Lexes settings.newline anything (Stat.renderList settings depth body) [] := by
  induction body with
  | nil => exact Lexes.nil
  | cons s rest ih =>
    rw [Stat.renderList]
    exact (lexes_comment settings depth (h s List.mem_cons_self)).then
      (ih fun t ht => h t (List.mem_cons_of_mem s ht))

/-- The comment that a line of a `with` block ends with, if the settings ask for it. -/
theorem Lexes.marked {a t : String} {ts : List Token} (h : isRemark t = true)
    (ha : Lexes settings.newline endsExp a ts) :
    Lexes settings.newline Lexer.isLineEnd
      (a ++ (if settings.markers then " " ++ markerText settings t else "")) ts := by
  unfold markerText
  split
  · have hcomment := (lexes_space settings.newline).then (lexes_lineComment settings.newline h)
    have hall := ha.append hcomment (leads_append rfl)
    rwa [List.append_nil, List.append_nil] at hall
  · rw [String.append_empty]
    refine ha.mono fun c hc => ?_
    simp only [Lexer.isLineEnd, Bool.or_eq_true, beq_iff_eq] at hc
    rcases hc with rfl | rfl <;> rfl

theorem StatsText.scoped {proxy a b : String} (hp : isName proxy = true)
    (ho : ExpText settings.newline a) (hb : BlockText settings.newline b) (depth : Nat) :
    StatsText settings.newline
      (line depth "do"
        ++ line (depth + 1) ("local " ++ proxy ++ " = " ++ a
          ++ (if settings.markers then " " ++ markerText settings "WithStmt" else ""))
        ++ b
        ++ line depth ("end"
          ++ (if settings.markers then " " ++ markerText settings "WithStmtEnd" else ""))) := by
  have hlocal : StepText settings.newline ("local " ++ proxy ++ " = " ++ a) := by
    have h := StepText.define [proxy] (by simp) (by simpa using hp) ho
    simpa [commaSeparated] using h
  obtain ⟨ts, hts, hlex⟩ := hlocal
  have hfirst : StatsText settings.newline
      (line (depth + 1) ("local " ++ proxy ++ " = " ++ a
        ++ (if settings.markers then " " ++ markerText settings "WithStmt" else ""))) :=
    ⟨ts, hts, lexes_line (depth + 1) (hlex.marked settings (by decide)) ⟨rfl, rfl⟩⟩
  have hend : Lexes settings.newline endsExp "end" (Grammar.kw "end") :=
    (lexes_keyword settings.newline (by decide)).mono fun _ => endsWord_of_endsExp
  have hclose := lexes_line depth (Lexes.marked settings (t := "WithStmtEnd") (by decide) hend)
    ⟨rfl, rfl⟩
  obtain ⟨bs, hbs, hall⟩ := (hb.prepend hfirst).between
    (lexes_keywordLine depth (w := "do") (by decide)) hclose
  refine ⟨_, .one (.block hbs), ?_⟩
  simpa only [String.append_assoc] using hall

mutual

theorem Expr.reads (depth : Nat) : (e : Expr) → e.WellFormed .grammatical → e.Reads settings depth
  | .nil, _ => .of_literal (.keyword (w := "nil") (by decide) .nil) (.inr (.inl rfl)) rfl rfl
  | .bool true, _ =>
    .of_literal (.keyword (w := "true") (by decide) .truth) (.inr (.inr (.inl rfl))) rfl rfl
  | .bool false, _ =>
    .of_literal (.keyword (w := "false") (by decide) .falsity) (.inr (.inr (.inr rfl))) rfl rfl
  | .vararg, _ => .of_value .vararg rfl rfl rfl
  | .int n, _ => by
    refine .of_literal (.nat n) (.inl ?_) rfl rfl
    exact leads_mono (fun c hc => by simp [startsLiteral, hc]) (leads_nat n)
  | .number x, _ => .of_value (.numeral x) rfl rfl rfl
  | .string s, _ => .of_literal (.quote s) (.inl (leads_quote s)) rfl rfl
  | .bytes b, _ => .of_literal (.quoteBytes b) (.inl (leads_quoteBytes b)) rfl rfl
  | .name text, h => .of_var (.name h) rfl
  | .read text, h => .of_operand (prefixText_readText settings h) rfl rfl
  | .paren e, h => .of_operand (e.reads depth h).exp.paren rfl rfl
  | .call f args, h =>
    .of_call (.of_args ((f.reads depth h.2.1).pre h.1) _ (Expr.reads_list depth args h.2.2)) rfl
  | .field e name, h => .of_var (.of_field ((e.reads depth h.2).pre h.1) name) rfl
  | .index e key, h =>
    .of_var (.of_index ((e.reads depth h.2.1).pre h.1) (key.reads depth h.2.2).exp) rfl
  | .unop .not e, h => .of_value (e.reads depth h).exp.not rfl rfl rfl
  | .unop .neg e, h => .of_value ((e.reads depth h.2).call h.1).neg rfl rfl rfl
  | .binop op left right, h =>
    .of_value ((left.reads depth h.1).exp.binop op (right.reads depth h.2).exp) rfl rfl rfl
  | .table fields, h =>
    .of_literal (.table (Field.reads_list depth fields h))
      (.inl (leads_append (leads_append rfl))) rfl rfl
  | .func params variadic body, h =>
    .of_value (.func h.1 variadic (Stat.reads_block (depth + 1) body h.2) depth) rfl rfl rfl
  | .lambda steps result, h =>
    .of_value (.lambda (Step.reads_list depth steps h.1) (result.reads depth h.2).exp) rfl rfl rfl
  | .noted e note, h => .of_value ((e.reads depth h.1).exp.noted h.2) rfl rfl rfl

theorem Expr.reads_list (depth : Nat) : (es : List Expr) → Expr.WellFormedList .grammatical es →
    ∀ t ∈ Expr.renderList settings depth es, ExpText settings.newline t
  | [], _ => by simp [Expr.renderList]
  | e :: rest, h => by
    rw [Expr.renderList, List.forall_mem_cons]
    exact ⟨(e.reads depth h.1).exp, Expr.reads_list depth rest h.2⟩

theorem Field.reads_list (depth : Nat) : (fields : List Field) →
    Field.WellFormedList .grammatical fields →
    ∀ t ∈ Field.render settings depth fields, FieldText settings.newline t
  | [], _ => by simp [Field.render]
  | .item value :: rest, h => by
    rw [Field.render, List.forall_mem_cons]
    exact ⟨.item (value.reads depth h.1).exp, Field.reads_list depth rest h.2⟩
  | .keyed key value :: rest, h => by
    rw [Field.render, List.forall_mem_cons]
    exact ⟨.keyed (key.reads depth h.1).exp (value.reads depth h.2.1).exp,
      Field.reads_list depth rest h.2.2⟩

theorem Step.reads (depth : Nat) : (s : Step) → s.WellFormed .grammatical →
    StepText settings.newline (s.render settings depth)
  | .define name value, h => by
    have hdef := StepText.define [name] (by simp) (List.forall_mem_singleton.mpr h.1)
      (value.reads depth h.2).exp
    simpa [commaSeparated, Step.render] using hdef
  | .assign target value, h =>
    .assign ((target.reads depth h.2.1).var h.1) (value.reads depth h.2.2).exp

theorem Step.reads_list (depth : Nat) : (steps : List Step) →
    Step.WellFormedList .grammatical steps →
    StatsText settings.newline (Step.renderList settings depth steps)
  | [], _ => .nil
  | s :: rest, h => (s.reads depth h.1).closed.append (Step.reads_list depth rest h.2)

theorem Step.reads_else (depth : Nat) : (step : Option Step) →
    Step.WellFormedOpt .grammatical step →
    BranchesText settings.newline (Step.renderElse settings depth step)
  | none, _ => .none
  | some s, h => .lastStep (s.reads depth h) depth

theorem Arm.reads_list (depth : Nat) (last : String)
    (hl : BranchesText settings.newline last) : (arms : List Arm) →
    Arm.WellFormedList .grammatical arms →
    BranchesText settings.newline (Arm.render settings depth "elseif" arms ++ last)
  | [], _ => by simpa [Arm.render] using hl
  | .mk cond step :: rest, h => by
    rw [Arm.render, String.append_assoc]
    exact .arm (cond.reads depth h.1).exp (step.reads depth h.2.1)
      (Arm.reads_list depth last hl rest h.2.2) depth

theorem Tail.reads (depth : Nat) : (tail : Tail) → tail.WellFormed .grammatical →
    BranchesText settings.newline (tail.render settings depth)
  | .none, _ => .none
  | .otherwise body, h => .otherwise (Stat.reads_block (depth + 1) body h) depth
  | .elseif cond body tail, h =>
    .elseif (cond.reads (depth + 1) h.1).exp (Stat.reads_block (depth + 1) body h.2.1)
      (tail.reads depth h.2.2) depth

theorem Stat.reads (depth : Nat) {stored : Option String} : (s : Stat) →
    s.WellFormed .grammatical stored → s.Reads settings depth
  | .note text, h => .of_stats ⟨[], .nil, Stat.lexes_comment settings depth (s := .note text) h⟩
  | .marker text, h => .of_stats ⟨[], .nil, Stat.lexes_comment settings depth (s := .marker text) h⟩
  | .declare names, h => .of_stats ((StepText.declare h.1 h.2).line depth)
  | .define names value, h =>
    .of_stats ((StepText.define names h.1.1 h.1.2 (value.reads depth h.2).exp).line depth)
  | .assign target value, h => by
    have hstep :=
      StepText.assign ((target.reads depth h.2.1).var h.1) (value.reads depth h.2.2).exp
    exact .of_stats (hstep.separated.line depth)
  | .store target key, h => by
    have hkey : VarText settings.newline key := VarText.name h.1.2.2
    have hstep := StepText.assign ((target.reads depth h.1.2.1).var h.1.1) hkey.pre.exp
    exact .of_stats (hstep.line depth)
  | .call e, h =>
    .of_stats ((StepText.call ((e.reads depth h.2).call h.1)).separated.line depth)
  | .doBlock body, h => .of_stats (.doBlock (Stat.reads_block (depth + 1) body h) depth)
  | .whileLoop cond body, h =>
    .of_stats (.whileLoop (cond.reads depth h.1).exp
      (Stat.reads_block (depth + 1) body h.2) depth)
  | .repeatUntil body cond, h =>
    .of_stats (.repeatLoop (Stat.reads_block (depth + 1) body h.1)
      (cond.reads (depth + 1) h.2).exp depth)
  | .ifThen cond body tail, h =>
    .of_stats (.conditional (cond.reads depth h.1).exp
      (Stat.reads_block (depth + 1) body h.2.1) (tail.reads depth h.2.2) depth)
  | .select [] otherwise, h => absurd rfl h.1
  | .select (.mk cond step :: rest) otherwise, h => by
    have hrest := Arm.reads_list depth _ (Step.reads_else depth otherwise h.2.2) rest h.2.1.2.2
    have hall := StatsText.selection (cond.reads depth h.2.1.1).exp
      (step.reads depth h.2.1.2.1) hrest depth
    refine .of_stats ?_
    rw [Stat.render, Arm.render]
    simpa only [String.append_assoc] using hall
  | .forIn key value iterator body, h =>
    .of_stats (.forIn h.1 h.2.1 (iterator.reads depth h.2.2.1).exp
      (Stat.reads_block (depth + 1) body h.2.2.2) depth)
  | .scoped proxy object body, h =>
    .of_stats (.scoped settings h.1 (object.reads depth h.2.1).exp
      (Stat.reads_block (depth + 1) body h.2.2) depth)
  | .goTo label, h => .of_stats ((StepText.goTo h).line depth)
  | .label name, h => .of_stats ((StepText.label h).line depth)
  | .breakLoop, _ => .of_stats (StepText.leave.line depth)
  | .ret value, h => ⟨.ret (value.reads depth h).exp depth, nofun⟩

theorem Stat.reads_block (depth : Nat) {stored : Option String} : (body : List Stat) →
    Stat.WellFormedBlock .grammatical stored body →
    BlockText settings.newline (Stat.renderList settings depth body)
  | [], _ => StatsText.nil.block
  | s :: rest, h => by
    have hs := s.reads depth h.1
    cases hr : s.isReturn with
    | true => exact hs.block.blank (Stat.lexes_comments settings depth (h.2.1 hr))
    | false => exact BlockText.prepend (hs.stats hr) (Stat.reads_block depth rest h.2.2)

end

/-- The text of a well-formed chunk is Lua, under every settings. -/
theorem Chunk.isChunk_render {chunk : Chunk}
    (h : Stat.WellFormedBlock .grammatical none chunk.body) : IsChunk (chunk.render settings) := by
  obtain ⟨ts, hts, hlex⟩ := Stat.reads_block settings 0 chunk.body h
  refine ⟨ts, ?_, hts⟩
  have hscan := hlex [] (by simp)
  unfold Scans at hscan
  rw [List.append_nil] at hscan
  rw [Chunk.render, toList_withNewlines, hscan]
  simp [scan]

end EcmaLua.Lua
