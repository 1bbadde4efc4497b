import EcmaLua.Proofs.Lua.Legible
import EcmaLua.Proofs.Lua.Lines

/-!
# The marks of a chunk

The lines of a chunk's text that are jumps or labels are the marks of its tree, in order.
-/

namespace EcmaLua.Lua

section Texts

variable {newline : Newline} {A : List Char → Prop} {a b : String} {ms ns : List Mark}

theorem flows_opening (a : String) (h : opens a.toList = true := by decide) : Flows newline a [] :=
  (carries_opening a h).done

/-- The last of the parts of a text. -/
theorem Carries.end (h : Carries newline A Begun a ms) (b : String)
    (hb : (parts b.toList && !b.toList.contains '\n') = true := by decide) :
    Carries newline A Begun (a ++ b) ms :=
  (h.part b hb).done

/-- A block behind its first line. -/
theorem Carries.block (h : Flows newline a ms) (depth : Nat) (hb : FullLines newline b ns) :
    FullLines newline (Lua.line depth a ++ b ++ Lua.line depth "end") (ms ++ ns) :=
  ((h.line depth).append hb).close ((flows_opening "end" (by decide)).line depth)

theorem Carries.paren (h : Flows newline a ms) : Flows newline ("(" ++ a ++ ")") ms :=
  (h.behind "(" (by decide)).end ")" (by decide)

theorem Carries.asPrefix (h : Flows newline a ms) : Flows newline (asPrefix a) ms := by
  rcases asPrefix_eq a with heq | heq
  · rw [heq]
    exact h.paren
  · rw [heq]
    exact h

theorem Carries.separated (h : Flows newline a ms) : Flows newline (separated a) ms := by
  unfold Lua.separated
  split
  · exact h.behind ";" (by decide)
  · exact h

/-- A legible text that starts with a digit, a sign or a quote. -/
theorem flows_literal (h : leads (fun c => c.isDigit || c == '-' || c == '"') a = true)
    (hl : legible a.toList = true) : Flows newline a [] := by
  refine flows_opening a ?_
  unfold leads at h
  unfold opens
  cases ha : a.toList with
  | nil => simp [ha] at h
  | cons c cs =>
    rw [ha] at h hl
    have hc : (c.isDigit || c == '-' || c == '"') = true := (Bool.and_eq_true _ _ |>.mp h).1
    have hne (d : Char) (hd : (d.isDigit || d == '-' || d == '"') = false) : c ≠ d := by
      rintro rfl
      simp [hc] at hd
    simpa [hne ' ' rfl, hne ':' rfl, hne 'b' rfl, hne 'g' rfl] using newline_of_legible hl

theorem flows_nat (n : Nat) : Flows newline (toString n) [] :=
  flows_literal (leads_mono (fun c hc => by simp [hc]) (leads_nat n)) (legible_nat n)

theorem flows_numeral (x : Double) : Flows newline (numeral x) [] := by
  unfold numeral
  split
  · exact flows_opening _ (by decide)
  split
  · split <;> exact flows_opening _ (by decide)
  split
  · exact flows_opening _ (by decide)
  have hl {sign : List Char} (hs : sign = [] ∨ sign = ['-']) :
      legible (String.ofList (sign ++ numeralDigits x.shortest)).toList = true := by
    rw [String.toList_ofList]
    exact legible_numeralDigits _ hs
  split
  · exact flows_literal (by simp [leads]) (hl (Or.inr rfl))
  · exact flows_literal (leads_mono (fun c hc => by simp [hc]) (leads_numeralDigits _))
      (hl (Or.inl rfl))

theorem flows_quote (text : String) : Flows newline (quote text) [] :=
  flows_literal (by simp [leads, quote]) (legible_quote text)

theorem flows_quoteBytes (bytes : List UInt8) : Flows newline (quoteBytes bytes) [] :=
  flows_literal (by simp [leads, quoteBytes]) (legible_quoteBytes bytes)

theorem carries_fieldSuffix (name : String) :
    Carries newline Begun Inert (fieldSuffix name) [] := by
  refine carries_parting _ ?_
  have hn := newline_of_legible (legible_fieldSuffix name)
  rw [Bool.and_eq_true]
  refine ⟨?_, by simpa using hn⟩
  unfold fieldSuffix
  split <;> simp [parts, isNameChar]

theorem carries_note {text : String} (h : '\n' ∉ text.toList) :
    Carries newline Start Inert (noteText text) [] :=
  ((carries_opening "--[[" (by decide)).inner h).inner (by decide)

end Texts

variable (settings : Settings)

theorem flows_readText {text : String} (h : Vocabulary.words.name text) :
    Flows settings.newline (readText settings text) [] := by
  unfold readText
  split
  · exact ((flows_word h).behind _ (by decide)).end ")" (by decide)
  · exact flows_word h

theorem fullLines_empty {newline : Newline} : FullLines newline "" [] := by
  refine carries_plain (by decide) fun before hb => ?_
  rwa [String.toList_empty, List.append_nil]

theorem lines_break (depth : Nat) : FullLines settings.newline (line depth "break") [.leave] :=
  carries_mark rfl (by decide) (by decide) (by decide) rfl depth

/-- Names have no characters that end a line. -/
theorem not_mem_of_word {text : String} (h : Vocabulary.words.name text) {c : Char}
    (hc : isNameChar c = false) : c ∉ text.toList := by
  intro hm
  have hname := h.1 c hm
  rw [hc] at hname
  exact absurd hname (by decide)

theorem lines_goTo (depth : Nat) {label : String} (h : Vocabulary.words.name label) :
    FullLines settings.newline (line depth ("goto " ++ label)) [.goTo label] := by
  have htext : ("goto " ++ label).toList = 'g' :: ("oto ".toList ++ label.toList) := by
    rw [String.toList_append]
    rfl
  have hmem (c : Char) (hc : isNameChar c = false) (hs : c ∉ "goto ".toList) :
      c ∉ 'g' :: ("oto ".toList ++ label.toList) := by
    have hl := not_mem_of_word h hc
    rw [← htext, String.toList_append, List.mem_append, not_or]
    exact ⟨hs, hl⟩
  refine carries_mark htext (by decide) (hmem '\n' rfl (by decide)) (hmem '\r' rfl (by decide)) ?_
    depth
  change some (Mark.goTo (String.ofList label.toList)) = _
  rw [String.ofList_toList]

theorem lines_label (depth : Nat) {name : String} (h : Vocabulary.words.name name) :
    FullLines settings.newline (line depth ("::" ++ name ++ "::")) [.label name] := by
  have htext : ("::" ++ name ++ "::").toList = ':' :: ':' :: (name.toList ++ [':', ':']) := by
    rw [String.toList_append, String.toList_append]
    rfl
  have hmem (c : Char) (hc : isNameChar c = false) (hs : c ≠ ':') :
      c ∉ ':' :: ':' :: (name.toList ++ [':', ':']) := by
    have hl := not_mem_of_word h hc
    simp [hs, hl]
  refine carries_mark htext (by decide) (hmem '\n' rfl (by decide)) (hmem '\r' rfl (by decide)) ?_
    depth
  simp [Mark.ofContent]

theorem lines_marker (depth : Nat) {text : String} (h : '\n' ∉ text.toList) :
    FullLines settings.newline
      (if settings.markers then line depth (markerText settings text) else "") [] := by
  split
  · next hm =>
      rw [markerText, if_pos hm]
      exact ((carries_opening "-- " (by decide)).inner h).done.line depth
  · exact fullLines_empty

/-- A marking comment at the end of a line. -/
theorem carries_remark {text : String} (h : '\n' ∉ text.toList) :
    Carries settings.newline Begun Begun
      (if settings.markers then " " ++ markerText settings text else "") [] := by
  split
  · next hm =>
      have heq : " " ++ markerText settings text = " -- " ++ text := by
        rw [markerText, if_pos hm, ← String.append_assoc]
        rfl
      rw [heq]
      exact ((carries_parting " -- " (by decide)).inner h).done
  · refine carries_plain (by decide) fun before hb => ?_
    rwa [String.toList_empty, List.append_nil]

theorem carries_spacedNote {text : String} (h : '\n' ∉ text.toList) :
    Carries settings.newline Begun Inert (" " ++ noteText text) [] := by
  have heq : " " ++ noteText text = " --[[" ++ text ++ "]]" := by
    rw [noteText, ← String.append_assoc, ← String.append_assoc]
    rfl
  rw [heq]
  exact ((carries_parting " --[[" (by decide)).inner h).inner (by decide)

theorem BinOp.carries (op : BinOp) :
    Carries settings.newline Begun Inert (" " ++ op.text ++ " ") [] := by
  cases op <;> exact carries_parting _ (by decide)

/-- Texts in a row, each with its marks. -/
inductive FlowsList (newline : Newline) : List String → List Mark → Prop
  | nil : FlowsList newline [] []
  | cons {text : String} {texts : List String} {ms ns : List Mark} (h : Flows newline text ms)
      (ht : FlowsList newline texts ns) : FlowsList newline (text :: texts) (ms ++ ns)

theorem FlowsList.commaSeparated {newline : Newline} {texts : List String} {ms : List Mark}
    (h : FlowsList newline texts ms) :
    Carries newline Inert Begun (commaSeparated texts) ms := by
  induction h with
  | nil =>
    have hempty : Carries newline Inert Inert "" [] := carries_inner (by decide)
    exact hempty.done
  | @cons text texts ms ns h ht ih =>
    have hfirst : Carries newline Inert Begun text ms := h.mono (fun _ => Or.inr) fun _ => id
    cases ht with
    | nil => simpa [Lua.commaSeparated] using hfirst
    | @cons text' texts' ms' ns' h' ht' =>
      have hcomma : Carries newline Inert Inert (text ++ ", ") ms := hfirst.part _ (by decide)
      simpa only [Lua.commaSeparated, String.intercalate_cons_cons] using hcomma.append ih

theorem flowsList_words {newline : Newline} {texts : List String}
    (h : ∀ t ∈ texts, Vocabulary.words.name t) : FlowsList newline texts [] := by
  induction texts with
  | nil => exact .nil
  | cons t rest ih =>
    obtain ⟨ht, hrest⟩ := List.forall_mem_cons.mp h
    exact .cons (flows_word ht) (ih hrest)

/-- The text of a function, from its parameters and its body. -/
theorem flows_function (depth : Nat) {params : List String} {variadic : Bool} {body : String}
    {ms : List Mark} (hp : ∀ p ∈ params, Vocabulary.words.name p)
    (hb : FullLines settings.newline body ms) :
    Flows settings.newline
      ("function (" ++ commaSeparated (if variadic then params ++ ["..."] else params) ++ ")\n"
        ++ body ++ indentation depth ++ "end") ms := by
  have hdots : FlowsList settings.newline (params ++ ["..."]) [] := by
    clear hb
    induction params with
    | nil => exact .cons (flows_opening _ (by decide)) .nil
    | cons p rest ih =>
      obtain ⟨hw, hrest⟩ := List.forall_mem_cons.mp hp
      exact .cons (flows_word hw) (ih hrest)
  have hall : FlowsList settings.newline
      (if variadic then params ++ ["..."] else params) [] := by
    split
    · exact hdots
    · exact flowsList_words hp
  have hhead := (hall.commaSeparated.within "function (" (by decide)).close
    ((carries_parting ")" (by decide)).done.close carries_newline)
  exact (((hhead.append hb).close (carries_indentation depth)).close
    (carries_opening "end" (by decide))).done

mutual

/-- The text of an expression has the marks of the functions in it. -/
theorem Expr.flows (depth : Nat) : (e : Expr) → e.Settled .words →
    Flows settings.newline (e.render settings depth) e.marks
  | .nil, _ => flows_opening "nil"
  | .bool true, _ => flows_opening "true"
  | .bool false, _ => flows_opening "false"
  | .vararg, _ => flows_opening "..."
  | .int n, _ => flows_nat n
  | .number x, _ => flows_numeral x
  | .string s, _ => flows_quote s
  | .bytes b, _ => flows_quoteBytes b
  | .name _, h => flows_word h
  | .read _, h => flows_readText settings h
  | .paren e, h => (e.flows depth h).paren
  | .call f args, h =>
    have hopen := (f.flows depth h.1).asPrefix.part "("
    (hopen.append (Expr.flows_list depth args h.2).commaSeparated).end _
  | .field e name, h => ((e.flows depth h).asPrefix.close (carries_fieldSuffix name)).done
  | .index e key, h => (((e.flows depth h.1).asPrefix.part "[").then (key.flows depth h.2)).end _
  | .unop .not e, h => (e.flows depth h).behind "not "
  | .unop .neg e, h => (e.flows depth h).behind "-"
  | .binop op left right, h => by
    have hall := ((left.flows depth h.1).close (op.carries settings)).then
      (right.flows depth h.2)
    rw [← String.append_assoc, ← String.append_assoc] at hall
    exact hall
  | .table fields, h => ((Field.flows_list depth fields h).commaSeparated.within "\x7b").end _
  | .func _ _ body, h => flows_function settings depth h.1 (Stat.lines_block (depth + 1) body h.2)
  | .lambda steps result, h =>
    have hsteps :=
      ((Step.carries_list depth steps h.1).within "function () ").inner (b := "return ")
    (hsteps.then (result.flows depth h.2)).end _
  | .noted e note, h => by
    have hall := ((e.flows depth h.1).close (carries_spacedNote settings h.2)).done
    rw [← String.append_assoc] at hall
    exact hall

theorem Expr.flows_list (depth : Nat) : (es : List Expr) → Expr.SettledList .words es →
    FlowsList settings.newline (Expr.renderList settings depth es) (Expr.marksList es)
  | [], _ => .nil
  | e :: rest, h => .cons (e.flows depth h.1) (Expr.flows_list depth rest h.2)

theorem Field.flows_list (depth : Nat) : (fields : List Field) →
    Field.SettledList .words fields →
    FlowsList settings.newline (Field.render settings depth fields) (Field.marksList fields)
  | [], _ => .nil
  | .item value :: rest, h => .cons (value.flows depth h.1) (Field.flows_list depth rest h.2)
  | .keyed key value :: rest, h =>
    have hkey := ((key.flows depth h.1).behind "[").part "]="
    .cons (hkey.then (value.flows depth h.2.1)) (Field.flows_list depth rest h.2.2)

theorem Step.flows (depth : Nat) : (s : Step) → s.Settled .words →
    Flows settings.newline (s.render settings depth) s.marks
  | .define name value, h =>
    (((flows_word h.1).behind "local ").part " = ").then (value.flows depth h.2)
  | .assign target value, h => ((target.flows depth h.1).part " = ").then (value.flows depth h.2)

theorem Step.carries_list (depth : Nat) : (steps : List Step) → Step.SettledList .words steps →
    Carries settings.newline Inert Inert (Step.renderList settings depth steps)
      (Step.marksList steps)
  | [], _ => carries_inner (a := "")
  | s :: rest, h =>
    have hstep := ((s.flows depth h.1).mono (fun _ => Or.inr) fun _ => id).part "; "
    hstep.append (Step.carries_list depth rest h.2)

theorem Step.lines_else (depth : Nat) : (step : Option Step) → Step.SettledOpt .words step →
    FullLines settings.newline (Step.renderElse settings depth step) (Step.marksOpt step)
  | none, _ => fullLines_empty
  | some step, h => ((step.flows depth h).behind "else ").line depth

theorem Arm.lines_list (depth : Nat) : (keyword : String) →
    opens (keyword ++ " ").toList = true → (arms : List Arm) → Arm.SettledList .words arms →
    FullLines settings.newline (Arm.render settings depth keyword arms) (Arm.marksList arms)
  | _, _, [], _ => fullLines_empty
  | keyword, hk, .mk cond step :: rest, h =>
    have hcond := ((cond.flows depth h.1).behind _ hk).part " then "
    have hline := (hcond.then (step.flows depth h.2.1)).line depth
    hline.append (Arm.lines_list depth "elseif" (by decide) rest h.2.2)

theorem Tail.lines (depth : Nat) : {visible : List String} → {loop : Bool} → (t : Tail) →
    t.Settled .words visible loop → FullLines settings.newline (t.render settings depth) t.marks
  | _, _, .none, _ => fullLines_empty
  | _, _, .otherwise body, h =>
    ((flows_opening "else").line depth).append (Stat.lines_block (depth + 1) body h)
  | _, _, .elseif cond body tail, h =>
    have hcond := ((cond.flows (depth + 1) h.1).behind "elseif ").end " then"
    ((hcond.line depth).append (Stat.lines_block (depth + 1) body h.2.1)).append
      (tail.lines depth h.2.2)

/-- The lines of a statement have its marks. -/
theorem Stat.lines (depth : Nat) : {visible : List String} → {loop : Bool} → (s : Stat) →
    s.Settled .words visible loop → FullLines settings.newline (s.render settings depth) s.marks
  | _, _, .note _, h => (carries_note h).done.line depth
  | _, _, .marker _, h => lines_marker settings depth h
  | _, _, .declare names, h => ((flowsList_words h).commaSeparated.within "local ").line depth
  | _, _, .define names value, h =>
    have hnames := ((flowsList_words h.1).commaSeparated.within "local ").part " = "
    (hnames.then (value.flows depth h.2)).line depth
  | _, _, .assign target value, h =>
    have hstep := ((target.flows depth h.1).part " = ").then (value.flows depth h.2)
    hstep.separated.line depth
  | _, _, .store target key, h => by
    have hkey := ((target.flows depth h.1).part " = ").then (flows_word h.2)
    rw [List.append_nil] at hkey
    exact hkey.line depth
  | _, _, .call e, h => (e.flows depth h).separated.line depth
  | _, _, .doBlock body, h =>
    (flows_opening "do").block depth (Stat.lines_block (depth + 1) body h)
  | _, _, .whileLoop cond body, h =>
    have hcond := ((cond.flows depth h.1).behind "while ").end " do"
    hcond.block depth (Stat.lines_block (depth + 1) body h.2.1)
  | _, _, .repeatUntil body cond, h =>
    have huntil := (cond.flows (depth + 1) h.2.1).behind "until "
    (((flows_opening "repeat").line depth).append (Stat.lines_block (depth + 1) body h.1)).append
      (huntil.line depth)
  | _, _, .ifThen cond body tail, h =>
    have hcond := ((cond.flows depth h.1).behind "if ").end " then"
    (((hcond.line depth).append (Stat.lines_block (depth + 1) body h.2.1)).append
      (tail.lines depth h.2.2)).close ((flows_opening "end").line depth)
  | _, _, .select arms otherwise, h =>
    ((Arm.lines_list depth "if" (by decide) arms h.1).append
      (Step.lines_else depth otherwise h.2)).close ((flows_opening "end").line depth)
  | _, _, .forIn key value iterator body, h =>
    have hkey := ((flows_word h.1).behind "for ").part ", "
    have hvalue := (hkey.then (flows_word h.2.1)).part " in "
    have hhead := (hvalue.then (iterator.flows depth h.2.2.1)).end " do"
    hhead.block depth (Stat.lines_block (depth + 1) body h.2.2.2.1)
  | _, _, .scoped proxy object body, h => by
    have hproxy := (((flows_word h.1).behind "local ").part " = ").then (object.flows depth h.2.1)
    have hobject := hproxy.close (carries_remark settings (show '\n' ∉ "WithStmt".toList by decide))
    exact ((((flows_opening "do").line depth).append (hobject.line (depth + 1))).append
      (Stat.lines_block (depth + 1) body h.2.2)).close
      (((flows_opening "end").close (carries_remark settings (by decide))).line depth)
  | _, _, .goTo label, h => lines_goTo settings depth h.2
  | _, _, .label name, h => lines_label settings depth h
  | _, _, .breakLoop, _ => lines_break settings depth
  | _, _, .ret value, h => ((value.flows depth h).behind "return ").line depth

theorem Stat.lines_block (depth : Nat) : {visible : List String} → {loop : Bool} →
    (code : List Stat) → Stat.SettledBlock .words visible loop code →
    FullLines settings.newline (Stat.renderList settings depth code) (Stat.marksList code)
  | _, _, [], _ => fullLines_empty
  | _, _, s :: rest, h => (s.lines depth h.1).append (Stat.lines_block depth rest h.2)

end

/-- The jumps and labels among the lines of a chunk's text are those of its tree. -/
theorem Chunk.markLines_render (chunk : Chunk)
    (h : Stat.SettledBlock .words [] false chunk.body) :
    markLines (chunk.render settings) = Stat.marksList chunk.body := by
  obtain ⟨after, rfl, hlines⟩ := Stat.lines_block settings 0 chunk.body h [] rfl
  have hall := hlines []
  have hempty : marksFrom [] [] = [] := by decide
  rw [hempty, List.append_nil, List.append_nil] at hall
  rw [markLines, Chunk.render, toList_withNewlines]
  exact hall

end EcmaLua.Lua
