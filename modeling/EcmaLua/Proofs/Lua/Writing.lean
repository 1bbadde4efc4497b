import EcmaLua.Proofs.Lua.Pieces
import EcmaLua.Proofs.Lua.Scanning

/-!
# A chunk in pieces

The text of a settled chunk is a course of pieces, one for all settings that agree about what the
printer sees of checked names.
-/

namespace EcmaLua.Lua

/-- If the spots are allowed, one course of pieces with these spots is the text under all the
settings. -/
def Written (v : Vocabulary) (allowed : Spot → Prop) (among : Settings → Prop) (a b : Position)
    (spots : List Spot) (text : Settings → String) : Prop :=
  (∀ spot ∈ spots, allowed spot) → ∃ pieces, Course v allowed a pieces b ∧
    pieces.flatMap Piece.spots = spots ∧ ∀ s, among s → (text s).toList = Piece.chars s pieces

/-- Texts in a row, each a course of its own that ends on the given side. -/
inductive WrittenList (v : Vocabulary) (allowed : Spot → Prop) (among : Settings → Prop)
    (side : Side) : List Spot → (Settings → List String) → Prop
  | nil : WrittenList v allowed among side [] fun _ => []
  | cons {spots rest : List Spot} {text : Settings → String} {texts : Settings → List String}
      (h : Written v allowed among .ready (.behind side) spots text)
      (ht : WrittenList v allowed among side rest texts) :
      WrittenList v allowed among side (spots ++ rest) fun s => text s :: texts s

section Combinations

variable {v : Vocabulary} {allowed : Spot → Prop} {among : Settings → Prop} {a b c : Position}
  {side : Side} {spots more : List Spot} {text text' : Settings → String}
  {texts : Settings → List String}

theorem Written.one (piece : Piece)
    (h : (∀ spot ∈ piece.spots, allowed spot) → piece.Moves v allowed a b)
    (ht : ∀ s, text s = piece.text s) : Written v allowed among a b piece.spots text :=
  fun hspots => ⟨[piece], .one (h hspots), by simp, fun s _ => by simp [Piece.chars, ht]⟩

theorem Written.append (h : Written v allowed among a b spots text)
    (h' : Written v allowed among b c more text') :
    Written v allowed among a c (spots ++ more) fun s => text s ++ text' s := by
  intro hspots
  obtain ⟨hfirst, hsecond⟩ := List.forall_mem_append.mp hspots
  obtain ⟨pieces, hcourse, rfl, htext⟩ := h hfirst
  obtain ⟨rest, hcourse', rfl, htext'⟩ := h' hsecond
  refine ⟨pieces ++ rest, hcourse.append hcourse', List.flatMap_append, fun s hs => ?_⟩
  rw [String.toList_append, Piece.chars_append, htext s hs, htext' s hs]

theorem Written.within (h : Written v allowed among a b spots text) (hbc : b.Within c) :
    Written v allowed among a c spots text := by
  intro hspots
  obtain ⟨pieces, hcourse, heq, htext⟩ := h hspots
  have hend := hcourse.append (.nil hbc)
  rw [List.append_nil] at hend
  exact ⟨pieces, hend, heq, htext⟩

theorem Written.congr (h : Written v allowed among a b spots text)
    (heq : ∀ s, text' s = text s) : Written v allowed among a b spots text' := by
  have htext : text' = text := funext heq
  rwa [htext]

theorem written_nil : Written v allowed among a a [] fun _ => "" :=
  fun _ => ⟨[], .nil (.refl a), rfl, fun _ _ => by simp [Piece.chars]⟩

theorem written_plain {content : String} (h : joins a content b = true) :
    Written v allowed among a b [] fun _ => content := by
  rw [joins, Bool.and_eq_true] at h
  exact .one (.plain false content) (fun _ => .plain h.1 fun _ => h.2) fun _ => rfl

theorem written_literal {content : String} (h : fits a content b = true) :
    Written v allowed among a b [.word .literal content] fun _ => content :=
  .one (.plain true content) (fun _ => .plain h nofun) fun _ => rfl

/-- A fixed text that is an expression. -/
theorem written_fixed (content : String)
    (h : joins .ready content (.behind .right) = true := by decide) :
    Written v allowed among .ready (.behind side) [] fun _ => content :=
  written_plain h

theorem written_word {word : String} (role : WordRole) (side : Side) (h : v.name word) :
    Written v allowed among .ready (.behind side) [.word role word] fun _ => word :=
  .one (.word role word) (fun _ => .word side h) fun _ => rfl

theorem written_read {name : String} (h : v.name name) :
    Written v allowed among .ready (.behind side) [.read side name] fun s => readText s name :=
  .one (.read side name) (fun hspots => .read h (hspots _ List.mem_cons_self)) fun _ => rfl

theorem written_note {note : String} (h : v.note note) :
    Written v allowed among .ready .ready [.note note] fun _ => noteText note :=
  .one (.note false note) (fun _ => .note false rfl (fun _ => rfl) h) fun _ => by
    simp [Piece.text]

theorem written_noteApart {note : String} (h : v.note note) :
    Written v allowed among (.behind .right) .ready [.note note] fun _ => " " ++ noteText note :=
  .one (.note true note) (fun _ => .note true rfl nofun h) fun _ => by simp [Piece.text]

theorem written_indentation (depth : Nat) :
    Written v allowed among .start .ready [] fun _ => indentation depth :=
  .one (.indentation depth) (fun _ => .indentation depth) fun _ => rfl

theorem written_newline (h : a ≠ .start) : Written v allowed among a .start [] fun _ => "\n" :=
  .one .newline (fun _ => .newline h) fun _ => rfl

theorem written_marker {content : String} (h : v.note content) (depth : Nat) :
    Written v allowed among .start .start [.marker content] fun s =>
      if s.markers then line depth (markerText s content) else "" :=
  .one (.marker depth content) (fun hspots => .marker depth h (hspots _ List.mem_cons_self))
    fun _ => rfl

theorem written_remark (content : String) (h : content ∈ remarks := by decide) :
    Written v allowed among (.behind .right) .remarked [] fun s =>
      if s.markers then " " ++ markerText s content else "" :=
  .one (.remark content) (fun _ => .remark rfl h) fun _ => rfl

/-- A text without spots comes in front. -/
theorem Written.after (h : Written v allowed among .ready b spots text) (front : String)
    (hf : joins .ready front .ready = true := by decide) :
    Written v allowed among .ready b spots fun s => front ++ text s :=
  (written_plain hf).append h

theorem Written.thenNone (h : Written v allowed among a b spots text)
    (h' : Written v allowed among b c [] text') :
    Written v allowed among a c spots fun s => text s ++ text' s := by
  have hall := h.append h'
  rwa [List.append_nil] at hall

/-- A text without spots comes behind, and a word can follow. -/
theorem Written.then (h : Written v allowed among a b spots text) (back : String)
    (hf : joins b back .ready = true := by decide) :
    Written v allowed among a .ready spots fun s => text s ++ back :=
  h.thenNone (written_plain hf)

/-- A text without spots comes behind and ends an expression. -/
theorem Written.close (h : Written v allowed among a b spots text) (back : String)
    (hf : joins b back (.behind .right) = true := by decide) :
    Written v allowed among a (.behind side) spots fun s => text s ++ back :=
  h.thenNone (written_plain hf)

theorem Written.paren (h : Written v allowed among .ready (.behind .right) spots text) :
    Written v allowed among .ready (.behind side) spots fun s => "(" ++ text s ++ ")" :=
  (h.after "(" (by decide)).close ")" (by decide)

theorem WrittenList.commaSeparated (h : WrittenList v allowed among side spots texts) :
    Written v allowed among .ready (.behind side) spots fun s => commaSeparated (texts s) := by
  have hcomma : joins (.behind side) ", " .ready = true := by cases side <;> decide
  induction h with
  | nil => exact written_nil.within (.behind side)
  | cons h ht ih =>
    cases ht with
    | nil => simpa [Lua.commaSeparated] using h
    | cons h' ht' =>
      have hall := (h.then ", " hcomma).append ih
      simpa only [Lua.commaSeparated, String.intercalate_cons_cons] using hall

/-- Names that are introduced, with what else comes behind them in the list. -/
theorem writtenList_binders {words more : List String} (h : ∀ w ∈ words, v.name w)
    (hmore : WrittenList v allowed among side [] fun _ => more) :
    WrittenList v allowed among side (binders words) fun _ => words ++ more := by
  induction words with
  | nil => exact hmore
  | cons w rest ih =>
    obtain ⟨hw, hrest⟩ := List.forall_mem_cons.mp h
    exact .cons (written_word .binder side hw) (ih hrest)

/-- Names in front of the sign of an assignment. -/
theorem written_names {words : List String} (h : ∀ w ∈ words, v.name w) :
    Written v allowed among .ready (.behind .left) (binders words) fun _ =>
      commaSeparated words := by
  have hall : WrittenList v allowed among .left (binders words) fun _ => words ++ [] :=
    writtenList_binders h .nil
  simpa only [List.append_nil] using hall.commaSeparated

theorem Written.line (h : Written v allowed among .ready b spots text) (hb : b ≠ .start)
    (depth : Nat) : Written v allowed among .start .start spots fun s => line depth (text s) := by
  have hindented := (written_indentation depth).append h
  exact hindented.thenNone (written_newline hb)

/-- A line with a text without spots at its end. -/
theorem Written.lineWith (h : Written v allowed among .ready b spots text) (depth : Nat)
    (back : String) (hf : joins b back (.behind .right) = true := by decide) :
    Written v allowed among .start .start spots fun s => Lua.line depth (text s ++ back) :=
  (h.thenNone (written_plain hf)).line nofun depth

/-- A line that is the same under all settings. -/
theorem written_line (depth : Nat) (content : String)
    (h : joins .ready content (.behind .right) = true := by decide) :
    Written v allowed among .start .start [] fun _ => line depth content :=
  (written_plain h).line nofun depth

theorem written_operator (op : BinOp) :
    Written v allowed among (.behind .right) .ready [] fun _ => " " ++ op.text ++ " " := by
  cases op <;> exact written_plain (by decide)

/-- A function from the lines of its body. -/
theorem Written.function (h : Written v allowed among .start .start spots text)
    {params : List String} (hp : ∀ p ∈ params, v.name p) (variadic : Bool) (depth : Nat) :
    Written v allowed among .ready (.behind side) (binders params ++ spots) fun s =>
      "function (" ++ commaSeparated (if variadic then params ++ ["..."] else params) ++ ")\n"
        ++ text s ++ indentation depth ++ "end" := by
  have hdots : WrittenList v allowed among .right [] fun _ => ["..."] :=
    .cons (written_fixed "..." (by decide)) .nil
  have hall : WrittenList v allowed among .right (binders params) fun _ =>
      if variadic then params ++ ["..."] else params := by
    split
    · exact writtenList_binders hp hdots
    · simpa only [List.append_nil] using writtenList_binders hp .nil
  have hhead := ((hall.commaSeparated.after "function (" (by decide)).then ")"
    (by decide)).thenNone (written_newline nofun)
  have hbody := (hhead.append h).thenNone (written_indentation depth)
  refine (hbody.close "end").congr fun s => ?_
  simp only [String.append_assoc]
  rfl

end Combinations

section Decisions

variable {v : Vocabulary} {allowed : Spot → Prop} {among : Settings → Prop} {b : Position}
  {side : Side} {spots : List Spot} {text : Settings → String}

/-- Whether a text gets parentheses in front of a call or an index. -/
def needsParens (text : String) : Bool := bareWords.contains text || (look text.toList).1

theorem asPrefix_eq_ite (text : String) :
    asPrefix text = if needsParens text then "(" ++ text ++ ")" else text := by
  have hbare : (text == "nil" || text == "true" || text == "false") = bareWords.contains text := by
    simp only [bareWords, List.contains_cons, List.contains_nil, Bool.or_false, Bool.or_assoc]
  unfold asPrefix needsParens look
  rw [hbare]
  cases text.toList <;> rfl

theorem separated_eq_ite (text : String) :
    separated text = if (look text.toList).2 then ";" ++ text else text := by
  unfold separated look
  split
  · next heq => simp [heq]
  · next hne =>
      rw [if_neg]
      intro h
      cases hl : text.toList with
      | nil => simp [hl] at h
      | cons c cs =>
        simp only [hl, List.head?_cons, beq_iff_eq, Option.some.injEq] at h
        exact hne cs (by rw [hl, h])

/-- The printer sees the same of allowed checked names under all the settings. -/
def Agreeing (allowed : Spot → Prop) (among : Settings → Prop) : Prop :=
  ∀ s s', among s → among s' → Agree allowed s s'

/-- The printer sees the same of a checked name if it is spelled the same. -/
theorem agreeing_refGuard (allowed : Spot → Prop) (guard : Bool) :
    Agreeing allowed fun s => s.refGuard = guard := by
  intro s s' hs hs'
  have hread (name : String) : readText s' name = readText s name := by
    rw [readText, readText, hs, hs']
  constructor
  · intro side name rest rest' _ h
    rw [hread]
    exact look_append h
  · exact fun _ _ => hread _

/-- The text with something around it under all settings, or under none. -/
theorem Written.ite {change : Settings → String} {d : String → Bool}
    (h : Written v allowed among .ready (.behind side) spots text)
    (h' : Written v allowed among .ready (.behind side) spots change)
    (hd : (∀ spot ∈ spots, allowed spot) → ∀ s s', among s → among s' →
      d (text s) = true → d (text s') = true) :
    Written v allowed among .ready (.behind side) spots fun s =>
      if d (text s) then change s else text s := by
  intro hspots
  by_cases hsome : ∃ s, among s ∧ d (text s) = true
  · obtain ⟨s, hs, hn⟩ := hsome
    obtain ⟨pieces, hcourse, heq, htext⟩ := h' hspots
    refine ⟨pieces, hcourse, heq, fun s' hs' => ?_⟩
    simp only [if_pos (hd hspots s s' hs hs' hn), htext s' hs']
  · obtain ⟨pieces, hcourse, heq, htext⟩ := h hspots
    refine ⟨pieces, hcourse, heq, fun s hs => ?_⟩
    simp only [if_neg fun hn => hsome ⟨s, hs, hn⟩, htext s hs]

/-- Settings that agree put parentheses around the same texts. -/
theorem Written.asPrefix (hagree : Agreeing allowed among)
    (h : Written v allowed among .ready (.behind .right) spots text) :
    Written v allowed among .ready (.behind .right) spots fun s => asPrefix (text s) := by
  simp only [asPrefix_eq_ite]
  refine h.ite h.paren fun hspots s s' hs hs' hn => ?_
  obtain ⟨pieces, hcourse, -, htext⟩ := h hspots
  have hstring {s : Settings} (hs : among s) :
      String.ofList (Piece.chars s pieces) = text s := by
    rw [← htext s hs, String.ofList_toList]
  unfold needsParens at hn ⊢
  rw [Bool.or_eq_true] at hn ⊢
  rcases hn with hn | hn
  · have hw : String.ofList (Piece.chars s pieces) ∈ bareWords := by
      rw [hstring hs]
      simpa using hn
    rw [← hstring hs', hcourse.bare (hagree s s' hs hs') rfl hw, hstring hs]
    exact Or.inl hn
  · rw [htext s hs, hcourse.look_ready (hagree s s' hs hs')] at hn
    rw [htext s' hs']
    exact Or.inr hn

/-- Settings that agree put a semicolon in front of the same texts. -/
theorem Written.separated (hagree : Agreeing allowed among)
    (h : Written v allowed among .ready (.behind side) spots text) :
    Written v allowed among .ready (.behind side) spots fun s => separated (text s) := by
  simp only [separated_eq_ite]
  refine Written.ite (d := fun text => (look text.toList).2) h (h.after ";" (by decide)) ?_
  intro hspots s s' hs hs' hn
  obtain ⟨pieces, hcourse, -, htext⟩ := h hspots
  rw [htext s hs, hcourse.look_ready (hagree s s' hs hs')] at hn
  rwa [htext s' hs']

end Decisions

section Trees

variable {v : Vocabulary} {allowed : Spot → Prop} {among : Settings → Prop}

mutual

/-- The text of an expression in pieces. -/
theorem Expr.written (ha : Agreeing allowed among) (depth : Nat) (side : Side) :
    (e : Expr) → e.Settled v →
    Written v allowed among .ready (.behind side) (e.spots side) fun s => e.render s depth
  | .nil, _ => written_fixed "nil"
  | .bool true, _ => written_fixed "true"
  | .bool false, _ => written_fixed "false"
  | .vararg, _ => written_fixed "..."
  | .int n, _ => written_literal (fits_nat n side)
  | .number x, _ => written_literal (fits_numeral x side)
  | .string text, _ => written_literal (fits_quote text side)
  | .bytes bytes, _ => written_literal (fits_quoteBytes bytes side)
  | .name _, h => written_word .mention side h
  | .read _, h => written_read h
  | .paren e, h => (e.written ha depth .right h).paren
  | .call f args, h =>
    have hopen := ((f.written ha depth .right h.1).asPrefix ha).then "("
    (hopen.append (Expr.written_list ha depth args h.2).commaSeparated).close ")"
  | .field e name, h =>
    ((e.written ha depth .right h).asPrefix ha).append
      (written_literal (fits_fieldSuffix name side))
  | .index e key, h =>
    have hopen := ((e.written ha depth .right h.1).asPrefix ha).then "["
    (hopen.append (key.written ha depth .right h.2)).close "]"
  | .unop .not e, h => (e.written ha depth side h).after "not "
  | .unop .neg e, h => (e.written ha depth side h).after "-"
  | .binop op left right, h => by
    have hleft := (left.written ha depth .right h.1).thenNone (written_operator op)
    refine (hleft.append (right.written ha depth side h.2)).congr fun s => ?_
    change left.render s depth ++ " " ++ op.text ++ " " ++ right.render s depth = _
    simp only [String.append_assoc]
  | .table fields, h =>
    ((Field.written_list ha depth fields h).commaSeparated.after "\x7b").close "\x7d"
  | .func _ variadic body, h =>
    (Stat.written_block ha (depth + 1) body h.2).function h.1 variadic depth
  | .lambda steps result, h =>
    have hsteps := ((Step.written_list ha depth steps h.1).after "function () ").then "return "
    (hsteps.append (result.written ha depth .right h.2)).close " end"
  | .noted e note, h => by
    have hall := (e.written ha depth .right h.1).append (written_noteApart h.2)
    refine (hall.within (.behind side)).congr fun s => ?_
    change e.render s depth ++ " " ++ noteText note = _
    rw [String.append_assoc]

theorem Expr.written_list (ha : Agreeing allowed among) (depth : Nat) :
    (es : List Expr) → Expr.SettledList v es →
    WrittenList v allowed among .right (Expr.spotsList es) fun s => Expr.renderList s depth es
  | [], _ => .nil
  | e :: rest, h => .cons (e.written ha depth .right h.1) (Expr.written_list ha depth rest h.2)

theorem Field.written_list (ha : Agreeing allowed among) (depth : Nat) :
    (fields : List Field) → Field.SettledList v fields →
    WrittenList v allowed among .right (Field.spotsList fields) fun s =>
      Field.render s depth fields
  | [], _ => .nil
  | .item value :: rest, h =>
    .cons (value.written ha depth .right h.1) (Field.written_list ha depth rest h.2)
  | .keyed key value :: rest, h =>
    have hkey := ((key.written ha depth .right h.1).after "[").then "]="
    .cons (hkey.append (value.written ha depth .right h.2.1))
      (Field.written_list ha depth rest h.2.2)

theorem Step.written (ha : Agreeing allowed among) (depth : Nat) : (s : Step) → s.Settled v →
    Written v allowed among .ready (.behind .right) s.spots fun settings => s.render settings depth
  | .define name value, h =>
    have hname := ((written_word .binder .left h.1).after "local ").then " = "
    hname.append (value.written ha depth .right h.2)
  | .assign target value, h =>
    ((target.written ha depth .left h.1).then " = ").append (value.written ha depth .right h.2)

theorem Step.written_list (ha : Agreeing allowed among) (depth : Nat) :
    (steps : List Step) → Step.SettledList v steps →
    Written v allowed among .ready .ready (Step.spotsList steps) fun s =>
      Step.renderList s depth steps
  | [], _ => written_nil
  | s :: rest, h =>
    ((s.written ha depth h.1).then "; ").append (Step.written_list ha depth rest h.2)

theorem Step.written_else (ha : Agreeing allowed among) (depth : Nat) :
    (step : Option Step) → Step.SettledOpt v step →
    Written v allowed among .start .start (Step.spotsOpt step) fun s =>
      Step.renderElse s depth step
  | none, _ => written_nil
  | some step, h => ((step.written ha depth h).after "else ").line nofun depth

theorem Arm.written_list (ha : Agreeing allowed among) (depth : Nat) : (keyword : String) →
    joins .ready (keyword ++ " ") .ready = true → (arms : List Arm) → Arm.SettledList v arms →
    Written v allowed among .start .start (Arm.spotsList arms) fun s =>
      Arm.render s depth keyword arms
  | _, _, [], _ => written_nil
  | keyword, hk, .mk cond step :: rest, h =>
    have hcond := ((cond.written ha depth .right h.1).after (keyword ++ " ") hk).then " then "
    have hline := (hcond.append (step.written ha depth h.2.1)).line nofun depth
    hline.append (Arm.written_list ha depth "elseif" (by decide) rest h.2.2)

theorem Tail.written (ha : Agreeing allowed among) (depth : Nat) :
    {visible : List String} → {loop : Bool} → (t : Tail) → t.Settled v visible loop →
    Written v allowed among .start .start t.spots fun s => t.render s depth
  | _, _, .none, _ => written_nil
  | _, _, .otherwise body, h =>
    (written_line depth "else").append (Stat.written_block ha (depth + 1) body h)
  | _, _, .elseif cond body tail, h =>
    have hcond := (cond.written ha (depth + 1) .right h.1).after "elseif "
    have hbody := Stat.written_block ha (depth + 1) body h.2.1
    ((hcond.lineWith depth " then").append hbody).append (tail.written ha depth h.2.2)

/-- The lines of a statement in pieces. -/
theorem Stat.written (ha : Agreeing allowed among) (depth : Nat) :
    {visible : List String} → {loop : Bool} → (s : Stat) → s.Settled v visible loop →
    Written v allowed among .start .start s.spots fun settings => s.render settings depth
  | _, _, .note _, h => (written_note h).line nofun depth
  | _, _, .marker _, h => written_marker h depth
  | _, _, .declare _, h => ((written_names h).after "local ").line nofun depth
  | _, _, .define _ value, h =>
    have hnames := ((written_names h.1).after "local ").then " = "
    (hnames.append (value.written ha depth .right h.2)).line nofun depth
  | _, _, .assign target value, h =>
    have htarget := (target.written ha depth .left h.1).then " = "
    ((htarget.append (value.written ha depth .right h.2)).separated ha).line nofun depth
  | _, _, .store target key, h =>
    have htarget := (target.written ha depth .left h.1).then " = "
    (htarget.append (written_word .mention .right h.2)).line nofun depth
  | _, _, .call e, h => ((e.written ha depth .right h).separated ha).line nofun depth
  | _, _, .doBlock body, h =>
    have hbody := Stat.written_block ha (depth + 1) body h
    ((written_line depth "do").append hbody).thenNone (written_line depth "end")
  | _, _, .whileLoop cond body, h =>
    have hcond := (cond.written ha depth .right h.1).after "while "
    have hbody := Stat.written_block ha (depth + 1) body h.2.1
    ((hcond.lineWith depth " do").append hbody).thenNone (written_line depth "end")
  | _, _, .repeatUntil body cond, h =>
    have hbody := Stat.written_block ha (depth + 1) body h.1
    have hcond := (cond.written ha (depth + 1) .right h.2.1).after "until "
    ((written_line depth "repeat").append hbody).append (hcond.line nofun depth)
  | _, _, .ifThen cond body tail, h =>
    have hcond := (cond.written ha depth .right h.1).after "if "
    have hbody := Stat.written_block ha (depth + 1) body h.2.1
    have hall := ((hcond.lineWith depth " then").append hbody).append
      (tail.written ha depth h.2.2)
    hall.thenNone (written_line depth "end")
  | _, _, .select arms otherwise, h =>
    have harms := Arm.written_list ha depth "if" (by decide) arms h.1
    (harms.append (Step.written_else ha depth otherwise h.2)).thenNone
      (written_line depth "end")
  | _, _, .forIn key value iterator body, h =>
    have hkey := ((written_word .binder .right h.1).after "for ").then ", "
    have hvalue := (hkey.append (written_word .binder .right h.2.1)).then " in "
    have hhead := hvalue.append (iterator.written ha depth .right h.2.2.1)
    have hbody := Stat.written_block ha (depth + 1) body h.2.2.2.1
    ((hhead.lineWith depth " do").append hbody).thenNone (written_line depth "end")
  | _, _, .scoped proxy object body, h =>
    have hproxy := ((written_word .binder .left h.1).after "local ").then " = "
    have hobject := (hproxy.append (object.written ha depth .right h.2.1)).thenNone
      (written_remark "WithStmt")
    have hend := (written_fixed "end").thenNone (written_remark "WithStmtEnd")
    have hopen := (written_line depth "do").append (hobject.line nofun (depth + 1))
    (hopen.append (Stat.written_block ha (depth + 1) body h.2.2)).thenNone
      (hend.line nofun depth)
  | _, _, .goTo label, h => ((written_word .label .right h.2).after "goto ").line nofun depth
  | _, _, .label name, h => (((written_word .label .right h).after "::").then "::").line nofun depth
  | _, _, .breakLoop, _ => written_line depth "break"
  | _, _, .ret value, h => ((value.written ha depth .right h).after "return ").line nofun depth

theorem Stat.written_block (ha : Agreeing allowed among) (depth : Nat) :
    {visible : List String} → {loop : Bool} → (code : List Stat) →
    Stat.SettledBlock v visible loop code →
    Written v allowed among .start .start (Stat.spotsList code) fun s =>
      Stat.renderList s depth code
  | _, _, [], _ => written_nil
  | _, _, s :: rest, h =>
    (s.written ha depth h.1).append (Stat.written_block ha depth rest h.2)

end

/-- Under settings that agree, the text of a settled chunk is one course of pieces. -/
theorem Chunk.exists_course (ha : Agreeing allowed among) {chunk : Chunk}
    (h : Stat.SettledBlock v [] false chunk.body)
    (hspots : ∀ spot ∈ Stat.spotsList chunk.body, allowed spot) :
    ∃ pieces, Course v allowed .start pieces .start ∧
      pieces.flatMap Piece.spots = Stat.spotsList chunk.body ∧
      ∀ s, among s → (chunk.render s).toList = respell s.newline (Piece.chars s pieces) := by
  obtain ⟨pieces, hcourse, heq, htext⟩ := Stat.written_block ha 0 chunk.body h hspots
  refine ⟨pieces, hcourse, heq, fun s hs => ?_⟩
  rw [Chunk.render, toList_withNewlines, htext s hs]

end Trees

end EcmaLua.Lua
