import EcmaLua.Proofs.Lua.Legible
import EcmaLua.Proofs.Lua.Phrase
import EcmaLua.Proofs.Lua.WellFormed

/-!
# How lines start

A statement of Lua does not end with its line: a line that starts with a parenthesis, a quote, a
brace, a bracket, a dot or a colon goes on with the expression before it. The lines of a well-formed
chunk start otherwise, also those of the functions within its expressions. The one exception is the
store of a key at the start of a loop. It can start with a parenthesis, but the line before it is
the first one of the loop, which ends with a keyword.
-/

namespace EcmaLua.Lua

/-- Whether a line, behind its indentation, starts with something that cannot go on with the
expression before it: with two colons, or with none of the characters that open arguments or an
index. -/
def startsAnew (line : List Char) : Bool :=
  let content := line.dropWhile (· == ' ')
  content.take 2 == [':', ':'] ||
    content.head?.any fun c => !(['(', '"', '{', '[', '.', ':'].contains c)

/-- The first line of a loop over keys. -/
def loopHead (settings : Settings) (depth : Nat) (key value : String) (iterator : Expr) : String :=
  line depth ("for " ++ key ++ ", " ++ value ++ " in " ++ iterator.render settings depth ++ " do")

/-- The text starts with the store of a key, and with a parenthesis. -/
def StoreFirst (settings : Settings) (newline : Newline) (depth : Nat) (key : String)
    (text : List Char) : Prop :=
  ∃ target : Expr, leads (· == '(') (target.render settings depth) = true ∧
    respell newline (line depth (target.render settings depth ++ " = " ++ key)).toList <+: text

/-- A key is stored right behind the first line of its loop. -/
def StoresKey (settings : Settings) (newline : Newline) (before rest : List Char) : Prop :=
  ∃ depth key value iterator,
    respell newline (loopHead settings depth key value iterator).toList <:+ before ∧
    StoreFirst settings newline (depth + 1) key rest

/-- The rest of a text, from a line on, starts a statement of its own. -/
def Anew (settings : Settings) (before rest : List Char) : Prop :=
  startsAnew rest = true ∨ StoresKey settings .lf before rest

/-- All lines that start within the text start anew. -/
def Within (settings : Settings) (text : String) : Prop :=
  ∀ before rest, text.toList = before ++ '\n' :: rest →
    rest = [] ∨ Anew settings (before ++ ['\n']) rest

/-- A text that does not end its line. -/
structure Inline (settings : Settings) (text : String) : Prop where
  within : Within settings text
  last : text.toList.getLast? ≠ some '\n'

/-- A text of whole lines, the first of which can store a key. -/
structure Apart (settings : Settings) (depth : Nat) (stored : Option String) (text : String) :
    Prop where
  within : Within settings text
  first : text.toList = [] ∨ startsAnew text.toList = true ∨
    ∃ key ∈ stored, StoreFirst settings .lf depth key text.toList

section Starts

variable {settings : Settings} {before rest cs ds : List Char}

theorem startsAnew_append (h : startsAnew cs = true) (ds : List Char) :
    startsAnew (cs ++ ds) = true := by
  unfold startsAnew at h ⊢
  rw [List.dropWhile_append]
  cases hd : cs.dropWhile (· == ' ') with
  | nil => simp [hd] at h
  | cons c rest =>
    rw [hd] at h
    cases rest with
    | nil =>
      have hc : !(['(', '"', '{', '[', '.', ':'].contains c) := by simpa using h
      simpa using Or.inr (by simpa using hc)
    | cons d rest => simpa using h

theorem startsAnew_indentation (depth : Nat) (cs : List Char) :
    startsAnew ((indentation depth).toList ++ cs) = startsAnew cs := by
  have hblank : ∀ c ∈ (indentation depth).toList, (c == ' ') = true := fun c hc =>
    beq_iff_eq.mpr (eq_of_mem_indentation hc)
  rw [startsAnew, List.dropWhile_append_of_pos hblank, startsAnew]

theorem Anew.extend (h : Anew settings before rest) (more less : List Char) :
    Anew settings (more ++ before) (rest ++ less) := by
  rcases h with h | ⟨depth, key, value, iterator, hbefore, target, htarget, hrest⟩
  · exact Or.inl (startsAnew_append h less)
  · exact Or.inr ⟨depth, key, value, iterator, hbefore.trans (List.suffix_append ..), target,
      htarget, hrest.trans (List.prefix_append ..)⟩

end Starts

section Texts

variable {settings : Settings} {depth : Nat} {stored : Option String} {a b text : String}
  {texts : List String}

/-- Texts one behind the other. Where the first ends its line, the second has to start anew. -/
theorem Within.append (ha : Within settings a) (hb : Within settings b)
    (h : a.toList.getLast? = some '\n' → b.toList = [] ∨ Anew settings a.toList b.toList) :
    Within settings (a ++ b) := by
  intro before rest heq
  rw [String.toList_append] at heq
  rcases List.append_eq_append_iff.mp heq with ⟨middle, rfl, hb'⟩ | ⟨middle, ha', hrest⟩
  · refine (hb middle rest hb').imp_right fun hanew => ?_
    have hmore := hanew.extend a.toList []
    rwa [List.append_nil, ← List.append_assoc] at hmore
  · cases middle with
    | nil =>
      rw [List.append_nil] at ha'
      refine (hb [] rest hrest.symm).imp_right fun hanew => ?_
      have hmore := hanew.extend a.toList []
      rwa [List.append_nil, List.nil_append, ha'] at hmore
    | cons c middle =>
      obtain ⟨rfl, rfl⟩ := List.cons.inj hrest
      rcases ha before middle ha' with rfl | hanew
      · rw [ha'] at h
        simpa using h (by simp)
      · exact Or.inr (hanew.extend [] b.toList)

theorem Inline.plain (h : '\n' ∉ text.toList := by decide) : Inline settings text where
  within _ _ heq := absurd (heq ▸ List.mem_append_right _ List.mem_cons_self) h
  last hlast := h (List.mem_of_getLast? hlast)

theorem Inline.of_legible (h : legible text.toList = true) : Inline settings text :=
  .plain (newline_of_legible h)

theorem Inline.append (ha : Inline settings a) (hb : Inline settings b) :
    Inline settings (a ++ b) where
  within := ha.within.append hb.within fun hlast => absurd hlast ha.last
  last := by
    rw [String.toList_append, List.getLast?_append]
    intro hlast
    rcases Option.or_eq_some_iff.mp hlast with hlast | ⟨-, hlast⟩
    · exact hb.last hlast
    · exact ha.last hlast

theorem Inline.then (ha : Inline settings a) (text : String)
    (h : '\n' ∉ text.toList := by decide) : Inline settings (a ++ text) :=
  ha.append (.plain h)

theorem Inline.behind (ha : Inline settings a) (text : String)
    (h : '\n' ∉ text.toList := by decide) : Inline settings (text ++ a) :=
  (Inline.plain h).append ha

theorem Inline.commaSeparated (h : ∀ t ∈ texts, Inline settings t) :
    Inline settings (commaSeparated texts) := by
  unfold Lua.commaSeparated
  induction texts with
  | nil => exact .plain (by simp)
  | cons t rest ih =>
    obtain ⟨ht, hrest⟩ := List.forall_mem_cons.mp h
    cases rest with
    | nil => simpa using ht
    | cons u rest =>
      rw [String.intercalate_cons_cons]
      exact (ht.then _ (by decide)).append (ih hrest)

theorem Inline.paren (h : Inline settings a) : Inline settings ("(" ++ a ++ ")") :=
  (h.behind _ (by decide)).then _ (by decide)

theorem Inline.asPrefix (h : Inline settings a) : Inline settings (asPrefix a) := by
  rcases asPrefix_eq a with heq | heq
  · rw [heq]
    exact h.paren
  · rwa [heq]

theorem Inline.separated (h : Inline settings a) : Inline settings (separated a) := by
  unfold Lua.separated
  split
  · exact h.behind _ (by decide)
  · exact h

/-- The end of a line. -/
theorem Inline.ended (h : Inline settings a) : Within settings (a ++ "\n") := by
  refine h.within.append (fun before rest heq => Or.inl ?_) fun hlast => absurd hlast h.last
  have hlength := congrArg List.length heq
  simp only [List.length_append, List.length_cons] at hlength
  exact List.eq_nil_of_length_eq_zero (by simp at hlength; omega)

theorem Inline.indented (h : Inline settings a) (depth : Nat) :
    Within settings (line depth a) :=
  (h.behind _ (newline_not_mem_indentation depth)).ended

theorem startsAnew_line (h : startsAnew a.toList = true) (depth : Nat) :
    startsAnew (line depth a).toList = true := by
  rw [line, String.toList_append, String.toList_append, List.append_assoc, startsAnew_indentation]
  exact startsAnew_append h _

theorem Inline.row (h : Inline settings a) (ha : startsAnew a.toList = true) :
    Apart settings depth stored (line depth a) :=
  ⟨h.indented depth, Or.inr (Or.inl (startsAnew_line ha depth))⟩

theorem Apart.empty : Apart settings depth stored "" where
  within := (Inline.plain (by simp)).within
  first := Or.inl rfl

/-- Where no key is stored, lines start anew. -/
theorem Apart.anew (h : Apart settings depth none a) (before : List Char) :
    a.toList = [] ∨ Anew settings before a.toList := by
  rcases h.first with hnil | hstart | ⟨key, hkey, -⟩
  · exact Or.inl hnil
  · exact Or.inr (Or.inl hstart)
  · cases hkey

/-- Lines that store no key can stand anywhere. -/
theorem Apart.anywhere {other : Nat} (h : Apart settings other none a) :
    Apart settings depth stored a where
  within := h.within
  first := by
    rcases h.first with hnil | hstart | ⟨key, hkey, -⟩
    · exact Or.inl hnil
    · exact Or.inr (Or.inl hstart)
    · cases hkey

theorem Apart.append (ha : Apart settings depth stored a) (hb : Apart settings depth none b) :
    Apart settings depth stored (a ++ b) where
  within := ha.within.append hb.within fun _ => hb.anew _
  first := by
    rw [String.toList_append]
    rcases ha.first with hnil | hstart | ⟨key, hkey, target, htarget, hline⟩
    · rw [hnil, List.nil_append]
      exact hb.anywhere.first
    · exact Or.inr (Or.inl (startsAnew_append hstart _))
    · exact Or.inr (Or.inr ⟨key, hkey, target, htarget, hline.trans (List.prefix_append ..)⟩)

/-- The text of a function, from its parameters and its body. -/
theorem Inline.function (depth : Nat) {inner : Nat} {params body : String}
    (hp : Inline settings params) (hb : Apart settings inner none body) :
    Inline settings ("function (" ++ params ++ ")\n" ++ body ++ indentation depth ++ "end") := by
  have hend : Apart settings inner none (indentation depth ++ "end") := by
    have hplain : Inline settings (indentation depth) := .plain (newline_not_mem_indentation depth)
    refine ⟨(hplain.then "end" (by decide)).within, Or.inr (Or.inl ?_)⟩
    rw [String.toList_append, startsAnew_indentation]
    decide
  have hrows := hb.append hend
  have hhead := (hp.behind "function (" (by decide)).then ")" (by decide)
  have htext : "function (" ++ params ++ ")\n" ++ body ++ indentation depth ++ "end" =
      "function (" ++ params ++ ")" ++ "\n" ++ (body ++ (indentation depth ++ "end")) := by
    have hbreak : ")\n" = ")" ++ "\n" := rfl
    simp only [hbreak, String.append_assoc]
  refine ⟨?_, ?_⟩
  · rw [htext]
    exact hhead.ended.append hrows.within fun _ => hrows.anew _
  · rw [String.toList_append, List.getLast?_append]
    change some 'd' ≠ some '\n'
    decide

theorem startsAnew_of_leads (h : leads isNameChar a = true) : startsAnew a.toList = true := by
  unfold leads at h
  cases ha : a.toList with
  | nil => simp [ha] at h
  | cons c cs =>
    have hc : isNameChar c = true := by
      rw [ha] at h
      exact (Bool.and_eq_true _ _ |>.mp h).1
    have hne (d : Char) (hd : isNameChar d = false) : c ≠ d := ne_of_set hc hd
    simp [startsAnew, hne ' ' rfl, hne '(' rfl, hne '"' rfl, hne '{' rfl, hne '[' rfl,
      hne '.' rfl, hne ':' rfl]

/-- A text within a line that starts with a word. -/
structure Worded (settings : Settings) (text : String) : Prop extends Inline settings text where
  word : leads isNameChar text = true

theorem Worded.keyword (text : String) (hn : '\n' ∉ text.toList := by decide)
    (hw : leads isNameChar text = true := by rfl) : Worded settings text :=
  ⟨.plain hn, hw⟩

/-- A text behind a keyword. -/
theorem Inline.worded (h : Inline settings a) (text : String)
    (hn : '\n' ∉ text.toList := by decide) (hw : leads isNameChar text = true := by rfl) :
    Worded settings (text ++ a) :=
  ⟨h.behind text hn, leads_append hw⟩

theorem Worded.append (ha : Worded settings a) (hb : Inline settings b) :
    Worded settings (a ++ b) :=
  ⟨ha.toInline.append hb, leads_append ha.word⟩

theorem Worded.then (ha : Worded settings a) (text : String)
    (h : '\n' ∉ text.toList := by decide) :
    Worded settings (a ++ text) :=
  ha.append (.plain h)

theorem Worded.row (h : Worded settings a) : Apart settings depth stored (line depth a) :=
  h.toInline.row (startsAnew_of_leads h.word)

/-- The last line of a block. -/
theorem Apart.ended (h : Apart settings depth stored a) :
    Apart settings depth stored (a ++ line depth "end") :=
  h.append (Worded.keyword "end" (by decide) rfl).row

/-- A block, from its first line and what is in it. -/
theorem Worded.block {inner : Nat} (h : Worded settings a) (hb : Apart settings inner none b) :
    Apart settings depth stored (line depth a ++ b ++ line depth "end") :=
  (h.row.append hb.anywhere).ended

theorem startsAnew_loopHead (key value : String) (iterator : Expr) :
    startsAnew (loopHead settings depth key value iterator).toList = true := by
  refine startsAnew_line (startsAnew_of_leads ?_) depth
  exact leads_append (leads_append (leads_append (leads_append (leads_append (leads_append rfl)))))

/-- The lines of a loop over keys, from its first line and its body. -/
theorem Apart.loop {key value : String} {iterator : Expr}
    (hh : Within settings (loopHead settings depth key value iterator))
    (hb : Apart settings (depth + 1) (some key) b) :
    Apart settings depth stored (loopHead settings depth key value iterator ++ b) where
  within := by
    refine hh.append hb.within fun _ => ?_
    rcases hb.first with hnil | hstart | ⟨_, ⟨⟩, hstore⟩
    · exact Or.inl hnil
    · exact Or.inr (Or.inl hstart)
    · exact Or.inr (Or.inr ⟨depth, key, value, iterator, List.suffix_refl _, hstore⟩)
  first := by
    rw [String.toList_append]
    exact Or.inr (Or.inl (startsAnew_append (startsAnew_loopHead key value iterator) _))

/-- The characters that a place or a call starts with. -/
def startsPlace (c : Char) : Bool := isNameChar c || c == '('

/-- What starts like a place starts anew, or with a parenthesis. -/
theorem startsAnew_or_paren (h : leads startsPlace a = true) :
    startsAnew a.toList = true ∨ leads (· == '(') a = true := by
  unfold leads startsPlace at h
  cases ha : a.toList with
  | nil => simp [ha] at h
  | cons c cs =>
    by_cases hc : c = '('
    · exact Or.inr (by simp [leads, ha, hc])
    · refine Or.inl (ha ▸ startsAnew_of_leads ?_)
      simpa [leads, ha, hc] using h

theorem startsAnew_separated (h : leads startsPlace a = true) :
    startsAnew (separated a).toList = true := by
  unfold Lua.separated
  split
  · rw [String.toList_append]
    exact startsAnew_append (by decide) _
  · next hne =>
      refine (startsAnew_or_paren h).resolve_right fun hparen => ?_
      unfold leads at hparen
      cases ha : a.toList with
      | nil => simp [ha] at hparen
      | cons c cs =>
        have hc : c = '(' := by
          simp only [ha, Bool.and_eq_true, beq_iff_eq] at hparen
          exact hparen.1
        exact hne cs (hc ▸ ha)

theorem startsPlace_of_isNameChar {c : Char} (h : isNameChar c = true) : startsPlace c = true := by
  simp [startsPlace, h]

/-- In front of a call or an index, literals start with a parenthesis. -/
theorem leads_asPrefix (h : leads startsLiteral a = true ∨ leads startsPlace a = true) :
    leads startsPlace (asPrefix a) = true := by
  have hparen : leads startsPlace ("(" ++ a ++ ")") = true := leads_append (leads_append rfl)
  rcases h with h | h
  · rw [asPrefix_of_leads h]
    exact hparen
  · rcases asPrefix_eq a with heq | heq
    · rw [heq]
      exact hparen
    · rwa [heq]

end Texts

/-- A word that is not empty. -/
structure Visible (text : String) : Prop where
  ne_empty : text ≠ ""
  chars : ∀ c ∈ text.toList, isNameChar c = true

/-- The names are words that are not empty, and the comments stay on their line. -/
def Vocabulary.visible : Vocabulary where
  name := Visible
  note text := '\n' ∉ text.toList

/-- What the text of an expression can be used as. -/
structure Expr.Prints (settings : Settings) (depth : Nat) (e : Expr) : Prop where
  inline : Inline settings (e.render settings depth)
  base : e.isPrefixable = true → leads startsPlace (asPrefix (e.render settings depth)) = true
  place : e.isVar = true ∨ e.isCall = true → leads startsPlace (e.render settings depth) = true

section Kinds

variable {settings : Settings} {depth : Nat} {e : Expr} {text : String}

/-- An expression that only stands for its value. -/
theorem Expr.Prints.of_value (h : Inline settings (e.render settings depth))
    (hp : e.isPrefixable = false := by rfl) (hv : e.isVar = false := by rfl)
    (hc : e.isCall = false := by rfl) : e.Prints settings depth :=
  ⟨h, by simp [hp], by simp [hv, hc]⟩

/-- A literal, which gets parentheses in front of a call or an index. -/
theorem Expr.Prints.of_literal (h : Inline settings (e.render settings depth))
    (hl : leads startsLiteral (e.render settings depth) = true) (hv : e.isVar = false := by rfl)
    (hc : e.isCall = false := by rfl) : e.Prints settings depth :=
  ⟨h, fun _ => leads_asPrefix (Or.inl hl), by simp [hv, hc]⟩

theorem Expr.Prints.of_place (h : Inline settings (e.render settings depth))
    (hl : leads startsPlace (e.render settings depth) = true) : e.Prints settings depth :=
  ⟨h, fun _ => leads_asPrefix (Or.inr hl), fun _ => hl⟩

theorem Visible.inline (h : Visible text) : Inline settings text :=
  .plain fun hm => absurd (h.chars _ hm) (by decide)

theorem Visible.leads (h : Visible text) : leads isNameChar text = true := by
  unfold Lua.leads
  cases ht : text.toList with
  | nil => exact absurd (String.toList_eq_nil_iff.mp ht) h.ne_empty
  | cons c cs =>
    have hc := h.chars c (ht ▸ List.mem_cons_self)
    have hne : c ≠ '\n' := ne_of_set hc (by decide)
    simp [hc, hne]

theorem Inline.numeral (x : Double) : Inline settings (numeral x) := by
  unfold Lua.numeral
  split
  · exact .plain (by decide)
  split
  · split <;> exact .plain (by decide)
  split
  · exact .plain (by decide)
  · refine .of_legible ?_
    rw [String.toList_ofList]
    refine legible_numeralDigits _ ?_
    split <;> simp

theorem Inline.readText (h : Visible text) :
    Inline settings (readText settings text) := by
  unfold Lua.readText
  split
  · exact (h.inline.behind _ (by decide)).then _ (by decide)
  · exact h.inline

theorem leads_readText (h : Visible text) :
    leads isNameChar (readText settings text) = true := by
  unfold Lua.readText
  split
  · exact leads_append (leads_append rfl)
  · exact h.leads

end Kinds

variable (settings : Settings)

/-- A marking comment at the end of a line. -/
theorem Inline.remark (text : String) (h : '\n' ∉ text.toList) :
    Inline settings (if settings.markers then " " ++ markerText settings text else "") := by
  unfold markerText
  split
  · exact ((Inline.plain h).behind "-- " (by decide)).behind " " (by decide)
  · exact .plain (by simp)

mutual

/-- The text of an expression stays on its line up to the functions in it, and starts like a place
where it is used as one. -/
theorem Expr.prints (depth : Nat) : (e : Expr) → e.WellFormed .visible → e.Prints settings depth
  | .nil, _ => .of_place (.plain : Inline settings "nil")
      (rfl : leads startsPlace "nil" = true)
  | .bool true, _ => .of_place (.plain : Inline settings "true")
      (rfl : leads startsPlace "true" = true)
  | .bool false, _ => .of_place (.plain : Inline settings "false")
      (rfl : leads startsPlace "false" = true)
  | .vararg, _ => .of_value (.plain : Inline settings "...")
  | .int n, _ => by
    refine .of_literal (.of_legible (legible_nat n)) ?_
    exact leads_mono (fun c hc => by simp [startsLiteral, hc]) (leads_nat n)
  | .number x, _ => .of_value (.numeral x)
  | .string s, _ => .of_literal (.of_legible (legible_quote s)) (leads_quote s)
  | .bytes b, _ => .of_literal (.of_legible (legible_quoteBytes b)) (leads_quoteBytes b)
  | .name text, h => .of_place h.inline (leads_mono (fun _ => startsPlace_of_isNameChar) h.leads)
  | .read text, h =>
    .of_place (.readText h) (leads_mono (fun _ => startsPlace_of_isNameChar) (leads_readText h))
  | .paren e, h => .of_place (e.prints depth h).inline.paren (leads_append (leads_append rfl))
  | .call f args, h => by
    have hf := f.prints depth h.2.1
    have hargs := Inline.commaSeparated (Expr.prints_list depth args h.2.2)
    exact .of_place (((hf.inline.asPrefix.then _).append hargs).then _)
      (leads_append (leads_append (leads_append (hf.base h.1))))
  | .field e name, h => by
    have he := e.prints depth h.2
    exact .of_place (he.inline.asPrefix.append (.of_legible (legible_fieldSuffix name)))
      (leads_append (he.base h.1))
  | .index e key, h => by
    have he := e.prints depth h.2.1
    have hkey := (key.prints depth h.2.2).inline
    exact .of_place (((he.inline.asPrefix.then _).append hkey).then _)
      (leads_append (leads_append (leads_append (he.base h.1))))
  | .unop .not e, h => .of_value ((e.prints depth h).inline.behind _)
  | .unop .neg e, h => .of_value ((e.prints depth h.2).inline.behind _)
  | .binop op left right, h => by
    have hleft := (left.prints depth h.1).inline.then " "
    have hop := (hleft.then op.text (by cases op <;> decide)).then " "
    exact .of_value (hop.append (right.prints depth h.2).inline)
  | .table fields, h => by
    have hfields := Inline.commaSeparated (Field.prints_list depth fields h)
    exact .of_literal ((hfields.behind _).then _) (leads_append (leads_append rfl))
  | .func params variadic body, h => by
    have hparams : ∀ p ∈ if variadic then params ++ ["..."] else params, Inline settings p := by
      intro p hp
      split at hp
      · rcases List.mem_append.mp hp with hp | hp
        · exact (h.1 p hp).inline
        · rw [List.mem_singleton.mp hp]
          exact .plain
      · exact (h.1 p hp).inline
    exact .of_value (.function depth (.commaSeparated hparams)
      (Stat.apart_block (depth + 1) body h.2))
  | .lambda steps result, h => by
    have hsteps := ((Step.inline_list depth steps h.1).behind "function () ").then "return "
    exact .of_value ((hsteps.append (result.prints depth h.2).inline).then _)
  | .noted e note, h => by
    have hnote : Inline settings (noteText note) := ((Inline.plain h.2).behind _).then _
    exact .of_value (((e.prints depth h.1).inline.then _).append hnote)

theorem Expr.prints_list (depth : Nat) : (es : List Expr) → Expr.WellFormedList .visible es →
    ∀ t ∈ Expr.renderList settings depth es, Inline settings t
  | [], _ => by simp [Expr.renderList]
  | e :: rest, h => by
    rw [Expr.renderList, List.forall_mem_cons]
    exact ⟨(e.prints depth h.1).inline, Expr.prints_list depth rest h.2⟩

theorem Field.prints_list (depth : Nat) : (fields : List Field) →
    Field.WellFormedList .visible fields →
    ∀ t ∈ Field.render settings depth fields, Inline settings t
  | [], _ => by simp [Field.render]
  | .item value :: rest, h => by
    rw [Field.render, List.forall_mem_cons]
    exact ⟨(value.prints depth h.1).inline, Field.prints_list depth rest h.2⟩
  | .keyed key value :: rest, h => by
    rw [Field.render, List.forall_mem_cons]
    have hkey := ((key.prints depth h.1).inline.behind "[").then "]="
    exact ⟨hkey.append (value.prints depth h.2.1).inline, Field.prints_list depth rest h.2.2⟩

theorem Step.inline (depth : Nat) : (s : Step) → s.WellFormed .visible →
    Inline settings (s.render settings depth)
  | .define name value, h =>
    ((h.1.inline.behind _).then _).append (value.prints depth h.2).inline
  | .assign target value, h =>
    ((target.prints depth h.2.1).inline.then _).append (value.prints depth h.2.2).inline

theorem Step.inline_list (depth : Nat) : (steps : List Step) →
    Step.WellFormedList .visible steps → Inline settings (Step.renderList settings depth steps)
  | [], _ => .plain (by simp [Step.renderList])
  | s :: rest, h =>
    ((s.inline depth h.1).then _).append (Step.inline_list depth rest h.2)

theorem Step.apart_else (depth : Nat) : (step : Option Step) → Step.WellFormedOpt .visible step →
    Apart settings depth none (Step.renderElse settings depth step)
  | none, _ => .empty
  | some step, h => ((step.inline depth h).worded "else ").row

theorem Arm.apart_list (depth : Nat) : (keyword : String) → Worded settings keyword →
    (arms : List Arm) → Arm.WellFormedList .visible arms →
    Apart settings depth none (Arm.render settings depth keyword arms)
  | _, _, [], _ => .empty
  | keyword, hk, .mk cond step :: rest, h => by
    have hcond := ((hk.then " ").append (cond.prints depth h.1).inline).then " then "
    exact (hcond.append (step.inline depth h.2.1)).row.append
      (Arm.apart_list depth "elseif" (.keyword _) rest h.2.2)

theorem Tail.apart (depth : Nat) : (t : Tail) → t.WellFormed .visible →
    Apart settings depth none (t.render settings depth)
  | .none, _ => .empty
  | .otherwise body, h =>
    (Worded.keyword "else").row.append (Stat.apart_block (depth + 1) body h).anywhere
  | .elseif cond body tail, h => by
    have hcond := ((cond.prints (depth + 1) h.1).inline.worded "elseif ").then " then"
    exact (hcond.row.append (Stat.apart_block (depth + 1) body h.2.1).anywhere).append
      (tail.apart depth h.2.2)

/-- The lines of a statement start anew, but for the store of a key at the start of its loop. -/
theorem Stat.apart (depth : Nat) {stored : Option String} : (s : Stat) →
    s.WellFormed .visible stored → Apart settings depth stored (s.render settings depth)
  | .note text, h => by
    refine (((Inline.plain h).behind "--[[").then "]]").row ?_
    rw [String.toList_append, String.toList_append, List.append_assoc]
    exact startsAnew_append rfl _
  | .marker text, h => by
    rw [Stat.render, markerText]
    split
    · refine ((Inline.plain h).behind "-- ").row ?_
      rw [String.toList_append]
      exact startsAnew_append rfl _
    · exact .empty
  | .declare names, h =>
    ((Inline.commaSeparated fun n hn => (h.2 n hn).inline).worded "local ").row
  | .define names value, h => by
    have hnames : Inline settings (commaSeparated names) :=
      .commaSeparated fun n hn => (h.1.2 n hn).inline
    exact (((hnames.worded "local ").then " = ").append (value.prints depth h.2).inline).row
  | .assign target value, h => by
    have htarget := target.prints depth h.2.1
    have hstep := (htarget.inline.then " = ").append (value.prints depth h.2.2).inline
    exact hstep.separated.row
      (startsAnew_separated (leads_append (leads_append (htarget.place (Or.inl h.1)))))
  | .store target key, h => by
    obtain ⟨⟨hvar, hwf, hkey⟩, rfl⟩ := h
    have htarget := target.prints depth hwf
    have hstep := (htarget.inline.then " = ").append hkey.inline
    refine ⟨hstep.indented depth, Or.inr ?_⟩
    rcases startsAnew_or_paren (htarget.place (Or.inl hvar)) with hstart | hparen
    · refine Or.inl (startsAnew_line ?_ depth)
      rw [String.toList_append, String.toList_append, List.append_assoc]
      exact startsAnew_append hstart _
    · exact Or.inr ⟨key, rfl, target, hparen, List.prefix_refl _⟩
  | .call e, h => by
    have he := e.prints depth h.2
    exact he.inline.separated.row (startsAnew_separated (he.place (Or.inr h.1)))
  | .doBlock body, h => (Worded.keyword "do").block (Stat.apart_block (depth + 1) body h)
  | .whileLoop cond body, h =>
    (((cond.prints depth h.1).inline.worded "while ").then " do").block
      (Stat.apart_block (depth + 1) body h.2)
  | .repeatUntil body cond, h =>
    ((Worded.keyword "repeat").row.append (Stat.apart_block (depth + 1) body h.1).anywhere).append
      ((cond.prints (depth + 1) h.2).inline.worded "until ").row
  | .ifThen cond body tail, h => by
    have hcond := ((cond.prints depth h.1).inline.worded "if ").then " then"
    exact ((hcond.row.append (Stat.apart_block (depth + 1) body h.2.1).anywhere).append
      (tail.apart depth h.2.2)).ended
  | .select arms otherwise, h => by
    have harms := Arm.apart_list depth "if" (.keyword _) arms h.2.1
    exact (harms.append (Step.apart_else depth otherwise h.2.2)).ended.anywhere
  | .forIn key value iterator body, h => by
    have hkey : Worded settings _ := (h.1.inline.worded "for ").then ", "
    have hvalue := (hkey.append h.2.1.inline).then " in "
    have hhead := (hvalue.append (iterator.prints depth h.2.2.1).inline).then " do"
    exact (Apart.loop (hhead.indented depth) (Stat.apart_block (depth + 1) body h.2.2.2)).ended
  | .scoped proxy object body, h => by
    have hproxy : Worded settings _ := (h.1.inline.worded "local ").then " = "
    have hobject := (hproxy.append (object.prints depth h.2.1).inline).append
      (.remark settings "WithStmt" (by decide))
    have hend := (Inline.remark settings "WithStmtEnd" (by decide)).worded "end"
    exact (((Worded.keyword "do").row.append hobject.row.anywhere).append
      (Stat.apart_block (depth + 1) body h.2.2).anywhere).append hend.row
  | .goTo label, h => (h.inline.worded "goto ").row
  | .label name, h => by
    refine ((h.inline.behind "::").then "::").row ?_
    rw [String.toList_append, String.toList_append, List.append_assoc]
    exact startsAnew_append rfl _
  | .breakLoop, _ => (Worded.keyword "break").row
  | .ret value, h => ((value.prints depth h).inline.worded "return ").row

theorem Stat.apart_block (depth : Nat) {stored : Option String} : (body : List Stat) →
    Stat.WellFormedBlock .visible stored body →
    Apart settings depth stored (Stat.renderList settings depth body)
  | [], _ => .empty
  | s :: rest, h => (s.apart depth h.1).append (Stat.apart_block depth rest h.2.2)

end

/-- The text so far ends a line, or is empty. -/
def AtLineStart (before : List Char) : Prop := before = [] ∨ before.getLast? = some '\n'

section Terminators

variable {settings : Settings} {newline : Newline} {before rest cs : List Char} {c : Char}

theorem AtLineStart.getLast? (h : AtLineStart (c :: cs)) : (c :: cs).getLast? = some '\n' :=
  h.resolve_left (List.cons_ne_nil c cs)

theorem AtLineStart.tail (h : AtLineStart (c :: cs)) : AtLineStart cs := by
  cases cs with
  | nil => exact Or.inl rfl
  | cons d cs => exact Or.inr (List.getLast?_cons_cons.symm.trans h.getLast?)

theorem AtLineStart.cons (h : AtLineStart cs) (hc : cs = [] → c = '\n') :
    AtLineStart (c :: cs) := by
  cases cs with
  | nil => exact Or.inr (congrArg some (hc rfl))
  | cons d cs => exact Or.inr (List.getLast?_cons_cons.trans h.getLast?)

/-- Under each line terminator, the lines start at the same places. -/
theorem exists_of_respell_eq (h : respell newline cs = before ++ rest) (hs : AtLineStart before) :
    ∃ a b, cs = a ++ b ∧ AtLineStart a ∧ before = respell newline a ∧
      rest = respell newline b := by
  cases newline with
  | lf => exact ⟨before, rest, h, hs, rfl, rfl⟩
  | crlf =>
    induction cs generalizing before with
    | nil =>
      obtain ⟨rfl, rfl⟩ := List.append_eq_nil_iff.mp h.symm
      exact ⟨[], [], rfl, hs, rfl, rfl⟩
    | cons c cs ih =>
      cases before with
      | nil => exact ⟨[], c :: cs, rfl, hs, rfl, h.symm⟩
      | cons d before =>
        by_cases hc : c = '\n'
        · subst hc
          obtain ⟨rfl, hd⟩ : '\r' = d ∧ '\n' :: respell .crlf cs = before ++ rest :=
            List.cons.inj h
          cases before with
          | nil => exact absurd hs.getLast? (by decide)
          | cons e before =>
            obtain ⟨rfl, he⟩ : '\n' = e ∧ respell .crlf cs = before ++ rest :=
              List.cons.inj hd
            obtain ⟨a, b, rfl, ha, rfl, rfl⟩ := ih hs.tail.tail he
            exact ⟨'\n' :: a, b, rfl, ha.cons fun _ => rfl, rfl, rfl⟩
        · rw [respell_cons_of_ne _ hc] at h
          obtain ⟨rfl, hd⟩ : c = d ∧ respell .crlf cs = before ++ rest := List.cons.inj h
          obtain ⟨a, b, rfl, ha, rfl, rfl⟩ := ih hs.tail hd
          refine ⟨c :: a, b, rfl, ha.cons ?_, (respell_cons_of_ne _ hc a).symm, rfl⟩
          rintro rfl
          exact Option.some.inj hs.getLast?

theorem startsAnew_respell (h : startsAnew cs = true) (newline : Newline) :
    startsAnew (respell newline cs) = true := by
  cases newline with
  | lf => exact h
  | crlf =>
    induction cs with
    | nil => exact h
    | cons c cs ih =>
      by_cases hn : c = '\n'
      · rw [hn]
        have hbreak : startsAnew ['\r', '\n'] = true := by decide
        exact startsAnew_append hbreak (respell .crlf cs)
      rw [respell_cons_of_ne _ hn]
      by_cases hb : c = ' '
      · subst hb
        exact ih h
      · simp only [startsAnew, List.dropWhile_cons_of_neg (p := (· == ' ')) (by simpa using hb),
          Bool.or_eq_true, beq_iff_eq] at h ⊢
        refine h.imp_left fun htwo => ?_
        cases cs with
        | nil => cases htwo
        | cons d ds =>
          obtain ⟨rfl, rfl⟩ : c = ':' ∧ d = ':' := by simpa using htwo
          rw [respell_cons_of_ne _ (by decide)]
          rfl

theorem StoresKey.respell (h : StoresKey settings .lf before rest) (newline : Newline) :
    StoresKey settings newline (respell newline before) (respell newline rest) := by
  obtain ⟨depth, key, value, iterator, ⟨pre, rfl⟩, target, htarget, ⟨post, rfl⟩⟩ := h
  refine ⟨depth, key, value, iterator, ?_, target, htarget, ?_⟩
  · rw [respell_append]
    exact List.suffix_append ..
  · rw [respell_append]
    exact List.prefix_append ..

end Terminators

/-- Every line of a chunk's text starts anew, or it stores a key right behind the first line of its
loop. -/
theorem Chunk.starts_render {chunk : Chunk} (h : Stat.WellFormedBlock .visible none chunk.body)
    {before rest : List Char} (htext : (chunk.render settings).toList = before ++ rest)
    (hs : AtLineStart before) :
    rest = [] ∨ startsAnew rest = true ∨ StoresKey settings settings.newline before rest := by
  rw [Chunk.render, toList_withNewlines] at htext
  obtain ⟨a, b, heq, ha, rfl, rfl⟩ := exists_of_respell_eq htext hs
  have hrows := Stat.apart_block settings 0 chunk.body h
  have hanew : b = [] ∨ Anew settings a b := by
    rcases ha with rfl | hlast
    · exact (heq.trans (List.nil_append b)) ▸ hrows.anew []
    · obtain ⟨a, rfl⟩ := List.getLast?_eq_some_iff.mp hlast
      exact hrows.within a b (by rw [heq, List.append_assoc]; rfl)
  rcases hanew with rfl | hstart | hstores
  · exact Or.inl (respell_nil _)
  · exact Or.inr (Or.inl (startsAnew_respell hstart _))
  · exact Or.inr (Or.inr (hstores.respell _))

end EcmaLua.Lua
