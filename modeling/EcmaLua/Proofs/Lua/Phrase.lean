import EcmaLua.Proofs.Lua.Literal

/-!
# Texts of phrases

A text reads as a phrase of the grammar when its tokens do, in front of everything that can
come behind such a phrase. There is one lemma for each way in which the printer puts texts
together.
-/

namespace EcmaLua.Lua

open Grammar (kw sym)

/-- The characters that an expression starts with. -/
def startsExp (c : Char) : Bool :=
  isNameStart c || c.isDigit || ['"', '(', '{', '-', '.'].contains c

/-- The characters that a prefix expression starts with. -/
def startsPrefix (c : Char) : Bool := isNameStart c || c == '('

/-- The characters that come behind an expression. -/
def endsExp (c : Char) : Bool := [' ', ')', ',', ']', '}', '\n', '\r', ';'].contains c

/-- The characters that come behind a prefix expression. -/
def endsPrefix (c : Char) : Bool := endsExp c || c == '(' || c == '.' || c == '['

section Sets

variable {c : Char}

theorem endsPrefix_of_endsExp (h : endsExp c = true) : endsPrefix c = true := by
  simp [endsPrefix, h]

theorem endsWord_of_endsPrefix (h : endsPrefix c = true) : endsWord c = true := by
  simp only [endsPrefix, endsExp, List.contains_eq_mem, Bool.or_eq_true, decide_eq_true_eq,
    beq_iff_eq, List.mem_cons, List.not_mem_nil, or_false] at h
  rcases h with (((rfl | rfl | rfl | rfl | rfl | rfl | rfl | rfl) | rfl) | rfl) | rfl <;> rfl

theorem endsWord_of_endsExp (h : endsExp c = true) : endsWord c = true :=
  endsWord_of_endsPrefix (endsPrefix_of_endsExp h)

theorem endsNumeral_of_endsExp (h : endsExp c = true) : endsNumeral c = true := by
  simp only [endsExp, List.contains_eq_mem, decide_eq_true_eq, List.mem_cons, List.not_mem_nil,
    or_false] at h
  rcases h with rfl | rfl | rfl | rfl | rfl | rfl | rfl | rfl <;> rfl

theorem startsExp_of_startsPrefix (h : startsPrefix c = true) : startsExp c = true := by
  simp only [startsPrefix, startsExp, Bool.or_eq_true, beq_iff_eq] at h ⊢
  rcases h with h | rfl
  · exact Or.inl (Or.inl h)
  · exact Or.inr rfl

theorem endsBracket_of_startsExp (h : startsExp c = true) : endsBracket c = true := by
  simp [endsBracket, ne_of_set h (d := '[') (by decide), ne_of_set h (d := '=') (by decide)]

theorem endsEquals_of_startsExp (h : startsExp c = true) : endsEquals c = true :=
  bne_iff_ne.mpr (ne_of_set h (by decide))

theorem endsMinus_of_startsPrefix (h : startsPrefix c = true) : endsMinus c = true :=
  bne_iff_ne.mpr (ne_of_set h (by decide))

theorem endsMinus_of_isDigit (h : c.isDigit = true) : endsMinus c = true :=
  bne_iff_ne.mpr (ne_of_set h (by decide))

end Sets

/-- The text starts as the phrase does, and its tokens derive the phrase. -/
structure Reads (newline : Newline) (starts follow : Char → Bool) (G : List Token → Prop)
    (text : String) : Prop where
  leads : leads starts text = true
  tokens : ∃ ts, G ts ∧ Lexes newline follow text ts

abbrev ExpText (newline : Newline) : String → Prop :=
  Reads newline startsExp endsExp Grammar.Exp

abbrev PrefixText (newline : Newline) : String → Prop :=
  Reads newline startsPrefix endsPrefix Grammar.PrefixExp

abbrev VarText (newline : Newline) : String → Prop :=
  Reads newline startsPrefix endsPrefix Grammar.Var

abbrev CallText (newline : Newline) : String → Prop :=
  Reads newline startsPrefix endsPrefix Grammar.Call

section Expressions

variable {newline : Newline} {a b p : String}

theorem PrefixText.exp (h : PrefixText newline a) : ExpText newline a := by
  obtain ⟨hl, ts, ht, hlex⟩ := h
  exact ⟨leads_mono (fun _ => startsExp_of_startsPrefix) hl, ts, .prefixExp ht,
    hlex.mono fun _ => endsPrefix_of_endsExp⟩

theorem VarText.pre (h : VarText newline a) : PrefixText newline a := by
  obtain ⟨hl, ts, ht, hlex⟩ := h
  exact ⟨hl, ts, .var ht, hlex⟩

theorem CallText.pre (h : CallText newline a) : PrefixText newline a := by
  obtain ⟨hl, ts, ht, hlex⟩ := h
  exact ⟨hl, ts, .call ht, hlex⟩

theorem leads_of_isName (h : isName a = true) : leads isNameStart a = true := by
  unfold isName at h
  unfold leads
  cases hl : a.toList with
  | nil => simp [hl] at h
  | cons c cs =>
    simp only [hl, Bool.and_eq_true] at h
    have hn : c ≠ '\n' := ne_of_set h.1.1 (by decide)
    simp [h.1.1, hn]

theorem VarText.name (h : isName a = true) : VarText newline a := by
  refine ⟨leads_mono (fun c hc => ?_) (leads_of_isName h), _, .name a,
    (lexes_name newline h).mono fun _ => endsWord_of_endsPrefix⟩
  simp [startsPrefix, hc]

/-- A keyword that is an expression. -/
theorem ExpText.keyword {w : String} (hk : w ∈ keywords) (hg : Grammar.Exp (kw w)) :
    ExpText newline w := by
  refine ⟨?_, _, hg, (lexes_keyword newline hk).mono fun _ => endsWord_of_endsExp⟩
  clear hg
  revert w
  decide

theorem startsExp_of_isDigit {c : Char} (h : c.isDigit = true) : startsExp c = true := by
  simp [startsExp, h]

theorem leads_nat (n : Nat) : leads Char.isDigit (toString n) = true := by
  obtain ⟨c, cs, hl⟩ := List.exists_cons_of_ne_nil (Nat.toDigits_ne_nil (n := n) (b := 10))
  have hd : c ∈ Nat.toDigits 10 n := by
    rw [hl]
    exact List.mem_cons_self
  rw [Nat.toString_eq_ofList_toDigits, hl]
  exact leads_digits (isDigit_of_mem_toDigits hd) cs

theorem ExpText.nat (n : Nat) : ExpText newline (toString n) :=
  ⟨leads_mono (fun _ => startsExp_of_isDigit) (leads_nat n), _, .numeral _,
    (lexes_nat newline n).mono fun _ => endsNumeral_of_endsExp⟩

/-- The characters that literals start with. -/
def startsLiteral (c : Char) : Bool := c.isDigit || c == '"' || c == '{'

theorem startsExp_of_startsLiteral {c : Char} (h : startsLiteral c = true) :
    startsExp c = true := by
  simp only [startsLiteral, Bool.or_eq_true, beq_iff_eq] at h
  rcases h with (h | rfl) | rfl
  · exact startsExp_of_isDigit h
  · rfl
  · rfl

theorem leads_quote (text : String) : leads startsLiteral (quote text) = true := by
  unfold leads Lua.quote
  rw [String.toList_ofList]
  rfl

theorem leads_quoteBytes (bytes : List UInt8) : leads startsLiteral (quoteBytes bytes) = true := by
  unfold leads Lua.quoteBytes
  rw [String.toList_ofList]
  rfl

theorem ExpText.quote (text : String) : ExpText newline (quote text) :=
  ⟨leads_mono (fun _ => startsExp_of_startsLiteral) (leads_quote text), _, .string _,
    (lexes_quote newline text).mono fun _ _ => rfl⟩

theorem ExpText.quoteBytes (bytes : List UInt8) : ExpText newline (quoteBytes bytes) :=
  ⟨leads_mono (fun _ => startsExp_of_startsLiteral) (leads_quoteBytes bytes), _, .string _,
    (lexes_quoteBytes newline bytes).mono fun _ _ => rfl⟩

theorem ExpText.vararg : ExpText newline "..." :=
  ⟨rfl, _, .vararg, (lexes_dots newline).mono fun _ _ => rfl⟩

theorem lexes_open : Lexes newline anything "(" (sym "(") :=
  lexes_plain newline (c := '(') (by decide) (by decide)

theorem lexes_close : Lexes newline anything ")" (sym ")") :=
  lexes_plain newline (c := ')') (by decide) (by decide)

theorem lexes_closeBracket : Lexes newline anything "]" (sym "]") :=
  lexes_plain newline (c := ']') (by decide) (by decide)

theorem lexes_comma : Lexes newline anything ", " (sym ",") := by
  have htext : ", " = "," ++ " " := rfl
  rw [htext]
  exact (lexes_plain newline (c := ',') (by decide) (by decide)).then (lexes_space newline)

/-- An expression in parentheses. -/
theorem ExpText.paren (h : ExpText newline a) : PrefixText newline ("(" ++ a ++ ")") := by
  obtain ⟨-, ts, ht, hlex⟩ := h
  refine ⟨leads_append (leads_append rfl), _, .paren ht, ?_⟩
  exact (lexes_open.then hlex).append (lexes_close.mono fun _ _ => rfl) rfl

theorem asPrefix_eq (text : String) :
    asPrefix text = "(" ++ text ++ ")" ∨ asPrefix text = text := by
  unfold asPrefix
  exact ite_eq_or_eq ..

/-- A literal gets parentheses. -/
theorem asPrefix_of_leads (h : leads startsLiteral a = true) : asPrefix a = "(" ++ a ++ ")" := by
  unfold leads at h
  unfold asPrefix
  cases ha : a.toList with
  | nil => simp [ha] at h
  | cons c cs =>
    simp only [ha, startsLiteral, Bool.and_eq_true] at h
    simp [h.1]

theorem PrefixText.asPrefix (h : PrefixText newline a) : PrefixText newline (asPrefix a) := by
  rcases asPrefix_eq a with he | he
  · rw [he]
    exact h.exp.paren
  · rwa [he]

theorem ExpText.asPrefix (h : ExpText newline a)
    (hl : Lua.leads startsLiteral a = true ∨ a = "nil" ∨ a = "true" ∨ a = "false") :
    PrefixText newline (asPrefix a) := by
  have he : Lua.asPrefix a = "(" ++ a ++ ")" := by
    rcases hl with hl | rfl | rfl | rfl
    · exact asPrefix_of_leads hl
    · rfl
    · rfl
    · rfl
  rw [he]
  exact h.paren

theorem ExpText.binop (ha : ExpText newline a) (op : BinOp) (hb : ExpText newline b) :
    ExpText newline (a ++ " " ++ op.text ++ " " ++ b) := by
  obtain ⟨hl, ts, ht, hlex⟩ := ha
  obtain ⟨-, us, hu, hrex⟩ := hb
  refine ⟨leads_append (leads_append (leads_append (leads_append hl))), _,
    .binop ht op.token_mem hu, ?_⟩
  have h := (hlex.append (lexes_binop newline op) (leads_append (leads_append rfl))).then hrex
  simpa [String.append_assoc] using h

theorem ExpText.not (ha : ExpText newline a) : ExpText newline ("not " ++ a) := by
  obtain ⟨-, ts, ht, hlex⟩ := ha
  have hk : Lexes newline anything ("not" ++ " ") (kw "not" ++ []) :=
    (lexes_keyword newline (by decide)).append (lexes_space newline) rfl
  exact ⟨leads_append rfl, _, .unop (by decide) ht, hk.then hlex⟩

theorem CallText.neg (ha : CallText newline a) : ExpText newline ("-" ++ a) := by
  obtain ⟨hl, ts, ht, hlex⟩ := ha
  have ho : Token.symbol "-" ∈ Grammar.unops := by decide
  refine ⟨leads_append rfl, _, .unop ho (.prefixExp (.call ht)), ?_⟩
  exact (lexes_minus newline).append (hlex.mono fun _ => endsPrefix_of_endsExp)
    (leads_mono (fun _ => endsMinus_of_startsPrefix) hl)

/-- Texts between commas, from the phrases that they read as. -/
theorem lexes_commaSeparated {G L : List Token → Prop} (one : ∀ {ts}, G ts → L ts)
    (more : ∀ {ts us}, G ts → L us → L (ts ++ sym "," ++ us)) {texts : List String}
    (hne : texts ≠ []) (h : ∀ t ∈ texts, ∃ ts, G ts ∧ Lexes newline endsExp t ts) :
    ∃ ts, L ts ∧ Lexes newline endsExp (commaSeparated texts) ts := by
  unfold commaSeparated
  induction texts with
  | nil => exact absurd rfl hne
  | cons t rest ih =>
    obtain ⟨ts, ht, hlex⟩ := h t List.mem_cons_self
    cases rest with
    | nil => exact ⟨ts, one ht, by simpa using hlex⟩
    | cons u rest =>
      obtain ⟨us, hu, hrex⟩ := ih (by simp) fun v hv => h v (List.mem_cons_of_mem t hv)
      rw [String.intercalate_cons_cons]
      exact ⟨_, more ht hu, (hlex.append lexes_comma rfl).then hrex⟩

/-- Expressions between commas. -/
theorem expList {texts : List String} (hne : texts ≠ []) (h : ∀ t ∈ texts, ExpText newline t) :
    ∃ ts, Grammar.ExpList ts ∧ Lexes newline endsExp (commaSeparated texts) ts :=
  lexes_commaSeparated .one .more hne fun t ht => (h t ht).tokens

theorem CallText.of_args (hp : PrefixText newline p) (args : List String)
    (ha : ∀ t ∈ args, ExpText newline t) :
    CallText newline (p ++ "(" ++ commaSeparated args ++ ")") := by
  obtain ⟨hl, ts, ht, hlex⟩ := hp
  have hopen := hlex.append lexes_open (b := "(") rfl
  cases args with
  | nil =>
    refine ⟨leads_append (leads_append (leads_append hl)), _, .plain ht .none, ?_⟩
    have h := hopen.then (lexes_close.mono (f := anything) (g := endsPrefix) fun _ _ => rfl)
    simpa [commaSeparated] using h
  | cons t rest =>
    obtain ⟨us, hu, hrex⟩ := expList (List.cons_ne_nil t rest) ha
    refine ⟨leads_append (leads_append (leads_append hl)), _, .plain ht (.list hu), ?_⟩
    have h := (hopen.then hrex).append
      (lexes_close.mono (f := anything) (g := endsPrefix) fun _ _ => rfl) rfl
    simpa using h

theorem VarText.of_index (hp : PrefixText newline p) (hk : ExpText newline a) :
    VarText newline (p ++ "[" ++ a ++ "]") := by
  obtain ⟨hl, ts, ht, hlex⟩ := hp
  obtain ⟨hla, us, hu, hrex⟩ := hk
  refine ⟨leads_append (leads_append (leads_append hl)), _, .index ht hu, ?_⟩
  exact ((hlex.append (lexes_bracket newline) rfl).append hrex
    (leads_mono (fun _ => endsBracket_of_startsExp) hla)).append
    (lexes_closeBracket.mono fun _ _ => rfl) rfl

theorem VarText.of_field (hp : PrefixText newline p) (name : String) :
    VarText newline (p ++ fieldSuffix name) := by
  unfold fieldSuffix
  split
  · next hn =>
      obtain ⟨hl, ts, ht, hlex⟩ := hp
      have hname := (lexes_name newline hn).mono fun c => endsWord_of_endsPrefix (c := c)
      have hdot := (lexes_dot newline).append hname (leads_of_isName hn)
      refine ⟨leads_append hl, _, .field ht name, ?_⟩
      rw [List.append_assoc]
      exact hlex.append hdot (leads_append rfl)
  · have h := VarText.of_index hp (ExpText.quote name)
    simpa [String.append_assoc] using h

theorem lexes_zero : Lexes newline endsNumeral "0" [.numeral "0"] := lexes_nat newline 0

/-- The text of a number that is no finite literal, or a literal, perhaps negative. -/
theorem ExpText.numeral (x : Double) : ExpText newline (numeral x) := by
  unfold Lua.numeral
  split
  · have hslash : Lexes newline anything "/" (sym "/") :=
      lexes_plain newline (c := '/') (by decide) (by decide)
    have hq := (lexes_zero.append hslash rfl).then lexes_zero
    have ho : Token.symbol "/" ∈ Grammar.binops := by decide
    have htext : "(0/0)" = "(" ++ ("0" ++ "/" ++ "0") ++ ")" := rfl
    refine PrefixText.exp ⟨rfl, _, .paren (.binop (.numeral "0") ho (.numeral "0")), ?_⟩
    rw [htext]
    exact (lexes_open.then hq).append (lexes_close.mono fun _ _ => rfl) rfl
  have hhuge : VarText newline "math.huge" :=
    VarText.of_field (VarText.name (a := "math") rfl).pre "huge"
  split
  · split
    · obtain ⟨-, ts, ht, hlex⟩ := hhuge
      have ho : Token.symbol "-" ∈ Grammar.unops := by decide
      have htext : "(-math.huge)" = "(" ++ ("-" ++ "math.huge") ++ ")" := rfl
      refine PrefixText.exp ⟨rfl, _, .paren (.unop ho (.prefixExp (.var ht))), ?_⟩
      have hneg := (lexes_minus newline).append hlex rfl
      rw [htext]
      exact (lexes_open.then hneg).append (lexes_close.mono fun _ _ => rfl) rfl
    · exact hhuge.pre.exp
  split
  · exact ExpText.nat 0
  · have hl := leads_numeralDigits x.shortest
    have hlex := (lexes_numeralDigits newline x.shortest).mono
      fun c => endsNumeral_of_endsExp (c := c)
    split
    · have ho : Token.symbol "-" ∈ Grammar.unops := by decide
      rw [List.singleton_append, String.ofList_cons]
      exact ⟨leads_append rfl, _, .unop ho (.numeral _),
        (lexes_minus newline).append hlex (leads_mono (fun _ => endsMinus_of_isDigit) hl)⟩
    · exact ⟨leads_mono (fun _ => startsExp_of_isDigit) hl, _, .numeral _, hlex⟩

abbrev FieldText (newline : Newline) : String → Prop :=
  Reads newline (fun _ => true) endsExp Grammar.Field

theorem FieldText.item (h : ExpText newline a) : FieldText newline a := by
  obtain ⟨hl, ts, ht, hlex⟩ := h
  exact ⟨leads_mono (fun _ _ => rfl) hl, ts, .item ht, hlex⟩

theorem FieldText.keyed (hk : ExpText newline a) (hv : ExpText newline b) :
    FieldText newline ("[" ++ a ++ "]=" ++ b) := by
  obtain ⟨hla, ts, ht, hlex⟩ := hk
  obtain ⟨hlb, us, hu, hrex⟩ := hv
  have hopen := (lexes_bracket newline).append hlex
    (leads_mono (fun _ => endsBracket_of_startsExp) hla)
  have heq : Lexes newline endsEquals "]=" (sym "]" ++ sym "=") := by
    have htext : "]=" = "]" ++ "=" := rfl
    rw [htext]
    exact lexes_closeBracket.then (lexes_equals newline)
  have h := (hopen.append heq rfl).append hrex
    (leads_mono (fun _ => endsEquals_of_startsExp) hlb)
  refine ⟨leads_append (leads_append (leads_append rfl)), _, .keyed ht hu, ?_⟩
  simpa only [List.append_assoc] using h

theorem fieldList {texts : List String} (hne : texts ≠ []) (h : ∀ t ∈ texts, FieldText newline t) :
    ∃ ts, Grammar.FieldList ts ∧ Lexes newline endsExp (commaSeparated texts) ts :=
  lexes_commaSeparated .one (fun ht => .more ht List.mem_cons_self) hne
    fun t ht => (h t ht).tokens

theorem ExpText.table {fields : List String} (h : ∀ t ∈ fields, FieldText newline t) :
    ExpText newline ("\x7b" ++ commaSeparated fields ++ "\x7d") := by
  have hopen : Lexes newline anything "\x7b" (sym "\x7b") :=
    lexes_plain newline (c := '{') (by decide) (by decide)
  have hclose : Lexes newline endsExp "\x7d" (sym "\x7d") :=
    (lexes_plain newline (c := '}') (by decide) (by decide)).mono fun _ _ => rfl
  refine ⟨leads_append (leads_append rfl), ?_⟩
  cases fields with
  | nil => exact ⟨_, .table .empty, hopen.then hclose⟩
  | cons t rest =>
    obtain ⟨ts, ht, hlex⟩ := fieldList (List.cons_ne_nil t rest) h
    exact ⟨_, .table (.fields ht), (hopen.then hlex).append hclose rfl⟩

theorem ExpText.noted (h : ExpText newline a) {note : String} (hn : isRemark note = true) :
    ExpText newline (a ++ " " ++ noteText note) := by
  obtain ⟨hl, ts, ht, hlex⟩ := h
  have hcomment := (lexes_noteText newline hn).mono (f := anything) (g := endsExp) fun _ _ => rfl
  have h := (hlex.append (lexes_space newline) rfl).then hcomment
  rw [List.append_nil, List.append_nil] at h
  exact ⟨leads_append (leads_append hl), ts, ht, h⟩

/-- Names between commas. -/
theorem nameList {names : List String} (hne : names ≠ []) (h : ∀ n ∈ names, isName n = true) :
    ∃ ts, Grammar.NameList ts ∧ Lexes newline endsExp (commaSeparated names) ts := by
  refine lexes_commaSeparated (G := fun ts => ∃ n, ts = Grammar.name n) ?_ ?_ hne fun n hn => ?_
  · rintro _ ⟨n, rfl⟩
    exact .one n
  · rintro _ us ⟨n, rfl⟩ hu
    exact .more n hu
  · exact ⟨_, ⟨n, rfl⟩, (lexes_name newline (h n hn)).mono fun _ => endsWord_of_endsExp⟩

theorem commaSeparated_concat {texts : List String} (hne : texts ≠ []) (last : String) :
    commaSeparated (texts ++ [last]) = commaSeparated texts ++ ", " ++ last := by
  unfold commaSeparated
  induction texts with
  | nil => exact absurd rfl hne
  | cons t rest ih =>
    cases rest with
    | nil => simp
    | cons u rest =>
      have h := ih (by simp)
      simp only [List.cons_append, String.intercalate_cons_cons] at h ⊢
      rw [h]
      simp [String.append_assoc]

/-- The parameters of a function, the last of which can be the dots. -/
theorem parList {params : List String} (h : ∀ n ∈ params, isName n = true) (variadic : Bool) :
    ∃ ts, Grammar.ParList ts ∧ Lexes newline endsExp
      (commaSeparated (if variadic then params ++ ["..."] else params)) ts := by
  have hdots := (lexes_dots newline).mono (f := anything) (g := endsExp) fun _ _ => rfl
  by_cases hp : params = []
  · subst hp
    cases variadic with
    | false => exact ⟨_, .none, Lexes.nil⟩
    | true => exact ⟨_, .onlyVariadic, by simpa [commaSeparated] using hdots⟩
  · have hnames : ∃ ts, Grammar.NameList ts ∧ Lexes newline endsExp (commaSeparated params) ts :=
      nameList hp h
    obtain ⟨ts, ht, hlex⟩ := hnames
    cases variadic with
    | false => exact ⟨_, .names ht, hlex⟩
    | true =>
      rw [if_pos rfl, commaSeparated_concat hp]
      exact ⟨_, .variadic ht, (hlex.append lexes_comma rfl).then hdots⟩

end Expressions

end EcmaLua.Lua
