import EcmaLua.Proofs.Lua.Phrase

/-!
# Texts of statements and blocks

The texts of statements end by themselves, since each of them ends its line: they can be put
one behind the other. A text of statements with a `return` behind it is a block.
-/

namespace EcmaLua.Lua

open Grammar (kw sym)

/-- The text is a phrase of its own, whatever comes behind it. -/
def Stands (newline : Newline) (G : List Token → Prop) (text : String) : Prop :=
  ∃ ts, G ts ∧ Lexes newline anything text ts

/-- The text of statements on one line, without the end of the line. -/
def StepText (newline : Newline) (text : String) : Prop :=
  ∃ ts, Grammar.Stats ts ∧ Lexes newline endsExp text ts

abbrev StatsText (newline : Newline) : String → Prop := Stands newline Grammar.Stats

abbrev BlockText (newline : Newline) : String → Prop := Stands newline Grammar.Block

abbrev BranchesText (newline : Newline) : String → Prop := Stands newline Grammar.Branches

theorem Grammar.Stats.one {ts : List Token} (h : Grammar.Stat ts) : Grammar.Stats ts := by
  have := Grammar.Stats.cons h .nil
  rwa [List.append_nil] at this

theorem Grammar.Stats.append {ts us : List Token} (ht : Grammar.Stats ts)
    (hu : Grammar.Stats us) : Grammar.Stats (ts ++ us) :=
  match ht with
  | .nil => hu
  | .cons h hr => by
    rw [List.append_assoc]
    exact .cons h (hr.append hu)

theorem Grammar.Block.prepend {ts us : List Token} (ht : Grammar.Stats ts)
    (hu : Grammar.Block us) : Grammar.Block (ts ++ us) := by
  cases hu with
  | plain hu => exact .plain (ht.append hu)
  | closed hu hr =>
    rw [← List.append_assoc]
    exact .closed (ht.append hu) hr

section Lines

variable {newline : Newline} {f : Char → Bool} {a b c t : String} {ts : List Token}

/-- A line is read as its text. -/
theorem lexes_line (depth : Nat) (h : Lexes newline f a ts)
    (hn : f '\n' = true ∧ f '\r' = true) : Lexes newline anything (line depth a) ts := by
  have hl : leads f "\n" = true := by simp [leads, hn]
  have h := ((lexes_indentation newline depth).then h).append (lexes_newline newline) hl
  rwa [List.nil_append, List.append_nil] at h

/-- A line with nothing on it but a keyword. -/
theorem lexes_keywordLine (depth : Nat) {w : String} (hk : w ∈ keywords) :
    Lexes newline anything (line depth w) (kw w) :=
  lexes_line depth (lexes_keyword newline hk) ⟨rfl, rfl⟩

/-- A keyword and a blank. -/
theorem lexes_keywordBlank {w : String} (hk : w ∈ keywords) :
    Lexes newline anything (w ++ " ") (kw w) := by
  have h := (lexes_keyword newline hk).append (lexes_space newline) rfl
  rwa [List.append_nil] at h

/-- A keyword between blanks. -/
theorem lexes_blankKeyword {w : String} (hk : w ∈ keywords) :
    Lexes newline endsWord (" " ++ w) (kw w) := by
  have h := (lexes_space newline).then (lexes_keyword newline hk)
  rwa [List.nil_append] at h

/-- An equals sign between blanks. -/
theorem lexes_blankEquals : Lexes newline anything " = " (sym "=") := by
  have h : Lexes newline anything (" " ++ ("=" ++ " ")) ([] ++ (sym "=" ++ [])) :=
    (lexes_space newline).then ((lexes_equals newline).append (lexes_space newline) rfl)
  simpa using h

theorem StatsText.nil : StatsText newline "" := ⟨[], .nil, Lexes.nil⟩

theorem StatsText.append (ha : StatsText newline a) (hb : StatsText newline b) :
    StatsText newline (a ++ b) := by
  obtain ⟨ts, ht, hlex⟩ := ha
  obtain ⟨us, hu, hrex⟩ := hb
  exact ⟨ts ++ us, ht.append hu, hlex.then hrex⟩

theorem StatsText.block (h : StatsText newline a) : BlockText newline a := by
  obtain ⟨ts, ht, hlex⟩ := h
  exact ⟨ts, .plain ht, hlex⟩

theorem BlockText.prepend (ha : StatsText newline a) (hb : BlockText newline b) :
    BlockText newline (a ++ b) := by
  obtain ⟨ts, ht, hlex⟩ := ha
  obtain ⟨us, hu, hrex⟩ := hb
  exact ⟨ts ++ us, hu.prepend ht, hlex.then hrex⟩

/-- A text without tokens behind a block. -/
theorem BlockText.blank (ha : BlockText newline a) (hb : Lexes newline anything b []) :
    BlockText newline (a ++ b) := by
  obtain ⟨ts, ht, hlex⟩ := ha
  have h := hlex.then hb
  rw [List.append_nil] at h
  exact ⟨ts, ht, h⟩

theorem StepText.line (h : StepText newline a) (depth : Nat) :
    StatsText newline (line depth a) := by
  obtain ⟨ts, ht, hlex⟩ := h
  exact ⟨ts, ht, lexes_line depth hlex ⟨rfl, rfl⟩⟩

theorem StepText.define (names : List String) (hn : names ≠ [])
    (h : ∀ n ∈ names, isName n = true) (hv : ExpText newline a) :
    StepText newline ("local " ++ commaSeparated names ++ " = " ++ a) := by
  have hnames : ∃ ts, Grammar.NameList ts ∧ Lexes newline endsExp (commaSeparated names) ts :=
    nameList hn h
  obtain ⟨ns, hns, hnlex⟩ := hnames
  obtain ⟨-, ts, ht, hlex⟩ := hv
  have hlocal : Lexes newline anything "local " (kw "local") :=
    lexes_keywordBlank (w := "local") (by decide)
  refine ⟨_, .one (.define hns (.one ht)), ?_⟩
  exact ((hlocal.then hnlex).append lexes_blankEquals rfl).then hlex

theorem StepText.declare {names : List String} (hn : names ≠ [])
    (h : ∀ n ∈ names, isName n = true) :
    StepText newline ("local " ++ commaSeparated names) := by
  have hnames : ∃ ts, Grammar.NameList ts ∧ Lexes newline endsExp (commaSeparated names) ts :=
    nameList hn h
  obtain ⟨ns, hns, hnlex⟩ := hnames
  have hlocal : Lexes newline anything "local " (kw "local") :=
    lexes_keywordBlank (w := "local") (by decide)
  exact ⟨_, .one (.declare hns), hlocal.then hnlex⟩

theorem StepText.assign (ht : VarText newline a) (hv : ExpText newline b) :
    StepText newline (a ++ " = " ++ b) := by
  obtain ⟨-, ts, ht, hlex⟩ := ht
  obtain ⟨-, us, hu, hrex⟩ := hv
  exact ⟨_, .one (.assign (.one ht) (.one hu)), (hlex.append lexes_blankEquals rfl).then hrex⟩

theorem StepText.call (h : CallText newline a) : StepText newline a := by
  obtain ⟨-, ts, ht, hlex⟩ := h
  exact ⟨ts, .one (.call ht), hlex.mono fun _ => endsPrefix_of_endsExp⟩

theorem lexes_semicolon : Lexes newline anything ";" (sym ";") :=
  lexes_plain newline (c := ';') (by decide) (by decide)

/-- The semicolon in front of a parenthesis is a statement of its own. -/
theorem StepText.separated (h : StepText newline a) : StepText newline (separated a) := by
  unfold Lua.separated
  split
  · obtain ⟨ts, ht, hlex⟩ := h
    exact ⟨_, .cons .empty ht, lexes_semicolon.then hlex⟩
  · exact h

/-- A step with the semicolon and the blank behind it. -/
theorem StepText.closed (h : StepText newline a) : StatsText newline (a ++ "; ") := by
  obtain ⟨ts, ht, hlex⟩ := h
  have hsep : Lexes newline anything "; " (sym ";") := by
    have hs := lexes_semicolon.then (lexes_space newline)
    rwa [List.append_nil] at hs
  exact ⟨_, ht.append (.one .empty), hlex.append hsep rfl⟩

/-- A `return` that ends with its line. -/
theorem BlockText.ret (h : ExpText newline a) (depth : Nat) :
    BlockText newline (line depth ("return " ++ a)) := by
  obtain ⟨-, ts, ht, hlex⟩ := h
  have hret : Lexes newline anything "return " (kw "return") :=
    lexes_keywordBlank (w := "return") (by decide)
  exact ⟨_, .closed .nil (.values (.one ht)), lexes_line depth (hret.then hlex) ⟨rfl, rfl⟩⟩

theorem StepText.goTo (h : isName a = true) : StepText newline ("goto " ++ a) := by
  have hgoto : Lexes newline anything "goto " (kw "goto") :=
    lexes_keywordBlank (w := "goto") (by decide)
  have hname := (lexes_name newline h).mono fun c => endsWord_of_endsExp (c := c)
  exact ⟨_, .one (.goTo a), hgoto.then hname⟩

theorem StepText.label (h : isName a = true) : StepText newline ("::" ++ a ++ "::") := by
  have hclose := (lexes_colons newline).mono (f := anything) (g := endsExp) fun _ _ => rfl
  have hname := (lexes_name newline h).append hclose rfl
  refine ⟨_, .one (.label a), ?_⟩
  rw [String.append_assoc, List.append_assoc]
  exact (lexes_colons newline).then hname

theorem StepText.leave : StepText newline "break" :=
  ⟨_, .one .leave, (lexes_keyword newline (by decide)).mono fun _ => endsWord_of_endsExp⟩

end Lines

section Blocks

variable {newline : Newline} {a b c : String}

/-- A block behind an opening line and in front of a closing one. -/
theorem BlockText.between {opening closing : String} {os cs : List Token}
    (ho : Lexes newline anything opening os) (hb : BlockText newline b)
    (hc : Lexes newline anything closing cs) :
    ∃ bs, Grammar.Block bs ∧ Lexes newline anything (opening ++ b ++ closing) (os ++ bs ++ cs) := by
  obtain ⟨bs, hbs, hlex⟩ := hb
  exact ⟨bs, hbs, (ho.then hlex).then hc⟩

theorem StatsText.doBlock (hb : BlockText newline b) (depth : Nat) :
    StatsText newline (line depth "do" ++ b ++ line depth "end") := by
  obtain ⟨bs, hbs, hlex⟩ := hb.between (lexes_keywordLine depth (w := "do") (by decide))
    (lexes_keywordLine depth (w := "end") (by decide))
  exact ⟨_, .one (.block hbs), hlex⟩

/-- A line with a phrase between two keywords. -/
theorem lexes_headLine (depth : Nat) {opening closing : String} {os ts cs : List Token}
    (ho : Lexes newline anything opening os) (h : Lexes newline endsExp a ts)
    (hc : Lexes newline endsWord closing cs) (hl : leads endsExp closing = true) :
    Lexes newline anything (line depth (opening ++ a ++ closing)) (os ++ ts ++ cs) :=
  lexes_line depth ((ho.then h).append hc hl) ⟨rfl, rfl⟩

theorem lexes_doAtEnd : Lexes newline endsWord " do" (kw "do") :=
  lexes_blankKeyword (w := "do") (by decide)

theorem lexes_thenAtEnd : Lexes newline endsWord " then" (kw "then") :=
  lexes_blankKeyword (w := "then") (by decide)

theorem StatsText.whileLoop (hc : ExpText newline a) (hb : BlockText newline b) (depth : Nat) :
    StatsText newline (line depth ("while " ++ a ++ " do") ++ b ++ line depth "end") := by
  obtain ⟨-, ts, ht, hlex⟩ := hc
  have hwhile : Lexes newline anything "while " (kw "while") :=
    lexes_keywordBlank (w := "while") (by decide)
  have hopen := lexes_headLine depth hwhile hlex lexes_doAtEnd rfl
  obtain ⟨bs, hbs, hall⟩ := hb.between hopen (lexes_keywordLine depth (w := "end") (by decide))
  exact ⟨_, .one (.whileLoop ht hbs), hall⟩

theorem StatsText.repeatLoop (hb : BlockText newline b) (hc : ExpText newline a) (depth : Nat) :
    StatsText newline (line depth "repeat" ++ b ++ line depth ("until " ++ a)) := by
  obtain ⟨-, ts, ht, hlex⟩ := hc
  have huntil : Lexes newline anything "until " (kw "until") :=
    lexes_keywordBlank (w := "until") (by decide)
  have hclose := lexes_line depth (huntil.then hlex) ⟨rfl, rfl⟩
  obtain ⟨bs, hbs, hall⟩ :=
    hb.between (lexes_keywordLine depth (w := "repeat") (by decide)) hclose
  refine ⟨_, .one (.repeatLoop hbs ht), ?_⟩
  simpa only [List.append_assoc] using hall

theorem BranchesText.none : BranchesText newline "" := ⟨[], .none, Lexes.nil⟩

theorem BranchesText.otherwise (hb : BlockText newline b) (depth : Nat) :
    BranchesText newline (line depth "else" ++ b) := by
  obtain ⟨bs, hbs, hlex⟩ := hb
  exact ⟨_, .otherwise hbs, (lexes_keywordLine depth (w := "else") (by decide)).then hlex⟩

theorem BranchesText.elseif (hc : ExpText newline a) (hb : BlockText newline b)
    (ht : BranchesText newline c) (depth : Nat) :
    BranchesText newline (line depth ("elseif " ++ a ++ " then") ++ b ++ c) := by
  obtain ⟨-, ts, hts, hlex⟩ := hc
  obtain ⟨us, hus, hrest⟩ := ht
  have helse : Lexes newline anything "elseif " (kw "elseif") :=
    lexes_keywordBlank (w := "elseif") (by decide)
  obtain ⟨bs, hbs, hall⟩ := hb.between (lexes_headLine depth helse hlex lexes_thenAtEnd rfl) hrest
  exact ⟨_, .elseif hts hbs hus, hall⟩

theorem StatsText.conditional (hc : ExpText newline a) (hb : BlockText newline b)
    (ht : BranchesText newline c) (depth : Nat) :
    StatsText newline (line depth ("if " ++ a ++ " then") ++ b ++ c ++ line depth "end") := by
  obtain ⟨-, ts, hts, hlex⟩ := hc
  obtain ⟨us, hus, hrest⟩ := ht
  have hif : Lexes newline anything "if " (kw "if") :=
    lexes_keywordBlank (w := "if") (by decide)
  obtain ⟨bs, hbs, hall⟩ := hb.between (lexes_headLine depth hif hlex lexes_thenAtEnd rfl) hrest
  exact ⟨_, .one (.conditional hts hbs hus),
    hall.then (lexes_keywordLine depth (w := "end") (by decide))⟩

/-- A condition with the step that it selects on its line. -/
theorem lexes_armLine (depth : Nat) {opening : String} {os cs ts : List Token}
    (ho : Lexes newline anything opening os) (hc : Lexes newline endsExp a cs)
    (hs : Lexes newline endsExp b ts) :
    Lexes newline anything (line depth (opening ++ a ++ " then " ++ b))
      (os ++ cs ++ kw "then" ++ ts) := by
  have hthen : Lexes newline anything " then " (kw "then") := by
    have h := lexes_thenAtEnd.append (lexes_space newline) rfl
    rwa [List.append_nil] at h
  exact lexes_line depth (((ho.then hc).append hthen rfl).then hs) ⟨rfl, rfl⟩

theorem BranchesText.arm (hc : ExpText newline a) (hs : StepText newline b)
    (ht : BranchesText newline c) (depth : Nat) :
    BranchesText newline (line depth ("elseif" ++ " " ++ a ++ " then " ++ b) ++ c) := by
  obtain ⟨-, cs, hcs, hlex⟩ := hc
  obtain ⟨ts, hts, hstep⟩ := hs
  obtain ⟨us, hus, hrest⟩ := ht
  have hline := lexes_armLine depth (lexes_keywordBlank (w := "elseif") (by decide)) hlex hstep
  exact ⟨_, .elseif hcs (.plain hts) hus, hline.then hrest⟩

theorem BranchesText.lastStep (hs : StepText newline a) (depth : Nat) :
    BranchesText newline (line depth ("else " ++ a)) := by
  obtain ⟨ts, hts, hlex⟩ := hs
  have helse : Lexes newline anything "else " (kw "else") :=
    lexes_keywordBlank (w := "else") (by decide)
  exact ⟨_, .otherwise (.plain hts), lexes_line depth (helse.then hlex) ⟨rfl, rfl⟩⟩

theorem StatsText.selection (hc : ExpText newline a) (hs : StepText newline b)
    (ht : BranchesText newline c) (depth : Nat) :
    StatsText newline
      (line depth ("if" ++ " " ++ a ++ " then " ++ b) ++ c ++ line depth "end") := by
  obtain ⟨-, cs, hcs, hlex⟩ := hc
  obtain ⟨ts, hts, hstep⟩ := hs
  obtain ⟨us, hus, hrest⟩ := ht
  have hline := lexes_armLine depth (lexes_keywordBlank (w := "if") (by decide)) hlex hstep
  exact ⟨_, .one (.conditional hcs (.plain hts) hus),
    (hline.then hrest).then (lexes_keywordLine depth (w := "end") (by decide))⟩

theorem StatsText.forIn {key value : String} (hk : isName key = true) (hv : isName value = true)
    (hi : ExpText newline a) (hb : BlockText newline b) (depth : Nat) :
    StatsText newline (line depth ("for " ++ key ++ ", " ++ value ++ " in " ++ a ++ " do")
      ++ b ++ line depth "end") := by
  obtain ⟨-, ts, hts, hlex⟩ := hi
  have hfor : Lexes newline anything "for " (kw "for") :=
    lexes_keywordBlank (w := "for") (by decide)
  have hin : Lexes newline anything " in " (kw "in") := by
    have h := (lexes_blankKeyword (w := "in") (by decide)).append (lexes_space newline) rfl
    rwa [List.append_nil] at h
  have hnames : Lexes newline endsWord (key ++ ", " ++ value)
      (Grammar.name key ++ sym "," ++ Grammar.name value) :=
    ((lexes_name newline hk).append lexes_comma rfl).then (lexes_name newline hv)
  have hopening := (hfor.then hnames).append hin rfl
  obtain ⟨bs, hbs, hall⟩ := hb.between (lexes_headLine depth hopening hlex lexes_doAtEnd rfl)
    (lexes_keywordLine depth (w := "end") (by decide))
  refine ⟨_, .one (.genericFor (.more key (.one value)) (.one hts) hbs), ?_⟩
  simpa only [String.append_assoc] using hall

/-- A function over several lines. -/
theorem ExpText.func {params : List String} (hp : ∀ n ∈ params, isName n = true)
    (variadic : Bool) (hb : BlockText newline b) (depth : Nat) :
    ExpText newline
      ("function (" ++ commaSeparated (if variadic then params ++ ["..."] else params) ++ ")\n"
        ++ b ++ indentation depth ++ "end") := by
  have hparams : ∃ ts, Grammar.ParList ts ∧ Lexes newline endsExp
      (commaSeparated (if variadic then params ++ ["..."] else params)) ts :=
    parList hp variadic
  obtain ⟨ps, hps, hplex⟩ := hparams
  obtain ⟨bs, hbs, hblex⟩ := hb
  have hopen : Lexes newline anything "function (" (kw "function" ++ sym "(") := by
    have htext : "function (" = "function" ++ " " ++ "(" := rfl
    rw [htext]
    exact (lexes_keywordBlank (w := "function") (by decide)).then lexes_open
  have hclose : Lexes newline anything ")\n" (sym ")") := by
    have h := lexes_close.then (lexes_newline newline)
    rwa [List.append_nil] at h
  have hend : Lexes newline endsExp (indentation depth ++ "end") (kw "end") :=
    (lexes_indentation newline depth).then
      ((lexes_keyword newline (by decide)).mono fun _ => endsWord_of_endsExp)
  have h := (((hopen.then hplex).append hclose rfl).then hblex).then hend
  refine ⟨?_, _, .function (.mk hps hbs), ?_⟩
  · simp only [String.append_assoc]
    exact leads_append rfl
  · rw [← String.append_assoc] at h
    simpa only [List.append_assoc] using h

/-- A function without parameters on one line. -/
theorem ExpText.lambda (hs : StatsText newline a) (hr : ExpText newline b) :
    ExpText newline ("function () " ++ a ++ "return " ++ b ++ " end") := by
  obtain ⟨ss, hss, hslex⟩ := hs
  obtain ⟨-, rs, hrs, hrlex⟩ := hr
  have hopen : Lexes newline anything "function () " (kw "function" ++ (sym "(" ++ sym ")")) := by
    have h := (lexes_keywordBlank (w := "function") (by decide)).then
      (lexes_open.then (lexes_close.then (lexes_space newline)))
    rwa [List.append_nil] at h
  have hret : Lexes newline anything "return " (kw "return") :=
    lexes_keywordBlank (w := "return") (by decide)
  have hend : Lexes newline endsExp " end" (kw "end") :=
    (lexes_blankKeyword (w := "end") (by decide)).mono fun _ => endsWord_of_endsExp
  have h := (((hopen.then hslex).then hret).then hrlex).append hend rfl
  refine ⟨?_, _, .function (.mk .none (.closed hss (.values (.one hrs)))), ?_⟩
  · simp only [String.append_assoc]
    exact leads_append rfl
  · simpa only [List.append_assoc, List.append_nil] using h

end Blocks

end EcmaLua.Lua
