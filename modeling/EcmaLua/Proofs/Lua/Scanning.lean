import Mathlib.Tactic.Common
import EcmaLua.Lua.Printer
import EcmaLua.Proofs.Lua.Grammar

/-!
# Reading printed texts piece by piece

`Lexes` says that a text gives its tokens whatever comes behind it, as long as the next
character is one of a given set: the set keeps the last token of the text from going on. Texts
are read under both line terminators. Each kind of lexeme that the printer writes has a lemma
here; longer texts are put together with `Lexes.append`.
-/

namespace EcmaLua.Lua

/-- The characters of a text under a line terminator. -/
def respell (newline : Newline) (cs : List Char) : List Char :=
  match newline with
  | .lf => cs
  | .crlf => cs.flatMap fun c => if c = '\n' then ['\r', '\n'] else [c]

theorem toList_withNewlines (newline : Newline) (text : String) :
    (withNewlines newline text).toList = respell newline text.toList := by
  cases newline <;> simp [withNewlines, respell]

@[simp] theorem respell_nil (newline : Newline) : respell newline [] = [] := by
  cases newline <;> rfl

@[simp] theorem respell_append (newline : Newline) (a b : List Char) :
    respell newline (a ++ b) = respell newline a ++ respell newline b := by
  cases newline <;> simp [respell]

theorem respell_crlf_cons (c : Char) (cs : List Char) :
    respell .crlf (c :: cs) =
      (if c = '\n' then ['\r', '\n'] else [c]) ++ respell .crlf cs :=
  rfl

theorem respell_cons_of_ne (newline : Newline) {c : Char} (hc : c ≠ '\n') (cs : List Char) :
    respell newline (c :: cs) = c :: respell newline cs := by
  cases newline with
  | lf => rfl
  | crlf =>
    rw [respell_crlf_cons, if_neg hc]
    rfl

theorem respell_eq_self (newline : Newline) {cs : List Char} (h : '\n' ∉ cs) :
    respell newline cs = cs := by
  cases newline with
  | lf => rfl
  | crlf =>
    induction cs with
    | nil => rfl
    | cons c cs ih =>
      have hc : c ≠ '\n' := fun hc => h (hc ▸ List.mem_cons_self)
      have hcs := ih fun hm => h (List.mem_cons_of_mem c hm)
      simp only [respell] at hcs ⊢
      simp [hc, hcs]

/-- Reading one element of a text. -/
theorem scan_of_next {cs rest : List Char} {t : Option Token}
    (h : Lexer.next cs = some (t, rest)) (hl : rest.length < cs.length) :
    scan cs = (scan rest).map (t.toList ++ ·) := by
  cases cs with
  | nil => simp at hl
  | cons c cs =>
    have hle : rest.length ≤ cs.length := by simpa using Nat.le_of_lt_succ hl
    rw [scan, h]
    simp only [if_pos hle]

/-- In front of `rest`, the text gives the tokens. -/
def Scans (newline : Newline) (text : String) (tokens : List Token) (rest : List Char) : Prop :=
  scan (respell newline text.toList ++ rest) = (scan rest).map (tokens ++ ·)

/-- The text gives the tokens in front of everything that starts with a character of the set. -/
def Lexes (newline : Newline) (follow : Char → Bool) (text : String) (tokens : List Token) :
    Prop :=
  ∀ rest : List Char, (∀ c ∈ rest.head?, follow c = true) → Scans newline text tokens rest

/-- The text starts with a character of the set, under both line terminators. -/
def leads (set : Char → Bool) (text : String) : Bool :=
  match text.toList with
  | [] => false
  | c :: _ => set c && (c != '\n' || set '\r')

/-- A character of a set is none outside of it. -/
theorem ne_of_set {set : Char → Bool} {c d : Char} (h : set c = true)
    (hd : set d = false) : c ≠ d := by
  rintro rfl
  simp [h] at hd

/-- Every character. -/
def anything (_ : Char) : Bool := true

section Composition

variable {newline : Newline} {f g : Char → Bool} {a b : String} {ts us : List Token}

theorem leads_append (h : leads f a = true) : leads f (a ++ b) = true := by
  unfold leads at h ⊢
  rw [String.toList_append]
  cases ha : a.toList with
  | nil => simp [ha] at h
  | cons c cs => simpa [ha] using h

theorem leads_mono (hfg : ∀ c, f c = true → g c = true) (h : leads f a = true) :
    leads g a = true := by
  unfold leads at h ⊢
  cases ha : a.toList with
  | nil => simp [ha] at h
  | cons c cs =>
    simp only [ha, Bool.and_eq_true, Bool.or_eq_true] at h ⊢
    exact ⟨hfg _ h.1, h.2.imp_right (hfg _)⟩

theorem head_respell (h : leads f a = true) (rest : List Char) :
    ∀ c ∈ (respell newline a.toList ++ rest).head?, f c = true := by
  unfold leads at h
  cases ha : a.toList with
  | nil => simp [ha] at h
  | cons c cs =>
    simp only [ha, Bool.and_eq_true, Bool.or_eq_true, bne_iff_ne] at h
    cases newline with
    | lf => simpa [respell] using h.1
    | crlf =>
      by_cases hc : c = '\n'
      · have hr : f '\r' = true := h.2.resolve_left (fun hn => hn hc)
        simpa [respell, hc] using hr
      · simpa [respell, hc] using h.1

theorem Scans.append {rest : List Char}
    (ha : Scans newline a ts (respell newline b.toList ++ rest)) (hb : Scans newline b us rest) :
    Scans newline (a ++ b) (ts ++ us) rest := by
  unfold Scans at ha hb ⊢
  rw [String.toList_append, respell_append, List.append_assoc, ha, hb, Option.map_map]
  congr 1
  funext vs
  simp

theorem Lexes.nil : Lexes newline f "" [] := by
  intro rest _
  simp [Scans]

theorem Lexes.mono (hfg : ∀ c, g c = true → f c = true) (h : Lexes newline f a ts) :
    Lexes newline g a ts :=
  fun rest hr => h rest fun c hc => hfg c (hr c hc)

/-- What the second text starts with lets the first one end. -/
theorem Lexes.append (ha : Lexes newline f a ts) (hb : Lexes newline g b us)
    (hl : leads f b = true) : Lexes newline g (a ++ b) (ts ++ us) :=
  fun rest hr => (ha _ (head_respell hl rest)).append (hb rest hr)

/-- A text that ends by itself can be followed by anything. -/
theorem Lexes.then (ha : Lexes newline anything a ts) (hb : Lexes newline g b us) :
    Lexes newline g (a ++ b) (ts ++ us) :=
  fun rest hr => (ha _ fun _ _ => rfl).append (hb rest hr)

/-- A single element, from what `next` does with it. -/
theorem Lexes.of_next {t : Option Token} (hn : '\n' ∉ a.toList) (ha : a ≠ "")
    (h : ∀ rest : List Char, (∀ c ∈ rest.head?, f c = true) →
      Lexer.next (a.toList ++ rest) = some (t, rest)) :
    Lexes newline f a t.toList := by
  intro rest hr
  have hpos : 0 < a.toList.length := by
    cases hl : a.toList with
    | nil => exact absurd (String.toList_eq_nil_iff.mp hl) ha
    | cons c cs => simp
  unfold Scans
  rw [respell_eq_self newline hn]
  exact scan_of_next (h rest hr) (by simp; omega)

end Composition

section Lexemes

variable (newline : Newline)

/-- Characters that cannot go on with a word. -/
def endsWord (c : Char) : Bool := !isNameChar c

theorem lexes_blank {c : Char} (hb : Lexer.isBlank c = true) (hn : c ≠ '\n') :
    Lexes newline anything (String.ofList [c]) [] := by
  apply Lexes.of_next (t := none)
  · simpa using hn.symm
  · simp
  · intro rest _
    simp [Lexer.next, hb]

theorem lexes_space : Lexes newline anything " " [] := lexes_blank newline rfl (by decide)

theorem lexes_newline : Lexes newline anything "\n" [] := by
  have hr (rest : List Char) : scan ('\n' :: rest) = (scan rest).map ([] ++ ·) :=
    scan_of_next (t := none) rfl (by simp)
  intro rest _
  cases newline with
  | lf => exact hr rest
  | crlf =>
    have hc : scan ('\r' :: '\n' :: rest) = (scan ('\n' :: rest)).map ([] ++ ·) :=
      scan_of_next (t := none) rfl (by simp)
    change scan ('\r' :: '\n' :: rest) = _
    rw [hc, hr rest]
    cases scan rest <;> rfl

theorem eq_of_mem_indentation {depth : Nat} {c : Char} (h : c ∈ (indentation depth).toList) :
    c = ' ' := by
  rw [indentation, String.toList_ofList] at h
  exact List.eq_of_mem_replicate h

theorem newline_not_mem_indentation (depth : Nat) : '\n' ∉ (indentation depth).toList :=
  fun h => absurd (eq_of_mem_indentation h) (by decide)

theorem lexes_indentation (depth : Nat) : Lexes newline anything (indentation depth) [] := by
  unfold indentation
  induction 4 * depth with
  | zero => exact Lexes.nil
  | succ n ih =>
    rw [List.replicate_succ, String.ofList_cons]
    exact (lexes_space newline).then ih

theorem takeWhile_append_of_head {p : Char → Bool} {cs rest : List Char}
    (hc : ∀ c ∈ cs, p c = true) (hr : ∀ c ∈ rest.head?, p c = false) :
    (cs ++ rest).takeWhile p = cs ∧ (cs ++ rest).dropWhile p = rest := by
  rw [List.takeWhile_append_of_pos hc, List.dropWhile_append_of_pos hc]
  cases rest with
  | nil => simp
  | cons d rest =>
    have hd : p d = false := hr d rfl
    simp [hd]

/-- A word is read as a whole. -/
theorem lexes_word {word : String} (hs : leads isNameStart word = true)
    (hc : ∀ c ∈ word.toList, isNameChar c = true) :
    Lexes newline endsWord word [Lexer.wordToken word.toList] := by
  apply Lexes.of_next (t := some (Lexer.wordToken word.toList))
  · intro hn
    exact absurd (hc _ hn) (by decide)
  · rintro rfl
    simp [leads] at hs
  · intro rest hr
    unfold leads at hs
    cases hw : word.toList with
    | nil => simp [hw] at hs
    | cons c cs =>
      simp only [hw, Bool.and_eq_true] at hs
      have hb : Lexer.isBlank c = false := by
        by_contra hb
        simp only [Lexer.isBlank, Bool.not_eq_false, Bool.or_eq_true, beq_iff_eq] at hb
        rcases hb with ((((rfl | rfl) | rfl) | rfl) | rfl) | rfl <;> simp [isNameStart] at hs
      have hcs : ∀ d ∈ cs, isNameChar d = true := fun d hd =>
        hc d (by rw [hw]; exact List.mem_cons_of_mem c hd)
      have hrest : ∀ d ∈ rest.head?, isNameChar d = false := fun d hd => by
        simpa [endsWord] using hr d hd
      obtain ⟨ht, hd⟩ := takeWhile_append_of_head hcs hrest
      simp [Lexer.next, hb, hs.1, ht, hd]

/-- A keyword with a blank behind it. -/
theorem lexes_keyword {word : String} (hk : word ∈ keywords) :
    Lexes newline endsWord word [.keyword word] := by
  have hw : leads isNameStart word = true ∧ word.toList.all isNameChar = true := by
    revert word
    decide
  have ht : Lexer.wordToken word.toList = .keyword word := by
    simp [Lexer.wordToken, hk]
  rw [← ht]
  exact lexes_word newline hw.1 (List.all_eq_true.mp hw.2)

/-- A name is read as such. -/
theorem lexes_name {text : String} (hn : isName text = true) :
    Lexes newline endsWord text [.name text] := by
  unfold isName at hn
  cases hl : text.toList with
  | nil => simp [hl] at hn
  | cons c cs =>
    simp only [hl, Bool.and_eq_true, Bool.not_eq_true'] at hn
    obtain ⟨⟨hs, hc⟩, hk⟩ := hn
    have hcn : c ≠ '\n' := ne_of_set hs (by decide)
    have ht : Lexer.wordToken text.toList = .name text := by
      simpa [Lexer.wordToken] using hk
    rw [← ht]
    apply lexes_word newline
    · simp [leads, hl, hs, hcn]
    · intro d hd
      rw [hl, List.mem_cons] at hd
      rcases hd with rfl | hd
      · simp only [isNameStart, Bool.or_eq_true] at hs
        simp only [isNameChar, Char.isAlphanum, Bool.or_eq_true]
        exact hs.imp_left Or.inl
      · exact List.all_eq_true.mp hc d hd

theorem lexes_plain {c : Char} (hc : c ∈ Lexer.plainSymbols) (hd : c ≠ '-') :
    Lexes newline anything (String.ofList [c]) [.symbol (String.ofList [c])] := by
  apply Lexes.of_next (t := some (.symbol (String.ofList [c])))
  · rw [String.toList_ofList, List.mem_singleton]
    rintro rfl
    revert hc
    decide
  · simp
  · intro rest _
    simp only [Lexer.plainSymbols, List.mem_cons, List.not_mem_nil, or_false] at hc
    rw [String.toList_ofList]
    rcases hc with rfl | rfl | rfl | rfl | rfl | rfl | rfl | rfl | rfl | rfl | rfl | rfl | rfl | rfl
    all_goals first | rfl | exact absurd rfl hd

/-- A symbol that a following character could extend, by what may follow it. -/
theorem lexes_symbol {f : Char → Bool} {text : String} (hn : '\n' ∉ text.toList) (ht : text ≠ "")
    (hnil : Lexer.next text.toList = some (some (.symbol text), []))
    (hcons : ∀ c rest, f c = true →
      Lexer.next (text.toList ++ c :: rest) = some (some (.symbol text), c :: rest)) :
    Lexes newline f text [.symbol text] := by
  apply Lexes.of_next (t := some (.symbol text)) hn ht
  intro rest hr
  cases rest with
  | nil => simpa using hnil
  | cons c rest => exact hcons c rest (hr c rfl)

/-- Characters after which `=` stands alone. -/
def endsEquals (c : Char) : Bool := c != '='

/-- Characters after which `-` stands alone. -/
def endsMinus (c : Char) : Bool := c != '-'

/-- Characters after which a left bracket opens an index or a key. -/
def endsBracket (c : Char) : Bool := c != '[' && c != '='

theorem lexes_equals : Lexes newline endsEquals "=" (Grammar.sym "=") := by
  apply lexes_symbol newline (by decide) (by decide) rfl
  intro c rest hc
  have hne : c ≠ '=' := by simpa [endsEquals] using hc
  change (Lexer.symbol '=' (c :: rest)).map _ = _
  simp [Lexer.symbol, hne]

theorem lexes_minus : Lexes newline endsMinus "-" (Grammar.sym "-") := by
  apply lexes_symbol newline (by decide) (by decide) rfl
  intro c rest hc
  have hne : c ≠ '-' := by simpa [endsMinus] using hc
  simp [Lexer.next, Lexer.isBlank, isNameStart, Lexer.startsNumeral, Lexer.symbol,
    Lexer.plainSymbols, hne]

theorem lexes_bracket : Lexes newline endsBracket "[" (Grammar.sym "[") := by
  apply lexes_symbol newline (by decide) (by decide) rfl
  intro c rest hc
  have hne : c ≠ '[' ∧ c ≠ '=' := by simpa [endsBracket] using hc
  have ho : Lexer.longOpening (c :: rest) = none := by
    simp [Lexer.longOpening, hne]
  change (Lexer.bracket (c :: rest)).map _ = _
  simp [Lexer.bracket, ho, hne]

theorem isDigit_eq_false {c : Char} (hc : isNameStart c = true) : c.isDigit = false := by
  by_cases hu : c = '_'
  · rw [hu]
    rfl
  · have halpha : c.isAlpha = true := by simpa [isNameStart, hu] using hc
    change (decide (c.val ≥ 65 ∧ c.val ≤ 90) ||
      (decide (c.val ≥ 97) && decide (c.val ≤ 122))) = true at halpha
    change (decide (c.val ≥ 48) && decide (c.val ≤ 57)) = false
    grind

theorem lexes_dot : Lexes newline isNameStart "." (Grammar.sym ".") := by
  apply lexes_symbol newline (by decide) (by decide) rfl
  intro c rest hc
  have hd : c ≠ '.' := ne_of_set hc (by decide)
  have hn : c.isDigit = false := isDigit_eq_false hc
  simp [Lexer.next, Lexer.isBlank, isNameStart, Lexer.startsNumeral, Lexer.symbol, hd, hn]

theorem lexes_dots : Lexes newline anything "..." (Grammar.sym "...") :=
  lexes_symbol newline (by decide) (by decide) rfl fun _ _ _ => rfl

theorem lexes_colons : Lexes newline anything "::" (Grammar.sym "::") :=
  lexes_symbol newline (by decide) (by decide) rfl fun _ _ _ => rfl

/-- The token of a binary operator. -/
def BinOp.token : BinOp → Token
  | .or => .keyword "or"
  | .and => .keyword "and"
  | op => .symbol op.text

theorem BinOp.token_mem (op : BinOp) : op.token ∈ Grammar.binops := by
  cases op <;> decide

/-- A binary operator between blanks. -/
theorem lexes_binop (op : BinOp) :
    Lexes newline anything (" " ++ op.text ++ " ") [op.token] := by
  have hop : Lexes newline (· == ' ') op.text [op.token] := by
    cases op
    case or | and =>
      refine (lexes_keyword newline (by decide)).mono fun c hc => ?_
      rw [beq_iff_eq.mp hc]
      rfl
    all_goals
      refine lexes_symbol newline (by decide) (by decide) rfl fun c rest hc => ?_
      rw [beq_iff_eq.mp hc]
      rfl
  exact ((lexes_space newline).then hop).append (lexes_space newline) rfl

/-- A text that can be written into a comment. -/
def isRemark (text : String) : Bool := text.toList.all Char.isAlphanum

theorem not_mem_of_isRemark {text : String} (h : isRemark text = true) {c : Char}
    (hc : c.isAlphanum = false) : c ∉ text.toList := by
  intro hm
  have := List.all_eq_true.mp h c hm
  simp [hc] at this

theorem longBody_zero {cs : List Char} (h : ']' ∉ cs) (rest : List Char) :
    Lexer.longBody 0 (cs ++ ']' :: ']' :: rest) = some (cs, rest) := by
  induction cs with
  | nil => rfl
  | cons c cs ih =>
    have hc : c ≠ ']' := fun hc => h (hc ▸ List.mem_cons_self)
    have hcs := ih fun hm => h (List.mem_cons_of_mem c hm)
    simp [Lexer.longBody, hc.symm, hcs]

/-- A comment that stands for a construct. -/
theorem lexes_noteText {text : String} (h : isRemark text = true) :
    Lexes newline anything (noteText text) [] := by
  apply Lexes.of_next (t := none)
  · have hn := not_mem_of_isRemark h (c := '\n') rfl
    simpa [noteText] using hn
  · simp [noteText]
  · intro rest _
    have hl : (noteText text).toList ++ rest =
        '-' :: '-' :: '[' :: '[' :: (text.toList ++ ']' :: ']' :: rest) := by
      simp [noteText]
    have hb := longBody_zero (not_mem_of_isRemark h (c := ']') rfl) rest
    rw [hl]
    change (Option.map Prod.snd (Lexer.longBody 0 (text.toList ++ ']' :: ']' :: rest))).map _ = _
    rw [hb]
    rfl

/-- A comment up to the end of its line. -/
theorem lexes_lineComment {text : String} (h : isRemark text = true) :
    Lexes newline Lexer.isLineEnd ("-- " ++ text) [] := by
  apply Lexes.of_next (t := none)
  · have hn := not_mem_of_isRemark h (c := '\n') rfl
    simpa using hn
  · simp
  · intro rest hr
    have hl : ("-- " ++ text).toList ++ rest = '-' :: '-' :: ' ' :: (text.toList ++ rest) := by
      simp
    have hc : ∀ c ∈ text.toList, (!Lexer.isLineEnd c) = true := by
      intro c hc
      have ha := List.all_eq_true.mp h c hc
      by_contra hn
      simp only [Lexer.isLineEnd, Bool.not_eq_true', Bool.not_eq_false, Bool.or_eq_true,
        beq_iff_eq] at hn
      rcases hn with rfl | rfl <;> revert ha <;> decide
    have hd := (takeWhile_append_of_head hc fun c hc' => by simpa using hr c hc').2
    rw [hl]
    change some (none, (text.toList ++ rest).dropWhile fun c => !Lexer.isLineEnd c) = _
    rw [hd]

end Lexemes

end EcmaLua.Lua
