import Mathlib.Data.List.DropRight
import EcmaLua.Proofs.Lua.Jumps
import EcmaLua.Proofs.Lua.Phrase

/-!
# The marks in a text

The lines of a text that are jumps or labels, read off the text alone. The text of a chunk has
the marks of its tree and no others, as long as names are words of Lua that are no keywords and
comments stay on their line: every other line starts with something that no mark starts with.
-/

namespace EcmaLua.Lua

/-- The mark that the content of a line is. -/
def Mark.ofContent : List Char → Option Mark
  | ['b', 'r', 'e', 'a', 'k'] => some .leave
  | 'g' :: 'o' :: 't' :: 'o' :: ' ' :: name => some (.goTo (String.ofList name))
  | ':' :: ':' :: rest => some (.label (String.ofList rest.dropLast.dropLast))
  | _ => none

/-- The mark that a line is, apart from its indentation and a carriage return at its end. -/
def Mark.ofLine (line : List Char) : Option Mark :=
  Mark.ofContent ((line.dropWhile (· == ' ')).rdropWhile (· == '\r'))

/-- The marks among the lines of a text, in order. -/
def markLines (text : String) : List Mark :=
  (text.toList.splitOn '\n').filterMap Mark.ofLine

/-- Words that are no keywords, and comments on one line. -/
def Vocabulary.words : Vocabulary where
  name text := (∀ c ∈ text.toList, isNameChar c = true) ∧ text ∉ keywords
  note text := '\n' ∉ text.toList

/-- The marks of a text whose first line has begun already. -/
def marksFrom (before text : List Char) : List Mark :=
  ((before ++ text).splitOn '\n').filterMap Mark.ofLine

theorem marksFrom_append (before a b : List Char) :
    marksFrom before (a ++ b) = marksFrom (before ++ a) b := by
  unfold marksFrom
  rw [List.append_assoc]

/-- The first line of a text ends at its first line feed. -/
theorem splitOn_newline {line : List Char} (h : '\n' ∉ line) (rest : List Char) :
    (line ++ '\n' :: rest).splitOn '\n' = line :: rest.splitOn '\n' := by
  refine List.splitOnP_append_cons_of_forall_mem (fun c hc => ?_) '\n' (by rfl) rest
  rw [beq_eq_false_iff_ne]
  rintro rfl
  exact h hc

theorem marksFrom_newline {before : List Char} (h : '\n' ∉ before) (rest : List Char) :
    marksFrom before ('\n' :: rest) = (Mark.ofLine before).toList ++ marksFrom [] rest := by
  unfold marksFrom
  rw [splitOn_newline h, List.nil_append]
  cases hm : Mark.ofLine before <;> simp [hm]

/-- The word at the start of a line, and the character there, tell that the line is no mark. -/
theorem Mark.ofLine_eq_none {line content : List Char}
    (hl : line.dropWhile (· == ' ') = content)
    (hb : content.takeWhile isNameChar ≠ "break".toList)
    (hg : content.takeWhile isNameChar ≠ "goto".toList) (hc : content.head? ≠ some ':') :
    Mark.ofLine line = none := by
  have hsplit := List.rdropWhile_append_rtakeWhile (p := (· == '\r')) (l := content)
  have hend : ∀ c ∈ content.rtakeWhile (· == '\r'), isNameChar c = false := by
    intro c h
    have hr : c = '\r' := by simpa using List.mem_rtakeWhile_imp h
    rw [hr]
    decide
  unfold Mark.ofLine Mark.ofContent
  rw [hl]
  split
  · next heq =>
      rw [heq] at hsplit
      refine absurd ?_ hb
      have hnil : (content.rtakeWhile (· == '\r')).takeWhile isNameChar = [] := by
        cases hr : content.rtakeWhile (· == '\r') with
        | nil => rfl
        | cons c cs =>
          rw [hr] at hend
          simp [hend c List.mem_cons_self]
      have hword : ['b', 'r', 'e', 'a', 'k'].all isNameChar = true := by decide
      rw [← hsplit, List.takeWhile_append_of_pos (List.all_eq_true.1 hword), hnil]
      rfl
  · next name heq =>
      rw [heq] at hsplit
      refine absurd ?_ hg
      rw [← hsplit]
      rfl
  · next rest heq =>
      rw [heq] at hsplit
      refine absurd ?_ hc
      rw [← hsplit]
      rfl
  · rfl

theorem newline_not_mem_blanks (n : Nat) : '\n' ∉ List.replicate n ' ' := by
  simp [List.mem_replicate]

theorem dropWhile_blanks (n : Nat) {c : Char} (hc : c ≠ ' ') (cs : List Char) :
    (List.replicate n ' ' ++ c :: cs).dropWhile (· == ' ') = c :: cs := by
  rw [List.dropWhile_append_of_pos]
  · simp [hc]
  · intro a ha
    rw [List.eq_of_mem_replicate ha]
    rfl

/-- No continuation of the line is a mark. -/
def Inert (before : List Char) : Prop :=
  '\n' ∉ before ∧ ∀ more, '\n' ∉ more → Mark.ofLine (before ++ more) = none

/-- Whether a text cannot go on with the word before it, nor start a mark behind blanks. -/
def parts : List Char → Bool
  | [] => false
  | ' ' :: c :: _ => c != ' ' && c != ':' && c != 'b' && c != 'g'
  | c :: _ => !isNameChar c && c != ':' && c != ' '

/-- The line is no mark if it ends here, or goes on with a text that parts from the word before. -/
def Begun (before : List Char) : Prop :=
  '\n' ∉ before ∧ Mark.ofLine before = none ∧ Mark.ofLine (before ++ ['\r']) = none ∧
    ∀ text, parts text = true → '\n' ∉ text → Inert (before ++ text)

/-- The line has its indentation only, or is no mark anyway. -/
def Start (before : List Char) : Prop := (∃ n, before = List.replicate n ' ') ∨ Inert before

/-- The line has not begun. -/
def AtStart (before : List Char) : Prop := before = []

section Classes

variable {before text : List Char}

theorem Inert.append (h : Inert before) (ht : '\n' ∉ text) : Inert (before ++ text) := by
  refine ⟨by simp [h.1, ht], fun more hm => ?_⟩
  rw [List.append_assoc]
  exact h.2 _ (by simp [ht, hm])

theorem Inert.begun (h : Inert before) : Begun before := by
  have hnil := h.2 [] (by simp)
  rw [List.append_nil] at hnil
  exact ⟨h.1, hnil, h.2 ['\r'] (by decide), fun text _ ht => h.append ht⟩

/-- Behind an indentation, the first character keeps the line from being a mark. -/
theorem inert_of_head (n : Nat) {c : Char} (hc : c ∉ [' ', ':', 'b', 'g'])
    (ht : '\n' ∉ c :: text) : Inert (List.replicate n ' ' ++ c :: text) := by
  simp only [List.mem_cons, List.not_mem_nil, or_false, not_or] at hc
  refine ⟨?_, fun more hm => ?_⟩
  · rw [List.mem_append, not_or]
    exact ⟨newline_not_mem_blanks n, ht⟩
  · have hword {word : List Char} (hw : word.head? ≠ some c) (hne : word ≠ []) :
        (c :: (text ++ more)).takeWhile isNameChar ≠ word := by
      rintro rfl
      rw [List.takeWhile_cons] at hw hne
      split at hw <;> simp_all
    have hline := dropWhile_blanks n hc.1 (text ++ more)
    rw [List.append_assoc]
    exact Mark.ofLine_eq_none hline (hword (by simpa using Ne.symm hc.2.2.1) (by decide))
      (hword (by simpa using Ne.symm hc.2.2.2) (by decide)) (by simpa using hc.2.1)

/-- A text that parts from the word before it starts outside a word. -/
theorem takeWhile_of_parts (h : parts text = true) (more : List Char) :
    (text ++ more).takeWhile isNameChar = [] := by
  unfold parts at h
  split at h
  · exact absurd h (by simp)
  · rfl
  · simp only [Bool.and_eq_true, Bool.not_eq_true'] at h
    simp [h.1.1]

theorem inert_of_parts (n : Nat) (h : parts text = true) (ht : '\n' ∉ text) :
    Inert (List.replicate n ' ' ++ text) := by
  unfold parts at h
  split at h
  · exact absurd h (by simp)
  · next c rest =>
      have hshift : List.replicate n ' ' ++ ' ' :: c :: rest =
          List.replicate (n + 1) ' ' ++ c :: rest := by
        rw [List.replicate_succ', List.append_assoc]
        rfl
      rw [hshift]
      refine inert_of_head (n + 1) ?_ fun hm => ht (List.mem_cons_of_mem _ hm)
      simpa [and_assoc] using h
  · next c rest _ =>
      refine inert_of_head n ?_ ht
      simp only [Bool.and_eq_true, Bool.not_eq_true', bne_iff_ne, ne_eq] at h
      simp only [List.mem_cons, List.not_mem_nil, or_false, not_or]
      refine ⟨h.2, h.1.2, ?_, ?_⟩ <;> rintro rfl <;> exact absurd h.1.1 (by decide)

/-- A word that is no keyword starts no mark. -/
theorem begun_of_word (n : Nat) {word : List Char} (hw : ∀ c ∈ word, isNameChar c = true)
    (hb : word ≠ "break".toList) (hg : word ≠ "goto".toList) :
    Begun (List.replicate n ' ' ++ word) := by
  cases word with
  | nil =>
    rw [List.append_nil]
    refine ⟨newline_not_mem_blanks n, ?_, ?_, fun text hp ht => inert_of_parts n hp ht⟩
    · have hline : (List.replicate n ' ').dropWhile (· == ' ') = [] := by simp
      exact Mark.ofLine_eq_none hline (by decide) (by decide) (by decide)
    · have hr : Inert (List.replicate n ' ' ++ ['\r']) :=
        inert_of_head n (by decide) (by decide)
      exact hr.begun.2.1
  | cons c word =>
    have hc := hw c List.mem_cons_self
    have hnone (more : List Char) (hm : more.takeWhile isNameChar = []) :
        Mark.ofLine (List.replicate n ' ' ++ c :: word ++ more) = none := by
      have hline := dropWhile_blanks n (ne_of_set hc (by decide)) (word ++ more)
      have htake : (c :: (word ++ more)).takeWhile isNameChar = c :: word := by
        rw [← List.cons_append, List.takeWhile_append_of_pos hw, hm, List.append_nil]
      have hcolon : c ≠ ':' := ne_of_set hc (by decide)
      rw [List.append_assoc]
      exact Mark.ofLine_eq_none hline (by rwa [htake]) (by rwa [htake]) (by simpa using hcolon)
    have hnl : '\n' ∉ c :: word := fun h => absurd (hw _ h) (by decide)
    have hmem : '\n' ∉ List.replicate n ' ' ++ c :: word := by
      rw [List.mem_append, not_or]
      exact ⟨newline_not_mem_blanks n, hnl⟩
    refine ⟨hmem, ?_, hnone ['\r'] (by decide), fun text hp ht => ⟨?_, fun more _ => ?_⟩⟩
    · have hnil := hnone [] rfl
      rwa [List.append_nil] at hnil
    · rw [List.mem_append, not_or]
      exact ⟨hmem, ht⟩
    · rw [List.append_assoc]
      exact hnone _ (takeWhile_of_parts hp more)

end Classes

/-- Read behind a start of a line in the first class, the text gives its marks and leaves a start
of a line in the second class. -/
def Carries (newline : Newline) (A B : List Char → Prop) (text : String) (ms : List Mark) :
    Prop :=
  ∀ before, A before → ∃ after, B after ∧ ∀ rest,
    marksFrom before (respell newline text.toList ++ rest) = ms ++ marksFrom after rest

/-- The text of an expression: it can start a line or stand within one. -/
abbrev Flows (newline : Newline) (text : String) (ms : List Mark) : Prop :=
  Carries newline Start Begun text ms

/-- A text of whole lines. -/
abbrev FullLines (newline : Newline) (text : String) (ms : List Mark) : Prop :=
  Carries newline AtStart AtStart text ms

section Composition

variable {newline : Newline} {A B C : List Char → Prop} {a b : String} {ms ns : List Mark}

theorem Carries.append (ha : Carries newline A B a ms) (hb : Carries newline B C b ns) :
    Carries newline A C (a ++ b) (ms ++ ns) := by
  intro before h
  obtain ⟨middle, hm, hfirst⟩ := ha before h
  obtain ⟨after, hafter, hsecond⟩ := hb middle hm
  refine ⟨after, hafter, fun rest => ?_⟩
  rw [String.toList_append, respell_append, List.append_assoc, hfirst, hsecond, List.append_assoc]

theorem Carries.mono {A' B' : List Char → Prop} (h : Carries newline A B a ms)
    (hA : ∀ cs, A' cs → A cs) (hB : ∀ cs, B cs → B' cs) : Carries newline A' B' a ms := by
  intro before hbefore
  obtain ⟨after, hafter, heq⟩ := h before (hA before hbefore)
  exact ⟨after, hB after hafter, heq⟩

/-- A text without a line break leaves the line as it grows. -/
theorem carries_plain (hn : '\n' ∉ a.toList) (h : ∀ before, A before → B (before ++ a.toList)) :
    Carries newline A B a [] := by
  intro before hbefore
  refine ⟨before ++ a.toList, h before hbefore, fun rest => ?_⟩
  rw [respell_eq_self newline hn, marksFrom_append, List.nil_append]

theorem Carries.then (ha : Carries newline A Inert a ms) (hb : Carries newline Start B b ns) :
    Carries newline A B (a ++ b) (ms ++ ns) :=
  ha.append (hb.mono (fun _ => Or.inr) fun _ => id)

theorem Carries.done (h : Carries newline A Inert a ms) : Carries newline A Begun a ms :=
  h.mono (fun _ => id) fun _ => Inert.begun

theorem carries_inner (hn : '\n' ∉ a.toList := by decide) : Carries newline Inert Inert a [] :=
  carries_plain hn fun _ h => h.append hn

/-- Whether a text starts with a character that no mark starts with, and stays on its line. -/
def opens : List Char → Bool
  | [] => false
  | c :: cs => !([' ', ':', 'b', 'g'].contains c) && !((c :: cs).contains '\n')

theorem carries_opening (a : String) (h : opens a.toList = true := by decide) :
    Carries newline Start Inert a [] := by
  unfold opens at h
  split at h
  · exact absurd h (by simp)
  · next c cs heq =>
      simp only [Bool.and_eq_true, Bool.not_eq_true', List.contains_eq_mem,
        decide_eq_false_iff_not] at h
      have hn : '\n' ∉ a.toList := by rw [heq]; exact h.2
      refine carries_plain hn fun before hb => ?_
      rcases hb with ⟨n, rfl⟩ | hb
      · rw [heq]
        exact inert_of_head n h.1 h.2
      · exact hb.append hn

theorem carries_parting (a : String)
    (h : (parts a.toList && !a.toList.contains '\n') = true := by decide) :
    Carries newline Begun Inert a [] := by
  simp only [Bool.and_eq_true, Bool.not_eq_true', List.contains_eq_mem,
    decide_eq_false_iff_not] at h
  exact carries_plain h.2 fun _ hb => hb.2.2.2 _ h.1 h.2

theorem flows_word (h : Vocabulary.words.name a) : Flows newline a [] := by
  have hn : '\n' ∉ a.toList := fun hm => absurd (h.1 _ hm) (by decide)
  refine carries_plain hn fun before hb => ?_
  rcases hb with ⟨n, rfl⟩ | hb
  · have hne (w : String) (hw : w ∈ keywords) : a.toList ≠ w.toList := fun heq =>
      h.2 (String.toList_injective heq ▸ hw)
    exact begun_of_word n h.1 (hne "break" (by decide)) (hne "goto" (by decide))
  · exact (hb.append hn).begun

theorem Carries.close (ha : Carries newline A B a ms) (hb : Carries newline B C b []) :
    Carries newline A C (a ++ b) ms := by
  have h := ha.append hb
  rwa [List.append_nil] at h

/-- The text goes on with one that parts from its last word. -/
theorem Carries.part (ha : Carries newline A Begun a ms) (b : String)
    (hb : (parts b.toList && !b.toList.contains '\n') = true := by decide) :
    Carries newline A Inert (a ++ b) ms :=
  ha.close (carries_parting _ hb)

theorem Carries.inner (ha : Carries newline A Inert a ms) (hb : '\n' ∉ b.toList := by decide) :
    Carries newline A Inert (a ++ b) ms :=
  ha.close (carries_inner hb)

/-- The text stands behind one that starts no mark. -/
theorem Carries.behind (h : Carries newline Start B b ms) (a : String)
    (ha : opens a.toList = true := by decide) : Carries newline Start B (a ++ b) ms :=
  (carries_opening a ha).then h

theorem Carries.within (h : Carries newline Inert B b ms) (a : String)
    (ha : opens a.toList = true := by decide) : Carries newline Start B (a ++ b) ms :=
  (carries_opening a ha).append h

/-- The end of a line that is no mark. -/
theorem carries_newline : Carries newline Begun AtStart "\n" [] := by
  intro before hb
  refine ⟨[], rfl, fun rest => ?_⟩
  cases newline with
  | lf =>
    change marksFrom before ('\n' :: rest) = _
    rw [marksFrom_newline hb.1, hb.2.1]
    rfl
  | crlf =>
    change marksFrom before (['\r'] ++ '\n' :: rest) = _
    rw [marksFrom_append, marksFrom_newline (by simp [hb.1]), hb.2.2.1]
    rfl

theorem toList_indentation (depth : Nat) :
    (indentation depth).toList = List.replicate (4 * depth) ' ' := by
  simp [indentation]

theorem carries_indentation (depth : Nat) :
    Carries newline AtStart Start (indentation depth) [] := by
  refine carries_plain (newline_not_mem_indentation depth) fun before hb => ?_
  rw [hb, toList_indentation]
  exact Or.inl ⟨_, rfl⟩

theorem Carries.line (h : Flows newline a ms) (depth : Nat) :
    FullLines newline (line depth a) ms :=
  ((carries_indentation depth).append h).close carries_newline

/-- A line that is a mark. -/
theorem carries_mark {m : Mark} {c : Char} {cs : List Char} (ha : a.toList = c :: cs)
    (hc : c ≠ ' ') (hn : '\n' ∉ c :: cs) (hr : '\r' ∉ c :: cs)
    (hm : Mark.ofContent (c :: cs) = some m) (depth : Nat) :
    FullLines newline (line depth a) [m] := by
  have hself : (c :: cs).rdropWhile (· == '\r') = c :: cs := by
    rw [List.rdropWhile_eq_self_iff]
    intro hne hlast
    rw [beq_iff_eq] at hlast
    exact hr (hlast ▸ List.getLast_mem hne)
  have hdrop (more : List Char) :
      ((indentation depth).toList ++ c :: cs ++ more).dropWhile (· == ' ') = c :: cs ++ more := by
    rw [toList_indentation, List.append_assoc]
    exact dropWhile_blanks _ hc _
  have hmem : '\n' ∉ (indentation depth).toList ++ c :: cs := by
    rw [List.mem_append, not_or]
    exact ⟨newline_not_mem_indentation depth, hn⟩
  intro before hb
  rw [hb]
  refine ⟨[], rfl, fun rest => ?_⟩
  have hline : respell newline (line depth a).toList =
      (indentation depth).toList ++ c :: cs ++ respell newline ['\n'] := by
    simp only [Lua.line, String.toList_append, ha, respell_append]
    rw [respell_eq_self newline hn, respell_eq_self newline]
    · rfl
    · exact fun h => hmem (List.mem_append_left _ h)
  rw [hline, List.append_assoc, marksFrom_append, List.nil_append]
  cases newline with
  | lf =>
    change marksFrom _ ('\n' :: rest) = _
    have hmark : Mark.ofLine ((indentation depth).toList ++ c :: cs) = some m := by
      have h := hdrop []
      rw [List.append_nil, List.append_nil] at h
      rw [Mark.ofLine, h, hself, hm]
    rw [marksFrom_newline hmem, hmark]
    rfl
  | crlf =>
    change marksFrom _ (['\r'] ++ '\n' :: rest) = _
    have hmark : Mark.ofLine ((indentation depth).toList ++ c :: cs ++ ['\r']) = some m := by
      rw [Mark.ofLine, hdrop, List.rdropWhile_concat_pos _ _ _ (by rfl), hself, hm]
    rw [marksFrom_append, marksFrom_newline (by simpa using hmem), hmark]
    rfl

end Composition

end EcmaLua.Lua
