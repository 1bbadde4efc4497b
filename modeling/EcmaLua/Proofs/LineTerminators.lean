import EcmaLua.Conversion
import EcmaLua.Proofs.JumpTargets
import EcmaLua.Proofs.Lua.Writing

/-!
# Line terminators

The carriage returns of a text are put in front of its line feeds when it is finished, wherever
these stand. This gives lines with the wanted terminator, and nothing else, since no string, key,
name or label of a program brings a control character into the text.
-/

namespace EcmaLua

open Emission
open Lua (Vocabulary isControl)

namespace Lua

/-- Words that are no keywords, and comments of the given kind. -/
def Vocabulary.wordsWith (note : String → Prop) : Vocabulary where
  name := Vocabulary.words.name
  note := note

/-- Words that are no keywords, and comments without control characters. -/
def Vocabulary.legible : Vocabulary :=
  .wordsWith fun text => ∀ c ∈ text.toList, isControl c = false

/-- The text with a line feed for every carriage return and line feed. -/
def joinTerminators : List Char → List Char
  | '\r' :: '\n' :: rest => '\n' :: joinTerminators rest
  | c :: rest => c :: joinTerminators rest
  | [] => []

/-- Every line feed has exactly one carriage return before it, and there are no others. -/
structure CrlfTerminated (text : List Char) : Prop where
  feeds : ∀ before after, text = before ++ '\n' :: after →
    ∃ front, before = front ++ ['\r'] ∧ front.getLast? ≠ some '\r'
  returns : ∀ before after, text = before ++ '\r' :: after → after.head? = some '\n'

section Respelling

variable {cs : List Char}

theorem joinTerminators_respell (h : '\r' ∉ cs) :
    joinTerminators (respell .crlf cs) = cs := by
  induction cs with
  | nil => rfl
  | cons c cs ih =>
    have hc : c ≠ '\r' := fun hc => h (hc ▸ List.mem_cons_self)
    have hcs := ih fun hm => h (List.mem_cons_of_mem c hm)
    rw [respell_crlf_cons]
    split
    · next hfeed =>
        rw [hfeed]
        exact congrArg (List.cons '\n') hcs
    · rw [List.singleton_append, joinTerminators, hcs]
      rintro rest rfl
      exact absurd rfl hc

theorem getLast?_cons_ne {c d : Char} {text : List Char} (hc : c ≠ d)
    (h : text.getLast? ≠ some d) : (c :: text).getLast? ≠ some d := by
  cases text with
  | nil => simpa using hc
  | cons e es => rwa [List.getLast?_cons_cons]

theorem CrlfTerminated.cons {c : Char} (hr : c ≠ '\r') (hn : c ≠ '\n')
    (h : CrlfTerminated cs) : CrlfTerminated (c :: cs) := by
  constructor
  · intro before after heq
    cases before with
    | nil => exact absurd (List.cons.inj heq).1 hn
    | cons b bs =>
      obtain ⟨rfl, htail⟩ := List.cons.inj heq
      obtain ⟨front, rfl, hfront⟩ := h.feeds bs after htail
      exact ⟨c :: front, rfl, getLast?_cons_ne hr hfront⟩
  · intro before after heq
    cases before with
    | nil => exact absurd (List.cons.inj heq).1 hr
    | cons b bs => exact h.returns bs after (List.cons.inj heq).2

theorem CrlfTerminated.terminator (h : CrlfTerminated cs) :
    CrlfTerminated ('\r' :: '\n' :: cs) := by
  have hne : '\n' ≠ '\r' := by decide
  constructor
  · intro before after heq
    match before, heq with
    | [], heq => exact absurd (List.cons.inj heq).1 hne.symm
    | [b], heq =>
      obtain ⟨rfl, -⟩ := List.cons.inj heq
      exact ⟨[], rfl, nofun⟩
    | b :: d :: bs, heq =>
      obtain ⟨rfl, hrest⟩ := List.cons.inj heq
      obtain ⟨rfl, htail⟩ := List.cons.inj hrest
      obtain ⟨front, rfl, hfront⟩ := h.feeds bs after htail
      refine ⟨'\r' :: '\n' :: front, rfl, ?_⟩
      rw [List.getLast?_cons_cons]
      exact getLast?_cons_ne hne hfront
  · intro before after heq
    match before, heq with
    | [], heq =>
      obtain ⟨-, rfl⟩ := List.cons.inj heq
      rfl
    | [b], heq => exact absurd (List.cons.inj (List.cons.inj heq).2).1 hne
    | b :: d :: bs, heq => exact h.returns bs after (List.cons.inj (List.cons.inj heq).2).2

theorem crlfTerminated_respell (h : '\r' ∉ cs) : CrlfTerminated (respell .crlf cs) := by
  induction cs with
  | nil => exact ⟨fun before after heq => by simp at heq, fun before after heq => by simp at heq⟩
  | cons c cs ih =>
    have hc : c ≠ '\r' := fun hc => h (hc ▸ List.mem_cons_self)
    have hcs := ih fun hm => h (List.mem_cons_of_mem c hm)
    rw [respell_crlf_cons]
    split
    · exact hcs.terminator
    · next hn => exact hcs.cons hc hn

end Respelling

section Printing

/-- The text has no control characters but line feeds. -/
def Clean (text : List Char) : Prop := ∀ c ∈ text, c = '\n' ∨ isControl c = false

theorem Clean.append {a b : List Char} (ha : Clean a) (hb : Clean b) : Clean (a ++ b) :=
  List.forall_mem_append.mpr ⟨ha, hb⟩

theorem clean_nil : Clean [] := fun _ hc => absurd hc List.not_mem_nil

theorem clean_of_forall {text : List Char} (h : ∀ c ∈ text, isControl c = false) : Clean text :=
  fun c hc => Or.inr (h c hc)

theorem clean_word {text : String} (h : Vocabulary.words.name text) : Clean text.toList :=
  clean_of_forall fun c hc => isControl_of_isNameChar (h.1 c hc)

variable {note : String → Prop} {allowed : Spot → Prop} {a b : Position} {piece : Piece}
  {pieces : List Piece}

/-- A piece brings no control character into the text but a line feed. -/
theorem Piece.Moves.clean (hnote : ∀ text, note text → Clean text.toList)
    (h : piece.Moves (.wordsWith note) allowed a b) (s : Settings) :
    Clean (piece.text s).toList := by
  have hfixed {text : List Char} (h : text.all (fun c => !isControl c) = true) : Clean text :=
    clean_of_forall (isControl_of_all h)
  cases h with
  | plain h =>
    simp only [fits, Bool.and_eq_true] at h
    exact clean_of_forall fun c hc => isControl_of_legible h.1.1.2 hc
  | word side h => exact clean_word h
  | read h =>
    rw [Piece.text_read]
    split
    · exact (hfixed (by decide)).append ((clean_word h).append (hfixed (by decide)))
    · exact clean_word h
  | @note a text apart hin hready h =>
    have hcomment : Clean (['-', '-', '[', '['] ++ (text.toList ++ [']', ']'])) :=
      (hfixed (by decide)).append ((hnote text h).append (hfixed (by decide)))
    rw [Piece.text_note]
    cases apart with
    | false => exact hcomment
    | true =>
      have hblank : Clean [' '] := hfixed (by decide)
      exact hblank.append hcomment
  | indentation depth =>
    rw [Piece.text_indentation]
    intro c hc
    rw [List.eq_of_mem_replicate hc]
    exact Or.inr (by decide)
  | newline =>
    rw [Piece.text_newline]
    exact fun c hc => Or.inl (List.mem_singleton.mp hc)
  | @marker text depth h ha =>
    have hfeed : Clean ['\n'] := fun c hc => Or.inl (List.mem_singleton.mp hc)
    have hdashes : Clean ['-', '-', ' '] := hfixed (by decide)
    have hindent : Clean (List.replicate (4 * depth) ' ') := by
      intro c hc
      rw [List.eq_of_mem_replicate hc]
      exact Or.inr (by decide)
    rw [Piece.text_marker]
    split
    · exact hindent.append (hdashes.append ((hnote text h).append hfeed))
    · exact clean_nil
  | @remark a text hin hr =>
    have hremarks : ∀ text ∈ remarks, text.toList.all (fun c => !isControl c) = true := by
      decide
    have hdashes : Clean [' ', '-', '-', ' '] := hfixed (by decide)
    rw [Piece.text_remark]
    split
    · exact hdashes.append (hfixed (hremarks text hr))
    · exact clean_nil

theorem Course.clean (hnote : ∀ text, note text → Clean text.toList)
    (h : Course (.wordsWith note) allowed a pieces b) (s : Settings) :
    Clean (Piece.chars s pieces) := by
  induction h with
  | nil => exact clean_nil
  | cons h _ ih => exact (h.clean hnote s).append ih

end Printing

end Lua

/-- Generated code has the words and comments of every vocabulary that has its own comments. -/
theorem Emission.covers_wordsWith {note : String → Prop} (h : ∀ text ∈ fixedNotes, note text) :
    Covers (.wordsWith note) :=
  { covers_words with note := h }

/-- The text of a program has no control characters before it gets its line terminators. -/
theorem Program.exists_clean {p : Program} (h : p.Obeys (.noting .legible)) (s : Settings) :
    ∃ text, Lua.Clean text ∧ ∀ newline,
      (p.convert { s with newline }).lua.toList = Lua.respell newline text := by
  have hfixed : ∀ text ∈ fixedNotes, text.toList.all (fun c => !isControl c) = true := by decide
  have hcovers := covers_wordsWith fun text ht => Lua.isControl_of_all (hfixed text ht)
  have hsettled := Program.settled_emit hcovers h
  obtain ⟨pieces, hcourse, -, htext⟩ := Lua.Chunk.exists_course
    (Lua.agreeing_refGuard (fun _ => True) s.refGuard) hsettled fun _ _ => trivial
  refine ⟨Lua.Piece.chars s pieces, hcourse.clean (fun _ => Lua.clean_of_forall) s, ?_⟩
  intro newline
  have hchars : Lua.Piece.chars { s with newline } pieces = Lua.Piece.chars s pieces := by
    refine List.flatMap_congr fun piece _ => ?_
    cases piece <;> rfl
  rw [← hchars]
  exact htext { s with newline } rfl

theorem Lua.Clean.return_not_mem {text : List Char} (h : Lua.Clean text) : '\r' ∉ text := by
  intro hm
  rcases h _ hm with h | h
  · exact absurd h (by decide)
  · exact absurd h (by decide)

/-- With line feeds, the text of a program has no control character but the line feeds, whatever
its strings, bytes, regular expressions, keys, identifiers and labels are. With carriage returns,
every line feed has exactly one carriage return before it, there are no others, and taking them
out gives back the text with line feeds. -/
theorem Program.terminators_convert {p : Program} (h : p.Obeys (.noting .legible))
    (s : Settings) :
    (∀ c ∈ (p.convert { s with newline := .lf }).lua.toList, isControl c = true → c = '\n') ∧
    Lua.CrlfTerminated (p.convert { s with newline := .crlf }).lua.toList ∧
    Lua.joinTerminators (p.convert { s with newline := .crlf }).lua.toList =
      (p.convert { s with newline := .lf }).lua.toList := by
  obtain ⟨text, hclean, htext⟩ := Program.exists_clean h s
  have hreturn := hclean.return_not_mem
  rw [htext .lf, htext .crlf]
  refine ⟨?_, Lua.crlfTerminated_respell hreturn, Lua.joinTerminators_respell hreturn⟩
  intro c hc hcontrol
  rcases hclean c hc with hfeed | hnone
  · exact hfeed
  · rw [hcontrol] at hnone
    exact absurd hnone (by decide)

/-- A program with control characters in a string, bytes, a regular expression, a key, an
identifier and a label. -/
def rawTexts : Program where
  body := [
    .varStmt .var [⟨"a\nb", some (.lit (.string "cr\r lf\n tab\t delete\x7f"))⟩],
    .labeled "out\r" (.whileStmt (.lit (.regex "\r" "g\n")) (.breakStmt (some "out\r") .nowhere)),
    .exprStmt (.call (.member (.ident "o\x00") "key\r\n") [.lit (.bytes [13, 10, 0, 200])]),
    .exprStmt (.object [.named (.ident "k\x1b") (.unary .delete (.ident "d\x0c"))]),
    .unsupported ⟨"ClassDeclaration", .statement, .nowhere⟩]

theorem terminators_rawTexts :
    rawTexts.Obeys (.noting .legible) ∧
    (∀ c ∈ (rawTexts.convert { newline := .lf }).lua.toList, isControl c = true → c = '\n') ∧
    Lua.CrlfTerminated (rawTexts.convert { newline := .crlf }).lua.toList ∧
    Lua.joinTerminators (rawTexts.convert { newline := .crlf }).lua.toList =
      (rawTexts.convert { newline := .lf }).lua.toList := by
  have hkind : ∀ c ∈ "ClassDeclaration".toList, isControl c = false :=
    Lua.isControl_of_all (by decide)
  have h : rawTexts.Obeys (.noting .legible) := by
    simp only [Program.Obeys, rawTexts, Stmt.ObeysList, Stmt.Obeys, Declarator.Obeys, Expr.Obeys,
      Expr.ObeysOpt, Expr.ObeysList, Property.Obeys, Rules.NameOpt, Rules.noting, and_true,
      true_and]
    exact hkind
  exact ⟨h, Program.terminators_convert h {}⟩

end EcmaLua
