import EcmaLua.Conversion
import EcmaLua.Proofs.Emission.Sites
import EcmaLua.Proofs.JumpTargets
import EcmaLua.Proofs.Lua.Writing

/-!
# Marking comments

The comments that mark the program and the phases of `try` and `with` can be taken out of a text
again by looking at its lines alone: those that are a marking comment go, and so does a remark at
the end of a line. What is left is the text without markers, since no other line of a program ends
like a marking comment, whatever strings and names it spells.
-/

namespace EcmaLua

open Emission
open Lua (Vocabulary)

namespace Lua

/-- The marking comments that have a line of their own. -/
def markerComments : List String :=
  ["-- BEGIN", "-- END", "-- TryBody", "-- Finally", "-- Catch", "-- EarlyReturn",
    "-- CheckCatch", "-- JustFinalizer"]

/-- The marking comments behind the text of a line. -/
def remarkComments : List String := [" -- WithStmt", " -- WithStmtEnd"]

/-- Whether a line consists of indentation and a marking comment. -/
def isMarkerLine (line : List Char) : Bool :=
  markerComments.any fun comment => line.dropWhile (· == ' ') == comment.toList

/-- The line without a marking comment behind its text. -/
def dropRemark (line : List Char) : List Char :=
  match remarkComments.find? fun comment => comment.toList.isSuffixOf line with
  | none => line
  | some comment => line.take (line.length - comment.toList.length)

/-- The lines without their marking comments. -/
def eraseMarkers (lines : List (List Char)) : List (List Char) :=
  (lines.filter fun line => !isMarkerLine line).map dropRemark

/-- The text without its marking comments. -/
def withoutMarkers (text : String) : String :=
  String.ofList (['\n'].intercalate (eraseMarkers (text.toList.splitOn '\n')))

/-- The marking comments that have a line of their own, in order. -/
def markersAmong (lines : List (List Char)) : List (List Char) :=
  (lines.filter isMarkerLine).map fun line => line.dropWhile (· == ' ')

section Lines

variable {line : List Char} {comment : String}

/-- The line does not end like a marking comment, and no word makes it one. -/
def Calm (line : List Char) : Prop := (Trail.none.after line).calm = true

theorem after_comment (h : comment ∈ markerComments ++ remarkComments) (trail : Trail) :
    trail.after comment.toList = .comment := by
  have hall : (markerComments ++ remarkComments).all (fun comment =>
      [Trail.none, .dash, .dashes, .opened, .comment].all fun trail =>
        trail.after comment.toList == .comment) = true := by decide
  have hmem : trail ∈ [Trail.none, .dash, .dashes, .opened, .comment] := by cases trail <;> simp
  simpa using List.all_eq_true.mp (List.all_eq_true.mp hall comment h) trail hmem

theorem Calm.not_suffix (h : Calm line) (hc : comment ∈ markerComments ++ remarkComments) :
    ¬ comment.toList <:+ line := by
  rintro ⟨front, rfl⟩
  rw [Calm, Trail.after_append, after_comment hc] at h
  exact absurd h (by decide)

theorem exists_suffix_of_isMarkerLine (h : isMarkerLine line = true) :
    ∃ comment ∈ markerComments, comment.toList <:+ line := by
  obtain ⟨comment, hmem, heq⟩ := List.any_eq_true.mp h
  rw [beq_iff_eq] at heq
  exact ⟨comment, hmem, heq ▸ List.dropWhile_suffix _⟩

theorem Calm.isMarkerLine_eq (h : Calm line) : isMarkerLine line = false := by
  rw [← Bool.not_eq_true]
  intro hm
  obtain ⟨comment, hmem, hsuffix⟩ := exists_suffix_of_isMarkerLine hm
  exact h.not_suffix (List.mem_append_left _ hmem) hsuffix

theorem Calm.dropRemark_eq (h : Calm line) : dropRemark line = line := by
  have hnone : (remarkComments.find? fun comment => comment.toList.isSuffixOf line) = none := by
    rw [List.find?_eq_none]
    intro comment hmem hsuffix
    exact h.not_suffix (List.mem_append_right _ hmem) (List.isSuffixOf_iff_suffix.mp hsuffix)
  rw [dropRemark, hnone]

/-- No marking comment is the end of another. -/
theorem eq_of_suffix {comment other : String} (hc : comment ∈ markerComments ++ remarkComments)
    (ho : other ∈ markerComments ++ remarkComments) (h : comment.toList <:+ other.toList) :
    comment = other := by
  have hall : (markerComments ++ remarkComments).all (fun comment =>
      (markerComments ++ remarkComments).all fun other =>
        !comment.toList.isSuffixOf other.toList || comment == other) = true := by decide
  have heq := List.all_eq_true.mp (List.all_eq_true.mp hall comment hc) other ho
  rw [List.isSuffixOf_iff_suffix.mpr h] at heq
  simpa using heq

/-- A line ends with one marking comment at most. -/
theorem eq_of_suffix_of_suffix {comment other : String}
    (hc : comment ∈ markerComments ++ remarkComments)
    (ho : other ∈ markerComments ++ remarkComments) (h : comment.toList <:+ line)
    (h' : other.toList <:+ line) : comment = other := by
  rcases List.suffix_or_suffix_of_suffix h h' with hs | hs
  · exact eq_of_suffix hc ho hs
  · exact (eq_of_suffix ho hc hs).symm

theorem isMarkerLine_remark (line : List Char) (hr : comment ∈ remarkComments) :
    isMarkerLine (line ++ comment.toList) = false := by
  rw [← Bool.not_eq_true]
  intro hm
  obtain ⟨other, hmem, hsuffix⟩ := exists_suffix_of_isMarkerLine hm
  have heq := eq_of_suffix_of_suffix (List.mem_append_left _ hmem) (List.mem_append_right _ hr)
    hsuffix (List.suffix_append _ _)
  have hapart : markerComments.all (fun other => !remarkComments.contains other) = true := by
    decide
  have hnot := List.all_eq_true.mp hapart other hmem
  rw [heq] at hnot
  simp [hr] at hnot

theorem dropRemark_remark (line : List Char) (hr : comment ∈ remarkComments) :
    dropRemark (line ++ comment.toList) = line := by
  have hsome : (remarkComments.find? fun other =>
      other.toList.isSuffixOf (line ++ comment.toList)) = some comment := by
    cases hf : remarkComments.find? fun other =>
        other.toList.isSuffixOf (line ++ comment.toList) with
    | none =>
      have hnot := List.find?_eq_none.mp hf comment hr
      exact absurd (List.isSuffixOf_iff_suffix.mpr (List.suffix_append line _)) hnot
    | some other =>
      have hmem := List.mem_of_find?_eq_some hf
      have hsuffix : other.toList <:+ line ++ comment.toList := by
        simpa using (List.find?_eq_some_iff_append.mp hf).1
      rw [eq_of_suffix_of_suffix (List.mem_append_right _ hmem) (List.mem_append_right _ hr)
        hsuffix (List.suffix_append line _)]
  rw [dropRemark, hsome]
  simp

theorem dropWhile_indented (n : Nat) (p : Phase) :
    (List.replicate n ' ' ++ ("-- " ++ p.word).toList).dropWhile (· == ' ') =
      ("-- " ++ p.word).toList := by
  have hfixed : ("-- " ++ p.word).toList.dropWhile (· == ' ') = ("-- " ++ p.word).toList := by
    cases p <;> decide
  rw [List.dropWhile_append_of_pos, hfixed]
  intro c hc
  rw [List.eq_of_mem_replicate hc]
  rfl

theorem isMarkerLine_phase (n : Nat) (p : Phase) :
    isMarkerLine (List.replicate n ' ' ++ ("-- " ++ p.word).toList) = true := by
  have hmem : "-- " ++ p.word ∈ markerComments := by cases p <;> decide
  exact List.any_eq_true.mpr ⟨_, hmem, by rw [dropWhile_indented]; exact beq_self_eq_true _⟩

end Lines

section Erasing

/-- A line with marking comments and the same line without them, both up to a position. -/
inductive Beside : Position → List Char → List Char → Prop
  | start : Beside .start [] []
  | same {a : Position} {line : List Char} (ha : a.inLine = true) (hn : '\n' ∉ line)
      (hc : Calm line) : Beside a line line
  | remarked {line : List Char} {comment : String} (hr : comment ∈ remarkComments)
      (hn : '\n' ∉ line) (hc : Calm line) : Beside .remarked (line ++ comment.toList) line

theorem newline_not_mem_comment {comment : String} (hr : comment ∈ remarkComments) :
    '\n' ∉ comment.toList := by
  revert comment
  decide

/-- What the comment of a spot is. -/
def Spot.comment? : Spot → Option (List Char)
  | .read _ _ | .word _ _ | .note _ => none
  | .marker text => some ("-- " ++ text).toList

theorem eraseMarkers_cons (line : List Char) (lines : List (List Char)) :
    eraseMarkers (line :: lines) =
      if isMarkerLine line then eraseMarkers lines else dropRemark line :: eraseMarkers lines := by
  cases hm : isMarkerLine line <;> simp [eraseMarkers, hm]

theorem markersAmong_cons (line : List Char) (lines : List (List Char)) :
    markersAmong (line :: lines) =
      if isMarkerLine line then line.dropWhile (· == ' ') :: markersAmong lines
      else markersAmong lines := by
  cases hm : isMarkerLine line <;> simp [markersAmong, hm]

variable {allowed : Spot → Prop} {a b : Position} {marked bare text : List Char} {piece : Piece}
  {pieces : List Piece} {on off : Settings}

/-- Text within a line that does not end like a marking comment. -/
theorem Beside.extend (h : Beside a marked bare) (ha : a.inLine = true) (hb : b.inLine = true)
    (hn : '\n' ∉ text) (hk : Trail.keeps text = true) :
    Beside b (marked ++ text) (bare ++ text) := by
  cases h with
  | start => exact absurd ha (by decide)
  | remarked => exact absurd ha (by decide)
  | same _ hline hc =>
    refine .same hb ?_ ?_
    · rw [List.mem_append, not_or]
      exact ⟨hline, hn⟩
    · rw [Calm, Trail.after_append]
      exact Trail.calm_after hc hk

/-- What the two runs make of the rest of a text. -/
structure Erases (on off : Settings) (marked bare : List Char) (pieces : List Piece) : Prop where
  erased : eraseMarkers ((marked ++ Piece.chars on pieces).splitOn '\n') =
    (bare ++ Piece.chars off pieces).splitOn '\n'
  markers : markersAmong ((marked ++ Piece.chars on pieces).splitOn '\n') =
    (pieces.flatMap Piece.spots).filterMap Spot.comment?

/-- A piece that both runs write alike, within a line. -/
theorem Erases.alike (hon : (piece.text on).toList = text) (hoff : (piece.text off).toList = text)
    (hspots : piece.spots.filterMap Spot.comment? = [])
    (h : Erases on off (marked ++ text) (bare ++ text) pieces) :
    Erases on off marked bare (piece :: pieces) := by
  constructor
  · rw [Piece.chars_cons, Piece.chars_cons, hon, hoff, ← List.append_assoc, ← List.append_assoc]
    exact h.erased
  · rw [Piece.chars_cons, hon, ← List.append_assoc, h.markers, List.flatMap_cons,
      List.filterMap_append, hspots, List.nil_append]

/-- The end of a line that is no marking comment. -/
theorem Erases.newline (h : Beside a marked bare) (ha : a ≠ .start)
    (hrest : Erases on off [] [] pieces) : Erases on off marked bare (.newline :: pieces) := by
  have hline : isMarkerLine marked = false ∧ dropRemark marked = bare ∧ '\n' ∉ marked ∧
      '\n' ∉ bare := by
    cases h with
    | start => exact absurd rfl ha
    | same _ hn hc => exact ⟨hc.isMarkerLine_eq, hc.dropRemark_eq, hn, hn⟩
    | remarked hr hn hc =>
      refine ⟨isMarkerLine_remark _ hr, dropRemark_remark _ hr, ?_, hn⟩
      rw [List.mem_append, not_or]
      exact ⟨hn, newline_not_mem_comment hr⟩
  obtain ⟨hmarker, hdrop, hmarked, hbare⟩ := hline
  constructor
  · rw [Piece.chars_cons, Piece.chars_cons, Piece.text_newline, Piece.text_newline,
      List.singleton_append, List.singleton_append, splitOn_newline hmarked,
      splitOn_newline hbare, eraseMarkers_cons, hmarker, hdrop]
    exact congrArg (List.cons bare) hrest.erased
  · rw [Piece.chars_cons, Piece.text_newline, List.singleton_append, splitOn_newline hmarked,
      markersAmong_cons, hmarker]
    exact hrest.markers

/-- A line that is a marking comment. -/
theorem Erases.marker (hon : on.markers = true) (hoff : off.markers = false) (depth : Nat)
    (p : Phase) (hrest : Erases on off [] [] pieces) :
    Erases on off [] [] (.marker depth p.word :: pieces) := by
  have hchars : Piece.chars on (.marker depth p.word :: pieces) =
      (List.replicate (4 * depth) ' ' ++ ("-- " ++ p.word).toList)
        ++ '\n' :: Piece.chars on pieces := by
    rw [Piece.chars_cons, Piece.text_marker, hon]
    simp
  have hnone : Piece.chars off (.marker depth p.word :: pieces) = Piece.chars off pieces := by
    rw [Piece.chars_cons, Piece.text_marker, hoff]
    rfl
  have hcomment : '\n' ∉ ("-- " ++ p.word).toList := by cases p <;> decide
  have hline : '\n' ∉ List.replicate (4 * depth) ' ' ++ ("-- " ++ p.word).toList := by
    rw [List.mem_append, not_or]
    exact ⟨fun hm => absurd (List.eq_of_mem_replicate hm) (by decide), hcomment⟩
  constructor
  · rw [hchars, hnone, List.nil_append, splitOn_newline hline, eraseMarkers_cons,
      isMarkerLine_phase]
    exact hrest.erased
  · rw [hchars, List.nil_append, splitOn_newline hline, markersAmong_cons, isMarkerLine_phase,
      dropWhile_indented]
    exact congrArg (List.cons _) hrest.markers

theorem Trail.keeps_word {text : List Char} (h : ∀ c ∈ text, isNameChar c = true) :
    Trail.keeps text = true :=
  Trail.keeps_of_no_blank fun hm => absurd (h _ hm) (by decide)

theorem newline_not_mem_word {text : List Char} (h : ∀ c ∈ text, isNameChar c = true) :
    '\n' ∉ text :=
  fun hm => absurd (h _ hm) (by decide)

theorem after_blanks (n : Nat) : Trail.none.after (List.replicate n ' ') = .none := by
  induction n with
  | zero => rfl
  | succ n ih => exact ih

theorem remark_mem {text : String} (h : text ∈ remarks) : " -- " ++ text ∈ remarkComments := by
  revert text
  decide

/-- A marking comment behind the text of a line. -/
theorem Erases.remark (hon : on.markers = true) (hoff : off.markers = false) {text : String}
    (hrest : Erases on off (marked ++ (" -- " ++ text).toList) bare pieces) :
    Erases on off marked bare (.remark text :: pieces) := by
  have hchars : Piece.chars on (.remark text :: pieces) =
      (" -- " ++ text).toList ++ Piece.chars on pieces := by
    rw [Piece.chars_cons, Piece.text_remark, hon]
    simp
  have hnone : Piece.chars off (.remark text :: pieces) = Piece.chars off pieces := by
    rw [Piece.chars_cons, Piece.text_remark, hoff]
    rfl
  constructor
  · rw [hchars, hnone, ← List.append_assoc]
    exact hrest.erased
  · rw [hchars, ← List.append_assoc]
    exact hrest.markers

theorem Position.inLine_of_admits {text : List Char} (h : a.admits text = true) :
    a.inLine = true := by
  cases a with
  | ready | behind => rfl
  | start | remarked => exact absurd h Bool.false_ne_true

theorem Position.inLine_of_ends {text : List Char} (h : a.ends text = true) :
    a.inLine = true := by
  cases a with
  | ready | behind => rfl
  | start | remarked => exact absurd h Bool.false_ne_true

/-- A checked name has no blanks and no line feeds, wrapped or not. -/
theorem read_chars {side : Side} {name : String} (h : ∀ c ∈ name.toList, isNameChar c = true)
    (s : Settings) {c : Char} (hc : c ∈ ((Piece.read side name).text s).toList) :
    c ≠ ' ' ∧ c ≠ '\n' := by
  have hname {c : Char} (hc : isNameChar c = true) : c ≠ ' ' ∧ c ≠ '\n' := by
    refine ⟨?_, ?_⟩ <;> rintro rfl <;> exact absurd hc (by decide)
  rw [Piece.text_read] at hc
  split at hc
  · simp only [List.mem_append, List.mem_singleton] at hc
    rcases hc with hc | hc | rfl
    · have hcall : (Helper.refCheck.name ++ "(").toList.all (fun c => c != ' ' && c != '\n') =
          true := by decide
      simpa using List.all_eq_true.mp hcall c hc
    · exact hname (h c hc)
    · decide
  · exact hname (h c hc)

theorem keeps_note (apart : Bool) (text : String) (s : Settings) :
    Trail.keeps ((Piece.note apart text).text s).toList = true := by
  have hlast : ∃ front, ((Piece.note apart text).text s).toList = front ++ [']'] :=
    ⟨(if apart then [' '] else []) ++ ('-' :: '-' :: '[' :: '[' :: (text.toList ++ [']'])), by
      rw [Piece.text_note]
      simp⟩
  obtain ⟨front, heq⟩ := hlast
  rw [heq]
  exact Trail.keeps_concat fun trail => by cases trail <;> decide

/-- Both runs write the same text, but for the marking comments. -/
theorem Course.erases (on off : Settings) (hon : on.markers = true) (hoff : off.markers = false)
    (hguard : on.refGuard = off.refGuard)
    (hallowed : ∀ text, allowed (.marker text) → ∃ p : Phase, p.word = text)
    (h : Course .words allowed a pieces .start) (hbeside : Beside a marked bare) :
    Erases on off marked bare pieces := by
  -- the induction carries the line that has begun: only its end tells whether it is a comment
  generalize hend : Position.start = stop at h
  induction h generalizing marked bare with
  | nil hab =>
    subst hend
    cases hab
    cases hbeside with
    | start => exact ⟨rfl, rfl⟩
    | same ha => exact absurd ha (by decide)
  | @cons a b _ piece rest hmoves _ ih =>
    cases hmoves with
    | @plain _ _ literal text hfits =>
      simp only [fits, Bool.and_eq_true, legible] at hfits
      have hlegible : legible text.toList = true := by simp [legible, hfits]
      have hn : '\n' ∉ text.toList := fun hm =>
        absurd (isControl_of_legible hlegible hm) (by decide)
      exact .alike rfl rfl (by cases literal <;> rfl)
        (ih (hbeside.extend (Position.inLine_of_admits hfits.1.2) (Position.inLine_of_ends hfits.2)
          hn hfits.1.1.2.2) hend)
    | word side hname =>
      exact .alike rfl rfl rfl (ih (hbeside.extend rfl rfl (newline_not_mem_word hname.1)
        (Trail.keeps_word hname.1)) hend)
    | @read side name hname _ =>
      have hoff : ((Piece.read side name).text off).toList =
          ((Piece.read side name).text on).toList := by
        rw [Piece.text_read, Piece.text_read, hguard]
      refine .alike rfl hoff rfl (ih (hbeside.extend rfl rfl ?_ ?_) hend)
      · exact fun hm => (read_chars hname.1 on hm).2 rfl
      · exact Trail.keeps_of_no_blank fun hm => (read_chars hname.1 on hm).1 rfl
    | @note _ text apart hin _ hnote =>
      have hn : '\n' ∉ ((Piece.note apart text).text on).toList := by
        have hcomment : '\n' ∉ text.toList := hnote
        cases apart <;> simp [Piece.text_note, hcomment]
      exact .alike rfl rfl rfl (ih (hbeside.extend hin rfl hn (keeps_note apart text on)) hend)
    | indentation depth =>
      cases hbeside with
      | same ha => exact absurd ha (by decide)
      | start =>
        have hblanks := Piece.text_indentation on depth
        refine .alike hblanks hblanks rfl (ih (.same rfl ?_ ?_) hend)
        · exact fun hm => absurd (List.eq_of_mem_replicate hm) (by decide)
        · rw [Calm, List.nil_append, after_blanks]
          rfl
    | newline ha => exact .newline hbeside ha (ih .start hend)
    | @marker text depth _ ha =>
      obtain ⟨p, rfl⟩ := hallowed text ha
      cases hbeside with
      | start => exact .marker hon hoff depth p (ih .start hend)
      | same ha => exact absurd ha (by decide)
    | @remark _ text hin hr =>
      cases hbeside with
      | start => exact absurd hin (by decide)
      | remarked => exact absurd hin (by decide)
      | same _ hn hc => exact .remark hon hoff (ih (.remarked (remark_mem hr) hn hc) hend)

end Erasing

end Lua

/-- The comment that marks a phase. -/
def Phase.comment (p : Phase) : String := "-- " ++ p.word

/-- What spots show of a program has all their marking comments. -/
theorem Lua.filterMap_comment_shown (spots : List Spot) :
    (shown spots).filterMap Spot.comment? = spots.filterMap Spot.comment? := by
  induction spots with
  | nil => rfl
  | cons spot rest ih =>
    have hspot : spot.shown.filterMap Spot.comment? = [spot].filterMap Spot.comment? := by
      rcases spot with _ | ⟨_ | _ | _ | _, text⟩ | _ | _
      case word.mention => by_cases hown : isOwn text <;> simp [Spot.shown, hown, Spot.comment?]
      all_goals rfl
    rw [shown_cons, List.filterMap_append, ih, hspot, ← List.filterMap_append]
    rfl

theorem Landmark.comment_spot (mark : Landmark) :
    mark.spot.comment? = mark.phase?.map fun phase => phase.comment.toList := by
  cases mark with
  | phase phase => rfl
  | site site =>
    rw [Landmark.spot, Site.spot]
    split <;> rfl

/-- The marking comments of a program's chunk are those of its phases. -/
theorem Program.phases_eq (p : Program) :
    (Lua.Stat.spotsList p.emit.chunk.body).filterMap Lua.Spot.comment? =
      p.phases.map fun phase => phase.comment.toList := by
  rw [← Lua.filterMap_comment_shown, Program.spots_emit, Landmark.spotsList,
    Lua.filterMap_comment_shown, List.filterMap_map, Program.phases, List.map_filterMap]
  exact List.filterMap_congr fun mark _ => mark.comment_spot

theorem Program.word_of_mem {p : Program} {text : String}
    (h : .marker text ∈ Lua.Stat.spotsList p.emit.chunk.body) :
    ∃ phase : Phase, phase.word = text := by
  have hm : ("-- " ++ text).toList ∈ p.phases.map fun phase => phase.comment.toList := by
    rw [← Program.phases_eq]
    exact List.mem_filterMap.mpr ⟨_, h, rfl⟩
  obtain ⟨phase, -, heq⟩ := List.mem_map.mp hm
  refine ⟨phase, ?_⟩
  rw [String.toList_inj, Phase.comment, String.append_right_inj] at heq
  exact heq

/-- The lines of the text with markers and of the text without them. -/
theorem Program.erases_convert {p : Program} (h : p.Obeys (.noting .words)) (s : Settings) :
    Lua.eraseMarkers
        ((p.convert { s with newline := .lf, markers := true }).lua.toList.splitOn '\n') =
      (p.convert { s with newline := .lf, markers := false }).lua.toList.splitOn '\n' ∧
    Lua.markersAmong
        ((p.convert { s with newline := .lf, markers := true }).lua.toList.splitOn '\n') =
      p.phases.map fun phase => phase.comment.toList := by
  have hsettled := Program.settled_emit covers_words h
  have hallowed : ∀ spot ∈ Lua.Stat.spotsList p.emit.chunk.body,
      ∀ text, spot = .marker text → ∃ phase : Phase, phase.word = text := by
    rintro spot hs text rfl
    exact Program.word_of_mem hs
  obtain ⟨pieces, hcourse, hspots, htext⟩ := Lua.Chunk.exists_course
    (Lua.agreeing_refGuard _ s.refGuard) hsettled hallowed
  have hlua (markers : Bool) : (p.convert { s with newline := .lf, markers }).lua.toList =
      Lua.Piece.chars { s with newline := .lf, markers } pieces := htext _ rfl
  have herases := hcourse.erases { s with newline := .lf, markers := true }
    { s with newline := .lf, markers := false } rfl rfl rfl (fun text ha => ha text rfl) .start
  have hmarkers := herases.markers
  rw [hspots, Program.phases_eq] at hmarkers
  rw [hlua, hlua]
  exact ⟨herases.erased, hmarkers⟩

/-- Taking the marking comments out of a text line by line gives the text without markers, and
what is reported is the same. The comments that had a line of their own are those of the phases of
the program, in order. -/
theorem Program.withoutMarkers_convert {p : Program} (h : p.Obeys (.noting .words))
    (s : Settings) :
    Lua.withoutMarkers (p.convert { s with newline := .lf, markers := true }).lua =
      (p.convert { s with newline := .lf, markers := false }).lua ∧
    (p.convert { s with newline := .lf, markers := true }).report =
      (p.convert { s with newline := .lf, markers := false }).report ∧
    Lua.markersAmong
        ((p.convert { s with newline := .lf, markers := true }).lua.toList.splitOn '\n') =
      p.phases.map fun phase => phase.comment.toList := by
  obtain ⟨herased, hmarkers⟩ := Program.erases_convert h s
  refine ⟨?_, rfl, hmarkers⟩
  rw [Lua.withoutMarkers, herased, List.intercalate_splitOn, String.ofList_toList]

/-- A `try` statement in a function in the head of a `with` statement, and strings, a comment and
a regular expression that look like markers. -/
def feignedMarkers : Program where
  body := [
    .withStmt
      (.call (.func ⟨none, ["a"], [
        .tryStmt [.throwStmt (.lit (.string "-- BEGIN"))]
          [⟨some "e", [.returnStmt (some (.ident "e"))]⟩]
          (some [.exprStmt (.call (.ident "log") [.lit (.string "\n-- END\n")])]) .nowhere]⟩) [])
      (.exprStmt (.call (.ident "f") [.lit (.string " -- WithStmt")])) .nowhere,
    .unsupported ⟨"Class -- WithStmt", .statement, .nowhere⟩,
    .exprStmt (.assign none (.ident "r") (.lit (.regex "-- Catch" "")))]

theorem withoutMarkers_feignedMarkers :
    feignedMarkers.Obeys (.noting .words) ∧
    Lua.withoutMarkers (feignedMarkers.convert ⟨true, .lf, true⟩).lua =
      (feignedMarkers.convert ⟨true, .lf, false⟩).lua ∧
    (feignedMarkers.convert ⟨true, .lf, true⟩).report =
      (feignedMarkers.convert ⟨true, .lf, false⟩).report ∧
    Lua.markersAmong ((feignedMarkers.convert ⟨true, .lf, true⟩).lua.toList.splitOn '\n') =
      ["-- BEGIN", "-- TryBody", "-- Finally", "-- Catch", "-- EarlyReturn", "-- CheckCatch",
        "-- JustFinalizer", "-- END"].map String.toList := by
  have hkind : '\n' ∉ "Class -- WithStmt".toList := by decide
  have h : feignedMarkers.Obeys (.noting .words) := by
    simp only [Program.Obeys, feignedMarkers, Stmt.ObeysList, Stmt.Obeys, Expr.Obeys, Func.Obeys,
      Expr.ObeysOpt, Expr.ObeysList, CatchClause.Obeys, Stmt.ObeysBlock, Rules.NameOpt,
      Rules.noting, and_true, true_and]
    exact ⟨fun _ _ => trivial, hkind⟩
  exact ⟨h, Program.withoutMarkers_convert h ⟨true, .lf, true⟩⟩

end EcmaLua
