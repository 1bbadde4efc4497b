import EcmaLua.Diagnostic.Render
import EcmaLua.Proofs.Source.Lines

/-!
# Underlined places

A diagnostic in a terminal shows a line of the source, and below it a row of carets. Colours take
no room, so the carets stand under the bytes of the span, as far as these are on the line. Only a
file of `2 ^ 32 - 1` line feeds has a line, its last one, that is too far down to be shown.
-/

namespace EcmaLua

/-- A part of a row: a text, with a colour and perhaps bold if it is painted. -/
structure Piece where
  text : String
  style : Option (Color × Bool) := none

def Piece.written (colored : Bool) (p : Piece) : String :=
  match p.style with
  | none => p.text
  | some (color, bold) => paint colored color bold p.text

/-- A row of a terminal, from left to right. -/
abbrev Row := List Piece

namespace Row

/-- A row as it is written, and the end of its line. -/
def written (colored : Bool) (row : Row) : String :=
  String.join (row.map (Piece.written colored)) ++ "\n"

/-- The characters that a row shows. -/
def shown (row : Row) : List Char := row.flatMap fun p => p.text.toList

/-- The row that shows a line of the source, behind its number. -/
def source (number : Nat) (line : String) : Row :=
  [⟨toString number ++ " |", some (.cyan, false)⟩, ⟨" " ++ line, none⟩]

/-- The row below it, with carets behind `column` blanks. -/
def carets (number column width : Nat) (color : Color) : Row :=
  [⟨blanks (toString number).length ++ " ", none⟩, ⟨"|", some (.cyan, false)⟩,
    ⟨" " ++ blanks column, none⟩, ⟨String.ofList (List.replicate width '^'), some (color, true)⟩]

/-- How many characters stand in front of the line and of the blanks below it. -/
def margin (number : Nat) : Nat := (toString number).length + 3

/-- Without colours a row is written as it is shown. -/
theorem written_plain (row : Row) : row.written false = String.ofList row.shown ++ "\n" := by
  have hjoin : String.join (row.map (Piece.written false)) = String.ofList row.shown := by
    induction row with
    | nil => rfl
    | cons p row ih =>
      rw [List.map_cons, String.join_cons, ih, shown, shown, List.flatMap_cons,
        String.ofList_append, String.ofList_toList]
      rcases p with ⟨text, none | ⟨color, bold⟩⟩ <;> rfl
  rw [written, hjoin]

end Row

/-- The characters of a row that stand directly above the carets of the row below it. -/
def above (row below : List Char) : List Char :=
  ((row.zip below).filter fun p => p.2 == '^').map Prod.fst

namespace Diagnostic

/-- The heading of a diagnostic, and its place. -/
def heading (d : Diagnostic) (colored : Bool) (place : Location) : String :=
  paint colored d.severity.color true (d.severity.text ++ "[" ++ d.code.text ++ "]") ++ ": " ++
    d.message ++ "\n" ++ ("  " ++ paint colored .cyan false "-->" ++ " " ++ place.text ++ "\n")

/-- What is written in front of the line: the heading, the place, and an empty row. -/
def opening (d : Diagnostic) (colored : Bool) (place : Location) : String :=
  d.heading colored place ++
    (blanks (toString place.line.toNat).length ++ " " ++ paint colored .cyan false "|" ++ "\n")

/-- What is written behind the carets: the help, if there is some, and an empty line. -/
def closing (d : Diagnostic) (colored : Bool) : String :=
  (match d.help with
    | none => ""
    | some help => "  " ++ paint colored .cyan false "= help:" ++ " " ++ help ++ "\n") ++ "\n"

section Terminal

variable (d : Diagnostic) (colored : Bool) {l : Library} {f : SourceFile} {place : Location}
  (hplace : l.location d.span = some place) (hget : l.get? d.span.file = some f)
include hplace hget

theorem terminal_eq {line : String} (hline : f.lineText place.line = some line) :
    d.terminal colored l = d.opening colored place ++
      (Row.source place.line.toNat line).written colored ++
      (Row.carets place.line.toNat (place.column - 1).toNat
        (caretWidth d.span (place.column - 1).toNat line.utf8ByteSize)
        d.severity.color).written colored ++
      d.closing colored := by
  unfold terminal closing
  simp only [hplace, hget, Option.bind_some, hline, Option.map_some, Option.getD_some, excerpt]
  cases d.help <;>
    simp only [opening, heading, Row.written, Row.source, Row.carets, Piece.written, List.map_cons,
      List.map_nil, String.join_cons, String.join_nil, String.append_assoc, String.empty_append]

/-- A line without a text is not shown. -/
theorem terminal_of_none (hline : f.lineText place.line = none) :
    d.terminal colored l = d.heading colored place ++ d.closing colored := by
  unfold terminal closing
  simp only [hplace, hget, Option.bind_some, hline, Option.map_none, Option.getD_none]
  cases d.help <;> simp only [heading, String.append_assoc, String.empty_append]

end Terminal

end Diagnostic

section Alignment

variable {row row' below below' : List Char}

theorem above_append (h : row.length = below.length) :
    above (row ++ row') (below ++ below') = above row below ++ above row' below' := by
  rw [above, List.zip_append h, List.filter_append, List.map_append]
  rfl

theorem above_eq_nil (h : '^' ∉ below) : above row below = [] := by
  rw [above, List.map_eq_nil_iff, List.filter_eq_nil_iff]
  intro p hp hcaret
  exact h (beq_iff_eq.mp hcaret ▸ (List.of_mem_zip hp).2)

theorem above_replicate (row : List Char) (width : Nat) :
    above row (List.replicate width '^') = row.take width := by
  induction width generalizing row with
  | zero => simp [above]
  | succ width ih =>
    cases row with
    | nil => rfl
    | cons c row =>
      rw [List.take_succ_cons, ← ih]
      simp [above, List.replicate_succ]

/-- Blanks in the row below pass over as many characters. -/
theorem above_blanks (row below : List Char) (column : Nat) :
    above row (List.replicate column ' ' ++ below) = above (row.drop column) below := by
  induction column generalizing row with
  | zero => rfl
  | succ column ih =>
    cases row with
    | nil => rfl
    | cons c row =>
      rw [List.drop_succ_cons, ← ih]
      simp [above, List.replicate_succ]

variable (number column width : Nat) (color : Color)

theorem shown_source (line : String) :
    (Row.source number line).shown =
      (toString number).toList ++ [' ', '|', ' '] ++ line.toList := by
  simp [Row.source, Row.shown]

theorem shown_carets : (Row.carets number column width color).shown =
    List.replicate (toString number).length ' ' ++ [' ', '|', ' '] ++ List.replicate column ' ' ++
      List.replicate width '^' := by
  simp [Row.carets, Row.shown, blanks]

/-- The line begins behind the margin. -/
theorem drop_shown_source (line : String) :
    (Row.source number line).shown.drop (Row.margin number) = line.toList := by
  rw [shown_source]
  refine List.drop_left' ?_
  rw [List.length_append, String.length_toList]
  rfl

/-- The carets stand from the column on. -/
theorem shown_carets_iff (i : Nat) :
    (Row.carets number column width color).shown[i]? = some '^' ↔
      Row.margin number + column ≤ i ∧ i < Row.margin number + column + width := by
  have hblank : '^' ∉ List.replicate (toString number).length ' ' ++ [' ', '|', ' '] ++
      List.replicate column ' ' := by
    simp
  have hlength : (List.replicate (toString number).length ' ' ++ [' ', '|', ' '] ++
      List.replicate column ' ').length = Row.margin number + column := by
    rw [List.length_append, List.length_append, List.length_replicate, List.length_replicate]
    rfl
  rw [shown_carets, List.getElem?_append, hlength, List.getElem?_replicate]
  split
  · next hlt => exact iff_of_false (fun h => hblank (List.mem_of_getElem? h)) (by omega)
  · next hge =>
      rw [ite_eq_left_iff]
      simp only [reduceCtorEq, imp_false, Decidable.not_not]
      omega

/-- The characters above the carets are those of the line from the column on. -/
theorem above_carets (line : String) :
    above (Row.source number line).shown (Row.carets number column width color).shown =
      (line.toList.drop column).take width := by
  have hlength : ((toString number).toList ++ [' ', '|', ' ']).length =
      (List.replicate (toString number).length ' ' ++ [' ', '|', ' ']).length := by
    simp only [List.length_append, List.length_replicate, String.length_toList]
  have hblank : '^' ∉ List.replicate (toString number).length ' ' ++ [' ', '|', ' '] := by
    simp
  rw [shown_source, shown_carets, List.append_assoc _ (List.replicate column ' '),
    above_append hlength, above_eq_nil hblank, List.nil_append, above_blanks, above_replicate]

end Alignment

namespace Diagnostic

/-- There is a caret. -/
theorem one_le_caretWidth (s : Span) (column lineBytes : Nat) : 1 ≤ caretWidth s column lineBytes :=
  Nat.le_max_right _ _

/-- More than one caret stays on the line. -/
theorem caretWidth_le (s : Span) (column lineBytes : Nat) :
    caretWidth s column lineBytes = 1 ∨ column + caretWidth s column lineBytes ≤ lineBytes := by
  unfold caretWidth
  omega

/-- A span that is on the line has as many carets as bytes. -/
theorem caretWidth_eq {s : Span} {column lineBytes : Nat} (hlt : s.start < s.stop)
    (hle : column + s.length ≤ lineBytes) : caretWidth s column lineBytes = s.length := by
  unfold caretWidth Span.length at *
  omega

/-- A diagnostic is shown with the line on which its span starts, behind the line's number, and with
carets below it. -/
structure Underlines (d : Diagnostic) (colored : Bool) (l : Library) (f : SourceFile)
    (place : Location) (start width : Nat) (line : String) : Prop where
  location : l.location d.span = some place
  lineStart : f.lineStarts[place.line.toNat - 1]?.map UInt32.toNat = some start
  start_le : start ≤ d.span.start
  lineText : f.lineText place.line = some line
  terminal : d.terminal colored l = d.opening colored place ++
    (Row.source place.line.toNat line).written colored ++
    (Row.carets place.line.toNat (d.span.start - start) width d.severity.color).written colored ++
    d.closing colored
  plain : colored = false → d.terminal colored l = d.opening colored place ++
    (String.ofList (Row.source place.line.toNat line).shown ++ "\n") ++
    (String.ofList (Row.carets place.line.toNat (d.span.start - start) width
      d.severity.color).shown ++ "\n") ++ d.closing colored
  margin : (Row.source place.line.toNat line).shown.drop (Row.margin place.line.toNat) =
    line.toList
  carets : ∀ i, (Row.carets place.line.toNat (d.span.start - start) width
      d.severity.color).shown[i]? = some '^' ↔
    Row.margin place.line.toNat + (d.span.start - start) ≤ i ∧
      i < Row.margin place.line.toNat + (d.span.start - start) + width
  one_le : 1 ≤ width
  inside : width = 1 ∨ d.span.start - start + width ≤ line.utf8ByteSize
  text_above : d.span.isEmpty = false → d.span.stop ≤ start + line.utf8ByteSize →
    (∀ c ∈ line.toList, c.toNat < 128) →
    l.snippet d.span = some (String.ofList (above (Row.source place.line.toNat line).shown
      (Row.carets place.line.toNat (d.span.start - start) width d.severity.color).shown))

section Underlined

variable (d : Diagnostic) (colored : Bool) {l : Library} {f : SourceFile}
  (hget : l.get? d.span.file = some f) (hplace : d.span.isNowhere = false)
  (hsize : f.text.utf8ByteSize < 2 ^ 32) (hstart : d.span.start ≤ f.text.utf8ByteSize)
include hget hplace hsize hstart

theorem location_eq : l.location d.span = some ⟨f.path, .ofNat (f.feedsBefore d.span.start + 1),
    .ofNat (d.span.start - f.lineStart d.span.start + 1)⟩ := by
  rw [Library.location, hplace, hget, Option.map_some, SourceFile.lineColumn_eq hsize hstart]
  rfl

/-- A line that is not too far down is shown with its carets. -/
theorem underlines (hfeeds : f.feedsBefore d.span.start < 2 ^ 32 - 1) :
    ∃ place start width line, d.Underlines colored l f place start width line := by
  obtain ⟨before, line, after, hlines, hlength, hbefore⟩ := SourceFile.exists_line hstart
  have hlast : f.feedsBefore d.span.start + 1 < 2 ^ 32 := by omega
  have hnumber := UInt32.toNat_ofNat_of_lt' hlast
  have hindex := SourceFile.ofNat_succ_sub_one (n := f.feedsBefore d.span.start) (by omega)
  have hlineText : f.lineText (.ofNat (f.feedsBefore d.span.start + 1)) = some line.text := by
    have hne : UInt32.ofNat (f.feedsBefore d.span.start + 1) ≠ 0 := by
      rw [ne_eq, ← UInt32.toNat_inj, hnumber]
      exact Nat.succ_ne_zero _
    rw [f.lineText_eq, if_neg hne, hindex, hlines, ← hlength,
      List.getElem?_append_right (Nat.le_refl _), Nat.sub_self]
    rfl
  have hlocation := d.location_eq hget hplace hsize hstart
  have hle := f.lineStart_le d.span.start
  have hcolumn := SourceFile.ofNat_succ_sub_one
    ((Nat.sub_le d.span.start (f.lineStart d.span.start)).trans_lt (hstart.trans_lt hsize))
  have hterminal := d.terminal_eq colored hlocation hget hlineText
  rw [hcolumn] at hterminal
  refine ⟨_, f.lineStart d.span.start,
    caretWidth d.span (d.span.start - f.lineStart d.span.start) line.text.utf8ByteSize, line.text,
    { location := hlocation
      lineStart := ?_
      start_le := hle
      lineText := hlineText
      terminal := hterminal
      plain := fun hplain => ?_
      margin := drop_shown_source _ _
      carets := shown_carets_iff _ _ _ _
      one_le := one_le_caretWidth _ _ _
      inside := caretWidth_le _ _ _
      text_above := fun hempty hstop hascii => ?_ }⟩
  · rw [hnumber, Nat.add_sub_cancel, SourceFile.lineStarts_eq, List.getElem?_map,
      f.starts_feedsBefore hstart, Option.map_some, Option.map_some,
      UInt32.toNat_ofNat_of_lt' (hle.trans_lt (hstart.trans_lt hsize))]
  · subst hplain
    rw [hterminal, Row.written_plain, Row.written_plain]
  · have hlt : d.span.start < d.span.stop := by simpa [Span.isEmpty] using hempty
    have hfits : d.span.start - f.lineStart d.span.start + d.span.length ≤
        line.text.utf8ByteSize := by
      rw [Span.length]
      omega
    rw [above_carets, caretWidth_eq hlt hfits, Library.snippet, hplace, hget]
    exact SourceFile.slice_line hlines hascii hbefore hle hlt.le hstop

end Underlined

/-- A file whose first line has a character of two bytes, and ends with a carriage return and a line
feed. -/
def scopedLines : SourceFile := ⟨"b.js", "é = 1;\r\nwith (o) x;"⟩

/-- A warning about the object in its second line. -/
def objectWarning : Diagnostic where
  code := .partialWithScope
  severity := .warning
  message := "partial"
  span := ⟨⟨0⟩, 14, 17⟩

end Diagnostic

end EcmaLua
