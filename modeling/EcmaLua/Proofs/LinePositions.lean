import EcmaLua.Proofs.Source.Lines

/-!
# Lines and columns of offsets

The line of an offset counts the line feeds before it, and the column counts the bytes from the
start of the line, both from one. The search among the starts of lines comes to the last one that
is not behind the offset. Offsets, lines and columns are numbers of 32 bits: in a text that is
shorter than `2 ^ 32` bytes every offset has a number, and counting from one is too much only at the
end of the longest texts. The texts of the lines, with what was stripped from them, are the text of
the file.
-/

namespace EcmaLua.SourceFile

/-- What a line and a column, counted from one, say about an offset. -/
structure Locates (f : SourceFile) (offset : Nat) (line column : UInt32) : Prop where
  feeds : (line - 1).toNat = (f.bytes.take offset).count 10
  start : ∃ start, f.lineStarts[(line - 1).toNat]? = some start ∧
    start.toNat + (column - 1).toNat = offset
  /-- the lines up to this one are those that start at the offset or before -/
  parts : ∀ index start, f.lineStarts[index]? = some start →
    (index ≤ (line - 1).toNat ↔ start.toNat ≤ offset)
  /-- the number of the line wraps behind `2 ^ 32 - 1` line feeds, and only there -/
  line_wraps : line = 0 ↔ (f.bytes.take offset).count 10 = 2 ^ 32 - 1
  /-- the column wraps behind `2 ^ 32 - 1` bytes without a line feed, and only there -/
  column_wraps : column = 0 ↔ offset = 2 ^ 32 - 1 ∧ (f.bytes.take offset).count 10 = 0

/-- What it means that a file is made of lines. -/
structure RuledBy (f : SourceFile) (lines : List Line) : Prop where
  lineText : ∀ number, f.lineText number =
    if number = 0 then none else lines[(number - 1).toNat]?.map Line.text
  length : lines.length = 1 + f.bytes.count 10
  text : ∀ line ∈ lines, '\n' ∉ line.text.toList
  ending : ∀ line ∈ lines, ∀ c ∈ line.ending.toList, c = '\n' ∨ c = '\r'
  /-- all that ends a line is stripped from its text -/
  stripped : ∀ line ∈ lines, ∀ c ∈ line.text.toList.getLast?, c ≠ '\n' ∧ c ≠ '\r'
  joined : String.join (lines.map Line.whole) = f.text
  starts : ∀ before line after, lines = before ++ line :: after →
    f.lineStarts[before.length]?.map UInt32.toNat =
      some (String.join (before.map Line.whole)).utf8ByteSize

/-- A line and a column counted from zero. -/
def fromZero (place : UInt32 × UInt32) : UInt32 × UInt32 := (place.1 - 1, place.2 - 1)

section Positions

variable {f : SourceFile} {offset : Nat}

/-- A line starts at offset 0 if there is no line feed before the offset, and behind one if there
is. -/
theorem lineStart_eq_zero_iff : f.lineStart offset = 0 ↔ f.feedsBefore offset = 0 := by
  rw [lineStart, feedsBefore, ← length_byteStarts 0]
  rcases List.eq_nil_or_concat (byteStarts 0 (f.bytes.take offset)) with hnil | ⟨before, last, h⟩
  · simp [hnil]
  · rw [List.concat_eq_append] at h
    have hpos := (mem_byteStarts 0 (h ▸ List.mem_concat_self)).1
    rw [h, List.getLastD_concat, List.length_append, List.length_singleton]
    omega

theorem ofNat_succ_eq_zero_iff {n : Nat} (h : n < 2 ^ 32) :
    UInt32.ofNat (n + 1) = 0 ↔ n = 2 ^ 32 - 1 := by
  rw [← UInt32.toNat_inj, UInt32.toNat_ofNat', UInt32.toNat_zero]
  omega

variable (hsize : f.text.utf8ByteSize < 2 ^ 32)
include hsize

theorem ruledBy_lines : f.RuledBy f.lines where
  lineText := f.lineText_eq
  length := f.length_lines
  text := fun _ hline => newline_not_mem_text hline
  ending := fun _ hline _ hc => mem_ending hline hc
  stripped := fun _ hline => getLast_text hline
  joined := f.join_lines
  starts := by
    intro before line after h
    have hstart := starts_getElem? h
    have hle := f.start_le_size (List.mem_of_getElem? hstart)
    rw [lineStarts_eq, List.getElem?_map, hstart, Option.map_some, Option.map_some,
      UInt32.toNat_ofNat_of_lt' (hle.trans_lt hsize)]

theorem locates_of_le (h : offset ≤ f.text.utf8ByteSize) :
    f.Locates offset (.ofNat (f.feedsBefore offset + 1))
      (.ofNat (offset - f.lineStart offset + 1)) := by
  have hlt := h.trans_lt hsize
  have hline := ofNat_succ_sub_one ((f.feedsBefore_le offset).trans_lt hlt)
  have hcolumn := ofNat_succ_sub_one ((Nat.sub_le offset (f.lineStart offset)).trans_lt hlt)
  have hstart := f.lineStart_le offset
  constructor
  case feeds => exact hline
  case start =>
    have hword := UInt32.toNat_ofNat_of_lt' (hstart.trans_lt hlt)
    refine ⟨.ofNat (f.lineStart offset), ?_, ?_⟩
    · rw [lineStarts_getElem?_iff hsize, hline, hword]
      exact f.starts_feedsBefore h
    · rw [hword, hcolumn]
      omega
  case parts =>
    intro index start hindex
    rw [lineStarts_getElem?_iff hsize, f.starts_split h, List.getElem?_append, List.length_cons,
      length_byteStarts, ← feedsBefore] at hindex
    rw [hline, ← Nat.lt_succ_iff]
    split at hindex
    · next hless => exact iff_of_true hless (f.start_le_of_mem (List.mem_of_getElem? hindex))
    · next hge =>
        have hgt := (mem_byteStarts offset (List.mem_of_getElem? hindex)).1
        exact iff_of_false hge (Nat.not_le.mpr hgt)
  case line_wraps => exact ofNat_succ_eq_zero_iff ((f.feedsBefore_le offset).trans_lt hlt)
  case column_wraps =>
    rw [ofNat_succ_eq_zero_iff ((Nat.sub_le offset _).trans_lt hlt), ← feedsBefore,
      ← lineStart_eq_zero_iff]
    omega

theorem locates_lineColumn (offset : UInt32) :
    f.Locates (min offset.toNat f.text.utf8ByteSize) (f.lineColumn offset).1
      (f.lineColumn offset).2 := by
  have hle := Nat.min_le_right offset.toNat f.text.utf8ByteSize
  rw [← lineColumn_min hsize, lineColumn_eq hsize hle]
  exact locates_of_le hsize hle

/-- Later offsets are on later lines, or further right on the same line. -/
theorem lineColumn_lt {a b : UInt32} (hlt : a < b) (hle : b.toNat ≤ f.text.utf8ByteSize) :
    Prod.Lex (· < ·) (· < ·) (fromZero (f.lineColumn a)) (fromZero (f.lineColumn b)) := by
  have hless := UInt32.lt_iff_toNat_lt.mp hlt
  have hstart := f.starts_feedsBefore hle
  have hstart' := f.starts_feedsBefore (hless.le.trans hle)
  have hbelow := hle.trans_lt hsize
  rw [← UInt32.ofNat_toNat (x := a), ← UInt32.ofNat_toNat (x := b),
    lineColumn_eq hsize hle, lineColumn_eq hsize (hless.le.trans hle), Prod.lex_def, fromZero,
    fromZero, UInt32.lt_iff_toNat_lt, UInt32.lt_iff_toNat_lt, ← UInt32.toNat_inj]
  dsimp only
  generalize a.toNat = a at *
  generalize b.toNat = b at *
  have ha := f.feedsBefore_le a
  have hb := f.feedsBefore_le b
  rw [ofNat_succ_sub_one (by omega), ofNat_succ_sub_one (by omega), ofNat_succ_sub_one (by omega),
    ofNat_succ_sub_one (by omega)]
  have hfeeds : f.feedsBefore a ≤ f.feedsBefore b :=
    (List.take_sublist_take_left hless.le).count_le 10
  rcases Nat.lt_or_eq_of_le hfeeds with hless | hsame
  · exact Or.inl hless
  · refine Or.inr ⟨hsame, ?_⟩
    have hsame' : f.lineStart a = f.lineStart b := by
      rw [hsame, hstart] at hstart'
      exact (Option.some.inj hstart').symm
    have hle := f.lineStart_le a
    omega

/-- In a file that is not of the largest size nothing wraps, and the numbers themselves are ordered
so. -/
theorem lineColumn_lt_of_lt {a b : UInt32} (hlt : a < b) (hle : b.toNat ≤ f.text.utf8ByteSize)
    (hb : b.toNat < 2 ^ 32 - 1) :
    Prod.Lex (· < ·) (· < ·) (f.lineColumn a) (f.lineColumn b) := by
  have hpos (c : UInt32) (hc : c ≤ b) : (f.lineColumn c).1 ≠ 0 ∧ (f.lineColumn c).2 ≠ 0 := by
    have hlocates := locates_lineColumn hsize c
    have hcb := UInt32.le_iff_toNat_le.mp hc
    have hfeeds := f.feedsBefore_le (min c.toNat f.text.utf8ByteSize)
    rw [ne_eq, ne_eq, hlocates.line_wraps, hlocates.column_wraps, ← feedsBefore]
    omega
  have horder := lineColumn_lt hsize hlt hle
  have ha := hpos a (UInt32.le_of_lt hlt)
  have hb' := hpos b (UInt32.le_refl b)
  rw [Prod.lex_def, fromZero, fromZero, UInt32.lt_iff_toNat_lt, UInt32.lt_iff_toNat_lt,
    ← UInt32.toNat_inj] at horder
  dsimp only at horder
  rw [Prod.lex_def, UInt32.lt_iff_toNat_lt, UInt32.lt_iff_toNat_lt, ← UInt32.toNat_inj,
    ← toNat_sub_one ha.1, ← toNat_sub_one ha.2, ← toNat_sub_one hb'.1, ← toNat_sub_one hb'.2]
  omega

end Positions

/-- A file with carriage returns before a line feed, an empty line, a character of two bytes, and
no line feed at its end. -/
def unevenLines : SourceFile := ⟨"uneven.js", "a\r\r\n\né\r"⟩

end EcmaLua.SourceFile
