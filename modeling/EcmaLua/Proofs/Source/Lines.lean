import EcmaLua.Proofs.LiteralDecoding
import EcmaLua.Source.File

/-!
# Bytes and lines of a source file

The starts of lines are the positions behind the bytes that are line feeds, and 0. The starts up to
an offset are those of the bytes in front of it, whether or not a character ends there. A text is
made of its lines: each is a text without line feeds, followed by the characters that end it.
-/

namespace EcmaLua

namespace SourceFile

/-- The bytes of the text. -/
def bytes (f : SourceFile) : List UInt8 := Lua.utf8 f.text

theorem length_bytes (f : SourceFile) : f.bytes.length = f.text.utf8ByteSize := rfl

section Words

/-! Numbers of 32 bits, counted from one. -/

theorem toNat_sub_one {n : UInt32} (h : n ≠ 0) : (n - 1).toNat + 1 = n.toNat := by
  have hne : n.toNat ≠ 0 := fun hzero => h (UInt32.toNat_inj.mp hzero)
  have hone : (1 : UInt32) ≤ n := UInt32.le_iff_toNat_le.mpr (Nat.one_le_iff_ne_zero.mpr hne)
  rw [UInt32.toNat_sub_of_le _ _ hone]
  exact Nat.sub_add_cancel (Nat.one_le_iff_ne_zero.mpr hne)

theorem ofNat_succ_sub_one {n : Nat} (h : n < 2 ^ 32) : (UInt32.ofNat (n + 1) - 1).toNat = n := by
  calc (UInt32.ofNat (n + 1) - 1).toNat = (UInt32.ofNat n).toNat := by
        rw [UInt32.ofNat_add]
        exact congrArg UInt32.toNat (UInt32.add_sub_cancel _ 1)
    _ = n := UInt32.toNat_ofNat_of_lt' h

end Words

section Starts

/-- The positions behind the line feeds of bytes that begin at `offset`. -/
def byteStarts (offset : Nat) : List UInt8 → List Nat
  | [] => []
  | b :: bs =>
    if b = 10 then (offset + 1) :: byteStarts (offset + 1) bs else byteStarts (offset + 1) bs

variable (offset : Nat)

theorem byteStarts_append (xs ys : List UInt8) :
    byteStarts offset (xs ++ ys) = byteStarts offset xs ++ byteStarts (offset + xs.length) ys := by
  induction xs generalizing offset with
  | nil => rfl
  | cons b xs ih =>
    have hlength : offset + (b :: xs).length = offset + 1 + xs.length := by
      rw [List.length_cons]
      omega
    rw [List.cons_append, byteStarts, byteStarts, ih, hlength]
    split <;> rfl

theorem byteStarts_eq_nil {bs : List UInt8} (h : 10 ∉ bs) : byteStarts offset bs = [] := by
  induction bs generalizing offset with
  | nil => rfl
  | cons b bs ih =>
    rw [List.mem_cons, not_or] at h
    rw [byteStarts, if_neg (Ne.symm h.1), ih _ h.2]

theorem length_byteStarts (bs : List UInt8) : (byteStarts offset bs).length = bs.count 10 := by
  induction bs generalizing offset with
  | nil => rfl
  | cons b bs ih =>
    rw [byteStarts, List.count_cons]
    split <;> simp_all

/-- Starts of lines lie behind the first byte and not behind the end. -/
theorem mem_byteStarts {bs : List UInt8} {start : Nat} (h : start ∈ byteStarts offset bs) :
    offset < start ∧ start ≤ offset + bs.length := by
  induction bs generalizing offset with
  | nil => exact absurd h (by simp [byteStarts])
  | cons b bs ih =>
    have hlater (hm : start ∈ byteStarts (offset + 1) bs) :
        offset < start ∧ start ≤ offset + (b :: bs).length := by
      obtain ⟨hlow, hhigh⟩ := ih _ hm
      rw [List.length_cons]
      omega
    rw [byteStarts] at h
    split at h
    · rcases List.mem_cons.mp h with rfl | hm
      · rw [List.length_cons]
        omega
      · exact hlater hm
    · exact hlater h

end Starts

section Encoding

theorem utf8EncodeChar_newline : String.utf8EncodeChar '\n' = [10] := by decide

/-- Only a line feed has the byte of a line feed: the bytes of longer characters are at least
128. -/
theorem newline_not_mem_utf8EncodeChar {c : Char} (h : c ≠ '\n') :
    10 ∉ String.utf8EncodeChar c := by
  have hcode : c.val.toNat ≠ 10 := fun heq => h (Char.ext (UInt32.toNat_inj.mp heq))
  unfold String.utf8EncodeChar
  generalize c.val.toNat = n at hcode
  dsimp only
  split_ifs <;> simp [← UInt8.toNat_inj] <;> omega

/-- The starts of lines, found in the characters, are those found in the bytes. -/
theorem startsAfter_eq (offset : Nat) (cs : List Char) :
    startsAfter offset cs = byteStarts offset (cs.flatMap String.utf8EncodeChar) := by
  induction cs generalizing offset with
  | nil => rfl
  | cons c cs ih =>
    rw [startsAfter, List.flatMap_cons, byteStarts_append, String.length_utf8EncodeChar]
    split
    · next hc =>
        subst hc
        rw [utf8EncodeChar_newline, ih]
        rfl
    · next hc =>
        rw [byteStarts_eq_nil offset (newline_not_mem_utf8EncodeChar hc), List.nil_append, ih]

/-- The starts of lines. -/
def starts (f : SourceFile) : List Nat := 0 :: byteStarts 0 f.bytes

theorem lineStarts_eq (f : SourceFile) : f.lineStarts = f.starts.map UInt32.ofNat := by
  rw [lineStarts, startsAfter_eq, starts, bytes, Lua.utf8_eq]
  rfl

end Encoding

section Columns

variable (f : SourceFile) {offset : Nat}

/-- The start of the line that an offset is on. -/
def lineStart (offset : Nat) : Nat := (byteStarts 0 (f.bytes.take offset)).getLastD 0

/-- The number of line feeds before an offset. -/
def feedsBefore (offset : Nat) : Nat := (f.bytes.take offset).count 10

/-- An offset parts the starts of lines into those up to it and those behind it. -/
theorem starts_split (h : offset ≤ f.text.utf8ByteSize) :
    f.starts = (0 :: byteStarts 0 (f.bytes.take offset)) ++
      byteStarts offset (f.bytes.drop offset) := by
  have hlength : (f.bytes.take offset).length = offset := by
    rw [List.length_take, length_bytes]
    omega
  have happend := byteStarts_append 0 (f.bytes.take offset) (f.bytes.drop offset)
  rw [List.take_append_drop, hlength, Nat.zero_add] at happend
  rw [starts, happend, List.cons_append]

theorem start_le_of_mem {start : Nat} (h : start ∈ 0 :: byteStarts 0 (f.bytes.take offset)) :
    start ≤ offset := by
  rcases List.mem_cons.mp h with rfl | h
  · exact Nat.zero_le _
  · have hle := (mem_byteStarts 0 h).2
    rw [List.length_take] at hle
    omega

theorem start_le_size {start : Nat} (h : start ∈ f.starts) : start ≤ f.text.utf8ByteSize := by
  rcases List.mem_cons.mp h with rfl | h
  · exact Nat.zero_le _
  · have hle := (mem_byteStarts 0 h).2
    rwa [Nat.zero_add, length_bytes] at hle

theorem lineStart_le (offset : Nat) : f.lineStart offset ≤ offset :=
  f.start_le_of_mem List.getLastD_mem_cons

theorem feedsBefore_le (offset : Nat) : f.feedsBefore offset ≤ offset := by
  refine List.count_le_length.trans ?_
  rw [List.length_take]
  exact Nat.min_le_left _ _

theorem starts_feedsBefore (h : offset ≤ f.text.utf8ByteSize) :
    f.starts[f.feedsBefore offset]? = some (f.lineStart offset) := by
  have hlength : (byteStarts 0 (f.bytes.take offset)).length = f.feedsBefore offset :=
    length_byteStarts 0 _
  have hlt : f.feedsBefore offset < (0 :: byteStarts 0 (f.bytes.take offset)).length := by
    rw [List.length_cons, hlength]
    exact Nat.lt_succ_self _
  rw [f.starts_split h, List.getElem?_append_left hlt, ← hlength, lineStart,
    List.getLastD_eq_getLast?, ← List.getLast?_cons, List.getLast?_eq_getElem?, List.length_cons,
    Nat.add_sub_cancel]

variable {f} (hsize : f.text.utf8ByteSize < 2 ^ 32)
include hsize

/-- The starts of lines of a text that is not too long are numbers of 32 bits. -/
theorem lineStarts_getElem?_iff (index : Nat) (start : UInt32) :
    f.lineStarts[index]? = some start ↔ f.starts[index]? = some start.toNat := by
  rw [lineStarts_eq, List.getElem?_map, Option.map_eq_some_iff]
  refine ⟨?_, fun h => ⟨start.toNat, h, UInt32.ofNat_toNat⟩⟩
  rintro ⟨exact, hexact, rfl⟩
  have hle := f.start_le_size (List.mem_of_getElem? hexact)
  rw [hexact, UInt32.toNat_ofNat_of_lt' (hle.trans_lt hsize)]

/-- The search among the starts of lines stops behind those up to the offset. -/
theorem takeWhile_lineStarts (h : offset ≤ f.text.utf8ByteSize) :
    f.lineStarts.takeWhile (· ≤ UInt32.ofNat offset) =
      (0 :: byteStarts 0 (f.bytes.take offset)).map UInt32.ofNat := by
  have hle {start : Nat} (hs : start ∈ f.starts) :
      UInt32.ofNat start ≤ UInt32.ofNat offset ↔ start ≤ offset :=
    UInt32.ofNat_le_iff_le ((f.start_le_size hs).trans_lt hsize) (h.trans_lt hsize)
  have hsplit := f.starts_split h
  rw [hsplit] at hle
  rw [lineStarts_eq, hsplit, List.map_append, List.takeWhile_append_of_pos]
  · rw [List.append_right_eq_self]
    cases hlater : byteStarts offset (f.bytes.drop offset) with
    | nil => rfl
    | cons start rest =>
      have hmem : start ∈ byteStarts offset (f.bytes.drop offset) := hlater ▸ List.mem_cons_self
      have hgt := (mem_byteStarts offset hmem).1
      refine List.takeWhile_cons_of_neg ?_
      rw [decide_eq_true_eq, hle (List.mem_append_right _ hmem)]
      exact Nat.not_le.mpr hgt
  · rintro _ hs
    obtain ⟨start, hstart, rfl⟩ := List.mem_map.mp hs
    exact decide_eq_true ((hle (List.mem_append_left _ hstart)).mpr (f.start_le_of_mem hstart))

theorem lineColumn_eq (h : offset ≤ f.text.utf8ByteSize) :
    f.lineColumn (.ofNat offset) =
      (.ofNat (f.feedsBefore offset + 1), .ofNat (offset - f.lineStart offset + 1)) := by
  have hmin : min (UInt32.ofNat offset) (.ofNat f.text.utf8ByteSize) = .ofNat offset := by
    rw [← UInt32.toNat_inj, UInt32.toNat_min, UInt32.toNat_ofNat_of_lt' hsize,
      UInt32.toNat_ofNat_of_lt' (h.trans_lt hsize), Nat.min_eq_left h]
  unfold lineColumn
  rw [hmin]
  dsimp only
  have hlast : ((0 :: byteStarts 0 (f.bytes.take offset)).map UInt32.ofNat).getLastD 0 =
      .ofNat (f.lineStart offset) := by
    rw [List.map_cons, List.getLastD_cons, List.getLastD_map, lineStart]
  rw [takeWhile_lineStarts hsize h, hlast, List.length_map, List.length_cons, length_byteStarts,
    ← feedsBefore, UInt32.ofNat_add (offset - f.lineStart offset),
    UInt32.ofNat_sub (f.lineStart_le offset)]
  rfl

/-- An offset past the end counts as the end. -/
theorem lineColumn_min (offset : UInt32) :
    f.lineColumn (.ofNat (min offset.toNat f.text.utf8ByteSize)) = f.lineColumn offset := by
  have hmin : min (UInt32.ofNat (min offset.toNat f.text.utf8ByteSize))
      (.ofNat f.text.utf8ByteSize) = min offset (.ofNat f.text.utf8ByteSize) := by
    rw [← UInt32.toNat_inj, UInt32.toNat_min, UInt32.toNat_min, UInt32.toNat_ofNat_of_lt' hsize,
      UInt32.toNat_ofNat_of_lt' ((Nat.min_le_right _ _).trans_lt hsize),
      Nat.min_eq_left (Nat.min_le_right _ _)]
  unfold lineColumn
  rw [hmin]

end Columns

section Rows

/-- A line as it stands in a file: its text, and the characters that end it. -/
structure Line where
  text : String
  ending : String

def Line.whole (line : Line) : String := line.text ++ line.ending

/-- The carriage returns at the end of a row of characters. -/
def returns (row : List Char) : List Char := (row.reverse.takeWhile (· == '\r')).reverse

theorem dropReturns_append_returns (row : List Char) : dropReturns row ++ returns row = row := by
  rw [dropReturns, returns, ← List.reverse_append, List.takeWhile_append_dropWhile,
    List.reverse_reverse]

/-- The line of a row with the line feed behind it, if there is one. -/
def Line.ofRow (row feed : List Char) : Line :=
  ⟨String.ofList (dropReturns row), String.ofList (returns row ++ feed)⟩

theorem Line.toList_whole_ofRow (row feed : List Char) :
    (Line.ofRow row feed).whole.toList = row ++ feed := by
  rw [whole, ofRow, String.toList_append, String.toList_ofList, String.toList_ofList,
    ← List.append_assoc, dropReturns_append_returns]

/-- The lines of rows: all but the last end with a line feed. -/
def rule : List (List Char) → List Line
  | [] => []
  | row :: rest => .ofRow row (if rest.isEmpty then [] else ['\n']) :: rule rest

/-- The lines of a file. -/
def lines (f : SourceFile) : List Line := rule (splitLines f.text.toList)

theorem map_text_rule (rows : List (List Char)) :
    (rule rows).map Line.text = rows.map fun row => String.ofList (dropReturns row) := by
  induction rows with
  | nil => rfl
  | cons row rest ih => rw [rule, List.map_cons, List.map_cons, ih, Line.ofRow]

theorem lineText_eq (f : SourceFile) (number : UInt32) : f.lineText number =
    if number = 0 then none else f.lines[(number - 1).toNat]?.map Line.text := by
  rw [lineText, lines, ← List.getElem?_map, ← List.getElem?_map, map_text_rule]

/-- A further character in front: a line feed makes a row, all else goes into the first one. -/
theorem splitLines_cons (c : Char) (cs : List Char) : ∃ row rest, splitLines cs = row :: rest ∧
    splitLines (c :: cs) = if c = '\n' then [] :: row :: rest else (c :: row) :: rest := by
  have hne : splitLines cs ≠ [] := by
    cases cs with
    | nil => exact List.cons_ne_nil _ _
    | cons d ds =>
      rw [splitLines]
      repeat' split
      all_goals exact List.cons_ne_nil _ _
  obtain ⟨row, rest, hcs⟩ := List.exists_cons_of_ne_nil hne
  refine ⟨row, rest, hcs, ?_⟩
  rw [splitLines, hcs]

theorem newline_not_mem_row {cs row : List Char} (h : row ∈ splitLines cs) : '\n' ∉ row := by
  induction cs generalizing row with
  | nil => simp_all [splitLines]
  | cons c cs ih =>
    obtain ⟨first, rest, hcs, hsplit⟩ := splitLines_cons c cs
    rw [hsplit] at h
    rw [hcs] at ih
    split at h
    · rcases List.mem_cons.mp h with rfl | h
      · exact List.not_mem_nil
      · exact ih h
    · next hc =>
        rcases List.mem_cons.mp h with rfl | h
        · exact List.not_mem_cons_of_ne_of_not_mem (Ne.symm hc) (ih List.mem_cons_self)
        · exact ih (List.mem_cons_of_mem _ h)

theorem exists_row_of_mem_rule {rows : List (List Char)} {line : Line} (h : line ∈ rule rows) :
    ∃ row ∈ rows, ∃ feed, (feed = [] ∨ feed = ['\n']) ∧ line = .ofRow row feed := by
  induction rows with
  | nil => exact absurd h List.not_mem_nil
  | cons row rest ih =>
    rcases List.mem_cons.mp h with rfl | h
    · refine ⟨row, List.mem_cons_self, _, ?_, rfl⟩
      exact ite_eq_or_eq ..
    · obtain ⟨other, hmem, hline⟩ := ih h
      exact ⟨other, List.mem_cons_of_mem _ hmem, hline⟩

section Members

variable {f : SourceFile} {line : Line}

theorem newline_not_mem_text (h : line ∈ f.lines) : '\n' ∉ line.text.toList := by
  obtain ⟨row, hrow, feed, -, rfl⟩ := exists_row_of_mem_rule h
  rw [Line.ofRow, String.toList_ofList]
  intro hmem
  refine newline_not_mem_row hrow ?_
  rw [← dropReturns_append_returns row]
  exact List.mem_append_left _ hmem

/-- The text of a line does not end with what ends lines. -/
theorem getLast_text (h : line ∈ f.lines) :
    ∀ c ∈ line.text.toList.getLast?, c ≠ '\n' ∧ c ≠ '\r' := by
  intro c hc
  refine ⟨?_, ?_⟩
  · rintro rfl
    exact newline_not_mem_text h (List.mem_of_getLast? hc)
  · obtain ⟨row, -, feed, -, rfl⟩ := exists_row_of_mem_rule h
    rw [Line.ofRow, String.toList_ofList, dropReturns, List.getLast?_reverse] at hc
    rintro rfl
    have hhead := List.head?_dropWhile_not (· == '\r') row.reverse
    rw [Option.mem_def.mp hc] at hhead
    exact absurd hhead (by simp)

theorem mem_ending (h : line ∈ f.lines) {c : Char} (hc : c ∈ line.ending.toList) :
    c = '\n' ∨ c = '\r' := by
  obtain ⟨row, -, feed, hfeed, rfl⟩ := exists_row_of_mem_rule h
  rw [Line.ofRow, String.toList_ofList, List.mem_append] at hc
  rcases hc with hc | hc
  · have hall : (row.reverse.takeWhile (· == '\r')).all (· == '\r') = true := List.all_takeWhile
    exact Or.inr (by simpa using List.all_eq_true.mp hall c (List.mem_reverse.mp hc))
  · rcases hfeed with rfl | rfl
    · exact absurd hc List.not_mem_nil
    · exact Or.inl (List.mem_singleton.mp hc)

end Members

/-- The lines together are the text. -/
theorem flatMap_rule (cs : List Char) :
    (rule (splitLines cs)).flatMap (fun line => line.whole.toList) = cs := by
  induction cs with
  | nil => simp [splitLines, rule, Line.toList_whole_ofRow]
  | cons c cs ih =>
    obtain ⟨row, rest, hcs, hsplit⟩ := splitLines_cons c cs
    rw [hcs] at ih
    rw [hsplit]
    split
    · next hc =>
        rw [rule, List.flatMap_cons, ih, Line.toList_whole_ofRow, hc]
        rfl
    · rw [rule, List.flatMap_cons, Line.toList_whole_ofRow] at ih ⊢
      rw [List.cons_append, List.cons_append, ih]

theorem join_lines (f : SourceFile) : String.join (f.lines.map Line.whole) = f.text := by
  rw [← String.toList_inj, String.toList_join, List.flatMap_map]
  exact flatMap_rule f.text.toList

/-- The starts of lines that come one behind the other. -/
def startsOf (offset : Nat) : List Line → List Nat
  | [] => []
  | line :: rest => offset :: startsOf (offset + line.whole.utf8ByteSize) rest

theorem length_startsOf (offset : Nat) (lines : List Line) :
    (startsOf offset lines).length = lines.length := by
  induction lines generalizing offset with
  | nil => rfl
  | cons line rest ih => rw [startsOf, List.length_cons, List.length_cons, ih]

theorem startsOf_append (offset : Nat) (before after : List Line) :
    startsOf offset (before ++ after) = startsOf offset before ++
      startsOf (offset + (String.join (before.map Line.whole)).utf8ByteSize) after := by
  induction before generalizing offset with
  | nil => simp [startsOf]
  | cons line rest ih =>
    rw [List.cons_append, startsOf, startsOf, ih, List.cons_append, List.map_cons,
      String.join_cons, String.utf8ByteSize_append, Nat.add_assoc]

theorem utf8ByteSize_cons {s t : String} {c : Char} (h : s.toList = c :: t.toList) :
    s.utf8ByteSize = c.utf8Size + t.utf8ByteSize := by
  have hs : s = String.singleton c ++ t := by
    rw [← String.toList_inj, h, String.toList_append, String.toList_singleton]
    rfl
  rw [hs, String.utf8ByteSize_append, String.utf8ByteSize_singleton]

theorem startsAfter_eq_startsOf (offset : Nat) (cs : List Char) :
    offset :: startsAfter offset cs = startsOf offset (rule (splitLines cs)) := by
  induction cs generalizing offset with
  | nil => rfl
  | cons c cs ih =>
    obtain ⟨row, rest, hcs, hsplit⟩ := splitLines_cons c cs
    rw [hcs] at ih
    rw [hsplit, startsAfter]
    split
    · next hc =>
        have hsize : (Line.ofRow [] ['\n']).whole.utf8ByteSize = 1 := by decide
        change _ = startsOf offset (.ofRow [] ['\n'] :: rule (row :: rest))
        rw [startsOf, ← ih, hsize]
    · have hsize (feed : List Char) : (Line.ofRow (c :: row) feed).whole.utf8ByteSize =
          c.utf8Size + (Line.ofRow row feed).whole.utf8ByteSize := by
        refine utf8ByteSize_cons ?_
        rw [Line.toList_whole_ofRow, Line.toList_whole_ofRow, List.cons_append]
      have htail := ih (offset + c.utf8Size)
      rw [rule, startsOf] at htail ⊢
      rw [hsize, ← Nat.add_assoc, (List.cons.inj htail).2]

theorem starts_eq_startsOf (f : SourceFile) : f.starts = startsOf 0 f.lines := by
  rw [starts, bytes, Lua.utf8_eq, ← startsAfter_eq]
  exact startsAfter_eq_startsOf 0 f.text.toList

theorem length_lines (f : SourceFile) : f.lines.length = 1 + f.bytes.count 10 := by
  rw [← length_startsOf 0, ← starts_eq_startsOf, starts, List.length_cons,
    length_byteStarts, Nat.add_comm]

theorem isSome_lineText_iff (f : SourceFile) (number : UInt32) :
    (f.lineText number).isSome = true ↔
      1 ≤ number.toNat ∧ number.toNat ≤ 1 + f.bytes.count 10 := by
  rw [lineText_eq, ← length_lines]
  split
  · next hzero => simp [hzero]
  · next hpos =>
      have hsub := toNat_sub_one hpos
      rw [Option.isSome_map, Option.isSome_iff_ne_none, ne_eq, List.getElem?_eq_none_iff]
      omega

/-- A line starts behind the lines before it. -/
theorem starts_getElem? {f : SourceFile} {before after : List Line} {line : Line}
    (h : f.lines = before ++ line :: after) :
    f.starts[before.length]? = some (String.join (before.map Line.whole)).utf8ByteSize := by
  rw [starts_eq_startsOf, h, startsOf_append,
    List.getElem?_append_right (by rw [length_startsOf]), length_startsOf, Nat.sub_self,
    Nat.zero_add]
  rfl

/-- The line of an offset, between the lines before and behind it. -/
theorem exists_line {f : SourceFile} {offset : Nat} (h : offset ≤ f.text.utf8ByteSize) :
    ∃ before line after, f.lines = before ++ line :: after ∧
      before.length = f.feedsBefore offset ∧
      f.lineStart offset = (String.join (before.map Line.whole)).utf8ByteSize := by
  have hlt : f.feedsBefore offset < f.lines.length := by
    have hle : f.feedsBefore offset ≤ f.bytes.count 10 := (List.take_sublist _ _).count_le 10
    rw [length_lines]
    omega
  have hsplit : f.lines = f.lines.take (f.feedsBefore offset) ++
      f.lines[f.feedsBefore offset] :: f.lines.drop (f.feedsBefore offset + 1) := by
    rw [← List.drop_eq_getElem_cons hlt, List.take_append_drop]
  have hlength : (f.lines.take (f.feedsBefore offset)).length = f.feedsBefore offset := by
    rw [List.length_take]
    omega
  refine ⟨_, _, _, hsplit, hlength, ?_⟩
  have hstart := starts_getElem? hsplit
  rw [hlength, f.starts_feedsBefore h] at hstart
  exact Option.some.inj hstart

end Rows

section Slices

/-- The number of bytes of characters. -/
def size (cs : List Char) : Nat := (String.ofList cs).utf8ByteSize

theorem size_cons (c : Char) (cs : List Char) : size (c :: cs) = c.utf8Size + size cs :=
  utf8ByteSize_cons (by rw [String.toList_ofList, String.toList_ofList])

theorem size_append (xs ys : List Char) : size (xs ++ ys) = size xs + size ys := by
  rw [size, String.ofList_append, String.utf8ByteSize_append, size, size]

theorem size_toList (text : String) : size text.toList = text.utf8ByteSize := by
  rw [size, String.ofList_toList]

/-- Characters of one byte each are as many as their bytes. -/
theorem size_ascii {cs : List Char} (h : ∀ c ∈ cs, c.toNat < 128) : size cs = cs.length := by
  induction cs with
  | nil => rfl
  | cons c cs ih =>
    have hone : c.utf8Size = 1 := by
      rw [Char.utf8Size_eq_one_iff, UInt32.le_iff_toNat_le]
      exact Nat.le_of_lt_succ (h c List.mem_cons_self)
    rw [size_cons, hone, ih fun d hd => h d (List.mem_cons_of_mem c hd), List.length_cons,
      Nat.add_comm]

theorem exists_size_cons (c : Char) (cs : List Char) : ∃ n, size (c :: cs) = n + 1 ∧
    c.utf8Size ≤ n + 1 ∧ n + 1 - c.utf8Size = size cs := by
  have hpos := c.utf8Size_pos
  rw [size_cons]
  exact ⟨c.utf8Size + size cs - 1, by omega, by omega, by omega⟩

theorem dropBytes_append (xs ys : List Char) : dropBytes (size xs) (xs ++ ys) = some ys := by
  induction xs with
  | nil => cases ys <;> rfl
  | cons c xs ih =>
    obtain ⟨n, hn, hfits, hrest⟩ := exists_size_cons c xs
    rw [hn, List.cons_append, dropBytes, if_pos hfits, hrest, ih]

theorem takeBytes_append (xs ys : List Char) : takeBytes (size xs) (xs ++ ys) = some xs := by
  induction xs with
  | nil => cases ys <;> rfl
  | cons c xs ih =>
    obtain ⟨n, hn, hfits, hrest⟩ := exists_size_cons c xs
    rw [hn, List.cons_append, takeBytes, if_pos hfits, hrest, ih]
    rfl

/-- The text between two offsets, from the characters before, between and behind them. -/
theorem slice_eq {f : SourceFile} {xs ys zs : List Char} (h : f.text.toList = xs ++ (ys ++ zs)) :
    f.slice (size xs) (size xs + size ys) = some (String.ofList ys) := by
  rw [slice, if_neg (by omega), h, dropBytes_append, Option.bind_some, Nat.add_sub_cancel_left,
    takeBytes_append, Option.map_some]

/-- The text between two offsets on a line of ASCII characters. -/
theorem slice_line {f : SourceFile} {before after : List Line} {line : Line}
    (h : f.lines = before ++ line :: after) (hascii : ∀ c ∈ line.text.toList, c.toNat < 128)
    {start a b : Nat} (hstart : start = (String.join (before.map Line.whole)).utf8ByteSize)
    (hsa : start ≤ a) (hab : a ≤ b) (hb : b ≤ start + line.text.utf8ByteSize) :
    f.slice a b = some (String.ofList ((line.text.toList.drop (a - start)).take (b - a))) := by
  have hlength : line.text.utf8ByteSize = line.text.toList.length := by
    rw [← size_toList, size_ascii hascii]
  have hjoined : f.text.toList = (String.join (before.map Line.whole)).toList ++
      (line.text.toList ++ (line.ending.toList ++
        (String.join (after.map Line.whole)).toList)) := by
    rw [← f.join_lines, h, List.map_append, List.map_cons, String.join_append, String.join_cons,
      String.toList_append, String.toList_append, Line.whole, String.toList_append,
      List.append_assoc]
  have hcut : line.text.toList = line.text.toList.take (a - start) ++
      ((line.text.toList.drop (a - start)).take (b - a) ++
        (line.text.toList.drop (a - start)).drop (b - a)) := by
    rw [List.take_append_drop, List.take_append_drop]
  have htaken : size (line.text.toList.take (a - start)) = a - start := by
    rw [size_ascii fun c hc => hascii c (List.mem_of_mem_take hc), List.length_take]
    omega
  have hmiddle : size ((line.text.toList.drop (a - start)).take (b - a)) = b - a := by
    rw [size_ascii fun c hc => hascii c (List.mem_of_mem_drop (List.mem_of_mem_take hc)),
      List.length_take, List.length_drop]
    omega
  rw [hcut, List.append_assoc, List.append_assoc, ← List.append_assoc] at hjoined
  have hslice := slice_eq hjoined
  rw [size_append, size_toList, ← hstart, htaken, hmiddle] at hslice
  rwa [Nat.add_sub_cancel' hsa, Nat.add_sub_cancel' hab] at hslice

end Slices

end SourceFile

end EcmaLua
