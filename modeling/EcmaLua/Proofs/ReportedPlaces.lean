import EcmaLua.Conversion
import EcmaLua.Proofs.Emission.Closure
import EcmaLua.Proofs.Source.Lines
import EcmaLua.Proofs.Surface.Nodes
import EcmaLua.Source.Library

/-!
# Reported places

Whatever is reported about a script points into its file, as long as the extents of the script are
within the file: the place comes from an extent of the script, hoisting moves it about with its
node, and it is looked up as a line that the file has.
-/

namespace EcmaLua

open scoped List

/-- The extent lies within a file of the given length whose first byte has number `base`. -/
def Extent.Within (base size : Nat) (e : Extent) : Prop :=
  base ≤ e.lo ∧ e.lo ≤ e.hi ∧ e.hi ≤ base + size

/-- The span lies within a file of the given length. -/
def Span.Inside (file : FileId) (size : Nat) (s : Span) : Prop :=
  s.file = file ∧ s.start ≤ s.stop ∧ s.stop ≤ size

/-- Positions from the base on are counted from the start of the file. -/
theorem Extent.Within.inside {file : FileId} {base size : Nat} {e : Extent}
    (h : e.Within base size) (hfile : file ≠ .none) (hbase : 1 ≤ base) :
    ((Numbering.mk file base).span e).Inside file size := by
  obtain ⟨hlo, hle, hhi⟩ := h
  have hplace : ¬ (file = .none ∨ e.lo = 0) := by
    rintro (hnone | hzero)
    · exact hfile hnone
    · omega
  rw [Numbering.span, if_neg hplace]
  refine ⟨rfl, ?_, ?_⟩
  · exact Nat.sub_le_sub_right hle base
  · change e.hi - base ≤ size
    omega

/-- A span within a file has a location there, on a line that the file has. -/
theorem Library.exists_location {l : Library} {file : FileId} {f : SourceFile} {s : Span}
    (hget : l.get? file = some f) (hfile : file ≠ .none)
    (hsize : f.text.utf8ByteSize < 2 ^ 32 - 1) (hs : s.Inside file f.text.utf8ByteSize) :
    s.isNowhere = false ∧ ∃ place, l.location s = some place ∧ place.file = f.path ∧
      (f.lineText place.line).isSome = true := by
  have hplace : s.isNowhere = false := by
    rw [Span.isNowhere, hs.1]
    exact beq_false_of_ne hfile
  have hle : s.start ≤ f.text.utf8ByteSize := hs.2.1.trans hs.2.2
  refine ⟨hplace, ⟨f.path, .ofNat (f.feedsBefore s.start + 1),
    .ofNat (s.start - f.lineStart s.start + 1)⟩, ?_, rfl, ?_⟩
  · rw [Library.location, hplace, hs.1, hget, Option.map_some,
      SourceFile.lineColumn_eq (by omega) hle]
    rfl
  · have hfeeds := f.feedsBefore_le s.start
    have hcount : f.feedsBefore s.start ≤ f.bytes.count 10 := (List.take_sublist _ _).count_le 10
    have hlast : f.feedsBefore s.start + 1 < 2 ^ 32 := by omega
    rw [SourceFile.isSome_lineText_iff, UInt32.toNat_ofNat_of_lt' hlast]
    omega

namespace Surface

section Placed

variable {file : FileId} {base size : Nat}

/-- The extents of a script lie within its file. -/
def Part.Within (base size : Nat) : Part → Prop
  | .extent e => e.Within base size
  | .head _ => True

theorem Placed.inside {span : Span} (hfile : file ≠ .none) (hbase : 1 ≤ base)
    (h : Placed ⟨file, base⟩ (Part.Within base size) span) : span.Inside file size := by
  obtain ⟨extent, hextent, rfl⟩ := h
  exact hextent.inside hfile hbase

/-- Whatever is reported about a node of the program is reported with a place in the file. -/
theorem Lowered.inside {n : Node} (hfile : file ≠ .none) (hbase : 1 ≤ base)
    (h : Lowered ⟨file, base⟩ (Part.Within base size) n) :
    n.Admits fun finding => finding.span.Inside file size := by
  cases n with
  | assign | update | initializer | forIn => trivial
  | function f => exact fun hnone => absurd hnone h
  | attempt clauses span => exact fun hmany => absurd hmany (Nat.not_lt.mpr h.1)
  | breaks span => exact ⟨Placed.inside hfile hbase h, Placed.inside hfile hbase h⟩
  | continues span => exact ⟨Placed.inside hfile hbase h, Placed.inside hfile hbase h⟩
  | withScope span => exact fun _ => Placed.inside hfile hbase h
  | unsupported node => exact Placed.inside hfile hbase h.2

/-- The places of all that a conversion finds. -/
theorem Script.inside_convert {script : Script} (settings : Settings) (hfile : file ≠ .none)
    (hbase : 1 ≤ base) (h : ∀ x ∈ script.parts, x.Within base size) :
    ∀ d ∈ (script.convert settings ⟨file, base⟩).report, d.span.Inside file size := by
  obtain ⟨hnodes, hfindings⟩ := script.lowered_toProgram ⟨file, base⟩ h
  have hadmits : (script.toProgram ⟨file, base⟩).1.Admits fun finding =>
      finding.span.Inside file size := fun n hn => (hnodes n hn).inside hfile hbase
  intro d hd
  rcases List.mem_append.mp hd with hd | hd
  · obtain ⟨finding, hmem, rfl⟩ := List.mem_map.mp hd
    obtain ⟨span, hspan, rfl⟩ := hfindings finding hmem
    exact hspan.inside hfile hbase
  · obtain ⟨finding, hmem, rfl⟩ := List.mem_map.mp hd
    exact hadmits.hoist.findings finding hmem

end Placed

/-- If all extents of a script lie within its file, whose positions are numbers of 32 bits, every
diagnostic about it has a span of that file, within the file, and a location on a line that the file
has. Hoisting keeps the places of all nodes. -/
theorem Script.located_convert (settings : Settings) {l : Library} {file : FileId} {f : SourceFile}
    {base : Nat} {script : Script} (hget : l.get? file = some f) (hfile : file ≠ .none)
    (hbase : 1 ≤ base) (hlast : base + f.text.utf8ByteSize < 2 ^ 32)
    (hextents : ∀ e, .extent e ∈ script.parts → e.Within base f.text.utf8ByteSize) :
    (∀ d ∈ (script.convert settings ⟨file, base⟩).report,
      d.span.isNowhere = false ∧ d.span.Inside file f.text.utf8ByteSize ∧
        ∃ place, l.location d.span = some place ∧ place.file = f.path ∧
          (f.lineText place.line).isSome = true) ∧
      (script.toProgram ⟨file, base⟩).1.hoist.spans ~ (script.toProgram ⟨file, base⟩).1.spans := by
  refine ⟨fun d hd => ?_, Program.spans_hoist _⟩
  have hparts : ∀ x ∈ script.parts, x.Within base f.text.utf8ByteSize := by
    intro x hx
    cases x with
    | extent e => exact hextents e hx
    | head e => trivial
  have hinside := script.inside_convert settings hfile hbase hparts d hd
  obtain ⟨hplace, hlocation⟩ := Library.exists_location hget hfile (by omega) hinside
  exact ⟨hplace, hinside, hlocation⟩

/-- A library with one file of two lines. -/
def twoLines : Library := ⟨[⟨"a.js", "for (a of b);\nbreak;"⟩]⟩

/-- The script of that file. -/
def twoReports : Script := ⟨[.foreign .forOf ⟨1, 14⟩, .breakStmt none ⟨15, 21⟩]⟩

theorem twoReports_located :
    ((twoReports.convert {} ⟨⟨0⟩, 1⟩).report.map fun d => (d.span, twoLines.location d.span)) =
      [(⟨⟨0⟩, 0, 13⟩, some ⟨"a.js", 1, 1⟩), (⟨⟨0⟩, 14, 20⟩, some ⟨"a.js", 2, 1⟩)] ∧
      ∀ d ∈ (twoReports.convert {} ⟨⟨0⟩, 1⟩).report, d.span.isNowhere = false ∧
        d.span.Inside ⟨0⟩ 20 ∧ ∃ place, twoLines.location d.span = some place ∧
          place.file = "a.js" ∧
          (SourceFile.lineText ⟨"a.js", "for (a of b);\nbreak;"⟩ place.line).isSome = true := by
  have hfile : FileId.mk 0 ≠ .none := by decide
  refine ⟨by decide, (Script.located_convert {} (l := twoLines) rfl hfile (Nat.le_refl 1)
    (by decide) ?_).1⟩
  intro e he
  simp only [Script.parts, twoReports, Stmt.partsList, Stmt.parts, List.cons_append,
    List.nil_append, List.mem_cons, Part.extent.injEq, List.not_mem_nil, or_false] at he
  rcases he with rfl | rfl
  · exact ⟨by decide, by decide, by decide⟩
  · exact ⟨by decide, by decide, by decide⟩

end Surface

end EcmaLua
