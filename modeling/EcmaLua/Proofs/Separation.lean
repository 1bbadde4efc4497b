import EcmaLua.Conversion
import EcmaLua.Proofs.DocumentedNodes
import EcmaLua.Proofs.Lua.LineStarts
import EcmaLua.Proofs.Program.Naming

/-!
# Statements stay apart

Lua has no terminator for statements: a line that starts like arguments or like an index goes on
with the expression before it. No line of a converted script starts so, but for one kind: the line
that stores a key may start with a parenthesis. It stands behind the first line of its loop, where
no expression can go on.
-/

namespace EcmaLua

open Lua (Visible spell isNameChar)

theorem Lua.Visible.append {a b : String} (ha : ∀ c ∈ a.toList, isNameChar c = true)
    (hb : Visible b) : Visible (a ++ b) where
  ne_empty := fun hnil => hb.ne_empty (String.append_eq_empty_iff.mp hnil).2
  chars := by
    rw [String.toList_append]
    exact List.forall_mem_append.mpr ⟨ha, hb.chars⟩

/-- The spelling of identifiers that are not empty. -/
def Spelling.visible : Spelling where
  toVocabulary := .visible
  identifier text := text ≠ ""
  word {text} h := ⟨fun hnil => absurd (hnil ▸ h) (by decide), fun _ => Lua.isNameChar_of_isName h⟩
  remark h := Lua.not_mem_of_isRemark h rfl
  spell {text} h := ⟨Lua.spell_ne_empty h, fun _ => Lua.isNameChar_of_mem_spell text⟩
  after {text} _ := .append (fun _ => Lua.isNameChar_of_mem_spell text)
    ⟨by decide, List.all_eq_true.mp (by decide)⟩

namespace Surface

/-- A node of a script's program can be written, unless it is a loop over keys whose head is no
place. -/
theorem Lowered.obeys_hoist {numbering : Numbering} {P : Part → Prop} {n : Node}
    (h : Lowered numbering P n)
    (hplace : ∀ e, n.hoist = .forIn (.target e) → e.isTarget = true) :
    n.hoist.Obeys (.writing .visible) := by
  cases n with
  | assign op target value => exact target.isTarget_hoist.trans h
  | update op leading arg => exact arg.isTarget_hoist.trans h
  | initializer name value => exact rfl
  | forIn head =>
    cases head with
    | var kind name => exact rfl
    | target e => exact hplace e.hoist rfl
  | unsupported node => exact Spelling.visible.remark h.1
  | function | attempt | breaks | continues | withScope => trivial

/-- If no identifier of the program is empty and loops over keys write to places, every line of the
text starts anew, or stores a key right behind the first line of its loop. -/
theorem Script.lines_start_anew (settings : Settings) (numbering : Numbering) (script : Script)
    (hnames : (script.toProgram numbering).1.hoist.Obeys (.naming (· ≠ "")))
    (hheads : ∀ e, .forIn (.target e) ∈ (script.toProgram numbering).1.hoist.nodes →
      e.isTarget = true)
    (before rest : List Char)
    (htext : (script.convert settings numbering).lua.toList = before ++ rest)
    (hstart : Lua.AtLineStart before) :
    rest = [] ∨ Lua.startsAnew rest = true ∨
      Lua.StoresKey settings settings.newline before rest := by
  have hlowered := (script.lowered_toProgram numbering (P := fun _ => True) fun _ _ => trivial).1
  have hkept : ∀ n ∈ (script.toProgram numbering).1.nodes,
      n.hoist ∈ (script.toProgram numbering).1.hoist.nodes :=
    fun n hn => (Program.nodes_hoist _).mem_iff.mpr (List.mem_map_of_mem hn)
  have hnodes : ∀ n ∈ (script.toProgram numbering).1.hoist.nodes,
      n.Obeys (.writing .visible) :=
    Program.forall_mem_nodes_hoist.mpr fun n hn =>
      (hlowered n hn).obeys_hoist fun e he => hheads e (he ▸ hkept n hn)
  have hobeys := Program.obeys_of_nodes (r := .writing .visible) hnames hnodes
  exact Lua.Chunk.starts_render settings (Program.wellFormed_writing hobeys) htext hstart

/-- `for ("s".k in o);` -/
def storedKey : Script where
  body := [.forInStmt (.target (.member (.string [115]) "k")) (.ident "o") .empty ⟨1, 17⟩]

/-- The line that stores the key starts with a parenthesis. -/
theorem storedKey_behind_loop :
    let p := (storedKey.toProgram .nowhere).1.hoist
    let before := "-- BEGIN\r\nfor __tmp2, __tmp1 in __Iterate(o) do\r\n".toList
    let rest := "    (\"s\").k = __tmp2\r\n    do\r\n    end\r\nend\r\n-- END\r\n".toList
    p.Obeys (.naming (· ≠ "")) ∧ (∀ e, .forIn (.target e) ∈ p.nodes → e.isTarget = true) ∧
      (storedKey.convert {} .nowhere).lua.toList = before ++ rest ∧ Lua.AtLineStart before ∧
      Lua.StoresKey {} .crlf before rest := by
  intro p before rest
  have hnames : p.Obeys (.naming (· ≠ "")) :=
    ⟨⟨⟨trivial, trivial⟩, (by decide : "o" ≠ ""), trivial⟩, trivial⟩
  have hheads : ∀ e, .forIn (.target e) ∈ p.nodes → e.isTarget = true := by
    intro e he
    cases List.mem_singleton.mp he
    rfl
  have htext : (storedKey.convert {} .nowhere).lua.toList = before ++ rest := by decide +kernel
  have hstart : Lua.AtLineStart before := Or.inr rfl
  refine ⟨hnames, hheads, htext, hstart, ?_⟩
  have hlines := storedKey.lines_start_anew {} .nowhere hnames hheads before rest htext hstart
  exact (hlines.resolve_left (by decide)).resolve_left (by decide)

/-- An assignment to the member `x` of an identifier that is empty. -/
def emptyIdentifier : Script where
  body := [.exprStmt (.assign .plain (.member (.ident "") "x") (.ident "a") ⟨1, 6⟩)]

/-- The only line of its text starts with a dot. -/
theorem emptyIdentifier_continues :
    let settings : Settings := { newline := .lf, markers := false }
    let rest := ".x = a\n".toList
    (∀ e, .forIn (.target e) ∉ (emptyIdentifier.toProgram .nowhere).1.hoist.nodes) ∧
      (emptyIdentifier.convert settings .nowhere).lua.toList = [] ++ rest ∧
      Lua.AtLineStart [] ∧ rest ≠ [] ∧ Lua.startsAnew rest = false ∧
      ¬ Lua.StoresKey settings settings.newline [] rest := by
  intro settings rest
  refine ⟨fun e he => ?_, by decide +kernel, Or.inl rfl, by decide, by decide, ?_⟩
  · cases List.mem_singleton.mp he
  · rintro ⟨depth, key, value, iterator, hhead, -⟩
    have hempty : (Lua.loopHead settings depth key value iterator).toList = [] :=
      List.suffix_nil.mp hhead
    simp [Lua.loopHead, Lua.line] at hempty

end Surface

end EcmaLua
