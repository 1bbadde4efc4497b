import EcmaLua.Conversion
import EcmaLua.Proofs.Lua.Derivation
import EcmaLua.Proofs.Surface.Nodes

/-!
# The output is Lua

A script whose identifiers and labels are such, and whose `for`-`in` loops write to places, is
converted into a text of the grammar of Lua 5.2, whatever the settings.
-/

namespace EcmaLua

/-- Hoisting keeps a program writable: a place stays one. -/
theorem Rules.stable_spellable : Rules.spellable.Stable where
  ident := fun _ => rfl
  hoist := by
    intro e he
    cases e <;> exact he

namespace Surface

/-- The text of a converted script is a chunk of Lua. -/
theorem Script.isChunk_convert (settings : Settings) (numbering : Numbering) {script : Script}
    (h : script.Regular) : Lua.IsChunk (script.convert settings numbering).lua := by
  have hprogram := Script.obeys_toProgram numbering h
  have hhoisted := hprogram.hoist Rules.stable_spellable
  exact Lua.Chunk.isChunk_render settings (Program.wellFormed_emit hhoisted)

/-- A script with a keyword for a label, a property in the head of a loop, a jump out of a labeled
block, an assignment to a place in a literal, and a statement behind a `return`. -/
def crowdedScript : Script where
  body := [
    .labeled "end" (.block [
      .forInStmt (.target (.member (.ident "$a") "class")) (.ident "o")
        (.ifStmt (.call (.string [10]) [] ⟨1, 2⟩) (.breakStmt (some "end") ⟨1, 2⟩)
          (some (.continueStmt none ⟨1, 2⟩))) ⟨1, 2⟩]),
    .returnStmt (some (.assign (.compound .add) (.index .null (.number .nan)) .this ⟨1, 2⟩)),
    .varStmt .var [⟨.ident "x", some (.array [none] ⟨1, 2⟩)⟩]]

theorem isChunk_crowdedScript :
    crowdedScript.Regular ∧ Lua.IsChunk (crowdedScript.convert {} .nowhere).lua := by
  have h : crowdedScript.Regular := by
    have hloop : (Stmt.forInStmt (.target (.member (.ident "$a") "class")) (.ident "o")
        (.ifStmt (.call (.string [10]) [] ⟨1, 2⟩) (.breakStmt (some "end") ⟨1, 2⟩)
          (some (.continueStmt none ⟨1, 2⟩))) ⟨1, 2⟩).Regular :=
      ⟨⟨rfl, (rfl : isIdentifier "$a" = true)⟩, (rfl : isIdentifier "o" = true),
        ⟨trivial, trivial⟩, (rfl : isIdentifier "end" = true), trivial⟩
    exact ⟨⟨rfl, hloop, trivial⟩, ⟨⟨trivial, trivial⟩, trivial⟩,
      ⟨(rfl : isIdentifier "x" = true), trivial, trivial⟩, trivial⟩
  exact ⟨h, Script.isChunk_convert {} .nowhere h⟩

end Surface

end EcmaLua
