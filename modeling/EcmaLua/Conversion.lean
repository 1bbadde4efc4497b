import EcmaLua.Emission.Code
import EcmaLua.Lua.Printer
import EcmaLua.Program.Hoisting
import EcmaLua.Surface.Reader.Script
import EcmaLua.Surface.ToCore

/-!
# Conversion

From JavaScript to Lua: a text is read as a script, the script has a program, and the program is
hoisted, emitted and printed.
-/

namespace EcmaLua

/-- The program that was emitted, its Lua text, and what is reported about it. -/
structure Conversion where
  program : Program
  lua : String
  report : Report

/-- The Lua text of a program in the shape that it has. -/
def Program.convert (settings : Settings) (p : Program) : Conversion :=
  let result := p.emit
  ⟨p, result.chunk.render settings, result.findings.map Finding.diagnostic⟩

/-- Put what was found before in front of a report. -/
def Conversion.after (findings : List Finding) (c : Conversion) : Conversion :=
  { c with report := findings.map Finding.diagnostic ++ c.report }

namespace Surface

/-- The Lua text of a script; what is found about the script comes first in the report. -/
def Script.convert (settings : Settings) (numbering : Numbering) (script : Script) : Conversion :=
  let (program, findings) := script.toProgram numbering
  (program.hoist.convert settings).after findings

/-- What a parser makes of a text: the error at which it stops, or a script and the errors that it
lets pass, each with its message and extent. -/
abbrev Parsing := Except (String × Extent) (Script × List (String × Extent))

/-- What the reader of scripts makes of a text: it lets misplaced jumps pass. -/
def Script.parse (text : String) : Parsing :=
  match Script.read text with
  | .error e => .error (e.fault.message, ⟨e.offset + 1, e.offset + 1⟩)
  | .ok reading =>
    .ok (reading.script, reading.misplaced.map fun (m, extent) => (m.message, extent))

end Surface

/-- The Lua text of a JavaScript text, which is the file with that number, by way of a parser; the
errors that it lets pass come first in the report. -/
def convertBy (parse : String → Surface.Parsing) (settings : Settings) (file : FileId)
    (text : String) : Except Finding Conversion :=
  let numbering : Numbering := ⟨file, 1⟩
  match parse text with
  | .error (message, extent) => .error (.syntaxError message (numbering.span extent))
  | .ok (script, passed) =>
    .ok ((script.convert settings numbering).after
      (passed.map fun (message, extent) => .toleratedError message (numbering.span extent)))

/-- The Lua text of a JavaScript text, which is the file with that number. -/
def convertText : Settings → FileId → String → Except Finding Conversion :=
  convertBy Surface.Script.parse

end EcmaLua
