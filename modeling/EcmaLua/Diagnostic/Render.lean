import EcmaLua.Diagnostic.Basic
import EcmaLua.Source.Library
import EcmaLua.Text.Json

/-!
# Showing diagnostics

Three forms: a framed excerpt of the source with the place underlined, one JSON object a line,
and one line of plain text.
-/

namespace EcmaLua

/-- The colours that excerpts use. -/
inductive Color where
  | red
  | yellow
  | blue
  | cyan

def Color.number : Color → Nat
  | .red => 31
  | .yellow => 33
  | .blue => 34
  | .cyan => 36

/-- The escape sequence with the given number. -/
def escapeSequence (n : Nat) : String := "\x1b[" ++ toString n ++ "m"

/-- A text in a colour, perhaps bold; plain text when `colored` is off. -/
def paint (colored : Bool) (color : Color) (bold : Bool) (text : String) : String :=
  if colored then
    escapeSequence color.number ++ (if bold then escapeSequence 1 else "") ++ text
      ++ escapeSequence 0
  else text

def Severity.color : Severity → Color
  | .error => .red
  | .warning => .yellow
  | .hint => .blue

def blanks (n : Nat) : String := String.ofList (List.replicate n ' ')

namespace Diagnostic

/-- How many carets underline a span on a line with the given number of bytes: at least one,
and not past the end of the line. -/
def caretWidth (s : Span) (column lineBytes : Nat) : Nat :=
  max (min s.length (lineBytes - column)) 1

/-- The excerpt with the place underlined. -/
def excerpt (d : Diagnostic) (colored : Bool) (location : Location) (line : String) : String :=
  let gutter := paint colored .cyan false
  let number := toString location.line.toNat
  let pad := blanks number.length
  let column := (location.column - 1).toNat
  let width := caretWidth d.span column line.utf8ByteSize
  let carets := String.ofList (List.replicate width '^')
  pad ++ " " ++ gutter "|" ++ "\n"
    ++ gutter (number ++ " |") ++ " " ++ line ++ "\n"
    ++ pad ++ " " ++ gutter "|" ++ " " ++ blanks column
    ++ paint colored d.severity.color true carets ++ "\n"

/-- A framed diagnostic for a terminal. -/
def terminal (d : Diagnostic) (colored : Bool) (library : Library) : String :=
  let gutter := paint colored .cyan false
  let heading := d.severity.text ++ "[" ++ d.code.text ++ "]"
  let place :=
    match library.location d.span with
    | none => ""
    | some location =>
      let line := (library.get? d.span.file).bind fun f => f.lineText location.line
      "  " ++ gutter "-->" ++ " " ++ location.text ++ "\n"
        ++ (line.map (d.excerpt colored location)).getD ""
  let help :=
    match d.help with
    | none => ""
    | some help => "  " ++ gutter "= help:" ++ " " ++ help ++ "\n"
  paint colored d.severity.color true heading ++ ": " ++ d.message ++ "\n" ++ place ++ help ++ "\n"

/-- The diagnostic as a JSON object. -/
def toJson (d : Diagnostic) (library : Library) : Json :=
  let location :=
    match library.location d.span with
    | none => .null
    | some l =>
      Json.object
        [("file", .str l.file), ("line", .nat l.line.toNat), ("column", .nat l.column.toNat)]
  let span :=
    if d.span.isNowhere then .null
    else Json.object [("start", .nat d.span.start), ("end", .nat d.span.stop)]
  Json.object
    [("code", .str d.code.text), ("severity", .str d.severity.text), ("message", .str d.message),
      ("location", location), ("span", span), ("help", .optional d.help)]

/-- The diagnostic on one line. -/
def plain (d : Diagnostic) (library : Library) : String :=
  let place :=
    match library.location d.span with
    | none => ""
    | some location => location.text ++ ": "
  place ++ d.severity.text ++ ": " ++ d.message ++ " [" ++ d.code.text ++ "]\n"

end Diagnostic

namespace Report

def terminal (r : Report) (colored : Bool) (library : Library) : String :=
  String.join (r.map fun d => d.terminal colored library)

def jsonLines (r : Report) (library : Library) : String :=
  String.join (r.map fun d => (d.toJson library).compact ++ "\n")

def plain (r : Report) (library : Library) : String :=
  String.join (r.map fun d => d.plain library)

/-- A count with its noun, in the plural unless it is one. -/
def counted (n : Nat) (noun : String) : String :=
  toString n ++ " " ++ noun ++ (if n = 1 then "" else "s")

/-- How many errors and warnings there were, and nothing when there were none. -/
def terminalSummary (r : Report) (colored : Bool) : String :=
  let errors := r.count .error
  let warnings := r.count .warning
  let parts :=
    (if errors > 0 then [counted errors "error"] else [])
      ++ (if warnings > 0 then [counted warnings "warning"] else [])
  let severity : Severity := if errors > 0 then .error else .warning
  if parts.isEmpty then ""
  else paint colored severity.color true (" and ".intercalate parts ++ " emitted") ++ "\n"

def jsonSummary (r : Report) : String :=
  (Json.object
    [("type", .str "summary"), ("errors", .nat (r.count .error)),
      ("warnings", .nat (r.count .warning)), ("hints", .nat (r.count .hint)),
      ("total", .nat r.length)]).compact ++ "\n"

def plainSummary (r : Report) : String :=
  toString (r.count .error) ++ " error(s), " ++ toString (r.count .warning) ++ " warning(s)\n"

end Report

end EcmaLua
