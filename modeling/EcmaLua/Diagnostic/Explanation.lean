import EcmaLua.Diagnostic.Basic
import EcmaLua.Text.Json

/-!
# Explanations of diagnostic codes

Every code has a title and a description, and may have an example, a suggestion and related
codes.
-/

namespace EcmaLua

/-- What there is to know about a code. -/
structure Explanation where
  title : String
  description : String
  sample : Option String := none
  suggestion : Option String := none
  related : List Code := []

/-- The explanation of a code. -/
def Code.explanation : Code → Explanation
  | .parseError =>
    { title := "Parse Error"
      description := "The JavaScript parser encountered invalid syntax. Input is parsed as a "
        ++ "classic script, so module syntax such as import and export is rejected."
      sample := some "var x = ;  // Missing value"
      suggestion := some "Check for syntax errors like missing semicolons, brackets, or values." }
  | .unsupportedStatement =>
    { title := "Unsupported Statement"
      description := "The statement has no Lua lowering. It is replaced by a --[[Kind]] comment "
        ++ "and conversion continues with the next statement."
      sample := some ("for (const item of items) \x7b use(item); \x7d  // ForOfStatement\n"
        ++ "class Point \x7b\x7d                           // ClassDeclaration")
      suggestion := some ("Rewrite with ES5 constructs: an index-based for loop, a constructor "
        ++ "function with a prototype.")
      related := [.unsupportedExpression, .strayContinue] }
  | .unsupportedExpression =>
    { title := "Unsupported Expression"
      description := "The expression has no Lua lowering. It evaluates to nil in the output, "
        ++ "followed by a --[[Kind]] comment."
      sample := some ("var add = (a, b) => a + b;  // ArrowFunctionExpression\n"
        ++ "var s = `x = $\x7bx\x7d`;         // TemplateLiteral")
      suggestion := some "Use function expressions and string concatenation."
      related := [.unsupportedStatement, .unsupportedProperty] }
  | .unsupportedPattern =>
    { title := "Unsupported Pattern"
      description := "Only plain identifiers can be bound by var declarations and function "
        ++ "parameters. Destructuring, default values and rest parameters are not lowered."
      sample := some "function f(\x7b a, b \x7d, c = 1, ...rest) \x7b\x7d"
      suggestion := some "Bind a plain parameter and read its properties inside the body."
      related := [.unsupportedExpression] }
  | .unsupportedProperty =>
    { title := "Unsupported Object Member"
      description := "Object literals are lowered as key/value tables. Getters, setters and "
        ++ "spread members are replaced by nil."
      sample := some "var o = \x7b get size() \x7b return n; \x7d, ...defaults \x7d;"
      suggestion := some "Use plain properties, or copy members in a loop after construction."
      related := [.unsupportedExpression] }
  | .multipleCatchClauses =>
    { title := "Multiple Catch Clauses"
      description := "A try statement carries more than one catch clause. Only the first clause "
        ++ "is lowered; a --[[MultipleCatchClauses]] marker is left in the output."
      suggestion := some "Use a single catch clause and dispatch on the caught value inside it."
      related := [.unsupportedStatement] }
  | .strayContinue =>
    { title := "Continue Outside Loop"
      description := "A continue statement has no enclosing loop that it can jump to, or names a "
        ++ "label that is not on a loop."
      sample := some "block: \x7b continue block; \x7d"
      suggestion := some "Use break with a label to leave a block early."
      related := [.unsupportedStatement] }
  | .partialWithScope =>
    { title := "Partial With Scope"
      description := "Names inside a with body are not looked up on the scope object first.\n\n"
        ++ "The object is converted once with __ToObject and kept in a local, but identifiers\n"
        ++ "in the body still resolve to the surrounding variables and globals. The help line\n"
        ++ "lists every name that the object could have shadowed."
      sample := some "with (Math) \x7b r = max(a, b); \x7d  // max is read as a global"
      suggestion := some "Qualify the names explicitly: r = Math.max(a, b);"
      related := [.dynamicEval] }
  | .dynamicEval =>
    { title := "Dynamic Eval"
      description := "A direct call to eval runs the evaluated code in the global scope of the "
        ++ "Lua runtime. It cannot read or assign the caller's local variables."
      sample := some
        "function f(x) \x7b return eval('x + 1'); \x7d  // x is not visible"
      suggestion := some
        "Pass values explicitly, or replace eval with a lookup table of functions."
      related := [.partialWithScope] }
  | .internalError =>
    { title := "Internal Error"
      description := "The translator met a tree it does not expect. The output for the affected "
        ++ "construct is missing."
      suggestion := some "Please report the input that triggers this diagnostic." }

namespace Explanation

/-- A heading and the lines below it, each moved in by two blanks, when there is such a part. -/
def part (heading : String) : Option String → String
  | none => ""
  | some text =>
    heading ++ ":\n" ++ String.join ((text.splitOn "\n").map fun line => "  " ++ line ++ "\n")
      ++ "\n"

end Explanation

/-- The explanation of a code as text. -/
def Code.explanationText (code : Code) : String :=
  let e := code.explanation
  let heading := code.text ++ ": " ++ e.title
  "\n" ++ heading ++ "\n" ++ String.ofList (List.replicate heading.length '=') ++ "\n\n"
    ++ e.description ++ "\n\n"
    ++ Explanation.part "Example" e.sample
    ++ Explanation.part "Suggestion" e.suggestion
    ++ (if e.related.isEmpty then ""
        else "Related: " ++ ", ".intercalate (e.related.map Code.text) ++ "\n")

/-- The explanation of a code as a JSON value. -/
def Code.explanationJson (code : Code) : Json :=
  let e := code.explanation
  Json.object
    [("code", .str code.text), ("title", .str e.title), ("description", .str e.description),
      ("example", .optional e.sample), ("suggestion", .optional e.suggestion),
      ("related", .arr (e.related.map fun c => .str c.text))]

end EcmaLua
