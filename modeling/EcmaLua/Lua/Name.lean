import EcmaLua.Text.Digits

/-!
# Lua names

A JavaScript identifier is spelled as a Lua name: a dollar sign and every character outside
the ASCII letters, digits and the underscore become an escape between underscores, and a name
that Lua or the generated code needs for itself gets a leading mark.
-/

namespace EcmaLua.Lua

/-- The words of the language, which are no names. -/
def keywords : List String :=
  ["and", "break", "do", "else", "elseif", "end", "false", "for", "function", "goto", "if", "in",
    "local", "nil", "not", "or", "repeat", "return", "then", "true", "until", "while"]

/-- The keywords, the receiver, and the globals that the generated code calls. -/
def reserved : List String :=
  keywords ++ ["self", "pcall", "error", "table", "bit32", "rawequal", "math"]

def isReserved (name : String) : Bool := reserved.contains name

def isNameStart (c : Char) : Bool := c.isAlpha || c == '_'

def isNameChar (c : Char) : Bool := c.isAlphanum || c == '_'

/-- Whether a text can stand where the grammar asks for a name. -/
def isName (text : String) : Bool :=
  match text.toList with
  | [] => false
  | c :: cs => isNameStart c && cs.all isNameChar && !keywords.contains text

/-- How one character of an identifier is spelled. -/
def spellChar (c : Char) : List Char :=
  if c = '$' then ['_', 'U', 'S', 'D', '_']
  else if isNameChar c then [c]
  else '_' :: 'U' :: (Text.hexUpper c.toNat ++ ['_'])

/-- The Lua name of a JavaScript identifier or label. -/
def spell (identifier : String) : String :=
  let spelled := String.ofList (identifier.toList.flatMap spellChar)
  if isReserved spelled then "_R_" ++ spelled else spelled

end EcmaLua.Lua
