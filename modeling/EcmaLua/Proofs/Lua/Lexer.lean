import EcmaLua.Lua.Name

/-!
# Tokens of Lua texts

The lexical conventions of Lua 5.2, as functions on characters. `next` reads one element of a
text: a token, or blanks and comments, which give none. A name, a numeral and a symbol extend
as far as they can. `scan` reads a whole text, and fails where no element can be read.
-/

namespace EcmaLua.Lua

/-- A token. -/
inductive Token where
  | keyword (text : String)
  | name (text : String)
  | numeral (text : String)
  /-- a string literal, as the bytes that it denotes -/
  | string (bytes : List UInt8)
  | symbol (text : String)
deriving DecidableEq, Repr

namespace Lexer

def isBlank (c : Char) : Bool :=
  c == ' ' || c == '\n' || c == '\r' || c == '\t' || c == '\x0b' || c == '\x0c'

def isLineEnd (c : Char) : Bool := c == '\n' || c == '\r'

def isHexDigit (c : Char) : Bool := (Text.hexValue? c).isSome

/-- A word is a keyword or a name. -/
def wordToken (word : List Char) : Token :=
  let text := String.ofList word
  if keywords.contains text then .keyword text else .name text

/-- Whether a sign behind the character still belongs to a numeral. -/
def isExponentMark (c : Char) : Bool := c == 'e' || c == 'E' || c == 'p' || c == 'P'

/-- The characters that can belong to a numeral, and the rest; `signed` tells whether a sign
may come first. -/
def numeralRun (signed : Bool) : List Char → List Char × List Char
  | [] => ([], [])
  | c :: cs =>
    if isNameChar c || c == '.' || signed && (c == '+' || c == '-') then
      let run := numeralRun (isExponentMark c) cs
      (c :: run.1, run.2)
    else ([], c :: cs)

/-- An exponent of a numeral, with one of the given marks. -/
def isExponent (marks : List Char) : List Char → Bool
  | [] => true
  | c :: cs =>
    let digits := if cs.head? == some '+' || cs.head? == some '-' then cs.tail else cs
    marks.contains c && !digits.isEmpty && digits.all Char.isDigit

/-- Digits with an optional fraction and an optional exponent; there is a digit in the integer
part or in the fraction. -/
def isMagnitude (isDigit : Char → Bool) (marks : List Char) (text : List Char) : Bool :=
  let whole := text.takeWhile isDigit
  let rest := text.dropWhile isDigit
  let fraction := if rest.head? == some '.' then rest.tail.takeWhile isDigit else []
  let exponent := if rest.head? == some '.' then rest.tail.dropWhile isDigit else rest
  !(whole ++ fraction).isEmpty && isExponent marks exponent

/-- A decimal or hexadecimal numeral. -/
def isNumeral : List Char → Bool
  | '0' :: 'x' :: digits | '0' :: 'X' :: digits => isMagnitude isHexDigit ['p', 'P'] digits
  | text => isMagnitude Char.isDigit ['e', 'E'] text

/-- The byte of up to three decimal digits after a backslash. -/
def decimalEscape (cs : List Char) : Option (List UInt8 × List Char) :=
  let digits := (cs.take 3).takeWhile Char.isDigit
  let value := Text.ofDigits 10 digits
  if digits.isEmpty || value > 255 then none
  else some ([UInt8.ofNat value], cs.drop digits.length)

/-- The byte of two hexadecimal digits. -/
def hexEscape : List Char → Option (List UInt8 × List Char)
  | high :: low :: cs =>
    match Text.hexValue? high, Text.hexValue? low with
    | some h, some l => some ([UInt8.ofNat (16 * h + l)], cs)
    | _, _ => none
  | _ => none

/-- What an escape sequence stands for; the backslash has been read. -/
def escape : List Char → Option (List UInt8 × List Char)
  | 'a' :: cs => some ([7], cs)
  | 'b' :: cs => some ([8], cs)
  | 't' :: cs => some ([9], cs)
  | 'n' :: cs => some ([10], cs)
  | 'v' :: cs => some ([11], cs)
  | 'f' :: cs => some ([12], cs)
  | 'r' :: cs => some ([13], cs)
  | '"' :: cs => some ([34], cs)
  | '\'' :: cs => some ([39], cs)
  | '\\' :: cs => some ([92], cs)
  | '\r' :: '\n' :: cs | '\n' :: '\r' :: cs | '\n' :: cs | '\r' :: cs => some ([10], cs)
  | 'x' :: cs => hexEscape cs
  | 'z' :: cs => some ([], cs.dropWhile isBlank)
  | cs => decimalEscape cs

/-- A string literal up to its closing quote; the opening one has been read. A line ends inside
a literal only behind a backslash. -/
def readString (quote : Char) (cs : List Char) : Option (List UInt8 × List Char) :=
  match cs with
  | [] => none
  | c :: cs =>
    if c = quote then some ([], cs)
    else if isLineEnd c then none
    else
      let piece := if c = '\\' then escape cs else some (String.utf8EncodeChar c, cs)
      match piece with
      | none => none
      | some (bytes, rest) =>
        if rest.length ≤ cs.length then
          (readString quote rest).map fun tail => (bytes ++ tail.1, tail.2)
        else none
termination_by cs.length
decreasing_by simp only [List.length_cons]; omega

/-- The level of a long bracket and what follows it; the first bracket has been read. -/
def longOpening (cs : List Char) : Option (Nat × List Char) :=
  let level := (cs.takeWhile (· == '=')).length
  match cs.drop level with
  | '[' :: body => some (level, body)
  | _ => none

/-- The text up to the closing long bracket of a level, and what follows. -/
def longBody (level : Nat) : List Char → Option (List Char × List Char)
  | [] => none
  | c :: cs =>
    let closing := ']' :: (List.replicate level '=' ++ [']'])
    if closing.isPrefixOf (c :: cs) then some ([], (c :: cs).drop closing.length)
    else (longBody level cs).map fun tail => (c :: tail.1, tail.2)

/-- What follows a comment; the two dashes have been read. -/
def skipComment (cs : List Char) : Option (List Char) :=
  let opening := if cs.head? == some '[' then longOpening cs.tail else none
  match opening with
  | none => some (cs.dropWhile fun c => !isLineEnd c)
  | some (level, body) => (longBody level body).map Prod.snd

/-- A left bracket, or a long string. -/
def bracket (cs : List Char) : Option (Token × List Char) :=
  match longOpening cs with
  | some (level, body) =>
    (longBody level body).map fun (text, rest) =>
      (.string (text.flatMap String.utf8EncodeChar), rest)
  | none => if cs.head? == some '=' then none else some (.symbol "[", cs)

/-- The symbols of one character that begin no longer one. -/
def plainSymbols : List Char :=
  ['+', '-', '*', '/', '%', '^', '#', '(', ')', '{', '}', ']', ';', ',']

/-- The longest symbol at the start of a text. -/
def symbol (c : Char) (cs : List Char) : Option (Token × List Char) :=
  match c, cs with
  | '.', '.' :: '.' :: rest => some (.symbol "...", rest)
  | '.', '.' :: rest => some (.symbol "..", rest)
  | '.', rest => some (.symbol ".", rest)
  | '=', '=' :: rest => some (.symbol "==", rest)
  | '=', rest => some (.symbol "=", rest)
  | '<', '=' :: rest => some (.symbol "<=", rest)
  | '<', rest => some (.symbol "<", rest)
  | '>', '=' :: rest => some (.symbol ">=", rest)
  | '>', rest => some (.symbol ">", rest)
  | '~', '=' :: rest => some (.symbol "~=", rest)
  | ':', ':' :: rest => some (.symbol "::", rest)
  | ':', rest => some (.symbol ":", rest)
  | c, rest =>
    if plainSymbols.contains c then some (.symbol (String.ofList [c]), rest) else none

/-- Whether a numeral begins with the character. -/
def startsNumeral (c : Char) (cs : List Char) : Bool :=
  c.isDigit || c == '.' && (cs.head?.map Char.isDigit).getD false

/-- One element of a text and what follows it; blanks and comments give no token. -/
def next : List Char → Option (Option Token × List Char)
  | [] => none
  | c :: cs =>
    if isBlank c then some (none, cs)
    else if isNameStart c then
      some (some (wordToken (c :: cs.takeWhile isNameChar)), cs.dropWhile isNameChar)
    else if startsNumeral c cs then
      let run := numeralRun false cs
      if isNumeral (c :: run.1) then some (some (.numeral (String.ofList (c :: run.1))), run.2)
      else none
    else if c == '"' || c == '\'' then
      (readString c cs).map fun (bytes, rest) => (some (.string bytes), rest)
    else if c == '-' && cs.head? == some '-' then
      (skipComment cs.tail).map fun rest => (none, rest)
    else if c == '[' then (bracket cs).map fun (token, rest) => (some token, rest)
    else (symbol c cs).map fun (token, rest) => (some token, rest)

end Lexer

/-- The tokens of a text, if it can be read to its end. -/
def scan (cs : List Char) : Option (List Token) :=
  match cs with
  | [] => some []
  | c :: cs =>
    match Lexer.next (c :: cs) with
    | none => none
    | some (token, rest) =>
      if rest.length ≤ cs.length then (scan rest).map (token.toList ++ ·) else none
termination_by cs.length
decreasing_by simp only [List.length_cons]; omega

end EcmaLua.Lua
