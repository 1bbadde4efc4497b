import EcmaLua.Number.Decimal
import EcmaLua.Settings.Value
import EcmaLua.Text.Digits
import EcmaLua.Text.Surrogate

/-!
# Reading TOML

A document is read line by line into a tree of items. A table remembers whether a header or a
dotted key made it and whether it was only passed through, since that decides what may still be
added to it.
-/

namespace EcmaLua.Settings.Toml

/-- A reader of some text: what it reads, and what is left. -/
abbrev Reader (α : Type) := List Char → Option (α × List Char)

/-- An entry of a table while a document is read. -/
inductive Item where
  | value (v : Value)
  /-- a table, `implied` when no header named it and `dotted` when a dotted key made it -/
  | table (implied dotted : Bool) (fields : List (String × Item))
  /-- an array of tables made by headers -/
  | tables (items : List (List (String × Item)))

abbrev Fields := List (String × Item)

/-- Put an item in the place of the one with that key. -/
def replaceField (key : String) (item : Item) (fields : Fields) : Fields :=
  fields.map fun field => if field.1 == key then (key, item) else field

/-- Change the last element of a list. -/
def changeLast {α : Type} (change : α → Option α) : List α → Option (List α)
  | [] => none
  | [a] => (change a).map ([·])
  | a :: rest => (changeLast change rest).map (a :: ·)

/-- Add an item under a dotted key: the tables on its way are made by such keys only. -/
def insertDotted (key : String) (item : Item) : List String → Fields → Option Fields
  | [], fields => if (fields.lookup key).isSome then none else some (fields ++ [(key, item)])
  | first :: rest, fields =>
    match fields.lookup first with
    | none =>
      (insertDotted key item rest []).map fun inner => fields ++ [(first, .table true true inner)]
    | some (.table implied dotted inner) =>
      if !implied || (rest.isEmpty && !dotted) then none
      else
        (insertDotted key item rest inner).map fun inner' =>
          replaceField first (.table implied dotted inner') fields
    | some (.tables items) =>
      if rest.isEmpty then none
      else
        (changeLast (insertDotted key item rest) items).map fun items' =>
          replaceField first (.tables items') fields
    | some (.value _) => none

/-- Open the table that a header names, or add one to an array of tables. -/
def openTable (isArray : Bool) : List String → Fields → Option Fields
  | [], _ => none
  | [key], fields =>
    match fields.lookup key with
    | none => some (fields ++ [(key, if isArray then .tables [[]] else .table false false [])])
    | some (.table true false inner) =>
      if isArray then none else some (replaceField key (.table false false inner) fields)
    | some (.tables items) =>
      if isArray then some (replaceField key (.tables (items ++ [[]])) fields) else none
    | some _ => none
  | key :: rest, fields =>
    match fields.lookup key with
    | none =>
      (openTable isArray rest []).map fun inner => fields ++ [(key, .table true false inner)]
    | some (.table implied dotted inner) =>
      (openTable isArray rest inner).map fun inner' =>
        replaceField key (.table implied dotted inner') fields
    | some (.tables items) =>
      (changeLast (openTable isArray rest) items).map fun items' =>
        replaceField key (.tables items') fields
    | some (.value _) => none

/-- Change the table that the latest header opened. -/
def changeTable (change : Fields → Option Fields) : List String → Fields → Option Fields
  | [], fields => change fields
  | key :: rest, fields =>
    match fields.lookup key with
    | some (.table implied dotted inner) =>
      (changeTable change rest inner).map fun inner' =>
        replaceField key (.table implied dotted inner') fields
    | some (.tables items) =>
      (changeLast (changeTable change rest) items).map fun items' =>
        replaceField key (.tables items') fields
    | _ => none

mutual

def Item.toValue : Item → Value
  | .value v => v
  | .table _ _ fields => .table (Item.toFields fields)
  | .tables items => .array (Item.toTables items)

def Item.toFields : List (String × Item) → List (String × Value)
  | [] => []
  | (key, item) :: rest => (key, item.toValue) :: Item.toFields rest

def Item.toTables : List (List (String × Item)) → List Value
  | [] => []
  | fields :: rest => .table (Item.toFields fields) :: Item.toTables rest

end

def isBlank (c : Char) : Bool := c == ' ' || c == '\t'

def skipBlanks (cs : List Char) : List Char := cs.dropWhile isBlank

/-- What follows a line end. -/
def afterNewline? : List Char → Option (List Char)
  | '\n' :: rest => some rest
  | '\r' :: '\n' :: rest => some rest
  | _ => none

/-- Whether a character may stand in a comment or in a string as it is. -/
def isPlain (c : Char) : Bool := c == '\t' || (' ' ≤ c && c.toNat != 0x7F)

/-- Skip a comment, if there is one. -/
def skipComment (cs : List Char) : List Char :=
  match cs with
  | '#' :: rest => rest.dropWhile isPlain
  | _ => cs

/-- Skip what may follow on a line, and its end. -/
def endLine (cs : List Char) : Option (List Char) :=
  match skipComment (skipBlanks cs) with
  | [] => some []
  | rest => afterNewline? rest

/-- Skip blanks, comments and line ends. -/
def skipLines : Nat → List Char → List Char
  | 0, cs => cs
  | limit + 1, cs =>
    let rest := skipComment (skipBlanks cs)
    match afterNewline? rest with
    | some next => skipLines limit next
    | none => rest

/-- The character of an escape in hexadecimal. -/
def escapedChar (digits : List Char) : Option Char :=
  match digits.mapM (Text.digitValue? 16) with
  | some _ =>
    let n := Text.ofDigits 16 digits
    if Text.isScalar n then some (Char.ofNat n) else none
  | none => none

/-- An escape from behind its backslash. -/
def escape : Reader Char
  | 'b' :: rest => some ('\x08', rest)
  | 't' :: rest => some ('\t', rest)
  | 'n' :: rest => some ('\n', rest)
  | 'f' :: rest => some ('\x0c', rest)
  | 'r' :: rest => some ('\r', rest)
  | '"' :: rest => some ('"', rest)
  | '\\' :: rest => some ('\\', rest)
  | 'u' :: a :: b :: c :: d :: rest => (escapedChar [a, b, c, d]).map (·, rest)
  | 'U' :: a :: b :: c :: d :: e :: f :: g :: h :: rest =>
    (escapedChar [a, b, c, d, e, f, g, h]).map (·, rest)
  | _ => none

/-- The rest of a string on one line; `escapes` when backslashes have a meaning in it. -/
def stringTail (quote : Char) (escapes : Bool) (text : List Char) : Nat → Reader String
  | 0, _ => none
  | _ + 1, [] => none
  | limit + 1, c :: rest =>
    if c = quote then some (String.ofList text.reverse, rest)
    else if c = '\\' ∧ escapes then
      (escape rest).bind fun (e, rest') => stringTail quote escapes (e :: text) limit rest'
    else if isPlain c then stringTail quote escapes (c :: text) limit rest
    else none

/-- Skip blanks and line ends. -/
def skipSpace : List Char → List Char
  | '\n' :: rest => skipSpace rest
  | '\r' :: '\n' :: rest => skipSpace rest
  | c :: rest => if isBlank c then skipSpace rest else c :: rest
  | [] => []

/-- Quotes at the end of a string of several lines: three close it, and up to two before them
belong to it. -/
def closingQuotes (quote : Char) (cs : List Char) : Option (List Char × List Char) :=
  let run := (cs.take 5).takeWhile (· == quote)
  if run.length < 3 then none
  else some (List.replicate (run.length - 3) quote, cs.drop run.length)

/-- The rest of a string of several lines. -/
def longStringTail (quote : Char) (escapes : Bool) (text : List Char) : Nat → Reader String
  | 0, _ => none
  | _ + 1, [] => none
  | limit + 1, c :: rest =>
    if c = quote then
      match closingQuotes quote (c :: rest) with
      | some (extra, rest') => some (String.ofList (text.reverse ++ extra), rest')
      | none => longStringTail quote escapes (c :: text) limit rest
    else if c = '\\' ∧ escapes then
      match afterNewline? (skipBlanks rest) with
      | some rest' => longStringTail quote escapes text limit (skipSpace rest')
      | none =>
        (escape rest).bind fun (e, rest') => longStringTail quote escapes (e :: text) limit rest'
    else
      match afterNewline? (c :: rest) with
      | some rest' => longStringTail quote escapes ('\n' :: text) limit rest'
      | none =>
        if isPlain c then longStringTail quote escapes (c :: text) limit rest else none

/-- A line end right behind the opening quotes is no part of the string. -/
def skipFirstNewline (cs : List Char) : List Char := (afterNewline? cs).getD cs

/-- A string in quotes, over several lines only where `long` strings are allowed. -/
def string (long : Bool) (cs : List Char) : Option (String × List Char) :=
  match cs with
  | '"' :: '"' :: '"' :: rest =>
    if long then longStringTail '"' true [] (rest.length + 1) (skipFirstNewline rest)
    else none
  | '\'' :: '\'' :: '\'' :: rest =>
    if long then longStringTail '\'' false [] (rest.length + 1) (skipFirstNewline rest)
    else none
  | '"' :: rest => stringTail '"' true [] (rest.length + 1) rest
  | '\'' :: rest => stringTail '\'' false [] (rest.length + 1) rest
  | _ => none

def isKeyChar (c : Char) : Bool := c.isAlphanum || c == '_' || c == '-'

/-- One part of a key. -/
def simpleKey (cs : List Char) : Option (String × List Char) :=
  match cs.takeWhile isKeyChar with
  | [] => string false cs
  | name => some (String.ofList name, cs.drop name.length)

/-- A key of one or more parts with points between, blanks allowed around each. -/
def dottedKey : Nat → Reader (List String)
  | 0, _ => none
  | limit + 1, cs =>
    (simpleKey (skipBlanks cs)).bind fun (first, rest) =>
      match skipBlanks rest with
      | '.' :: rest' => (dottedKey limit rest').map fun (more, rest'') => (first :: more, rest'')
      | rest' => some ([first], rest')

/-- Digits with single underscores between them. -/
def digits (base : Nat) (found : List Char) : Reader (List Char)
  | '_' :: c :: rest =>
    if !found.isEmpty && (Text.digitValue? base c).isSome then digits base (c :: found) rest
    else if found.isEmpty then none
    else some (found.reverse, '_' :: c :: rest)
  | c :: rest =>
    if (Text.digitValue? base c).isSome then digits base (c :: found) rest
    else if found.isEmpty then none
    else some (found.reverse, c :: rest)
  | [] => if found.isEmpty then none else some (found.reverse, [])

/-- A sign, if there is one: true for minus. -/
def sign : List Char → Bool × List Char
  | '-' :: rest => (true, rest)
  | '+' :: rest => (false, rest)
  | cs => (false, cs)

/-- Decimal digits without a zero in front. -/
def wholePart : Reader (List Char)
  | '0' :: rest => some (['0'], rest)
  | cs => digits 10 [] cs

def signedInteger (negative : Bool) (n : Nat) : Option Int :=
  if negative then (if n ≤ Nat.pow 2 63 then some (-(n : Int)) else none)
  else (if n < Nat.pow 2 63 then some (n : Int) else none)

/-- An integer of 64 bits. -/
def integer (cs : List Char) : Option (Value × List Char) :=
  let radix (base : Nat) (rest : List Char) : Option (Value × List Char) := do
    let (ds, rest') ← digits base [] rest
    let n ← signedInteger false (Text.ofDigits base ds)
    pure (.integer n, rest')
  match cs with
  | '0' :: 'x' :: rest => radix 16 rest
  | '0' :: 'o' :: rest => radix 8 rest
  | '0' :: 'b' :: rest => radix 2 rest
  | _ => do
    let (negative, rest) := sign cs
    let (ds, rest') ← wholePart rest
    let n ← signedInteger negative (Text.ofDigits 10 ds)
    pure (.integer n, rest')

/-- The exponent of a float. -/
def exponent (cs : List Char) : Option (Int × List Char) :=
  match cs with
  | 'e' :: rest | 'E' :: rest => do
    let (negative, rest') := sign rest
    let (ds, rest'') ← digits 10 [] rest'
    let n : Int := Text.ofDigits 10 ds
    pure (if negative then -n else n, rest'')
  | _ => none

/-- A number with a fraction or an exponent, or one of the special ones. Written out, a number
below the range is negative infinity, and one above it is no value. -/
def float (cs : List Char) : Option (Value × List Char) :=
  let (negative, rest) := sign cs
  match rest with
  | 'i' :: 'n' :: 'f' :: rest' => some (.float (.infinity negative), rest')
  | 'n' :: 'a' :: 'n' :: rest' => some (.float .nan, rest')
  | _ => do
    let (whole, rest) ← wholePart rest
    let (fraction, afterFraction) ←
      match rest with
      | '.' :: rest' => digits 10 [] rest'
      | _ => some ([], rest)
    let (power, rest') ←
      match exponent afterFraction with
      | some found => some found
      | none => if fraction.isEmpty then none else some (0, afterFraction)
    let x := Double.ofDecimal negative
      ⟨Text.ofDigits 10 (whole ++ fraction), power - fraction.length⟩
    if x == .infinity false then none else pure (.float x, rest')

/-- A number in two digits. -/
def twoDigits : Reader Nat
  | a :: b :: rest =>
    if a.isDigit && b.isDigit then some (Text.ofDigits 10 [a, b], rest) else none
  | _ => none

def isLeap (year : Nat) : Bool := year % 4 == 0 && (year % 100 != 0 || year % 400 == 0)

def daysIn (year month : Nat) : Nat :=
  if month = 2 then (if isLeap year then 29 else 28)
  else if month = 4 ∨ month = 6 ∨ month = 9 ∨ month = 11 then 30
  else 31

/-- Skip a date. -/
def skipDate (cs : List Char) : Option (List Char) := do
  let (century, rest) ← twoDigits cs
  let (yearOfCentury, rest) ← twoDigits rest
  let year := century * 100 + yearOfCentury
  match rest with
  | '-' :: rest => do
    let (month, rest) ← twoDigits rest
    match rest with
    | '-' :: rest => do
      let (day, rest) ← twoDigits rest
      if 1 ≤ month ∧ month ≤ 12 ∧ 1 ≤ day ∧ day ≤ daysIn year month then some rest else none
    | _ => none
  | _ => none

/-- Skip a time of day. -/
def skipTime (cs : List Char) : Option (List Char) := do
  let (hour, rest) ← twoDigits cs
  match rest with
  | ':' :: rest => do
    let (minute, rest) ← twoDigits rest
    match rest with
    | ':' :: rest => do
      let (second, rest) ← twoDigits rest
      if 23 < hour ∨ 59 < minute ∨ 60 < second then none
      else
        match rest with
        | '.' :: c :: rest' =>
          if c.isDigit then some (rest'.dropWhile Char.isDigit) else some rest
        | _ => some rest
    | _ => none
  | _ => none

/-- Skip a distance from universal time, if there is one. -/
def skipOffset (cs : List Char) : List Char :=
  let numeric (rest : List Char) : List Char :=
    ((do
      let (hour, rest) ← twoDigits rest
      match rest with
      | ':' :: rest => do
        let (minute, rest) ← twoDigits rest
        if hour ≤ 23 ∧ minute ≤ 59 then some rest else none
      | _ => none) : Option (List Char)).getD cs
  match cs with
  | 'Z' :: rest | 'z' :: rest => rest
  | '+' :: rest | '-' :: rest => numeric rest
  | _ => cs

/-- A date, a time of day, or both. -/
def datetime (cs : List Char) : Option (Value × List Char) :=
  let result (rest : List Char) : Value × List Char :=
    (.datetime (String.ofList (cs.take (cs.length - rest.length))), rest)
  match skipDate cs with
  | some rest =>
    let timed :=
      match rest with
      | 'T' :: rest' | 't' :: rest' | ' ' :: rest' => (skipTime rest').map skipOffset
      | _ => none
    some (result (timed.getD rest))
  | none => (skipTime cs).map result

/-- What a character starts when it starts no number, string, array or table. -/
def keyword (cs : List Char) : Option (Value × List Char) :=
  match cs with
  | 't' :: 'r' :: 'u' :: 'e' :: rest => some (.bool true, rest)
  | 'f' :: 'a' :: 'l' :: 's' :: 'e' :: rest => some (.bool false, rest)
  | 'i' :: _ | 'n' :: _ => float cs
  | _ => none

def number (cs : List Char) : Option (Value × List Char) :=
  datetime cs <|> float cs <|> integer cs

/-- Neither values nor the parts of a key are nested as deep as this. -/
def depthLimit : Nat := 80

/-- The path of an entry: a key that is not too deep. -/
def key (cs : List Char) : Option (List String × List Char) :=
  dottedKey (depthLimit - 1) cs

mutual

/-- A value inside `depth` arrays and tables; `limit` bounds the steps. -/
def value (depth : Nat) (limit : Nat) (cs : List Char) : Option (Value × List Char) :=
  match limit with
  | 0 => none
  | limit + 1 =>
    match cs with
    | [] => none
    | '"' :: _ | '\'' :: _ => (string true cs).map fun (s, rest) => (.string s, rest)
    | '[' :: rest =>
      if depth + 1 < depthLimit then items (depth + 1) limit [] (skipLines rest.length rest)
      else none
    | '\x7b' :: rest =>
      if depth + 1 < depthLimit then
        match skipBlanks rest with
        | '\x7d' :: rest' => some (.table [], rest')
        | rest' => fields (depth + 1) limit [] rest'
      else none
    | c :: _ => if c.isDigit ∨ c = '+' ∨ c = '-' then number cs else keyword cs

/-- The items of an array up to its end; a comma may follow the last. -/
def items (depth : Nat) (limit : Nat) (found : List Value) (cs : List Char) :
    Option (Value × List Char) :=
  match limit with
  | 0 => none
  | limit + 1 =>
    match cs with
    | ']' :: rest => some (.array found.reverse, rest)
    | _ =>
      (value depth limit cs).bind fun (v, rest) =>
        match skipLines rest.length rest with
        | ',' :: rest' => items depth limit (v :: found) (skipLines rest'.length rest')
        | ']' :: rest' => some (.array (v :: found).reverse, rest')
        | _ => none

/-- The entries of a table between braces up to its end. -/
def fields (depth : Nat) (limit : Nat) (found : Fields) (cs : List Char) :
    Option (Value × List Char) :=
  match limit with
  | 0 => none
  | limit + 1 =>
    (key cs).bind fun (path, rest) =>
      match rest with
      | '=' :: rest =>
        (value depth limit (skipBlanks rest)).bind fun (v, rest) =>
          (insertDotted (path.getLastD "") (.value v) path.dropLast found).bind fun found' =>
            match skipBlanks rest with
            | ',' :: rest' => fields depth limit found' rest'
            | '\x7d' :: rest' => some ((Item.table false false found').toValue, rest')
            | _ => none
      | _ => none

end

/-- A header from behind its brackets: its path, and what follows. -/
def header (closing : List Char) (cs : List Char) : Option (List String × List Char) :=
  (key cs).bind fun (path, rest) =>
    if rest.take closing.length == closing then some (path, rest.drop closing.length) else none

/-- Read the lines of a document into its tables; `path` is that of the latest header. -/
def document : Nat → List String → Fields → List Char → Option Fields
  | 0, _, _, _ => none
  | limit + 1, path, root, cs =>
    match skipLines cs.length cs with
    | [] => some root
    | '[' :: '[' :: rest => do
      let (path', rest') ← header [']', ']'] rest
      let root' ← openTable true path' root
      document limit path' root' (← endLine rest')
    | '[' :: rest => do
      let (path', rest') ← header [']'] rest
      let root' ← openTable false path' root
      document limit path' root' (← endLine rest')
    | rest => do
      let (parts, rest') ← key rest
      match rest' with
      | '=' :: rest'' => do
        let (v, after) ← value 0 (rest''.length + 1) (skipBlanks rest'')
        let root' ←
          changeTable (insertDotted (parts.getLastD "") (.value v) parts.dropLast) path root
        document limit path root' (← endLine after)
      | _ => none

/-- The entries of a document, if it is well-formed. A byte order mark in front is skipped. -/
def read (text : String) : Option (List (String × Value)) :=
  let cs :=
    match text.toList with
    | c :: rest => if c.toNat = 0xFEFF then rest else c :: rest
    | [] => []
  (document (cs.length + 1) [] [] cs).map Item.toFields

end EcmaLua.Settings.Toml

namespace EcmaLua.Settings

/-- Why a settings file gives no settings. -/
inductive FileError where
  /-- the text is no TOML -/
  | syntactic
  /-- an entry has a value of another shape -/
  | shape
deriving DecidableEq, Repr

def FileError.message : FileError → String
  | .syntactic => "TOML parse error"
  | .shape => "invalid value for a setting"

/-- The settings of a settings file. -/
def ofText (text : String) : Except FileError Settings :=
  match Toml.read text with
  | none => .error .syntactic
  | some fields =>
    match ofDocument? fields with
    | none => .error .shape
    | some settings => .ok settings

/-- The name of a settings file. -/
def fileName : String := "jslua.toml"

/-- A settings file that spells out the defaults. -/
def defaultText : String :=
  "# jslua configuration\n"
    ++ "\n"
    ++ "[emit]\n"
    ++ "# Wrap identifier reads in __RefCheck(...) to trap reads of unassigned names\n"
    ++ "ref_guard = false\n"
    ++ "# Line terminator of the generated Lua: \"lf\" or \"crlf\"\n"
    ++ "newline = \"crlf\"\n"
    ++ "# Emit -- BEGIN / -- END and try/with phase comments\n"
    ++ "markers = true\n"

end EcmaLua.Settings
