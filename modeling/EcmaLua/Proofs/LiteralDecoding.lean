import EcmaLua.Proofs.Lua.Phrase

/-!
# Literals and what they denote

Lua reads a string literal byte by byte: escapes stand for bytes, all else for itself. The literal
of a text and that of a byte sequence are read to their closing quote and no further, whatever
comes behind, and give back what they were made from. So does the suffix that reads a field, in
both of its forms.
-/

namespace EcmaLua.Lua

/-- The UTF-8 bytes of a text. -/
def utf8 (text : String) : List UInt8 := text.toUTF8.data.toList

theorem utf8_eq (text : String) : utf8 text = text.toList.flatMap String.utf8EncodeChar := by
  have hbytes : text.toByteArray = (text.toList.flatMap String.utf8EncodeChar).toByteArray :=
    String.utf8Encode_toList.symm
  rw [utf8, String.toUTF8_eq_toByteArray, hbytes, List.data_toByteArray]

/-- A literal is one token, from what is read behind its opening quote. -/
theorem next_quoted {body rest : List Char} {bytes : List UInt8}
    (h : Lexer.readString '"' (body ++ '"' :: rest) = some (bytes, rest)) :
    Lexer.next ((String.ofList ('"' :: (body ++ ['"']))).toList ++ rest) =
      some (some (.string bytes), rest) := by
  have htext : (String.ofList ('"' :: (body ++ ['"']))).toList ++ rest =
      '"' :: (body ++ '"' :: rest) := by
    simp
  rw [htext]
  change (Lexer.readString '"' (body ++ '"' :: rest)).map _ = _
  rw [h]
  rfl

theorem next_quote (text : String) (rest : List Char) :
    Lexer.next ((quote text).toList ++ rest) = some (some (.string (utf8 text)), rest) := by
  rw [utf8_eq]
  exact next_quoted (readString_flatMap readString_escapeChar text.toList rest)

theorem next_quoteBytes (bytes : List UInt8) (rest : List Char) :
    Lexer.next ((quoteBytes bytes).toList ++ rest) = some (some (.string bytes), rest) :=
  next_quoted (readString_flatMap_escapeByte bytes rest)

/-- The key of the suffix that tokens start with, and the tokens behind it: a field by its name, or
an index by a string. -/
def suffixKey : List Token → Option (List UInt8 × List Token)
  | .symbol "." :: .name text :: rest => some (utf8 text, rest)
  | .symbol "[" :: .string bytes :: .symbol "]" :: rest => some (bytes, rest)
  | _ => none

/-- The key of the suffix that a text starts with. -/
def readSuffix (cs : List Char) : Option (List UInt8 × List Token) := (scan cs).bind suffixKey

/-- A suffix with known tokens is read in front of whatever does not go on with its last one. -/
theorem Lexes.readSuffix {follow : Char → Bool} {suffix : String} {tokens : List Token}
    {key : List UInt8} (h : Lexes .lf follow suffix tokens)
    (hkey : ∀ rest, suffixKey (tokens ++ rest) = some (key, rest)) {rest : List Char}
    (hrest : ∀ c ∈ rest.head?, follow c = true) :
    readSuffix (suffix.toList ++ rest) = (scan rest).map fun more => (key, more) := by
  have hscan : scan (suffix.toList ++ rest) = (scan rest).map (tokens ++ ·) := h rest hrest
  rw [Lua.readSuffix, hscan]
  cases scan rest with
  | none => rfl
  | some more => exact hkey more

theorem readSuffix_fieldSuffix (name : String) {rest : List Char}
    (h : isName name = true → ∀ c ∈ rest.head?, isNameChar c = false) :
    readSuffix ((fieldSuffix name).toList ++ rest) =
      (scan rest).map fun more => (utf8 name, more) := by
  unfold fieldSuffix
  split
  · next hname =>
      have hleads : leads isNameStart name = true := leads_of_isName hname
      have hlex := (lexes_dot .lf).append (lexes_name .lf hname) hleads
      exact hlex.readSuffix (fun _ => rfl) fun c hc => by simp [endsWord, h hname c hc]
  · have hopen := (lexes_bracket .lf).append (lexes_quote .lf name)
      (by simp [leads, quote, endsBracket])
    have hlex := hopen.then (lexes_plain .lf (c := ']') (by decide) (by decide))
    rw [← utf8_eq] at hlex
    exact hlex.readSuffix (fun _ => rfl) fun _ _ => rfl

/-- The literal of a text is read as the UTF-8 bytes of the text, the literal of a byte sequence as
those bytes, both up to the closing quote in front of any text; so the two literals of a text
denote the same string. The suffix for a field, in front of a text that does not go on with its
name, is read as an index by the UTF-8 bytes of the field's name. -/
theorem literals_denote (text : String) (bytes : List UInt8) (name : String) (rest : List Char) :
    Lexer.next ((quote text).toList ++ rest) = some (some (.string (utf8 text)), rest) ∧
      Lexer.next ((quoteBytes bytes).toList ++ rest) = some (some (.string bytes), rest) ∧
      Lexer.next ((quoteBytes (utf8 text)).toList ++ rest) =
        Lexer.next ((quote text).toList ++ rest) ∧
      ((isName name = true → ∀ c ∈ rest.head?, isNameChar c = false) →
        readSuffix ((fieldSuffix name).toList ++ rest) =
          (scan rest).map fun more => (utf8 name, more)) := by
  refine ⟨next_quote text rest, next_quoteBytes bytes rest, ?_, readSuffix_fieldSuffix name⟩
  rw [next_quote, next_quoteBytes]

/-- A control character in front of a digit, and a field in front of an argument. -/
theorem literals_denote_crowded :
    Lexer.next ("\"\\0017\\\"\"7".toList) = some (some (.string [1, 55, 34]), ['7']) ∧
      readSuffix ".end_(x)".toList = some (utf8 "end_", [.symbol "(", .name "x", .symbol ")"]) := by
  have hquote : (quote "\x017\"").toList ++ ['7'] = "\"\\0017\\\"\"7".toList := by decide
  have hsuffix : (fieldSuffix "end_").toList ++ "(x)".toList = ".end_(x)".toList := by decide
  have hrest : scan "(x)".toList = some [.symbol "(", .name "x", .symbol ")"] := by
    decide +kernel
  have hopen : ∀ c ∈ "(x)".toList.head?, isNameChar c = false := by
    intro c hc
    obtain rfl : '(' = c := Option.some.inj hc
    rfl
  refine ⟨?_, ?_⟩
  · rw [← hquote]
    exact (literals_denote "\x017\"" [] "" ['7']).1
  · rw [← hsuffix, (literals_denote "" [] "end_" "(x)".toList).2.2.2 fun _ => hopen, hrest]
    rfl

end EcmaLua.Lua
