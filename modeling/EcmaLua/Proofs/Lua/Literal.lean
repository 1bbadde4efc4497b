import Mathlib.Tactic.IntervalCases
import EcmaLua.Proofs.Lua.Name
import EcmaLua.Proofs.Lua.Scanning

/-!
# Reading literals

A quoted text is read as its UTF-8 bytes and a quoted byte sequence as itself, whatever comes
behind the closing quote. A numeral is read as one token, a negative one behind a minus sign.
-/

namespace EcmaLua.Lua

/-- Whether a character is a control character of ASCII. -/
def isControl (c : Char) : Bool := c.toNat < 0x20 || c.toNat == 0x7f

theorem isControl_eq_false_iff {c : Char} :
    isControl c = false ↔ 0x20 ≤ c.toNat ∧ c.toNat ≠ 0x7f := by
  simp [isControl]

theorem isControl_of_isNameChar {c : Char} (h : isNameChar c = true) : isControl c = false := by
  rw [isControl_eq_false_iff]
  have hval : c.toNat = c.val.toNat := rfl
  have hclass : isNameChar c =
      ((decide (c.val ≥ 'A'.val ∧ c.val ≤ 'Z'.val) || (c.val ≥ 'a'.val && c.val ≤ 'z'.val)
        || (c.val ≥ '0'.val && c.val ≤ '9'.val)) || c == '_') := rfl
  simp only [hclass, Bool.or_eq_true, Bool.and_eq_true, decide_eq_true_eq, beq_iff_eq,
    UInt32.le_iff_toNat_le, ge_iff_le] at h
  rcases h with ((⟨h, h'⟩ | ⟨h, h'⟩) | ⟨h, h'⟩) | rfl
  · exact ⟨by simp at h; omega, by simp at h'; omega⟩
  · exact ⟨by simp at h; omega, by simp at h'; omega⟩
  · exact ⟨by simp at h; omega, by simp at h'; omega⟩
  · decide

theorem isControl_of_all {text : List Char} (h : text.all (fun c => !isControl c) = true) :
    ∀ c ∈ text, isControl c = false := by
  intro c hc
  simpa using List.all_eq_true.mp h c hc

theorem isControl_of_mem_escapeAscii {n : Nat} (h : n < 128) :
    ∀ c ∈ escapeAscii n, isControl c = false := by
  have hall : ∀ n < 128, (escapeAscii n).all (fun c => !isControl c) = true := by decide
  exact isControl_of_all (hall n h)

theorem isControl_of_mem_escapeChar {c d : Char} (h : d ∈ escapeChar c) :
    isControl d = false := by
  unfold escapeChar at h
  split at h
  · next hc => exact isControl_of_mem_escapeAscii hc d h
  · next hc =>
      rw [List.mem_singleton.mp h, isControl_eq_false_iff]
      omega

theorem isControl_of_mem_escapeByte {b : UInt8} {d : Char} (h : d ∈ escapeByte b) :
    isControl d = false := by
  unfold escapeByte at h
  split at h
  · next hb => exact isControl_of_mem_escapeAscii hb d h
  · simp only [List.mem_cons, Text.padZeros, List.mem_append] at h
    rcases h with rfl | rfl | h | h
    · decide
    · decide
    · rw [List.eq_of_mem_replicate h]
      decide
    · exact isControl_of_isNameChar (by simp [isNameChar, Text.isAlphanum_of_mem_hexUpper _ h])

theorem isControl_of_mem_quote (text : String) :
    ∀ c ∈ text.toList.flatMap escapeChar, isControl c = false :=
  List.forall_mem_flatMap.mpr fun _ _ _ => isControl_of_mem_escapeChar

theorem isControl_of_mem_quoteBytes (bytes : List UInt8) :
    ∀ c ∈ bytes.flatMap escapeByte, isControl c = false :=
  List.forall_mem_flatMap.mpr fun _ _ _ => isControl_of_mem_escapeByte

section Strings

open Lexer (readString)

/-- What a piece of a literal adds to the rest of it. -/
def adding (bytes : List UInt8) (tail : List UInt8 × List Char) : List UInt8 × List Char :=
  (bytes ++ tail.1, tail.2)

theorem readString_raw {c : Char} (hq : c ≠ '"') (hl : Lexer.isLineEnd c = false)
    (hb : c ≠ '\\') (cs : List Char) :
    readString '"' (c :: cs) = (readString '"' cs).map (adding (String.utf8EncodeChar c)) := by
  rw [readString]
  simp [hq, hl, hb]
  rfl

theorem readString_escape {cs rest : List Char} {bytes : List UInt8}
    (h : Lexer.escape cs = some (bytes, rest)) (hl : rest.length ≤ cs.length) :
    readString '"' ('\\' :: cs) = (readString '"' rest).map (adding bytes) := by
  rw [readString]
  simp [Lexer.isLineEnd, h, hl]
  rfl

theorem escape_control {n : Nat} (h : n < 32 ∨ n = 127) (cs : List Char) :
    Lexer.escape (Text.padZeros 3 (Nat.toDigits 10 n) ++ cs) = some ([UInt8.ofNat n], cs) := by
  rcases h with h | rfl
  · interval_cases n <;> rfl
  · rfl

theorem utf8EncodeChar_ofNat {n : Nat} (h : n < 128) :
    String.utf8EncodeChar (Char.ofNat n) = [UInt8.ofNat n] := by
  revert n
  decide

theorem printable_ascii : ∀ n < 128, ¬(n = 0x5C ∨ n = 0x22 ∨ n < 0x20) →
    Char.ofNat n ≠ '"' ∧ Lexer.isLineEnd (Char.ofNat n) = false ∧ Char.ofNat n ≠ '\\' := by
  decide

theorem readString_escapeAscii {n : Nat} (h : n < 128) (cs : List Char) :
    readString '"' (escapeAscii n ++ cs) =
      (readString '"' cs).map (adding [UInt8.ofNat n]) := by
  unfold escapeAscii
  split
  · next hn => rw [hn]; exact readString_escape rfl (by simp)
  split
  · next hn => rw [hn]; exact readString_escape rfl (by simp)
  split
  · next hn => rw [hn]; exact readString_escape rfl (by simp)
  split
  · next hn => rw [hn]; exact readString_escape rfl (by simp)
  split
  · next hn => rw [hn]; exact readString_escape rfl (by simp)
  split
  · next hn => exact readString_escape (escape_control hn cs) (by simp)
  · next h₁ h₂ h₃ h₄ h₅ h₆ =>
      rw [← utf8EncodeChar_ofNat h]
      have hn : ¬(n = 0x5C ∨ n = 0x22 ∨ n < 0x20) := by omega
      obtain ⟨hq, hl, hb⟩ := printable_ascii n h hn
      exact readString_raw hq hl hb cs

theorem readString_escapeChar (c : Char) (cs : List Char) :
    readString '"' (escapeChar c ++ cs) =
      (readString '"' cs).map (adding (String.utf8EncodeChar c)) := by
  unfold escapeChar
  split
  · next hc =>
      have he := utf8EncodeChar_ofNat hc
      rw [Char.ofNat_toNat] at he
      rw [he]
      exact readString_escapeAscii hc cs
  · next hc =>
      have hne {d : Char} (hd : d.toNat < 128) : c ≠ d := fun h => hc (h ▸ hd)
      have hl : Lexer.isLineEnd c = false := by
        simp [Lexer.isLineEnd, hne (d := '\n') (by decide), hne (d := '\r') (by decide)]
      exact readString_raw (hne (by decide)) hl (hne (by decide)) cs

/-- A literal denotes what its pieces add. -/
theorem readString_flatMap {α : Type} {piece : α → List Char} {bytes : α → List UInt8}
    (h : ∀ a cs, readString '"' (piece a ++ cs) = (readString '"' cs).map (adding (bytes a)))
    (as : List α) (rest : List Char) :
    readString '"' (as.flatMap piece ++ '"' :: rest) = some (as.flatMap bytes, rest) := by
  induction as with
  | nil =>
    simp only [List.flatMap_nil, List.nil_append]
    rw [readString]
    simp
  | cons a as ih =>
    simp only [List.flatMap_cons, List.append_assoc]
    rw [h, ih]
    rfl

theorem hexEscape_byte {n : Nat} (h : 128 ≤ n) (hn : n < 256) (cs : List Char) :
    Lexer.hexEscape (Text.padZeros 2 (Text.hexUpper n) ++ cs) = some ([UInt8.ofNat n], cs) := by
  interval_cases n <;> rfl

theorem readString_escapeByte (b : UInt8) (cs : List Char) :
    readString '"' (escapeByte b ++ cs) = (readString '"' cs).map (adding [b]) := by
  have hb : UInt8.ofNat b.toNat = b := UInt8.ofNat_toNat
  unfold escapeByte
  split
  · next h =>
      have := readString_escapeAscii h cs
      rwa [hb] at this
  · next h =>
      have hx := hexEscape_byte (Nat.le_of_not_lt h) b.toNat_lt cs
      rw [hb] at hx
      exact readString_escape hx (by simp; omega)

theorem readString_flatMap_escapeByte (bytes : List UInt8) (rest : List Char) :
    readString '"' (bytes.flatMap escapeByte ++ '"' :: rest) = some (bytes, rest) := by
  rw [readString_flatMap readString_escapeByte, List.flatMap_singleton']

/-- A text in quotes, from what is inside them. -/
theorem lexes_quoted (newline : Newline) {body : List Char} {bytes : List UInt8}
    (hc : ∀ c ∈ body, isControl c = false)
    (h : ∀ rest, readString '"' (body ++ '"' :: rest) = some (bytes, rest)) :
    Lexes newline anything (String.ofList ('"' :: (body ++ ['"']))) [.string bytes] := by
  apply Lexes.of_next (t := some (.string bytes))
  · rw [String.toList_ofList]
    have hn : '\n' ∉ body := fun hm => absurd (hc _ hm) (by decide)
    simpa using hn
  · simp
  · intro rest _
    rw [String.toList_ofList]
    have hl : '"' :: (body ++ ['"']) ++ rest = '"' :: (body ++ '"' :: rest) := by simp
    rw [hl]
    change (readString '"' (body ++ '"' :: rest)).map _ = _
    rw [h rest]
    rfl

theorem lexes_quote (newline : Newline) (text : String) :
    Lexes newline anything (quote text)
      [.string (text.toList.flatMap String.utf8EncodeChar)] :=
  lexes_quoted newline (isControl_of_mem_quote text)
    (readString_flatMap readString_escapeChar text.toList)

theorem lexes_quoteBytes (newline : Newline) (bytes : List UInt8) :
    Lexes newline anything (quoteBytes bytes) [.string bytes] :=
  lexes_quoted newline (isControl_of_mem_quoteBytes bytes) (readString_flatMap_escapeByte bytes)

end Strings

section Numerals

open Lexer (numeralRun)

/-- Characters that cannot go on with a numeral. -/
def endsNumeral (c : Char) : Bool := !isNameChar c && c != '.' && c != '+' && c != '-'

/-- Whether a numeral takes in the whole text; `signed` tells whether a sign may come first. -/
def absorbs (signed : Bool) : List Char → Bool
  | [] => true
  | c :: cs =>
    (isNameChar c || c == '.' || signed && (c == '+' || c == '-'))
      && absorbs (Lexer.isExponentMark c) cs

theorem numeralRun_append {cs rest : List Char} {signed : Bool} (h : absorbs signed cs = true)
    (hr : ∀ c ∈ rest.head?, endsNumeral c = true) :
    numeralRun signed (cs ++ rest) = (cs, rest) := by
  induction cs generalizing signed with
  | nil =>
    cases rest with
    | nil => rfl
    | cons c rest =>
      have hc := hr c rfl
      simp only [endsNumeral, Bool.and_eq_true, Bool.not_eq_true', bne_iff_ne] at hc
      simp [numeralRun, hc]
  | cons c cs ih =>
    simp only [absorbs, Bool.and_eq_true] at h
    simp only [List.cons_append, numeralRun, h.1, if_true, ih h.2]

theorem absorbs_append {xs ys : List Char} (hx : ∀ c ∈ xs, (isNameChar c || c == '.') = true)
    (hy : ∀ signed, absorbs signed ys = true) (signed : Bool) :
    absorbs signed (xs ++ ys) = true := by
  induction xs generalizing signed with
  | nil => exact hy signed
  | cons c xs ih =>
    have hc := hx c List.mem_cons_self
    have hcs := ih (fun d hd => hx d (List.mem_cons_of_mem c hd)) (Lexer.isExponentMark c)
    simp [absorbs, hc, hcs]

/-- Digits, with an optional fraction and an optional exponent. -/
def decimalText (whole : List Char) (fraction exponent : Option (List Char)) :
    List Char :=
  whole ++ (fraction.elim [] ('.' :: ·) ++ exponent.elim [] ('e' :: ·))

/-- The parts of a decimal numeral as the printer writes them. -/
structure DecimalParts (whole : List Char) (fraction exponent : Option (List Char)) : Prop where
  whole_ne_nil : whole ≠ []
  whole_digits : ∀ c ∈ whole, c.isDigit = true
  fraction_digits : ∀ f ∈ fraction, ∀ c ∈ f, c.isDigit = true
  exponent_digits : ∀ e ∈ exponent, ∃ ds : List Char, ds ≠ [] ∧ (∀ c ∈ ds, c.isDigit = true) ∧
    (e = ds ∨ e = '-' :: ds)

theorem isNameChar_of_isDigit {c : Char} (h : c.isDigit = true) : isNameChar c = true := by
  simp [isNameChar, Char.isAlphanum, h]

section Parts

variable {whole : List Char} {fraction exponent : Option (List Char)}

theorem DecimalParts.exponent_absorbs (h : DecimalParts whole fraction exponent)
    (signed : Bool) : absorbs signed (exponent.elim [] ('e' :: ·)) = true := by
  cases exponent with
  | none => rfl
  | some e =>
    obtain ⟨ds, -, hds, he⟩ := h.exponent_digits e rfl
    have hx : ∀ c ∈ ds, (isNameChar c || c == '.') = true := fun c hc => by
      simp [isNameChar_of_isDigit (hds c hc)]
    have hnil : ∀ b, absorbs b [] = true := fun _ => rfl
    have hd (b : Bool) : absorbs b ds = true := by simpa using absorbs_append hx hnil b
    rcases he with rfl | rfl
    · simp [absorbs, isNameChar, hd]
    · simp [absorbs, isNameChar, Lexer.isExponentMark, hd]

theorem DecimalParts.absorbs (h : DecimalParts whole fraction exponent) (signed : Bool) :
    absorbs signed (decimalText whole fraction exponent) = true := by
  refine absorbs_append (fun c hc => ?_) (absorbs_append (fun c hc => ?_) h.exponent_absorbs) signed
  · simp [isNameChar_of_isDigit (h.whole_digits c hc)]
  · cases fraction with
    | none => simp at hc
    | some f =>
      rcases List.mem_cons.mp hc with rfl | hc
      · simp
      · simp [isNameChar_of_isDigit (h.fraction_digits f rfl c hc)]

theorem DecimalParts.not_mem (h : DecimalParts whole fraction exponent) {c : Char}
    (hd : c.isDigit = false) (hc : c ≠ '.' ∧ c ≠ 'e' ∧ c ≠ '-') :
    c ∉ decimalText whole fraction exponent := by
  have hne {ds : List Char} (hds : ∀ d ∈ ds, d.isDigit = true) : c ∉ ds := fun hm =>
    absurd (hds c hm) (by simp [hd])
  simp only [decimalText, List.mem_append, not_or]
  refine ⟨hne h.whole_digits, ?_, ?_⟩
  · cases fraction with
    | none => simp
    | some f => simp [hc.1, hne (h.fraction_digits f rfl)]
  · cases exponent with
    | none => simp
    | some e =>
      obtain ⟨ds, -, hds, rfl | rfl⟩ := h.exponent_digits e rfl
      · simp [hc.2.1, hne hds]
      · simp [hc.2.1, hc.2.2, hne hds]

theorem DecimalParts.isExponent (h : DecimalParts whole fraction exponent) :
    Lexer.isExponent ['e', 'E'] (exponent.elim [] ('e' :: ·)) = true := by
  cases exponent with
  | none => rfl
  | some e =>
    obtain ⟨ds, hne, hds, he⟩ := h.exponent_digits e rfl
    have hall : ds.all Char.isDigit = true := List.all_eq_true.mpr hds
    rcases he with rfl | rfl
    · have hs : ¬(e.head? = some '+' ∨ e.head? = some '-') := by
        cases e with
        | nil => simp
        | cons d ds =>
          have hd := hds d List.mem_cons_self
          simp only [List.head?_cons, Option.some.injEq]
          rintro (rfl | rfl) <;> revert hd <;> decide
      simp [Lexer.isExponent, hs, hne, hall]
    · simp [Lexer.isExponent, hne, hall]

theorem DecimalParts.isMagnitude (h : DecimalParts whole fraction exponent) :
    Lexer.isMagnitude Char.isDigit ['e', 'E'] (decimalText whole fraction exponent) = true := by
  have hexp : ∀ c ∈ (exponent.elim [] ('e' :: ·)).head?, c.isDigit = false := by
    cases exponent with
    | none => simp
    | some e => simp
  have hrest : ∀ c ∈ (fraction.elim [] ('.' :: ·) ++ exponent.elim [] ('e' :: ·)).head?,
      c.isDigit = false := by
    cases fraction with
    | none => simpa using hexp
    | some f => simp
  obtain ⟨ht, hd⟩ := takeWhile_append_of_head h.whole_digits hrest
  unfold Lexer.isMagnitude decimalText
  simp only [ht, hd]
  cases fraction with
  | none =>
    have hp : ((exponent.elim [] ('e' :: ·)).head? == some '.') = false := by
      cases exponent <;> rfl
    simp [hp, h.whole_ne_nil, h.isExponent]
  | some f =>
    obtain ⟨ht', hd'⟩ := takeWhile_append_of_head (h.fraction_digits f rfl) hexp
    simp [ht', hd', h.whole_ne_nil, h.isExponent]

theorem DecimalParts.isNumeral (h : DecimalParts whole fraction exponent) :
    Lexer.isNumeral (decimalText whole fraction exponent) = true := by
  have hx : 'x' ∉ decimalText whole fraction exponent := h.not_mem rfl (by decide)
  have hX : 'X' ∉ decimalText whole fraction exponent := h.not_mem rfl (by decide)
  unfold Lexer.isNumeral
  split
  · next heq => exact absurd (by simp [heq]) hx
  · next heq => exact absurd (by simp [heq]) hX
  · exact h.isMagnitude

/-- A decimal numeral is one token. -/
theorem DecimalParts.lexes (h : DecimalParts whole fraction exponent) (newline : Newline) :
    Lexes newline endsNumeral (String.ofList (decimalText whole fraction exponent))
      [.numeral (String.ofList (decimalText whole fraction exponent))] := by
  obtain ⟨c, cs, hw⟩ := List.exists_cons_of_ne_nil h.whole_ne_nil
  have hl : decimalText whole fraction exponent = c ::
      (cs ++ (fraction.elim [] ('.' :: ·) ++ exponent.elim [] ('e' :: ·))) := by
    rw [decimalText, hw, List.cons_append]
  have hcd : c.isDigit = true := h.whole_digits c (by rw [hw]; exact List.mem_cons_self)
  have ha := h.absorbs false
  have hn := h.isNumeral
  apply Lexes.of_next (t := some (.numeral (String.ofList (decimalText whole fraction exponent))))
  · rw [String.toList_ofList]
    exact h.not_mem rfl (by decide)
  · simp [hl]
  · intro rest hr
    rw [String.toList_ofList, hl] at *
    simp only [Lua.absorbs, Bool.and_eq_true] at ha
    have hm : Lexer.isExponentMark c = false := by
      by_contra hm
      simp only [Lexer.isExponentMark, Bool.not_eq_false, Bool.or_eq_true, beq_iff_eq] at hm
      rcases hm with ((rfl | rfl) | rfl) | rfl <;> revert hcd <;> decide
    rw [hm] at ha
    have hrun := numeralRun_append ha.2 hr
    have hb : Lexer.isBlank c = false := by
      by_contra hb
      simp only [Lexer.isBlank, Bool.not_eq_false, Bool.or_eq_true, beq_iff_eq] at hb
      rcases hb with ((((rfl | rfl) | rfl) | rfl) | rfl) | rfl <;> revert hcd <;> decide
    have hs : isNameStart c = false := by
      by_contra hs
      have := isDigit_eq_false (Bool.not_eq_false _ ▸ hs)
      simp [hcd] at this
    simp only [List.cons_append, Lexer.next, hb, hs, Lexer.startsNumeral, hcd, Bool.true_or, hrun,
      hn]
    simp

end Parts

theorem isDigit_of_mem_toDigits {n : Nat} {c : Char} (h : c ∈ Nat.toDigits 10 n) :
    c.isDigit = true :=
  Nat.isDigit_of_mem_toDigits (by decide) (by decide) h

theorem isDigit_of_mem_zeros {n : Nat} {c : Char} (h : c ∈ Text.zeros n) : c.isDigit = true := by
  rw [List.eq_of_mem_replicate h]
  rfl

/-- The power of the leading digit, as an exponent is written. -/
def signedPower (d : Decimal) : List Char :=
  (if d.leading < 0 then ['-'] else []) ++ Nat.toDigits 10 d.leading.natAbs

theorem signedPower_digits (d : Decimal) : ∃ ds : List Char, ds ≠ [] ∧
    (∀ c ∈ ds, c.isDigit = true) ∧ (signedPower d = ds ∨ signedPower d = '-' :: ds) := by
  refine ⟨Nat.toDigits 10 d.leading.natAbs, Nat.toDigits_ne_nil, fun _ => isDigit_of_mem_toDigits,
    ?_⟩
  unfold signedPower
  split
  · exact Or.inr rfl
  · exact Or.inl rfl

/-- The digits of a positive number are laid out as a decimal numeral. -/
theorem numeralDigits_eq (d : Decimal) : ∃ whole fraction exponent,
    numeralDigits d = decimalText whole fraction exponent ∧
      DecimalParts whole fraction exponent := by
  have hne : d.digits ≠ [] := Nat.toDigits_ne_nil
  have hd : ∀ c ∈ d.digits, c.isDigit = true := fun _ => isDigit_of_mem_toDigits
  have htake (n : Nat) : ∀ c ∈ d.digits.take n, c.isDigit = true := fun c hc =>
    hd c (List.mem_of_mem_take hc)
  have hdrop (n : Nat) : ∀ c ∈ d.digits.drop n, c.isDigit = true := fun c hc =>
    hd c (List.mem_of_mem_drop hc)
  unfold numeralDigits
  simp only
  split
  · have hw : d.digits.take 1 ≠ [] := by simpa using hne
    split
    · refine ⟨_, none, some (signedPower d), by simp [decimalText, signedPower], hw, htake 1,
        by simp, ?_⟩
      rintro e ⟨⟩
      exact signedPower_digits d
    · refine ⟨_, some (d.digits.drop 1), some (signedPower d),
        by simp [decimalText, signedPower], hw, htake 1, ?_, ?_⟩
      · rintro f ⟨⟩
        exact hdrop 1
      · rintro e ⟨⟩
        exact signedPower_digits d
  split
  · refine ⟨d.digits ++ Text.zeros _, none, none, by simp [decimalText]; rfl, by simp [hne], ?_,
      by simp, by simp⟩
    intro c hc
    rcases List.mem_append.mp hc with hc | hc
    · exact hd c hc
    · exact isDigit_of_mem_zeros hc
  split
  · next hp =>
      refine ⟨_, some _, none, by simp [decimalText]; rfl, ?_, htake _, ?_, by simp⟩
      · have : 0 < (d.leading + 1).toNat := by omega
        simp [hne]
        omega
      · rintro f ⟨⟩
        exact hdrop _
  · refine ⟨['0'], some _, none, by simp [decimalText]; rfl, by simp, by simp, ?_, by simp⟩
    rintro f ⟨⟩ c hc
    rcases List.mem_append.mp hc with hc | hc
    · exact isDigit_of_mem_zeros hc
    · exact hd c hc

/-- The text of a positive number is a numeral. -/
theorem lexes_numeralDigits (newline : Newline) (d : Decimal) :
    Lexes newline endsNumeral (String.ofList (numeralDigits d))
      [.numeral (String.ofList (numeralDigits d))] := by
  obtain ⟨whole, fraction, exponent, heq, hp⟩ := numeralDigits_eq d
  rw [heq]
  exact hp.lexes newline

theorem leads_digits {c : Char} (hc : c.isDigit = true) (cs : List Char) :
    leads Char.isDigit (String.ofList (c :: cs)) = true := by
  have hn : c ≠ '\n' := ne_of_set hc (by decide)
  unfold leads
  rw [String.toList_ofList]
  simp [hc, hn]

theorem leads_numeralDigits (d : Decimal) :
    leads Char.isDigit (String.ofList (numeralDigits d)) = true := by
  obtain ⟨whole, fraction, exponent, heq, hp⟩ := numeralDigits_eq d
  obtain ⟨c, cs, hw⟩ := List.exists_cons_of_ne_nil hp.whole_ne_nil
  rw [heq, hw]
  exact leads_digits (hp.whole_digits c (by rw [hw]; exact List.mem_cons_self)) _

/-- A natural number is a numeral. -/
theorem lexes_nat (newline : Newline) (n : Nat) :
    Lexes newline endsNumeral (toString n) [.numeral (toString n)] := by
  have hd : decimalText (Nat.toDigits 10 n) none none = Nat.toDigits 10 n := by
    simp [decimalText]
  have hp : DecimalParts (Nat.toDigits 10 n) none none :=
    ⟨Nat.toDigits_ne_nil, fun _ => isDigit_of_mem_toDigits, by simp, by simp⟩
  have := hp.lexes newline
  rwa [hd, ← Nat.toString_eq_ofList_toDigits] at this

end Numerals

end EcmaLua.Lua
