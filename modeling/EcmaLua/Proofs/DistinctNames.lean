import Mathlib.Data.List.Infix
import EcmaLua.Proofs.Lua.Name
import EcmaLua.Proofs.VariableBinding

/-!
# Distinct spellings

The escapes and the mark of a spelled name are made of letters, digits and underscores, which
identifiers have as well. A spelling can be read back as long as the identifier holds no text that
reads like an escape and is not a reserved word behind the mark: among such identifiers different
ones have different Lua names, and the variables of a function have Lua locals of their own. Every
other identifier shares its Lua name with a different one.
-/

namespace EcmaLua

namespace Text

theorem hexValue?_digit : ∀ d < 16, hexValue? d.digitChar.toUpper = some d := by decide

/-- Hexadecimal digits read back. -/
theorem ofDigits_hexUpper (n : Nat) : ofDigits 16 (hexUpper n) = n := by
  induction n using Nat.strongRecOn with
  | ind n ih =>
    rw [hexUpper, Nat.toDigits_eq_if (by decide)]
    split
    · next hn => simp [ofDigits, hexValue?_digit n hn]
    · next hn =>
        have hdigit := hexValue?_digit (n % 16) (Nat.mod_lt n (by decide))
        have hfront : ofDigits 16 (hexUpper (n / 16)) = n / 16 :=
          ih (n / 16) (Nat.div_lt_self (by omega) (by decide))
        calc ofDigits 16 ((Nat.toDigits 16 (n / 16) ++ [(n % 16).digitChar]).map Char.toUpper)
            = ofDigits 16 (hexUpper (n / 16)) * 16 + n % 16 := by
              simp [ofDigits, hexUpper, hdigit]
          _ = n := by rw [hfront]; omega

theorem hexUpper_injective : Function.Injective hexUpper := by
  intro m n h
  rw [← ofDigits_hexUpper m, h, ofDigits_hexUpper]

theorem hexValue?_of_mem_hexUpper {n : Nat} {c : Char} (hc : c ∈ hexUpper n) :
    (hexValue? c).isSome = true := by
  obtain ⟨d, hd, rfl⟩ := List.mem_map.mp hc
  obtain ⟨k, hk, rfl⟩ := exists_digit_of_mem_toDigits (by decide) n hd
  rw [hexValue?_digit k hk]
  rfl

end Text

namespace Lua

/-- What stands between the first letter and the last underscore of an escape. -/
def escapeCode (c : Char) : List Char :=
  if c = '$' then ['S', 'D'] else Text.hexUpper c.toNat

theorem spellChar_of_isNameChar {c : Char} (h : isNameChar c = true) : spellChar c = [c] := by
  have hc : c ≠ '$' := by
    rintro rfl
    exact absurd h (by decide)
  rw [spellChar, if_neg hc, if_pos h]

theorem spellChar_escape {c : Char} (h : isNameChar c = false) :
    spellChar c = '_' :: 'U' :: (escapeCode c ++ ['_']) := by
  unfold spellChar escapeCode
  split
  · rfl
  · rw [if_neg (by simp [h])]

theorem underscore_not_mem_escapeCode (c : Char) : '_' ∉ escapeCode c := by
  unfold escapeCode
  split
  · decide
  · intro h
    exact absurd (Text.hexValue?_of_mem_hexUpper h) (by decide)

theorem escapeCode_injective : Function.Injective escapeCode := by
  have hdollar {c : Char} (hc : c ≠ '$') : escapeCode c ≠ escapeCode '$' := by
    intro h
    have hmem : 'S' ∈ Text.hexUpper c.toNat := by
      rw [escapeCode, if_neg hc] at h
      rw [h]
      decide
    exact absurd (Text.hexValue?_of_mem_hexUpper hmem) (by decide)
  intro x y h
  by_cases hx : x = '$'
  · by_cases hy : y = '$'
    · rw [hx, hy]
    · subst hx
      exact absurd h.symm (hdollar hy)
  · by_cases hy : y = '$'
    · subst hy
      exact absurd h (hdollar hx)
    · rw [escapeCode, escapeCode, if_neg hx, if_neg hy] at h
      exact Char.toNat_inj.mp (Text.hexUpper_injective h)

/-- An escape ends at its second underscore, so it shows which character it is for. -/
theorem escape_cancel {x y : Char} {s t : List Char}
    (h : escapeCode x ++ '_' :: s = escapeCode y ++ '_' :: t) : x = y ∧ s = t := by
  have hcut (c : Char) (rest : List Char) :
      (escapeCode c ++ '_' :: rest).takeWhile (· ≠ '_') = escapeCode c := by
    rw [List.takeWhile_append_of_pos fun d hd => ?_]
    · simp
    · have hne : d ≠ '_' := fun hd' => underscore_not_mem_escapeCode c (hd' ▸ hd)
      simpa using hne
  have hxy : x = y := by
    apply escapeCode_injective
    rw [← hcut x s, h, hcut]
  subst hxy
  exact ⟨rfl, (List.cons.inj (List.append_cancel_left h)).2⟩

/-- The text has an underscore from which on its spelling reads like an escaped character. -/
def Feigns (text : List Char) : Prop :=
  ∃ before after c, text = before ++ '_' :: after ∧ isNameChar c = false ∧
    spellChar c <+: '_' :: after.flatMap spellChar

/-- The identifier does not read like the spelling of another one. -/
structure IsClear (identifier : String) : Prop where
  escapes : ¬ Feigns identifier.toList
  mark : ∀ word ∈ reserved, identifier ≠ "_R_" ++ word

theorem Feigns.cons {text : List Char} (c : Char) (h : Feigns text) : Feigns (c :: text) := by
  obtain ⟨before, after, d, rfl, hd, hread⟩ := h
  exact ⟨c :: before, after, d, rfl, hd, hread⟩

/-- A character that is kept and one that is escaped begin alike only if the first is an
underscore that feigns an escape. -/
theorem feigns_of_kept {x y : Char} {xs t : List Char} (hx : isNameChar x = true)
    (hy : isNameChar y = false)
    (h : (x :: xs).flatMap spellChar = spellChar y ++ t) : Feigns (x :: xs) := by
  rw [List.flatMap_cons, spellChar_of_isNameChar hx] at h
  have hhead : x = '_' := by
    rw [spellChar_escape hy] at h
    exact (List.cons.inj h).1
  subst hhead
  exact ⟨[], xs, y, rfl, hy, ⟨t, h.symm⟩⟩

/-- Texts without feigned escapes are told apart by their spelled characters. -/
theorem flatMap_spellChar_inj : ∀ {xs ys : List Char}, ¬ Feigns xs → ¬ Feigns ys →
    xs.flatMap spellChar = ys.flatMap spellChar → xs = ys
  | [], [], _, _, _ => rfl
  | [], y :: ys, _, _, h => by
    have hnil : spellChar y = [] := (List.append_eq_nil_iff.mp h.symm).1
    exact absurd hnil (spellChar_ne_nil y)
  | x :: xs, [], _, _, h => by
    have hnil : spellChar x = [] := (List.append_eq_nil_iff.mp h).1
    exact absurd hnil (spellChar_ne_nil x)
  | x :: xs, y :: ys, hxs, hys, h => by
    have htails : xs.flatMap spellChar = ys.flatMap spellChar → xs = ys :=
      flatMap_spellChar_inj (fun hf => hxs (hf.cons x)) (fun hf => hys (hf.cons y))
    cases hx : isNameChar x with
    | true =>
      cases hy : isNameChar y with
      | true =>
        rw [List.flatMap_cons, List.flatMap_cons, spellChar_of_isNameChar hx,
          spellChar_of_isNameChar hy] at h
        obtain ⟨hhead, htail⟩ := List.cons.inj h
        rw [hhead, htails htail]
      | false => exact absurd (feigns_of_kept hx hy h) hxs
    | false =>
      cases hy : isNameChar y with
      | true => exact absurd (feigns_of_kept hy hx h.symm) hys
      | false =>
        rw [List.flatMap_cons, List.flatMap_cons, spellChar_escape hx,
          spellChar_escape hy] at h
        simp only [List.cons_append, List.append_assoc, List.nil_append,
          List.cons.injEq, true_and] at h
        obtain ⟨hhead, htail⟩ := escape_cancel h
        rw [hhead, htails htail]

/-- A text of name characters is spelled as it is. -/
theorem flatMap_spellChar_eq_self {text : List Char} (h : ∀ c ∈ text, isNameChar c = true) :
    text.flatMap spellChar = text := by
  induction text with
  | nil => rfl
  | cons c cs ih =>
    rw [List.flatMap_cons, spellChar_of_isNameChar (h c List.mem_cons_self),
      ih fun d hd => h d (List.mem_cons_of_mem c hd)]
    rfl

/-- A text with a feigned escape is spelled like one with the escaped character in its place. -/
theorem Feigns.exists_same {text : List Char} (h : Feigns text) :
    ∃ other, other ≠ text ∧ other.flatMap spellChar = text.flatMap spellChar := by
  obtain ⟨before, after, c, rfl, hc, rest, hread⟩ := h
  have hrest : ∀ d ∈ rest, isNameChar d = true := by
    intro d hd
    have hmem : d ∈ '_' :: after.flatMap spellChar := by
      rw [← hread]
      exact List.mem_append_right _ hd
    rcases List.mem_cons.mp hmem with rfl | hmem
    · rfl
    · obtain ⟨e, _, he⟩ := List.mem_flatMap.mp hmem
      exact isNameChar_of_mem_spellChar e he
  refine ⟨before ++ c :: rest, ?_, ?_⟩
  · intro heq
    have hhead : c = '_' := (List.cons.inj (List.append_cancel_left heq)).1
    subst hhead
    exact absurd hc (by decide)
  · have hkept : spellChar '_' = ['_'] := by decide
    rw [List.flatMap_append, List.flatMap_append, List.flatMap_cons, List.flatMap_cons,
      flatMap_spellChar_eq_self hrest, hread, hkept]
    rfl

/-- Behind the underscore of a feigned escape stand the letter of an escape and, later on, another
underscore. -/
theorem Feigns.exists_read {text : List Char} (h : Feigns text) :
    ∃ before after code rest, text = before ++ '_' :: after ∧
      after.flatMap spellChar = 'U' :: (code ++ '_' :: rest) := by
  obtain ⟨before, after, c, rfl, hc, rest, hread⟩ := h
  rw [spellChar_escape hc] at hread
  refine ⟨before, after, escapeCode c, rest, rfl, ?_⟩
  rw [← (List.cons.inj hread).2]
  exact congrArg (List.cons 'U') (List.append_assoc _ _ _)

theorem IsClear.of_tails {identifier : String}
    (h : ∀ tail ∈ identifier.toList.tails, tail.head? = some '_' →
      (tail.tail.flatMap spellChar).head? = some 'U' → '_' ∉ tail.tail.flatMap spellChar)
    (hmark : ∀ word ∈ reserved, identifier ≠ "_R_" ++ word) : IsClear identifier := by
  refine ⟨fun hf => ?_, hmark⟩
  obtain ⟨before, after, code, rest, htext, hread⟩ := hf.exists_read
  have htail : '_' :: after ∈ identifier.toList.tails := by
    rw [List.mem_tails, htext]
    exact List.suffix_append before _
  exact h _ htail rfl (by simp [hread]) (by simp [hread])

theorem spell_of_reserved {identifier : String}
    (h : isReserved (String.ofList (identifier.toList.flatMap spellChar)) = true) :
    spell identifier = "_R_" ++ String.ofList (identifier.toList.flatMap spellChar) :=
  if_pos h

theorem spell_of_not_reserved {identifier : String}
    (h : ¬ isReserved (String.ofList (identifier.toList.flatMap spellChar)) = true) :
    spell identifier = String.ofList (identifier.toList.flatMap spellChar) :=
  if_neg h

/-- The spelled characters decide the spelling. -/
theorem spell_congr {a b : String}
    (h : a.toList.flatMap spellChar = b.toList.flatMap spellChar) : spell a = spell b := by
  simp only [spell, h]

theorem reserved_chars : ∀ word ∈ reserved,
    word.toList.all (fun c => c.isLower || c.isDigit) = true := by decide

theorem isNameChar_of_mem_reserved {word : String} (hword : word ∈ reserved) {c : Char}
    (hc : c ∈ word.toList) : isNameChar c = true ∧ c ≠ 'U' ∧ c ≠ '_' := by
  have h : (c.isLower || c.isDigit) = true :=
    List.all_eq_true.mp (reserved_chars word hword) c hc
  refine ⟨?_, ?_, ?_⟩
  · have hclass : isNameChar c = ((c.isUpper || c.isLower) || c.isDigit || c == '_') := rfl
    rcases Bool.or_eq_true_iff.mp h with h | h <;> simp [hclass, h]
  · rintro rfl
    exact absurd h (by decide)
  · rintro rfl
    exact absurd h (by decide)

theorem isNameChar_of_mem_marked {word : String} (hword : word ∈ reserved) :
    ∀ c ∈ ("_R_" ++ word).toList, isNameChar c = true ∧ c ≠ 'U' := by
  intro c hc
  rw [String.toList_append] at hc
  rcases List.mem_append.mp hc with hc | hc
  · have hmark : "_R_".toList.all (fun c => isNameChar c && c != 'U') = true := by decide
    simpa using List.all_eq_true.mp hmark c hc
  · obtain ⟨hname, hletter, -⟩ := isNameChar_of_mem_reserved hword hc
    exact ⟨hname, hletter⟩

/-- A reserved word and the same word behind the mark have one Lua name. -/
theorem spell_reserved {word : String} (hword : word ∈ reserved) :
    spell word = spell ("_R_" ++ word) := by
  have hself : word.toList.flatMap spellChar = word.toList :=
    flatMap_spellChar_eq_self fun c hc => (isNameChar_of_mem_reserved hword hc).1
  have hmarked : ("_R_" ++ word).toList.flatMap spellChar = ("_R_" ++ word).toList :=
    flatMap_spellChar_eq_self fun c hc => (isNameChar_of_mem_marked hword c hc).1
  have hnot : "_R_" ++ word ∉ reserved := by
    intro hmem
    exact (isNameChar_of_mem_reserved hmem (c := '_') (by simp)).2.2 rfl
  have hword' : isReserved (String.ofList (word.toList.flatMap spellChar)) = true := by
    rw [hself, String.ofList_toList]
    exact isReserved_iff.mpr hword
  have hnot' : ¬ isReserved (String.ofList (("_R_" ++ word).toList.flatMap spellChar)) = true := by
    rw [hmarked, String.ofList_toList]
    exact fun h => hnot (isReserved_iff.mp h)
  rw [spell_of_reserved hword', spell_of_not_reserved hnot', hself, hmarked,
    String.ofList_toList, String.ofList_toList]

/-- A reserved word behind the mark is read back from its characters. -/
theorem eq_marked {identifier word : String} (hclear : ¬ Feigns identifier.toList)
    (hword : word ∈ reserved)
    (h : identifier.toList.flatMap spellChar = ("_R_" ++ word).toList) :
    identifier = "_R_" ++ word := by
  have hself : ("_R_" ++ word).toList.flatMap spellChar = ("_R_" ++ word).toList :=
    flatMap_spellChar_eq_self fun c hc => (isNameChar_of_mem_marked hword c hc).1
  have hnone : ¬ Feigns ("_R_" ++ word).toList := by
    intro hf
    obtain ⟨before, after, code, rest, htext, hread⟩ := hf.exists_read
    have hletter : 'U' ∈ ("_R_" ++ word).toList := by
      rw [← hself, htext, List.flatMap_append, List.flatMap_cons, hread]
      simp
    exact (isNameChar_of_mem_marked hword 'U' hletter).2 rfl
  exact String.toList_inj.mp (flatMap_spellChar_inj hclear hnone (h.trans hself.symm))

/-- A clear identifier whose spelling has no mark is not spelled like a marked word. -/
theorem IsClear.ne_marked {a b : String} (ha : IsClear a)
    (hb : isReserved (String.ofList (b.toList.flatMap spellChar)) = true) :
    String.ofList (a.toList.flatMap spellChar) ≠
      "_R_" ++ String.ofList (b.toList.flatMap spellChar) := by
  intro h
  have hword := isReserved_iff.mp hb
  have hchars := congrArg String.toList h
  rw [String.toList_ofList] at hchars
  exact ha.mark _ hword (eq_marked ha.escapes hword hchars)

/-- Clear identifiers are told apart by their Lua names. -/
theorem IsClear.eq_of_spell {a b : String} (ha : IsClear a) (hb : IsClear b)
    (h : spell a = spell b) : a = b := by
  have hread (heq : String.ofList (a.toList.flatMap spellChar) =
      String.ofList (b.toList.flatMap spellChar)) : a = b :=
    String.toList_inj.mp
      (flatMap_spellChar_inj ha.escapes hb.escapes (String.ofList_injective heq))
  by_cases hra : isReserved (String.ofList (a.toList.flatMap spellChar)) = true
  · by_cases hrb : isReserved (String.ofList (b.toList.flatMap spellChar)) = true
    · rw [spell_of_reserved hra, spell_of_reserved hrb] at h
      exact hread (String.append_right_inj _ |>.mp h)
    · rw [spell_of_reserved hra, spell_of_not_reserved hrb] at h
      exact absurd h.symm (hb.ne_marked hra)
  · by_cases hrb : isReserved (String.ofList (b.toList.flatMap spellChar)) = true
    · rw [spell_of_not_reserved hra, spell_of_reserved hrb] at h
      exact absurd h (ha.ne_marked hrb)
    · rw [spell_of_not_reserved hra, spell_of_not_reserved hrb] at h
      exact hread h

/-- An identifier that is not clear shares its Lua name. -/
theorem exists_same_spelling {a : String} (h : ¬ IsClear a) : ∃ b, b ≠ a ∧ spell b = spell a := by
  by_cases hf : Feigns a.toList
  · obtain ⟨other, hne, hsame⟩ := hf.exists_same
    refine ⟨String.ofList other, ?_, spell_congr ?_⟩
    · rintro rfl
      exact hne String.toList_ofList.symm
    · rw [String.toList_ofList, hsame]
  · have hmark : ∃ word ∈ reserved, a = "_R_" ++ word := by
      by_contra hnone
      push Not at hnone
      exact h ⟨hf, hnone⟩
    obtain ⟨word, hword, rfl⟩ := hmark
    refine ⟨word, fun heq => ?_, spell_reserved hword⟩
    have hlength := congrArg String.length heq
    rw [String.length_append] at hlength
    have hmark : "_R_".length = 3 := rfl
    omega

end Lua

/-- Clear identifiers that differ have Lua names that differ, so a function with clear names has a
Lua local for each of its parameters, functions and variables. The condition is exact: an
identifier that is not clear has the Lua name of a different one. -/
theorem clear_names_stay_distinct (a : String) (bound : List String) (body : List Stmt) :
    (Lua.IsClear a → ∀ b, Lua.IsClear b → a ≠ b → Lua.spell a ≠ Lua.spell b) ∧
    (¬ Lua.IsClear a → ∃ b, b ≠ a ∧ Lua.spell b = Lua.spell a) ∧
    (bound.Nodup → (∀ n ∈ ownNames bound body, Lua.IsClear n) →
      ((ownNames bound body).map Lua.spell).Nodup) := by
  refine ⟨fun ha b hb hne h => hne (ha.eq_of_spell hb h), Lua.exists_same_spelling, ?_⟩
  intro hbound hclear
  refine (nodup_ownNames hbound body).map_on ?_
  intro m hm n hn h
  exact (hclear m hm).eq_of_spell (hclear n hn) h

/-- Declarations of names with a dollar sign, a letter outside ASCII, a reserved word and an
underscore before a capital. -/
def mixedNames : List Stmt :=
  [.varStmt .var [⟨"$", none⟩, ⟨"MY_URL", none⟩, ⟨"end", none⟩, ⟨"$end", none⟩]]

theorem isClear_mixedNames :
    ∀ n ∈ ownNames ["é", "_R_ends"] mixedNames, Lua.IsClear n := by
  have hchars : ∀ n ∈ ownNames ["é", "_R_ends"] mixedNames, ∀ tail ∈ n.toList.tails,
      tail.head? = some '_' → (tail.tail.flatMap Lua.spellChar).head? = some 'U' →
        '_' ∉ tail.tail.flatMap Lua.spellChar := by decide
  have hmark : ∀ n ∈ ownNames ["é", "_R_ends"] mixedNames, ∀ word ∈ Lua.reserved,
      n ≠ "_R_" ++ word := by decide
  exact fun n hn => .of_tails (hchars n hn) (hmark n hn)

theorem mixedNames_stay_distinct :
    (∀ n ∈ ownNames ["é", "_R_ends"] mixedNames, Lua.IsClear n) ∧
      (ownNames ["é", "_R_ends"] mixedNames).map Lua.spell =
        ["_UE9_", "_R_ends", "_USD_", "MY_URL", "_R_end", "_USD_end"] ∧
      ((ownNames ["é", "_R_ends"] mixedNames).map Lua.spell).Nodup :=
  ⟨isClear_mixedNames, by decide,
    (clear_names_stay_distinct "$" _ _).2.2 (by decide) isClear_mixedNames⟩

/-- Two variables, the second with the spelling of the first as its name. -/
def mergedNames : Program :=
  ⟨[.varStmt .var [⟨"$", some (.lit (.bool true))⟩, ⟨"_USD_", some (.lit (.bool false))⟩],
    .exprStmt (.call (.ident "f") [.ident "$", .ident "_USD_"])]⟩

/-- Different identifiers with one Lua name, and two variables that become one. -/
theorem names_are_merged :
    (Lua.spell "$" = Lua.spell "_USD_" ∧ Lua.spell "é" = Lua.spell "_UE9_" ∧
      Lua.spell "end" = Lua.spell "_R_end" ∧ Lua.spell "$USD_" = Lua.spell "_USD$") ∧
    mergedNames.hoist.emit.chunk.body =
      [.marker "BEGIN", .declare ["_USD_", "_USD_"], .assign (.name "_USD_") (.bool true),
        .assign (.name "_USD_") (.bool false),
        .call (.call (.read "f") [.read "_USD_", .read "_USD_"]), .marker "END"] :=
  ⟨by decide, rfl⟩

end EcmaLua
