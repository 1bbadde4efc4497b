import Mathlib.Tactic.Common
import EcmaLua.Emission.Control

/-!
# Spelled names

Every identifier that is not empty and does not start with a digit is spelled as a Lua name;
so is the label behind a labeled statement, and every made-up name.
-/

namespace EcmaLua

/-- Whether a text can be an identifier or a label of a program. -/
def isIdentifier (text : String) : Bool :=
  match text.toList with
  | [] => false
  | c :: _ => !c.isDigit

namespace Text

theorem exists_digit_of_mem_toDigits {b : Nat} (hb : 1 < b) (n : Nat) {c : Char}
    (hc : c ∈ Nat.toDigits b n) : ∃ d < b, c = d.digitChar := by
  induction n using Nat.strongRecOn with
  | ind n ih =>
    rw [Nat.toDigits_eq_if hb] at hc
    split at hc
    · next hn => exact ⟨n, hn, List.mem_singleton.mp hc⟩
    · next hn =>
        rw [List.mem_append, List.mem_singleton] at hc
        rcases hc with hc | hc
        · exact ih (n / b) (Nat.div_lt_self (by omega) hb) hc
        · exact ⟨n % b, Nat.mod_lt n (by omega), hc⟩

theorem isAlphanum_of_mem_hexUpper (n : Nat) {c : Char} (hc : c ∈ hexUpper n) :
    c.isAlphanum = true := by
  obtain ⟨d, hd, rfl⟩ := List.mem_map.mp hc
  obtain ⟨k, hk, rfl⟩ := exists_digit_of_mem_toDigits (by decide) n hd
  clear hc hd
  revert k
  decide

end Text

namespace Lua

theorem isNameChar_of_isNameStart {c : Char} (h : isNameStart c = true) :
    isNameChar c = true := by
  simp only [isNameStart, isNameChar, Char.isAlphanum, Bool.or_eq_true] at h ⊢
  exact h.imp_left Or.inl

theorem isNameStart_of_isNameChar {c : Char} (h : isNameChar c = true)
    (hd : c.isDigit = false) : isNameStart c = true := by
  simp only [isNameStart, isNameChar, Char.isAlphanum, Bool.or_eq_true] at h ⊢
  rcases h with (h | h) | h
  · exact Or.inl h
  · simp [hd] at h
  · exact Or.inr h

theorem spellChar_ne_nil (c : Char) : spellChar c ≠ [] := by
  unfold spellChar
  split
  · exact List.cons_ne_nil _ _
  split <;> exact List.cons_ne_nil _ _

theorem isNameChar_of_mem_spellChar (c : Char) {d : Char} (hd : d ∈ spellChar c) :
    isNameChar d = true := by
  unfold spellChar at hd
  split at hd
  · have hall : ['_', 'U', 'S', 'D', '_'].all isNameChar = true := by decide
    exact List.all_eq_true.mp hall d hd
  split at hd
  · next hc => rwa [List.mem_singleton.mp hd]
  · simp only [List.mem_cons, List.mem_append, List.not_mem_nil, or_false] at hd
    rcases hd with rfl | rfl | hd | rfl
    · rfl
    · rfl
    · simp [isNameChar, Text.isAlphanum_of_mem_hexUpper _ hd]
    · rfl

/-- The first character of a spelling. -/
theorem spellChar_eq_cons {c : Char} (hc : c.isDigit = false) :
    ∃ d ds, spellChar c = d :: ds ∧ isNameStart d = true := by
  unfold spellChar
  split
  · exact ⟨_, _, rfl, rfl⟩
  split
  · next h => exact ⟨c, [], rfl, isNameStart_of_isNameChar h hc⟩
  · exact ⟨_, _, rfl, rfl⟩

/-- A text that starts like a name and goes on like one, and is no keyword, is a name. -/
theorem isNameChar_of_isName {text : String} (h : isName text = true) {c : Char}
    (hc : c ∈ text.toList) : isNameChar c = true := by
  unfold isName at h
  split at h
  · exact absurd h (by simp)
  · next d ds heq =>
      simp only [Bool.and_eq_true, List.all_eq_true] at h
      rw [heq] at hc
      rcases List.mem_cons.mp hc with rfl | hc
      · exact isNameChar_of_isNameStart h.1.1
      · exact h.1.2 c hc

theorem isName_of_chars {text : String} {c : Char} {cs : List Char} (hl : text.toList = c :: cs)
    (hc : isNameStart c = true) (hcs : ∀ d ∈ cs, isNameChar d = true)
    (hk : text ∉ keywords) : isName text = true := by
  simp only [isName, hl, hc, Bool.true_and, Bool.and_eq_true, Bool.not_eq_true']
  exact ⟨List.all_eq_true.mpr hcs, by simpa using hk⟩

theorem isReserved_iff {name : String} : isReserved name = true ↔ name ∈ reserved := by
  rw [isReserved, List.contains_iff_mem]

theorem not_mem_reserved_of_underscore {text : String} (h : '_' ∈ text.toList) :
    text ∉ reserved := by
  intro hr
  have hall : ∀ word ∈ reserved, '_' ∉ word.toList := by decide
  exact hall text hr h

theorem not_mem_keywords {text : String} (h : text ∉ reserved) : text ∉ keywords :=
  fun hk => h (List.mem_append_left _ hk)

theorem isNameChar_of_mem_spell (identifier : String) {c : Char}
    (hc : c ∈ (spell identifier).toList) : isNameChar c = true := by
  have hs {d : Char} (hd : d ∈ identifier.toList.flatMap spellChar) : isNameChar d = true := by
    obtain ⟨e, _, he⟩ := List.mem_flatMap.mp hd
    exact isNameChar_of_mem_spellChar e he
  simp only [spell] at hc
  split at hc
  · have hr : "_R_".toList.all isNameChar = true := by decide
    rw [String.toList_append, List.mem_append] at hc
    rcases hc with hc | hc
    · exact List.all_eq_true.mp hr c hc
    · exact hs (by simpa using hc)
  · rw [String.toList_ofList] at hc
    exact hs hc

theorem spell_ne_empty {identifier : String} (h : identifier ≠ "") : spell identifier ≠ "" := by
  obtain ⟨c, cs, hc⟩ := List.exists_cons_of_ne_nil (mt String.toList_eq_nil_iff.mp h)
  have hspelled : identifier.toList.flatMap spellChar ≠ [] := by
    rw [hc, List.flatMap_cons]
    exact List.append_ne_nil_of_left_ne_nil (spellChar_ne_nil c) _
  refine mt (congrArg String.toList) ?_
  simp only [spell]
  split
  · rw [String.toList_append]
    exact List.append_ne_nil_of_left_ne_nil (by decide) _
  · rwa [String.toList_ofList]

/-- The spelling of an identifier starts like a name. -/
theorem spell_eq_cons {identifier : String} (h : isIdentifier identifier = true) :
    ∃ c cs, (spell identifier).toList = c :: cs ∧ isNameStart c = true := by
  simp only [spell]
  split
  · exact ⟨'_', _, by rw [String.toList_append]; rfl, rfl⟩
  · unfold isIdentifier at h
    cases hl : identifier.toList with
    | nil => simp [hl] at h
    | cons c cs =>
      obtain ⟨d, ds, hd, hs⟩ := spellChar_eq_cons (c := c) (by simpa [hl] using h)
      exact ⟨d, ds ++ cs.flatMap spellChar, by simp [hd], hs⟩

/-- The mark has underscores, and a spelling without it was found not to be reserved. -/
theorem spell_not_mem_reserved (identifier : String) : spell identifier ∉ reserved := by
  simp only [spell]
  split
  · exact not_mem_reserved_of_underscore (by simp)
  · next hr => exact fun hmem => hr (isReserved_iff.mpr hmem)

/-- An identifier is spelled as a name. -/
theorem isName_spell {identifier : String} (h : isIdentifier identifier = true) :
    isName (spell identifier) = true := by
  obtain ⟨c, cs, hl, hc⟩ := spell_eq_cons h
  refine isName_of_chars hl hc (fun d hd => ?_)
    (not_mem_keywords (spell_not_mem_reserved identifier))
  exact isNameChar_of_mem_spell identifier (by rw [hl]; exact List.mem_cons_of_mem c hd)

theorem afterLabel_not_mem_reserved (label : String) : Emission.afterLabel label ∉ reserved :=
  not_mem_reserved_of_underscore (by simp [Emission.afterLabel])

/-- The label behind a labeled statement is a name. -/
theorem isName_afterLabel {label : String} (h : isIdentifier label = true) :
    isName (Emission.afterLabel label) = true := by
  obtain ⟨c, cs, hl, hc⟩ := spell_eq_cons h
  have ha : (Emission.afterLabel label).toList = c :: (cs ++ "__After".toList) := by
    simp [Emission.afterLabel, hl]
  refine isName_of_chars ha hc (fun d hd => ?_)
    (not_mem_keywords (afterLabel_not_mem_reserved label))
  rcases List.mem_append.mp hd with hd | hd
  · exact isNameChar_of_mem_spell label (by rw [hl]; exact List.mem_cons_of_mem c hd)
  · have hall : "__After".toList.all isNameChar = true := by decide
    exact List.all_eq_true.mp hall d hd

/-- A stem with an underscore in front makes names with every number. -/
theorem isName_numbered {stem : String} {cs : List Char} (hl : stem.toList = '_' :: cs)
    (hc : cs.all isNameChar = true) (n : Nat) : isName (stem ++ toString n) = true := by
  have ha : (stem ++ toString n).toList = '_' :: (cs ++ Nat.toDigits 10 n) := by
    rw [String.toList_append, hl, Nat.toString_eq_ofList_toDigits, String.toList_ofList]
    rfl
  refine isName_of_chars ha rfl (fun d hd => ?_)
    (not_mem_keywords (not_mem_reserved_of_underscore (by simp [hl])))
  rcases List.mem_append.mp hd with hd | hd
  · exact List.all_eq_true.mp hc d hd
  · simp [isNameChar, Char.isAlphanum, Nat.isDigit_of_mem_toDigits (by decide) (by decide) hd]

end Lua

end EcmaLua
