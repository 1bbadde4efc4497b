import EcmaLua.Proofs.DistinctNames
import EcmaLua.Proofs.Emission.Landing

/-!
# Names that generated code keeps for itself

Generated code calls support functions, mentions a few globals, and keeps values in locals of its
own. None of these names holds an escape or the mark of a reserved word, so that the identifiers
that are spelled like one of them are known: the name itself, unless the reserved words list it.
-/

namespace EcmaLua

namespace Lua

/-- A text that no escape and no mark of a reserved word can be part of. -/
structure PlainName (text : String) : Prop where
  chars : ∀ c ∈ text.toList, isNameChar c = true ∧ c ≠ 'U'
  mark : text.toList.take 2 ≠ ['_', 'R']

/-- A text without the letter of escapes is the spelled characters of itself only. -/
theorem eq_of_flatMap_spellChar {identifier text : List Char} (h : ∀ c ∈ text, c ≠ 'U')
    (heq : identifier.flatMap spellChar = text) : identifier = text := by
  have hkept : ∀ c ∈ identifier, isNameChar c = true := by
    intro c hc
    cases hname : isNameChar c with
    | true => rfl
    | false =>
      have hletter : 'U' ∈ text := by
        rw [← heq, List.mem_flatMap]
        exact ⟨c, hc, by simp [spellChar_escape hname]⟩
      exact absurd rfl (h 'U' hletter)
  rw [← heq, flatMap_spellChar_eq_self hkept]

/-- The identifiers that are spelled like a plain text. -/
theorem PlainName.spell_eq_iff {text : String} (h : PlainName text) (identifier : String) :
    spell identifier = text ↔ identifier = text ∧ text ∉ reserved := by
  constructor
  · intro heq
    by_cases hr : isReserved (String.ofList (identifier.toList.flatMap spellChar)) = true
    · rw [spell_of_reserved hr] at heq
      exact absurd (by rw [← heq]; simp) h.mark
    · rw [spell_of_not_reserved hr] at heq
      have hchars : identifier.toList.flatMap spellChar = text.toList := by
        rw [← heq, String.toList_ofList]
      have hid : identifier = text :=
        String.toList_inj.mp (eq_of_flatMap_spellChar (fun c hc => (h.chars c hc).2) hchars)
      refine ⟨hid, fun hmem => hr ?_⟩
      rw [heq]
      exact isReserved_iff.mpr hmem
  · rintro ⟨rfl, hmem⟩
    have hself : identifier.toList.flatMap spellChar = identifier.toList :=
      flatMap_spellChar_eq_self fun c hc => (h.chars c hc).1
    have hr : ¬ isReserved (String.ofList (identifier.toList.flatMap spellChar)) = true := by
      rw [hself, String.ofList_toList]
      exact fun hr => hmem (isReserved_iff.mp hr)
    rw [spell_of_not_reserved hr, hself, String.ofList_toList]

/-- Only a reserved word has the spelled characters of one. -/
theorem not_isReserved_of_not_mem {identifier : String} (h : identifier ∉ reserved) :
    ¬ isReserved (String.ofList (identifier.toList.flatMap spellChar)) = true := by
  intro hr
  have hword := isReserved_iff.mp hr
  have hid : identifier.toList =
      (String.ofList (identifier.toList.flatMap spellChar)).toList := by
    refine eq_of_flatMap_spellChar (fun c hc => ?_) (String.toList_ofList).symm
    exact (isNameChar_of_mem_reserved hword hc).2.1
  rw [← String.toList_inj.mp hid] at hword
  exact h hword

end Lua

namespace Emission

open Lua (Helper)

/-- The stems of the locals that generated code makes up. -/
def localStems : List String :=
  ["__tmp", "__TryStatus", "__TryReturnValue", "__CatchReturnValue", "__TryFinalizer",
    "__TryHandler"]

/-- The globals and the receiver that generated code mentions, support functions apart. -/
def ownNames : List String :=
  ["self", "null", "RegExp", Lua.globalObjects, "pcall", "error", "table", "bit32", "rawequal",
    "math"]

/-- A name that generated code keeps for itself. -/
inductive Internal : String → Prop
  | own {name : String} (h : name ∈ ownNames) : Internal name
  | helper (h : Helper) (global : h.library = none) : Internal h.name
  | numbered {stem : String} (h : stem ∈ localStems) (k : Nat) : Internal (stem ++ toString k)

/-- Whether a text is plain, computed. -/
def isPlainName (text : String) : Bool :=
  text.toList.all (fun c => Lua.isNameChar c && c != 'U') && text.toList.take 2 != ['_', 'R']

theorem plain_of_isPlainName {text : String} (h : isPlainName text = true) :
    Lua.PlainName text := by
  obtain ⟨hchars, hmark⟩ := Bool.and_eq_true_iff.mp h
  refine ⟨fun c hc => ?_, by simpa using hmark⟩
  simpa using List.all_eq_true.mp hchars c hc

theorem isNameChar_of_isDigit {c : Char} (h : c.isDigit = true) :
    Lua.isNameChar c = true ∧ c ≠ 'U' := by
  refine ⟨?_, ?_⟩
  · have hclass : Lua.isNameChar c = ((c.isUpper || c.isLower) || c.isDigit || c == '_') := rfl
    simp [hclass, h]
  · rintro rfl
    exact absurd h (by decide)

/-- A plain text of two characters at least stays plain with a number behind it. -/
theorem plain_numbered {stem : String} (h : isPlainName stem = true) (hl : 2 ≤ stem.toList.length)
    (k : Nat) : Lua.PlainName (stem ++ toString k) := by
  obtain ⟨hchars, hmark⟩ := plain_of_isPlainName h
  refine ⟨fun c hc => ?_, ?_⟩
  · rw [String.toList_append, Nat.toString_eq_ofList_toDigits, String.toList_ofList,
      List.mem_append] at hc
    rcases hc with hc | hc
    · exact hchars c hc
    · exact isNameChar_of_isDigit (Nat.isDigit_of_mem_toDigits (by decide) (by decide) hc)
  · rw [String.toList_append, List.take_append_of_le_length hl]
    exact hmark

theorem plain_landingName (k : Nat) : Lua.PlainName (landingName k) :=
  plain_numbered (by decide) (by decide) k

theorem Internal.plain {name : String} (h : Internal name) : Lua.PlainName name := by
  cases h with
  | own h =>
    have hall : ownNames.all isPlainName = true := by decide
    exact plain_of_isPlainName (List.all_eq_true.mp hall name h)
  | helper h => cases h <;> exact plain_of_isPlainName (by decide)
  | numbered h k =>
    have hall : localStems.all (fun stem => isPlainName stem && decide (2 ≤ stem.toList.length)) =
      true := by decide
    have hstem := List.all_eq_true.mp hall _ h
    simp only [Bool.and_eq_true, decide_eq_true_eq] at hstem
    exact plain_numbered hstem.1 hstem.2 k

theorem landingName_not_mem_reserved (k : Nat) : landingName k ∉ Lua.reserved := by
  intro hmem
  exact (Lua.isNameChar_of_mem_reserved hmem (c := '_') (by simp [landingName])).2.2 rfl

/-- A label is spelled like a landing only if it is the same text. -/
theorem spell_eq_landingName_iff (label : String) (k : Nat) :
    Lua.spell label = landingName k ↔ label = landingName k := by
  rw [(plain_landingName k).spell_eq_iff]
  exact and_iff_left (landingName_not_mem_reserved k)

/-- The label behind a labeled statement is how another label is spelled. -/
theorem spell_append_after {label : String} (h : label ∉ Lua.reserved) :
    Lua.spell (label ++ "__After") = afterLabel label := by
  have hsuffix : "__After".toList.flatMap Lua.spellChar = "__After".toList := by decide
  have hchars : (label ++ "__After").toList.flatMap Lua.spellChar =
      label.toList.flatMap Lua.spellChar ++ "__After".toList := by
    rw [String.toList_append, List.flatMap_append, hsuffix]
  have hr : ¬ Lua.isReserved
      (String.ofList ((label ++ "__After").toList.flatMap Lua.spellChar)) = true := by
    intro hr
    have hmem : '_' ∈
        (String.ofList ((label ++ "__After").toList.flatMap Lua.spellChar)).toList := by
      rw [String.toList_ofList, hchars]
      exact List.mem_append_right _ (by decide)
    exact (Lua.isNameChar_of_mem_reserved (Lua.isReserved_iff.mp hr) hmem).2.2 rfl
  rw [afterLabel, Lua.spell_of_not_reserved (Lua.not_isReserved_of_not_mem h),
    Lua.spell_of_not_reserved hr, hchars, String.ofList_append, String.ofList_toList]

end Emission

end EcmaLua
