import EcmaLua.Proofs.Emission.Sites
import EcmaLua.Proofs.LineTerminators

/-!
# Checked reads

The check of reads changes nothing about a text but the spellings of some identifiers, each of
which gets a call around it. Both texts are spelled from one row of pieces, so that the lines, the
parentheses, the semicolons and the made-up names are the same with the check and without it,
although the printer looks at finished texts to decide about them. The names among the pieces are,
in order, the sites of the program: it is the site that decides whether its name gets a call.
-/

namespace EcmaLua

open Emission

namespace Lua

/-- The characters of a piece, with a spelling for checked names. -/
def Piece.spelled (s : Settings) (read : String → List Char) : Piece → List Char
  | .read _ name => read name
  | piece => (piece.text s).toList

/-- A call around a checked name. -/
def wrapped (name : String) : List Char :=
  "__RefCheck(".toList ++ name.toList ++ ")".toList

/-- The check decides about checked names only. -/
theorem Piece.chars_refGuard (s : Settings) (refGuard : Bool) (pieces : List Piece) :
    chars { s with refGuard } pieces =
      pieces.flatMap (spelled s (if refGuard then wrapped else String.toList)) := by
  refine congrArg (pieces.flatMap ·) (funext fun piece => ?_)
  cases piece with
  | read side name =>
    rw [text_read, spelled]
    cases refGuard with
    | false => rfl
    | true => exact (List.append_assoc ..).symm
  | _ => rfl

/-- A checked name is a name of Lua, and not what an assignment writes to. -/
def Spot.IsRead : Spot → Prop
  | .read side name => side = .right ∧ isName name = true
  | .word _ _ | .note _ | .marker _ => True

theorem readText_eq_cons {name : String} (h : isName name = true) (s : Settings) :
    ∃ c cs, (readText s name).toList = c :: cs ∧ isNameStart c = true := by
  unfold readText
  split
  · refine ⟨'_', "_RefCheck(".toList ++ (name.toList ++ [')']), ?_, rfl⟩
    rw [String.toList_append, String.toList_append, List.append_assoc]
    rfl
  · unfold isName at h
    split at h
    · exact absurd h Bool.false_ne_true
    · next c cs hl =>
        simp only [Bool.and_eq_true] at h
        exact ⟨c, cs, hl, h.1.1⟩

theorem look_of_isNameStart {c : Char} (h : isNameStart c = true) (rest : List Char) :
    look (c :: rest) = (false, false) := by
  have hne {d : Char} (hd : isNameStart d = false) : (c == d) = false := by
    rw [beq_eq_false_iff_ne]
    rintro rfl
    rw [h] at hd
    exact absurd hd (by decide)
  have hquote : (c == '"') = false := hne (by decide)
  have hbrace : (c == '\x7b') = false := hne (by decide)
  have hparen : (c == '(') = false := hne (by decide)
  simp only [look, List.head?_cons, Option.any_some, isDigit_eq_false h, hquote, hbrace,
    Bool.or_self]
  simpa using hparen

/-- A checked name is no word that needs parentheses, with the check or without it. -/
theorem readText_not_mem_bareWords {name : String} (h : isName name = true) (s : Settings) :
    readText s name ∉ bareWords := by
  have hwords : ∀ word ∈ bareWords, word ∈ keywords ∧ '(' ∉ word.toList := by decide
  intro hm
  obtain ⟨hkeyword, hparen⟩ := hwords _ hm
  unfold readText at hkeyword hparen
  split at hkeyword
  · next hs =>
      rw [if_pos hs] at hparen
      exact hparen (by simp)
  · unfold isName at h
    split at h
    · exact absurd h Bool.false_ne_true
    · simp [hkeyword] at h

/-- The printer decides the same about every text, with the check and without it. -/
theorem agreeing_isRead : Agreeing Spot.IsRead fun _ => True := by
  intro s s' _ _
  constructor
  · intro side name rest rest' ha _
    obtain ⟨c, cs, hl, hc⟩ := readText_eq_cons ha.2 s
    obtain ⟨c', cs', hl', hc'⟩ := readText_eq_cons ha.2 s'
    rw [hl, hl', List.cons_append, List.cons_append, look_of_isNameStart hc,
      look_of_isNameStart hc']
  · intro side name ha hbare
    exact absurd hbare (readText_not_mem_bareWords ha.2 s)

end Lua

theorem Landmark.isRead_of_mem {marks : List Landmark} {side : Lua.Side} {name : String}
    (h : ∀ site ∈ marks.filterMap Landmark.site?, isIdentifier site.name = true)
    (hs : .read side name ∈ Landmark.spotsList marks) : side = .right ∧ Lua.isName name = true := by
  obtain ⟨spot, hspot, hshown⟩ := List.mem_flatMap.mp hs
  obtain ⟨mark, hmem, rfl⟩ := List.mem_map.mp hspot
  cases mark with
  | phase phase => simp at hshown
  | site site =>
    rw [Landmark.spot, Site.spot] at hshown
    split at hshown
    · obtain ⟨rfl, rfl⟩ : side = .right ∧ name = Lua.spell site.name := by
        simpa [Lua.Spot.shown] using hshown
      exact ⟨rfl, Lua.isName_spell (h site (List.mem_filterMap.mpr ⟨_, hmem, rfl⟩))⟩
    · rw [Lua.Spot.shown] at hshown
      split at hshown <;> simp at hshown

/-- A checked spot shows itself. -/
theorem Lua.isRead_of_shown {spots : List Spot}
    (h : ∀ side name, .read side name ∈ shown spots → side = .right ∧ isName name = true)
    {spot : Spot} (hs : spot ∈ spots) : spot.IsRead := by
  cases spot with
  | read side name =>
    exact h side name (List.mem_flatMap.mpr ⟨_, hs, List.mem_singleton.mpr rfl⟩)
  | word | note | marker => trivial

/-- A site that is written or inspected keeps its bare name, and of the bound names all but
variables do. -/
theorem Site.spot_of_exempt {site : Site}
    (h : site.mention = .written ∨ site.mention = .inspected ∨
      ∃ role, role ≠ .var ∧ site.resolution = .bound role) :
    site.spot = .word .mention (Lua.spell site.name) := by
  have hchecked : site.isChecked = false := by
    rcases h with h | h | ⟨role, hvar, h⟩
    · simp [Site.isChecked, h]
    · simp [Site.isChecked, h]
    · cases role <;> simp_all [Site.isChecked]
  rw [Site.spot, hchecked]
  rfl

/-- A program that mentions names of every kind: variables, parameters, functions, its own
arguments, names that a `with` object may hold, and names that need another spelling. -/
def mentions : Program where
  body := [
    .varStmt .var [⟨"$v", some (.ident "init")⟩],
    .funcStmt ⟨some "f", ["a"], [
      .exprStmt (.assign none (.member (.ident "a") "x") (.ident "b")),
      .returnStmt (some (.binary .add (.unary .typeof (.ident "b"))
        (.update .increment false (.ident "$v"))))]⟩,
    .withStmt (.ident "o")
      (.exprStmt (.call (.ident "p") [.ident "f", .ident "undefined"])) .nowhere,
    .exprStmt (.call (.func ⟨some "self", [], [.exprStmt (.call (.ident "self")
      [.index (.ident "arguments") (.ident "é")])]⟩) []),
    .tryStmt [] [⟨some "e", [.throwStmt (.ident "e")]⟩] none .nowhere]


end EcmaLua
