import EcmaLua.Lua.Printer
import EcmaLua.Proofs.Lua.Jumps
import EcmaLua.Proofs.Lua.Legible
import EcmaLua.Proofs.Lua.Spots

/-!
# Pieces of a text

A text of a chunk is a row of pieces that does not depend on the settings: the settings only
decide how a checked name and a marking comment are spelled. A row of pieces is a course from one
position in a line to another. The positions keep names apart from the words beside them, a checked
name from the sign of an assignment, and marking comments at the ends of lines; the texts between
have no control characters, and none ends like a marking comment.
-/

namespace EcmaLua.Lua

/-- A piece of a text. -/
inductive Piece where
  /-- a literal, or a text of the printer's own -/
  | plain (literal : Bool) (text : String)
  /-- a name that is written as it is -/
  | word (role : WordRole) (text : String)
  /-- a name that is wrapped when the settings ask for it -/
  | read (side : Side) (name : String)
  /-- a comment for a construct, with a blank before it or not -/
  | note (apart : Bool) (text : String)
  | indentation (depth : Nat)
  | newline
  /-- a line with a marking comment, when the settings ask for it -/
  | marker (depth : Nat) (text : String)
  /-- a marking comment behind the text of a line, when the settings ask for it -/
  | remark (text : String)

namespace Piece

/-- How the settings spell a piece. -/
def text (settings : Settings) : Piece → String
  | .plain _ text | .word _ text => text
  | .read _ name => readText settings name
  | .note apart text => (if apart then " " else "") ++ noteText text
  | .indentation depth => Lua.indentation depth
  | .newline => "\n"
  | .marker depth text => if settings.markers then line depth (markerText settings text) else ""
  | .remark text => if settings.markers then " " ++ markerText settings text else ""

theorem text_read (settings : Settings) (side : Side) (name : String) :
    ((read side name).text settings).toList =
      if settings.refGuard then (Helper.refCheck.name ++ "(").toList ++ (name.toList ++ [')'])
      else name.toList := by
  change (readText settings name).toList = _
  unfold readText
  split
  · rw [String.toList_append, String.toList_append, List.append_assoc]
    rfl
  · rfl

theorem text_newline (settings : Settings) : (newline.text settings).toList = ['\n'] := by
  simp [text]

theorem text_note (settings : Settings) (apart : Bool) (text : String) :
    ((note apart text).text settings).toList = (if apart then [' '] else []) ++
      ('-' :: '-' :: '[' :: '[' :: (text.toList ++ [']', ']'])) := by
  cases apart <;> simp [Piece.text, noteText]

theorem text_remark (settings : Settings) (text : String) :
    ((remark text).text settings).toList =
      if settings.markers then ' ' :: '-' :: '-' :: ' ' :: text.toList else [] := by
  cases hm : settings.markers <;> simp [Piece.text, markerText, hm]

theorem text_marker (settings : Settings) (depth : Nat) (text : String) :
    ((marker depth text).text settings).toList =
      if settings.markers then
        List.replicate (4 * depth) ' ' ++ ('-' :: '-' :: ' ' :: (text.toList ++ ['\n']))
      else [] := by
  cases hm : settings.markers <;> simp [Piece.text, markerText, line, Lua.indentation, hm]

theorem text_indentation (settings : Settings) (depth : Nat) :
    ((indentation depth).text settings).toList = List.replicate (4 * depth) ' ' := by
  simp [text, Lua.indentation]

/-- The spots of a piece. -/
def spots : Piece → List Spot
  | .plain true text => [.word .literal text]
  | .word role text => [.word role text]
  | .read side name => [.read side name]
  | .note _ text => [.note text]
  | .marker _ text => [.marker text]
  | _ => []

/-- The characters of pieces in a row. -/
def chars (settings : Settings) (pieces : List Piece) : List Char :=
  pieces.flatMap fun piece => (piece.text settings).toList

theorem chars_cons (settings : Settings) (piece : Piece) (rest : List Piece) :
    chars settings (piece :: rest) = (piece.text settings).toList ++ chars settings rest := rfl

theorem chars_append (settings : Settings) (a b : List Piece) :
    chars settings (a ++ b) = chars settings a ++ chars settings b :=
  List.flatMap_append

end Piece

/-- A position in the text. -/
inductive Position where
  /-- before the indentation of a line -/
  | start
  /-- where a word can begin -/
  | ready
  /-- behind a word or an expression that ends on the given side -/
  | behind (side : Side)
  /-- behind a marking comment -/
  | remarked
deriving DecidableEq, Repr

namespace Position

/-- Whether a text is, or may become, the sign of an assignment. -/
def signs (text : List Char) : Bool :=
  " = ".toList.isPrefixOf text || text.isPrefixOf " = ".toList

/-- Whether a text can follow. -/
def admits : Position → List Char → Bool
  | .ready, _ => true
  | .behind .left, text => !text.head?.any isNameChar
  | .behind .right, text => !text.head?.any isNameChar && !signs text
  | _, _ => false

/-- Whether a text leads here. -/
def ends : Position → List Char → Bool
  | .ready, text => !text.getLast?.any isNameChar
  | .behind _, _ => true
  | _, _ => false

/-- Whether the position lies within a line. -/
def inLine : Position → Bool
  | .ready | .behind _ => true
  | _ => false

/-- What can follow behind a word can follow where a word can begin. -/
inductive Within : Position → Position → Prop
  | refl (a : Position) : Within a a
  | behind (side : Side) : Within .ready (.behind side)

end Position

/-- Whether a text leads from one position to another. -/
def fits (a : Position) (text : String) (b : Position) : Bool :=
  !text.toList.isEmpty && legible text.toList && a.admits text.toList && b.ends text.toList

/-- Whether all words in a text are keywords. -/
def hasKeywordsOnly (text : String) : Bool :=
  (text.toList.splitOnP fun c => !isNameChar c).all fun word =>
    word.isEmpty || keywords.contains (String.ofList word)

/-- Whether a text of the printer's own leads from one position to another. -/
def joins (a : Position) (text : String) (b : Position) : Bool :=
  fits a text b && hasKeywordsOnly text

section Literals

variable {text : String}

theorem ne_nil_of_fits {a b : Position} (h : fits a text b = true) : text.toList ≠ [] := by
  simp only [fits, Bool.and_eq_true, Bool.not_eq_true'] at h
  exact List.isEmpty_eq_false_iff.mp h.1.1.1

/-- A legible text can stand where an expression is expected. -/
theorem fits_of_legible (h : legible text.toList = true) (hne : text.toList ≠ []) (side : Side) :
    fits .ready text (.behind side) = true := by
  simp [fits, h, Position.admits, Position.ends, hne]

theorem fits_nat (n : Nat) (side : Side) : fits .ready (toString n) (.behind side) = true := by
  refine fits_of_legible (legible_nat n) ?_ side
  rw [Nat.toString_eq_ofList_toDigits, String.toList_ofList]
  exact Nat.toDigits_ne_nil

theorem fits_quote (text : String) (side : Side) :
    fits .ready (quote text) (.behind side) = true :=
  fits_of_legible (legible_quote text) (by simp [quote]) side

theorem fits_quoteBytes (bytes : List UInt8) (side : Side) :
    fits .ready (quoteBytes bytes) (.behind side) = true :=
  fits_of_legible (legible_quoteBytes bytes) (by simp [quoteBytes]) side

theorem fits_numeral (x : Double) (side : Side) :
    fits .ready (numeral x) (.behind side) = true := by
  have hfixed {text : String} (h : fits .ready text (.behind .right) = true) :
      fits .ready text (.behind side) = true := h
  unfold numeral
  split
  · exact hfixed (by decide)
  split
  · split
    · exact hfixed (by decide)
    · exact hfixed (by decide)
  split
  · exact hfixed (by decide)
  · refine fits_of_legible ?_ (by simp [numeralDigits_ne_nil]) side
    rw [String.toList_ofList]
    refine legible_numeralDigits _ ?_
    split
    · exact Or.inr rfl
    · exact Or.inl rfl

theorem fits_fieldSuffix (name : String) (side : Side) :
    fits (.behind .right) (fieldSuffix name) (.behind side) = true := by
  have hlegible := legible_fieldSuffix name
  have hhead : ∃ c cs, (fieldSuffix name).toList = c :: cs ∧ (c = '.' ∨ c = '[') := by
    unfold fieldSuffix
    split
    · exact ⟨'.', _, by rw [String.toList_append]; rfl, Or.inl rfl⟩
    · exact ⟨'[', _, by rw [String.append_assoc, String.toList_append]; rfl, Or.inr rfl⟩
  obtain ⟨c, cs, hl, hc⟩ := hhead
  rw [hl] at hlegible
  have hsign : Position.signs (c :: cs) = false := by
    rcases hc with rfl | rfl <;> rfl
  have hname : isNameChar c = false := by
    rcases hc with rfl | rfl <;> decide
  simp only [fits, hl, hlegible, Position.admits, hsign, List.head?_cons, Option.any_some, hname,
    Position.ends]
  rfl

end Literals

/-- The remarks about the object of a scope. -/
def remarks : List String := ["WithStmt", "WithStmtEnd"]

/-- The piece leads from one position to another. Names and comments are of the vocabulary, and
spots are allowed ones. -/
inductive Piece.Moves (v : Vocabulary) (allowed : Spot → Prop) :
    Position → Piece → Position → Prop
  | plain {a b : Position} {literal : Bool} {text : String} (h : fits a text b = true)
      (hw : literal = false → hasKeywordsOnly text = true) :
      Moves v allowed a (.plain literal text) b
  | word {role : WordRole} {text : String} (side : Side) (h : v.name text) :
      Moves v allowed .ready (.word role text) (.behind side)
  | read {side : Side} {name : String} (h : v.name name) (ha : allowed (.read side name)) :
      Moves v allowed .ready (.read side name) (.behind side)
  | note {a : Position} {text : String} (apart : Bool) (hin : a.inLine = true)
      (hready : apart = false → a = .ready) (h : v.note text) :
      Moves v allowed a (.note apart text) .ready
  | indentation (depth : Nat) : Moves v allowed .start (.indentation depth) .ready
  | newline {a : Position} (h : a ≠ .start) : Moves v allowed a .newline .start
  | marker {text : String} (depth : Nat) (h : v.note text) (ha : allowed (.marker text)) :
      Moves v allowed .start (.marker depth text) .start
  | remark {a : Position} {text : String} (h : a.inLine = true) (hr : text ∈ remarks) :
      Moves v allowed a (.remark text) .remarked

/-- Pieces in a row, from one position to another. -/
inductive Course (v : Vocabulary) (allowed : Spot → Prop) :
    Position → List Piece → Position → Prop
  | nil {a b : Position} (h : a.Within b) : Course v allowed a [] b
  | cons {a b c : Position} {piece : Piece} {rest : List Piece}
      (h : piece.Moves v allowed a b) (hrest : Course v allowed b rest c) :
      Course v allowed a (piece :: rest) c

section Courses

variable {v : Vocabulary} {allowed : Spot → Prop} {a b c : Position} {piece : Piece}
  {pieces rest : List Piece}

theorem Piece.Moves.within (h : piece.Moves v allowed b c) (hab : a.Within b) :
    piece.Moves v allowed a c := by
  cases hab with
  | refl => exact h
  | behind side =>
    cases h with
    | plain h hw =>
      refine .plain ?_ hw
      simp only [fits, Bool.and_eq_true] at h ⊢
      exact ⟨⟨h.1.1, rfl⟩, h.2⟩
    | note apart hin hready h => exact .note apart rfl (fun _ => rfl) h
    | newline h => exact .newline nofun
    | remark h hr => exact .remark rfl hr

theorem Position.Within.trans (hab : a.Within b) (hbc : b.Within c) : a.Within c := by
  cases hab with
  | refl => exact hbc
  | behind side =>
    cases hbc with
    | refl => exact .behind side

theorem Course.within (h : Course v allowed b pieces c) (hab : a.Within b) :
    Course v allowed a pieces c := by
  cases h with
  | nil hbc => exact .nil (hab.trans hbc)
  | cons h hrest => exact .cons (h.within hab) hrest

theorem Course.append (h : Course v allowed a pieces b) (h' : Course v allowed b rest c) :
    Course v allowed a (pieces ++ rest) c := by
  induction h with
  | nil hab => exact h'.within hab
  | cons hp _ ih => exact .cons hp (ih h')

theorem Course.one (h : piece.Moves v allowed a b) : Course v allowed a [piece] b :=
  .cons h (.nil (.refl b))

end Courses

/-- The words that need parentheses in front of a call or an index. -/
def bareWords : List String := ["nil", "true", "false"]

/-- What the printer sees of a first character: whether it begins a literal, and whether it is a
parenthesis. -/
def look (text : List Char) : Bool × Bool :=
  (text.head?.any fun c => c.isDigit || c == '"' || c == '{', text.head? == some '(')

/-- The printer sees the same of the allowed checked names. -/
structure Agree (allowed : Spot → Prop) (s s' : Settings) : Prop where
  look : ∀ {side name rest rest'}, allowed (.read side name) → Lua.look rest = Lua.look rest' →
    Lua.look ((readText s name).toList ++ rest) = Lua.look ((readText s' name).toList ++ rest')
  bare : ∀ {side name}, allowed (.read side name) → readText s name ∈ bareWords →
    readText s' name = readText s name

theorem look_append {text rest rest' : List Char} (h : look rest = look rest') :
    look (text ++ rest) = look (text ++ rest') := by
  cases text with
  | nil => exact h
  | cons c cs => rfl

theorem look_of_ne_nil {text rest rest' : List Char} (h : text ≠ []) :
    look (text ++ rest) = look (text ++ rest') := by
  cases text with
  | nil => exact absurd rfl h
  | cons c cs => rfl

section Looks

variable {v : Vocabulary} {allowed : Spot → Prop} {s s' : Settings} {a b : Position}
  {side : Side} {piece : Piece} {pieces rest : List Piece}

/-- Behind a marking comment the line ends, so the printer sees nothing, with the comment or
without it. -/
theorem Course.look_remarked (h : Course v allowed .remarked rest b) (s : Settings) :
    look (Piece.chars s rest) = (false, false) := by
  cases h with
  | nil => rfl
  | cons h hrest =>
    cases h with
    | plain h => simp [fits, Position.admits] at h
    | note apart hin => exact absurd hin (by decide)
    | newline =>
      rw [Piece.chars_cons, Piece.text_newline]
      rfl
    | remark hin => exact absurd hin (by decide)

theorem Course.look_remark (h : Course v allowed .remarked rest b) (text : String)
    (s : Settings) : look (Piece.chars s (.remark text :: rest)) = (false, false) := by
  rw [Piece.chars_cons, Piece.text_remark]
  split
  · rfl
  · exact h.look_remarked s

theorem look_note (apart : Bool) (text : String) (rest : List Piece) (s : Settings) :
    look (Piece.chars s (.note apart text :: rest)) = (false, false) := by
  rw [Piece.chars_cons, Piece.text_note]
  cases apart <;> rfl

theorem look_newline (rest : List Piece) (s : Settings) :
    look (Piece.chars s (.newline :: rest)) = (false, false) := by
  rw [Piece.chars_cons, Piece.text_newline]
  rfl

/-- What the printer sees behind a name does not depend on the settings. -/
theorem Course.look_behind (h : Course v allowed (.behind side) pieces b) :
    look (Piece.chars s pieces) = look (Piece.chars s' pieces) := by
  cases h with
  | nil => rfl
  | cons h hrest =>
    cases h with
    | plain h => exact look_of_ne_nil (ne_nil_of_fits h)
    | note apart => rw [look_note, look_note]
    | newline => rw [look_newline, look_newline]
    | remark hin hr => rw [hrest.look_remark, hrest.look_remark]

/-- What the printer sees of a text within a line does not depend on the settings. -/
theorem Course.look_ready (hs : Agree allowed s s') (h : Course v allowed .ready pieces b) :
    look (Piece.chars s pieces) = look (Piece.chars s' pieces) := by
  cases h with
  | nil => rfl
  | cons h hrest =>
    cases h with
    | plain h => exact look_of_ne_nil (ne_nil_of_fits h)
    | word side h => exact look_append hrest.look_behind
    | read h ha => exact hs.look ha hrest.look_behind
    | note apart => rw [look_note, look_note]
    | newline => rw [look_newline, look_newline]
    | remark hin hr => rw [hrest.look_remark, hrest.look_remark]

/-- Nothing that is made of name characters comes behind a word. -/
theorem Course.eq_nil_of_nameChars (h : Course v allowed a pieces b) (ha : a ≠ .ready)
    (hstart : a ≠ .start) (hb : b.inLine = true)
    (hc : ∀ c ∈ Piece.chars s pieces, isNameChar c = true) : pieces = [] := by
  cases h with
  | nil => rfl
  | @cons _ m _ piece rest h hrest =>
    have hmem {c : Char} (hcs : c ∈ (piece.text s).toList) : isNameChar c = true :=
      hc c (List.mem_append_left _ hcs)
    cases h with
    | @plain _ _ _ text h =>
      obtain ⟨c, cs, hl⟩ := List.exists_cons_of_ne_nil (ne_nil_of_fits h)
      have hname : isNameChar c = true := hmem (by simp [Piece.text, hl])
      simp only [fits, Bool.and_eq_true] at h
      have hadmits := h.1.2
      cases a with
      | start => exact absurd rfl hstart
      | ready => exact absurd rfl ha
      | behind side => cases side <;> simp [Position.admits, hl, hname] at hadmits
      | remarked => exact absurd hadmits nofun
    | word | read => exact absurd rfl ha
    | note apart =>
      have hbracket := hmem (c := '[') (by simp [Piece.text_note])
      exact absurd hbracket (by decide)
    | indentation | marker => exact absurd rfl hstart
    | newline =>
      have hbreak := hmem (c := '\n') (by simp [Piece.text_newline])
      exact absurd hbreak (by decide)
    | remark hin hr =>
      cases hrest with
      | nil h =>
        cases h
        exact absurd hb (by decide)
      | cons h hrest =>
        cases h with
        | plain h => simp [fits, Position.admits] at h
        | note apart hin => exact absurd hin (by decide)
        | newline =>
          have hbreak := hc '\n' (by simp [Piece.chars_cons, Piece.text_newline])
          exact absurd hbreak (by decide)
        | remark hin => exact absurd hin (by decide)

/-- A text is one of the words whatever the settings are. -/
theorem Course.bare (hs : Agree allowed s s') (h : Course v allowed .ready pieces b)
    (hb : b.inLine = true) (hw : String.ofList (Piece.chars s pieces) ∈ bareWords) :
    Piece.chars s' pieces = Piece.chars s pieces := by
  have hnames : ∀ word ∈ bareWords, word.toList.all isNameChar = true := by decide
  have hchars : ∀ c ∈ Piece.chars s pieces, isNameChar c = true := by
    have hall := hnames _ hw
    rw [String.toList_ofList] at hall
    exact List.all_eq_true.mp hall
  cases h with
  | nil => rfl
  | @cons _ m _ piece rest h hrest =>
    have hrestchars : ∀ c ∈ Piece.chars s rest, isNameChar c = true := fun c hc =>
      hchars c (List.mem_append_right _ hc)
    have hmem {c : Char} (hcs : c ∈ (piece.text s).toList) : isNameChar c = true :=
      hchars c (List.mem_append_left _ hcs)
    cases h with
    | @plain _ _ _ text h =>
      have hm : m ≠ .ready := by
        rintro rfl
        have hne := ne_nil_of_fits h
        have hlast := hmem (List.getLast_mem hne)
        simp only [fits, Bool.and_eq_true] at h
        simp [Position.ends, List.getLast?_eq_some_getLast hne, hlast] at h
      have hs : m ≠ .start := by
        rintro rfl
        simp [fits, Position.ends] at h
      rw [hrest.eq_nil_of_nameChars hm hs hb hrestchars]
      rfl
    | word side h =>
      rw [hrest.eq_nil_of_nameChars nofun nofun hb hrestchars]
      rfl
    | @read side name h ha =>
      have hnil := hrest.eq_nil_of_nameChars nofun nofun hb hrestchars
      subst hnil
      have htext (s : Settings) :
          Piece.chars s [.read side name] = (readText s name).toList := by
        simp [Piece.chars, Piece.text]
      rw [htext, String.ofList_toList] at hw
      rw [htext, htext, hs.bare ha hw]
    | note apart =>
      have hbracket := hmem (c := '[') (by simp [Piece.text_note])
      exact absurd hbracket (by decide)
    | newline =>
      have hbreak := hmem (c := '\n') (by simp [Piece.text_newline])
      exact absurd hbreak (by decide)
    | remark hin hr =>
      have hrest' := hrest.eq_nil_of_nameChars nofun nofun hb hrestchars
      subst hrest'
      cases hrest with
      | nil h =>
        cases h
        exact absurd hb (by decide)

end Looks

end EcmaLua.Lua
