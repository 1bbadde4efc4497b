import EcmaLua.Proofs.Lua.Literal

/-!
# Legible texts

The texts that the printer puts together have no control characters, whatever strings and names
they spell, and none of them makes a line end like a marking comment: dashes, a blank and a word
with a capital. How a line ends is read off it character by character.
-/

namespace EcmaLua.Lua

/-- How much of a marking comment the end of a line looks like. -/
inductive Trail where
  | none
  | dash
  | dashes
  /-- dashes and a blank -/
  | opened
  /-- dashes, a blank and a word with a capital -/
  | comment
deriving DecidableEq, Repr

namespace Trail

def next : Trail → Char → Trail
  | .dash, '-' | .dashes, '-' => .dashes
  | .dashes, ' ' => .opened
  | .opened, c => if c.isUpper then .comment else if c = '-' then .dash else .none
  | .comment, c => if c.isAlpha then .comment else if c = '-' then .dash else .none
  | _, '-' => .dash
  | _, _ => .none

/-- The line does not end like a marking comment, and no word in its place makes it one. -/
def calm : Trail → Bool
  | .none | .dash | .dashes => true
  | .opened | .comment => false

/-- The trail of a line that goes on. -/
def after (trail : Trail) (text : List Char) : Trail := text.foldl next trail

theorem after_append (trail : Trail) (a b : List Char) :
    trail.after (a ++ b) = (trail.after a).after b :=
  List.foldl_append

/-- The text keeps every calm line calm. -/
def keeps (text : List Char) : Bool :=
  [Trail.none, .dash, .dashes].all fun trail => (trail.after text).calm

theorem calm_after {trail : Trail} {text : List Char} (h : trail.calm = true)
    (hk : keeps text = true) : (trail.after text).calm = true := by
  have hmem : trail ∈ [Trail.none, .dash, .dashes] := by cases trail <;> simp_all [calm]
  exact List.all_eq_true.mp hk trail hmem

theorem keeps_of_forall {text : List Char}
    (h : ∀ trail : Trail, trail.calm = true → (trail.after text).calm = true) :
    keeps text = true :=
  List.all_eq_true.mpr fun trail hmem => h trail (by
    simp only [List.mem_cons, List.not_mem_nil, or_false] at hmem
    rcases hmem with rfl | rfl | rfl <;> rfl)

theorem calm_next {trail : Trail} (h : trail.calm = true) {c : Char} (hc : c ≠ ' ') :
    (trail.next c).calm = true := by
  unfold next
  split <;> simp_all [calm]

/-- Without a blank there is no marking comment. -/
theorem keeps_of_no_blank {text : List Char} (h : ' ' ∉ text) : keeps text = true := by
  refine keeps_of_forall fun trail ht => ?_
  induction text generalizing trail with
  | nil => exact ht
  | cons c cs ih =>
    have hc : c ≠ ' ' := fun hc => h (hc ▸ List.mem_cons_self)
    exact ih (fun hm => h (List.mem_cons_of_mem c hm)) _ (calm_next ht hc)

/-- A character that no marking comment has ends it. -/
theorem keeps_concat {text : List Char} {c : Char}
    (hc : ∀ trail : Trail, (trail.next c).calm = true) : keeps (text ++ [c]) = true := by
  refine keeps_of_forall fun trail _ => ?_
  rw [after_append]
  exact hc _

end Trail

/-- Whether a text has no control characters and keeps calm lines calm. -/
def legible (text : List Char) : Bool :=
  text.all (fun c => !isControl c) && Trail.keeps text

theorem legible_of_forall {text : List Char} (hc : ∀ c ∈ text, isControl c = false)
    (hk : Trail.keeps text = true) : legible text = true := by
  rw [legible, hk, Bool.and_true, List.all_eq_true]
  intro c hm
  rw [hc c hm]
  rfl

theorem legible_of_nameChars {text : List Char} (h : ∀ c ∈ text, isNameChar c = true) :
    legible text = true :=
  legible_of_forall (fun c hc => isControl_of_isNameChar (h c hc))
    (Trail.keeps_of_no_blank fun hm => absurd (h _ hm) (by decide))

/-- A text between quotes is legible if what is inside has no control characters. -/
theorem legible_quoted {body : List Char} (h : ∀ c ∈ body, isControl c = false) :
    legible ('"' :: (body ++ ['"'])) = true := by
  refine legible_of_forall (fun c hc => ?_) ?_
  · simp only [List.mem_cons, List.mem_append, List.not_mem_nil, or_false] at hc
    rcases hc with rfl | hc | rfl
    · decide
    · exact h c hc
    · decide
  · rw [← List.cons_append]
    exact Trail.keeps_concat fun trail => by cases trail <;> decide

theorem legible_quote (text : String) : legible (quote text).toList = true := by
  rw [quote, String.toList_ofList]
  exact legible_quoted (isControl_of_mem_quote text)

theorem legible_quoteBytes (bytes : List UInt8) : legible (quoteBytes bytes).toList = true := by
  rw [quoteBytes, String.toList_ofList]
  exact legible_quoted (isControl_of_mem_quoteBytes bytes)

theorem legible_nat (n : Nat) : legible (toString n).toList = true := by
  rw [Nat.toString_eq_ofList_toDigits, String.toList_ofList]
  exact legible_of_nameChars fun c hc => isNameChar_of_isDigit (isDigit_of_mem_toDigits hc)

/-- The digits of a numeral, with a sign or without. -/
theorem legible_numeralDigits (d : Decimal) {sign : List Char} (hs : sign = [] ∨ sign = ['-']) :
    legible (sign ++ numeralDigits d) = true := by
  obtain ⟨whole, fraction, exponent, heq, hp⟩ := numeralDigits_eq d
  have hnone {c : Char} (hc : c.isDigit = false ∧ c ≠ '.' ∧ c ≠ 'e' ∧ c ≠ '-') :
      c ∉ sign ++ numeralDigits d := by
    rw [heq, List.mem_append, not_or]
    refine ⟨?_, hp.not_mem hc.1 hc.2⟩
    rcases hs with rfl | rfl
    · exact List.not_mem_nil
    · simpa using hc.2.2.2
  refine legible_of_forall (fun c hc => ?_) (Trail.keeps_of_no_blank (hnone (by decide)))
  by_contra hcontrol
  refine hnone ⟨?_, ?_, ?_, ?_⟩ hc
  · rw [← Bool.not_eq_true]
    exact fun hd => hcontrol (isControl_of_isNameChar (isNameChar_of_isDigit hd))
  · rintro rfl
    exact hcontrol (by decide)
  · rintro rfl
    exact hcontrol (by decide)
  · rintro rfl
    exact hcontrol (by decide)

theorem numeralDigits_ne_nil (d : Decimal) : numeralDigits d ≠ [] := by
  obtain ⟨whole, fraction, exponent, heq, hp⟩ := numeralDigits_eq d
  rw [heq, decimalText]
  exact fun h => hp.whole_ne_nil (List.append_eq_nil_iff.mp h).1

theorem isControl_of_legible {text : List Char} (h : legible text = true) {c : Char}
    (hc : c ∈ text) : isControl c = false := by
  rw [legible, Bool.and_eq_true] at h
  exact isControl_of_all h.1 c hc

theorem newline_of_legible {text : List Char} (h : legible text = true) : '\n' ∉ text :=
  fun hm => absurd (isControl_of_legible h hm) (by decide)

theorem legible_fieldSuffix (name : String) : legible (fieldSuffix name).toList = true := by
  unfold fieldSuffix
  split
  · next h =>
      have hchars : ∀ c ∈ ("." ++ name).toList, c = '.' ∨ isNameChar c = true := by
        intro c hc
        rw [String.toList_append, List.mem_append] at hc
        rcases hc with hc | hc
        · exact Or.inl (by simpa using hc)
        · exact Or.inr (isNameChar_of_isName h hc)
      refine legible_of_forall (fun c hc => ?_) (Trail.keeps_of_no_blank fun hm => ?_)
      · rcases hchars c hc with rfl | hname
        · decide
        · exact isControl_of_isNameChar hname
      · rcases hchars _ hm with hdot | hname
        · exact absurd hdot (by decide)
        · exact absurd hname (by decide)
  · rw [String.toList_append, String.toList_append]
    refine legible_of_forall (fun c hc => ?_) ?_
    · simp only [List.mem_append] at hc
      rcases hc with (hc | hc) | hc
      · exact isControl_of_all (by decide) c hc
      · exact isControl_of_legible (legible_quote name) hc
      · exact isControl_of_all (by decide) c hc
    · exact Trail.keeps_concat fun trail => by cases trail <;> decide

end EcmaLua.Lua
