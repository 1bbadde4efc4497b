import EcmaLua.Proofs.Lua.Phrase

/-!
# Atoms of a chunk

The comments that stand for something, the jumps and the binders of a chunk, in the order of its
tree. The comments and the jumps can be found in the text: a comment behind an expression as it is,
and all others on lines of their own. A text has at least as many of each as the tree.
-/

namespace EcmaLua.Lua

/-- A part of a chunk that shows what became of a construct, or a name that the chunk binds. -/
inductive Atom where
  | bind (name : String)
  /-- a comment on a line of its own -/
  | note (text : String)
  /-- a comment behind an expression -/
  | noted (text : String)
  | goTo (label : String)
  | leave
deriving DecidableEq, Repr

mutual

/-- The atoms of an expression. -/
@[simp] def Expr.atoms : Expr → List Atom
  | .nil | .bool _ | .vararg | .int _ | .number _ | .string _ | .bytes _ | .name _ | .read _ => []
  | .paren e | .field e _ | .unop _ e => e.atoms
  | .call f args => f.atoms ++ Expr.atomsList args
  | .index e key => e.atoms ++ key.atoms
  | .binop _ left right => left.atoms ++ right.atoms
  | .table fields => Field.atomsList fields
  | .func params _ body => params.map .bind ++ Stat.atomsList body
  | .lambda steps result => Step.atomsList steps ++ result.atoms
  | .noted e note => e.atoms ++ [.noted note]

@[simp] def Expr.atomsList : List Expr → List Atom
  | [] => []
  | e :: rest => e.atoms ++ Expr.atomsList rest

@[simp] def Field.atomsList : List Field → List Atom
  | [] => []
  | .item value :: rest => value.atoms ++ Field.atomsList rest
  | .keyed key value :: rest => key.atoms ++ value.atoms ++ Field.atomsList rest

@[simp] def Step.atoms : Step → List Atom
  | .define name value => .bind name :: value.atoms
  | .assign target value => target.atoms ++ value.atoms

@[simp] def Step.atomsList : List Step → List Atom
  | [] => []
  | s :: rest => s.atoms ++ Step.atomsList rest

@[simp] def Step.atomsOpt : Option Step → List Atom
  | none => []
  | some s => s.atoms

@[simp] def Arm.atomsList : List Arm → List Atom
  | [] => []
  | .mk cond step :: rest => cond.atoms ++ step.atoms ++ Arm.atomsList rest

@[simp] def Tail.atoms : Tail → List Atom
  | .none => []
  | .otherwise body => Stat.atomsList body
  | .elseif cond body tail => cond.atoms ++ Stat.atomsList body ++ tail.atoms

/-- The atoms of a statement. -/
@[simp] def Stat.atoms : Stat → List Atom
  | .note text => [.note text]
  | .marker _ | .label _ => []
  | .declare names => names.map .bind
  | .define names value => names.map .bind ++ value.atoms
  | .assign target value => target.atoms ++ value.atoms
  | .store target _ => target.atoms
  | .call e => e.atoms
  | .doBlock body => Stat.atomsList body
  | .whileLoop cond body => cond.atoms ++ Stat.atomsList body
  | .repeatUntil body cond => Stat.atomsList body ++ cond.atoms
  | .ifThen cond body tail => cond.atoms ++ Stat.atomsList body ++ tail.atoms
  | .select arms otherwise => Arm.atomsList arms ++ Step.atomsOpt otherwise
  | .forIn key value iterator body =>
    .bind key :: .bind value :: (iterator.atoms ++ Stat.atomsList body)
  | .scoped proxy object body => .bind proxy :: (object.atoms ++ Stat.atomsList body)
  | .goTo label => [.goTo label]
  | .breakLoop => [.leave]
  | .ret value => value.atoms

@[simp] def Stat.atomsList : List Stat → List Atom
  | [] => []
  | s :: rest => s.atoms ++ Stat.atomsList rest

end

section Lists

@[simp] theorem Stat.atomsList_append (a b : List Stat) :
    Stat.atomsList (a ++ b) = Stat.atomsList a ++ Stat.atomsList b := by
  induction a with
  | nil => rfl
  | cons s rest ih => rw [List.cons_append, Stat.atomsList, Stat.atomsList, ih, List.append_assoc]

@[simp] theorem Field.atomsList_append (a b : List Field) :
    Field.atomsList (a ++ b) = Field.atomsList a ++ Field.atomsList b := by
  induction a with
  | nil => rfl
  | cons f rest ih => cases f <;> simp [ih]

@[simp] theorem Field.atomsList_items (es : List Expr) :
    Field.atomsList (es.map .item) = Expr.atomsList es := by
  induction es with
  | nil => rfl
  | cons e rest ih => rw [List.map_cons, Field.atomsList, Expr.atomsList, ih]

@[simp] theorem Arm.atomsList_append (a b : List Arm) :
    Arm.atomsList (a ++ b) = Arm.atomsList a ++ Arm.atomsList b := by
  induction a with
  | nil => rfl
  | cons arm rest ih =>
    cases arm
    simp [ih]

@[simp] theorem Stat.atomsList_labels {α : Type} (f : α → String) (names : List α) :
    Stat.atomsList (names.map fun name => .label (f name)) = [] := by
  induction names with
  | nil => rfl
  | cons name rest ih => rw [List.map_cons, Stat.atomsList, ih, Stat.atoms, List.append_nil]

@[simp] theorem Helper.atoms_call (h : Helper) (args : List Expr) :
    (h.call args).atoms = Expr.atomsList args := by
  have hname : h.expr.atoms = [] := by
    unfold Helper.expr
    split <;> rfl
  rw [Helper.call, Expr.atoms, hname, List.nil_append]

end Lists

section Occurrences

/-- How many places of a text begin in a given way. -/
def occurrences (begins : List Char → Bool) : List Char → Nat
  | [] => 0
  | c :: cs => (if begins (c :: cs) then 1 else 0) + occurrences begins cs

theorem occurrences_cons (begins : List Char → Bool) (c : Char) (cs : List Char) :
    occurrences begins (c :: cs) =
      (if begins (c :: cs) then 1 else 0) + occurrences begins cs := rfl

/-- Whether a line feed comes first, and behind it a line with the given content, however
indented. -/
def beginsLine (newline : Newline) (content : String) : List Char → Bool
  | '\n' :: rest =>
    (respell newline (content ++ "\n").toList).isPrefixOf (rest.dropWhile (· == ' '))
  | _ => false

/-- How many lines of a text have the given content, apart from their indentation. -/
def lineCount (newline : Newline) (content text : String) : Nat :=
  occurrences (beginsLine newline content) ('\n' :: text.toList)

/-- The content of the line that is an atom. -/
def Atom.line? : Atom → Option String
  | .note text => some (noteText text)
  | .goTo label => some ("goto " ++ label)
  | .leave => some "break"
  | .bind _ | .noted _ => none

/-- Whether a text begins with the atom. -/
def Atom.begins (newline : Newline) : Atom → List Char → Bool
  | .noted text => (respell newline (noteText text).toList).isPrefixOf
  | .note text => beginsLine newline (noteText text)
  | .goTo label => beginsLine newline ("goto " ++ label)
  | .leave => beginsLine newline "break"
  | .bind _ => fun _ => false

theorem Atom.begins_of_line? {a : Atom} {content : String} (h : a.line? = some content)
    (newline : Newline) : a.begins newline = beginsLine newline content := by
  cases a <;> simp_all [line?, begins]

variable {newline : Newline} {a : Atom} {cs : List Char}

theorem respell_newline_ne_nil (newline : Newline) (content : String) :
    respell newline (content ++ "\n").toList ≠ [] := by
  rw [String.toList_append, respell_append]
  cases newline <;> simp [respell]

theorem beginsLine_append {content : String} (h : beginsLine newline content cs = true)
    (more : List Char) : beginsLine newline content (cs ++ more) = true := by
  unfold beginsLine at h
  split at h
  · next rest =>
      rw [List.isPrefixOf_iff_prefix] at h
      have hne : rest.dropWhile (· == ' ') ≠ [] := by
        intro hnil
        rw [hnil, List.prefix_nil] at h
        exact respell_newline_ne_nil newline content h
      change (respell newline (content ++ "\n").toList).isPrefixOf
        ((rest ++ more).dropWhile (· == ' ')) = true
      rw [List.isPrefixOf_iff_prefix, List.dropWhile_append,
        if_neg (by simpa only [List.isEmpty_iff] using hne)]
      exact h.trans (List.prefix_append _ _)
  · exact absurd h (by simp)

/-- What a text begins with, it begins with however it goes on. -/
theorem Atom.begins_append (h : a.begins newline cs = true) (more : List Char) :
    a.begins newline (cs ++ more) = true := by
  cases a with
  | bind name => exact absurd h (by simp [begins])
  | noted text =>
    have hbegins := List.isPrefixOf_iff_prefix.mp h
    exact List.isPrefixOf_iff_prefix.mpr (hbegins.trans (List.prefix_append _ _))
  | note text | goTo label | leave => exact beginsLine_append h more

/-- A comment starts with a dash. -/
theorem respell_noteText (newline : Newline) (text : String) :
    ∃ rest, respell newline (noteText text).toList = '-' :: rest := by
  cases newline with
  | lf => exact ⟨_, by simp only [noteText, String.toList_append]; rfl⟩
  | crlf => exact ⟨_, by simp only [noteText, String.toList_append, respell_append]; rfl⟩

/-- No atom is a line feed alone. -/
theorem Atom.begins_newline (newline : Newline) (a : Atom) : a.begins newline ['\n'] = false := by
  have hline (content : String) : beginsLine newline content ['\n'] = false := by
    change (respell newline (content ++ "\n").toList).isPrefixOf [] = false
    rw [Bool.eq_false_iff, ne_eq, List.isPrefixOf_iff_prefix, List.prefix_nil]
    exact respell_newline_ne_nil newline content
  cases a with
  | bind name => rfl
  | noted text =>
    obtain ⟨rest, hdash⟩ := respell_noteText newline text
    change (respell newline (noteText text).toList).isPrefixOf ['\n'] = false
    rw [hdash]
    rfl
  | note text | goTo label | leave => exact hline _

theorem occurrences_append (newline : Newline) (a : Atom) (xs ys : List Char) :
    occurrences (a.begins newline) xs + occurrences (a.begins newline) ys ≤
      occurrences (a.begins newline) (xs ++ ys) := by
  induction xs with
  | nil => simp [occurrences]
  | cons c xs ih =>
    rw [List.cons_append, occurrences_cons, occurrences_cons]
    by_cases h : a.begins newline (c :: xs) = true
    · have hmore := Atom.begins_append h ys
      rw [List.cons_append] at hmore
      rw [if_pos h, if_pos hmore]
      omega
    · rw [if_neg h]
      omega

/-- A line feed between two texts ends the one and begins the other. -/
theorem occurrences_join (newline : Newline) (a : Atom) (xs ys : List Char) :
    occurrences (a.begins newline) (xs ++ ['\n']) + occurrences (a.begins newline) ('\n' :: ys) ≤
      occurrences (a.begins newline) (xs ++ '\n' :: ys) := by
  induction xs with
  | nil =>
    have hnone : occurrences (a.begins newline) ['\n'] = 0 := by
      rw [occurrences_cons, Atom.begins_newline]
      rfl
    rw [List.nil_append, List.nil_append, hnone, Nat.zero_add]
  | cons c xs ih =>
    rw [List.cons_append, List.cons_append, occurrences_cons _ c, occurrences_cons _ c]
    by_cases h : a.begins newline (c :: (xs ++ ['\n'])) = true
    · have hmore := Atom.begins_append h ys
      rw [List.cons_append, List.append_assoc, List.singleton_append] at hmore
      rw [if_pos h, if_pos hmore]
      omega
    · rw [if_neg h]
      omega

/-- What occurs in a text is a part of it. -/
theorem infix_of_pos_occurrences {start text : List Char}
    (h : 0 < occurrences start.isPrefixOf text) : start <:+: text := by
  induction text with
  | nil => exact absurd h (by simp [occurrences])
  | cons c cs ih =>
    rw [occurrences_cons] at h
    by_cases hc : start.isPrefixOf (c :: cs) = true
    · exact (List.isPrefixOf_iff_prefix.mp hc).isInfix
    · rw [if_neg hc, Nat.zero_add] at h
      exact (ih h).trans (List.suffix_cons c cs).isInfix

theorem infix_of_beginsLine {content : String} {c : Char}
    (h : beginsLine newline content (c :: cs) = true) : respell newline content.toList <:+: cs := by
  unfold beginsLine at h
  split at h
  · next rest heq =>
      obtain ⟨rfl, rfl⟩ := List.cons.inj heq
      have hbegins := List.isPrefixOf_iff_prefix.mp h
      rw [String.toList_append, respell_append] at hbegins
      have hstart := (List.prefix_append _ _).trans hbegins
      exact hstart.isInfix.trans (List.dropWhile_suffix _).isInfix
  · exact absurd h (by simp)

/-- The content of a line of a text is a part of the text. -/
theorem infix_of_pos_lines {content : String} (c : Char)
    (h : 0 < occurrences (beginsLine newline content) (c :: cs)) :
    respell newline content.toList <:+: cs := by
  induction cs generalizing c with
  | nil =>
    rw [occurrences_cons] at h
    split at h
    · next hbegins => exact infix_of_beginsLine hbegins
    · exact absurd h (by simp [occurrences])
  | cons d ds ih =>
    rw [occurrences_cons] at h
    split at h
    · next hbegins => exact infix_of_beginsLine hbegins
    · rw [Nat.zero_add] at h
      exact (ih d h).trans (List.suffix_cons d ds).isInfix

end Occurrences

/-- The text of an expression has the atoms, apart from the binders. -/
def Shows (newline : Newline) (atoms : List Atom) (text : String) : Prop :=
  ∀ a, (∀ name, a ≠ .bind name) →
    atoms.count a ≤ occurrences (a.begins newline) (respell newline text.toList)

/-- The lines of a text, which is not empty unless it has none, have the atoms. -/
def Rows (newline : Newline) (atoms : List Atom) (text : String) : Prop :=
  (text = "" ∨ ∃ front, respell newline text.toList = front ++ ['\n']) ∧
    ∀ a, (∀ name, a ≠ .bind name) →
      atoms.count a ≤ occurrences (a.begins newline) ('\n' :: respell newline text.toList)

section Composition

variable {newline : Newline} {as bs : List Atom} {x y : String}

theorem count_binders {a : Atom} (h : ∀ name, a ≠ .bind name) (names : List String) :
    (names.map Atom.bind).count a = 0 := by
  rw [List.count_eq_zero]
  intro hmem
  obtain ⟨name, -, rfl⟩ := List.mem_map.mp hmem
  exact h name rfl

theorem shows_plain (text : String) : Shows newline [] text := fun _ _ => Nat.zero_le _

theorem Shows.append (hx : Shows newline as x) (hy : Shows newline bs y) :
    Shows newline (as ++ bs) (x ++ y) := by
  intro a ha
  have hfirst := hx a ha
  have hsecond := hy a ha
  have hboth := occurrences_append newline a (respell newline x.toList) (respell newline y.toList)
  rw [List.count_append, String.toList_append, respell_append]
  omega

theorem Shows.left (h : Shows newline as y) (x : String) : Shows newline as (x ++ y) :=
  (shows_plain x).append h

theorem Shows.right (h : Shows newline as x) (y : String) : Shows newline as (x ++ y) := by
  have hplain : Shows newline [] y := shows_plain y
  have happend := h.append hplain
  rwa [List.append_nil] at happend

theorem Shows.binders (h : Shows newline as x) (names : List String) :
    Shows newline (names.map .bind ++ as) x := by
  intro a ha
  rw [List.count_append, count_binders ha, Nat.zero_add]
  exact h a ha

theorem Shows.asPrefix (h : Shows newline as x) : Shows newline as (asPrefix x) := by
  rcases asPrefix_eq x with heq | heq
  · rw [heq]
    exact (h.left "(").right ")"
  · rw [heq]
    exact h

theorem Shows.separated (h : Shows newline as x) : Shows newline as (separated x) := by
  unfold Lua.separated
  split
  · exact h.left _
  · exact h

/-- Texts in a row, each with its atoms. -/
inductive ShowsList (newline : Newline) : List Atom → List String → Prop
  | nil : ShowsList newline [] []
  | cons {as bs : List Atom} {text : String} {texts : List String} (h : Shows newline as text)
      (ht : ShowsList newline bs texts) : ShowsList newline (as ++ bs) (text :: texts)

theorem ShowsList.commaSeparated {texts : List String} (h : ShowsList newline as texts) :
    Shows newline as (commaSeparated texts) := by
  induction h with
  | nil => exact shows_plain _
  | cons h ht ih =>
    cases ht with
    | nil => simpa [Lua.commaSeparated] using h
    | cons h' ht' =>
      simpa only [Lua.commaSeparated, String.intercalate_cons_cons] using
        (h.right ", ").append ih

/-- A line ends with its terminator, the last character of which is a line feed. -/
theorem respell_line (newline : Newline) (depth : Nat) (text : String) :
    ∃ mid, respell newline (line depth text).toList =
      List.replicate (4 * depth) ' ' ++ (respell newline text.toList ++ (mid ++ ['\n'])) ∧
      respell newline (text ++ "\n").toList = respell newline text.toList ++ (mid ++ ['\n']) := by
  have hblank : respell newline (indentation depth).toList = List.replicate (4 * depth) ' ' := by
    rw [respell_eq_self, indentation, String.toList_ofList]
    simp [indentation, List.mem_replicate]
  have hbreak : ∃ mid, respell newline "\n".toList = mid ++ ['\n'] := by
    cases newline with
    | lf => exact ⟨[], rfl⟩
    | crlf => exact ⟨['\r'], rfl⟩
  obtain ⟨mid, hmid⟩ := hbreak
  refine ⟨mid, ?_, ?_⟩
  · rw [line, String.toList_append, String.toList_append, respell_append, respell_append, hblank,
      hmid, List.append_assoc]
  · rw [String.toList_append, respell_append, hmid]

theorem Shows.line (h : Shows newline as x) (depth : Nat) : Rows newline as (line depth x) := by
  obtain ⟨mid, hline, -⟩ := respell_line newline depth x
  refine ⟨Or.inr ⟨List.replicate (4 * depth) ' ' ++ (respell newline x.toList ++ mid), ?_⟩,
    fun a ha => ?_⟩
  · rw [hline, List.append_assoc, List.append_assoc]
  have htext := h a ha
  have hend := occurrences_append newline a (respell newline x.toList) (mid ++ ['\n'])
  have hstart := occurrences_append newline a ('\n' :: List.replicate (4 * depth) ' ')
    (respell newline x.toList ++ (mid ++ ['\n']))
  rw [hline]
  rw [List.cons_append] at hstart
  omega

theorem rows_plain (depth : Nat) (text : String) : Rows newline [] (Lua.line depth text) :=
  (shows_plain text).line depth

theorem rows_empty : Rows newline [] "" := ⟨Or.inl rfl, fun _ _ => Nat.zero_le _⟩

theorem Rows.append (hx : Rows newline as x) (hy : Rows newline bs y) :
    Rows newline (as ++ bs) (x ++ y) := by
  obtain ⟨hend, hfirst⟩ := hx
  obtain ⟨hend', hsecond⟩ := hy
  rcases hend with rfl | ⟨front, hfront⟩
  · refine ⟨by simpa using hend', fun a ha => ?_⟩
    have hnone := hfirst a ha
    have hboth := hsecond a ha
    have hempty : occurrences (a.begins newline) ['\n'] = 0 := by
      rw [occurrences_cons, Atom.begins_newline]
      rfl
    simp only [String.toList_empty, respell_nil, hempty] at hnone
    rw [List.count_append, String.empty_append]
    omega
  · refine ⟨Or.inr ?_, fun a ha => ?_⟩
    · rcases hend' with rfl | ⟨rear, hrear⟩
      · exact ⟨front, by simpa using hfront⟩
      · exact ⟨front ++ ['\n'] ++ rear, by
          rw [String.toList_append, respell_append, hfront, hrear, ← List.append_assoc]⟩
    · have hleft := hfirst a ha
      have hright := hsecond a ha
      have hjoin := occurrences_join newline a ('\n' :: front) (respell newline y.toList)
      rw [hfront] at hleft
      rw [List.count_append, String.toList_append, respell_append, hfront, List.append_assoc,
        List.singleton_append]
      simp only [List.cons_append] at hjoin
      omega

theorem Rows.below (h : Rows newline as y) (depth : Nat) (text : String) :
    Rows newline as (Lua.line depth text ++ y) :=
  (rows_plain depth text).append h

theorem Rows.above (h : Rows newline as x) (depth : Nat) (text : String) :
    Rows newline as (x ++ Lua.line depth text) := by
  have hplain : Rows newline [] (Lua.line depth text) := rows_plain depth text
  have happend := h.append hplain
  rwa [List.append_nil] at happend

theorem Rows.binders (h : Rows newline as x) (names : List String) :
    Rows newline (names.map .bind ++ as) x := by
  refine ⟨h.1, fun a ha => ?_⟩
  rw [List.count_append, count_binders ha, Nat.zero_add]
  exact h.2 a ha

/-- Lines within an expression. -/
theorem Rows.within (h : Rows newline as y) (x z : String) :
    Shows newline as (x ++ (z ++ "\n") ++ y) := by
  have hrows : Shows newline as (z ++ "\n" ++ y) := by
    intro a ha
    have hlines := h.2 a ha
    obtain ⟨mid, -, hbreak⟩ := respell_line newline 0 z
    have hstart := occurrences_append newline a (respell newline z.toList ++ mid)
      ('\n' :: respell newline y.toList)
    rw [String.toList_append, respell_append, hbreak, ← List.append_assoc,
      List.append_assoc _ ['\n'], List.singleton_append]
    omega
  rw [String.append_assoc]
  exact hrows.left x

/-- An atom on a line of its own. -/
theorem rows_atom {a : Atom} {content : String} {c : Char} {cs : List Char}
    (h : a.line? = some content) (hcontent : content.toList = c :: cs) (hblank : c ≠ ' ')
    (hbreak : c ≠ '\n') (depth : Nat) : Rows newline [a] (Lua.line depth content) := by
  obtain ⟨mid, hline, hend⟩ := respell_line newline depth content
  refine ⟨(rows_plain depth content).1, fun b _ => ?_⟩
  by_cases hab : b = a
  · subst hab
    have hhead : respell newline content.toList = c :: respell newline cs := by
      have hfirst : respell newline [c] = [c] :=
        respell_eq_self newline (by simpa using hbreak.symm)
      rw [hcontent, ← List.singleton_append, respell_append, hfirst, List.singleton_append]
    have hdrop : (List.replicate (4 * depth) ' ' ++ (respell newline content.toList ++
        (mid ++ ['\n']))).dropWhile (· == ' ') =
          respell newline content.toList ++ (mid ++ ['\n']) := by
      rw [List.dropWhile_append_of_pos]
      · rw [hhead]
        simp [hblank]
      · intro d hd
        rw [List.eq_of_mem_replicate hd]
        rfl
    have hbegins : b.begins newline ('\n' :: respell newline (Lua.line depth content).toList) =
        true := by
      rw [Atom.begins_of_line? h, hline]
      change (respell newline (content ++ "\n").toList).isPrefixOf
        (List.dropWhile (· == ' ') _) = true
      rw [hdrop, hend]
      exact List.isPrefixOf_iff_prefix.mpr (List.prefix_refl _)
    rw [List.count_singleton_self, occurrences_cons, if_pos hbegins]
    exact Nat.le_add_right _ _
  · rw [List.count_singleton, if_neg (by simpa using fun h => hab h.symm)]
    exact Nat.zero_le _

theorem shows_noteText (newline : Newline) (text : String) :
    Shows newline [.noted text] (noteText text) := by
  intro a _
  by_cases ha : a = .noted text
  · subst ha
    have hbegins : (Atom.noted text).begins newline (respell newline (noteText text).toList) =
        true := List.isPrefixOf_iff_prefix.mpr (List.prefix_refl _)
    obtain ⟨rest, hdash⟩ := respell_noteText newline text
    rw [hdash] at hbegins ⊢
    rw [List.count_singleton_self, occurrences_cons, if_pos hbegins]
    exact Nat.le_add_right _ _
  · rw [List.count_singleton, if_neg (by simpa using fun h => ha h.symm)]
    exact Nat.zero_le _

end Composition

variable (settings : Settings)

mutual

/-- The text of an expression has its atoms. -/
theorem Expr.shows (depth : Nat) : (e : Expr) →
    Shows settings.newline e.atoms (e.render settings depth)
  | .nil | .bool true | .bool false | .vararg | .int _ | .number _ | .string _ | .bytes _
  | .name _ | .read _ => shows_plain _
  | .paren e => ((e.shows depth).left "(").right ")"
  | .call f args =>
    (((f.shows depth).asPrefix.right "(").append
      (Expr.shows_list depth args).commaSeparated).right ")"
  | .field e name => (e.shows depth).asPrefix.right (fieldSuffix name)
  | .index e key => (((e.shows depth).asPrefix.right "[").append (key.shows depth)).right "]"
  | .unop .not e => (e.shows depth).left "not "
  | .unop .neg e => (e.shows depth).left "-"
  | .binop op left right =>
    (((left.shows depth).right " ").right op.text).right " " |>.append (right.shows depth)
  | .table fields => ((Field.shows_list depth fields).commaSeparated.left "\x7b").right "\x7d"
  | .func params variadic body => by
    have hbody := (Stat.rows_list (depth + 1) body).within
      ("function (" ++ commaSeparated (if variadic then params ++ ["..."] else params)) ")"
    exact ((hbody.right (indentation depth)).right "end").binders params
  | .lambda steps result =>
    ((((Step.shows_list depth steps).left "function () ").right "return ").append
      (result.shows depth)).right " end"
  | .noted e note => ((e.shows depth).right " ").append (shows_noteText settings.newline note)

theorem Expr.shows_list (depth : Nat) : (es : List Expr) →
    ShowsList settings.newline (Expr.atomsList es) (Expr.renderList settings depth es)
  | [] => .nil
  | e :: rest => .cons (e.shows depth) (Expr.shows_list depth rest)

theorem Field.shows_list (depth : Nat) : (fields : List Field) →
    ShowsList settings.newline (Field.atomsList fields) (Field.render settings depth fields)
  | [] => .nil
  | .item value :: rest => .cons (value.shows depth) (Field.shows_list depth rest)
  | .keyed key value :: rest =>
    .cons ((((key.shows depth).left "[").right "]=").append (value.shows depth))
      (Field.shows_list depth rest)

theorem Step.shows (depth : Nat) : (s : Step) →
    Shows settings.newline s.atoms (s.render settings depth)
  | .define name value => ((value.shows depth).left ("local " ++ name ++ " = ")).binders [name]
  | .assign target value => ((target.shows depth).right " = ").append (value.shows depth)

theorem Step.shows_list (depth : Nat) : (steps : List Step) →
    Shows settings.newline (Step.atomsList steps) (Step.renderList settings depth steps)
  | [] => shows_plain _
  | s :: rest => ((s.shows depth).right "; ").append (Step.shows_list depth rest)

theorem Step.rows_else (depth : Nat) : (step : Option Step) →
    Rows settings.newline (Step.atomsOpt step) (Step.renderElse settings depth step)
  | none => rows_empty
  | some step => ((step.shows depth).left "else ").line depth

theorem Arm.rows_list (depth : Nat) (keyword : String) : (arms : List Arm) →
    Rows settings.newline (Arm.atomsList arms) (Arm.render settings depth keyword arms)
  | [] => rows_empty
  | .mk cond step :: rest =>
    (((((cond.shows depth).left (keyword ++ " ")).right " then ").append
      (step.shows depth)).line depth).append (Arm.rows_list depth "elseif" rest)

theorem Tail.rows (depth : Nat) : (t : Tail) →
    Rows settings.newline t.atoms (t.render settings depth)
  | .none => rows_empty
  | .otherwise body => (Stat.rows_list (depth + 1) body).below depth "else"
  | .elseif cond body tail =>
    (((((cond.shows (depth + 1)).left "elseif ").right " then").line depth).append
      (Stat.rows_list (depth + 1) body)).append (tail.rows depth)

/-- The lines of a statement have its atoms. -/
theorem Stat.rows (depth : Nat) : (s : Stat) →
    Rows settings.newline s.atoms (s.render settings depth)
  | .note text =>
    rows_atom (a := .note text) rfl (by rw [noteText]; simp only [String.toList_append]; rfl)
      (by decide) (by decide) depth
  | .marker text => by
    unfold Stat.render
    split
    · exact rows_plain depth _
    · exact rows_empty
  | .declare names => by
    have hline : Rows settings.newline [] (line depth ("local " ++ commaSeparated names)) :=
      rows_plain depth _
    have hnames := hline.binders names
    rwa [List.append_nil] at hnames
  | .define names value =>
    (((value.shows depth).left ("local " ++ commaSeparated names ++ " = ")).line depth).binders
      names
  | .assign target value =>
    ((((target.shows depth).right " = ").append (value.shows depth)).separated).line depth
  | .store target key => (((target.shows depth).right " = ").right key).line depth
  | .call e => (e.shows depth).separated.line depth
  | .doBlock body => ((Stat.rows_list (depth + 1) body).below depth "do").above depth "end"
  | .whileLoop cond body =>
    (((((cond.shows depth).left "while ").right " do").line depth).append
      (Stat.rows_list (depth + 1) body)).above depth "end"
  | .repeatUntil body cond =>
    ((Stat.rows_list (depth + 1) body).below depth "repeat").append
      (((cond.shows (depth + 1)).left "until ").line depth)
  | .ifThen cond body tail =>
    ((((((cond.shows depth).left "if ").right " then").line depth).append
      (Stat.rows_list (depth + 1) body)).append (tail.rows depth)).above depth "end"
  | .select arms otherwise =>
    ((Arm.rows_list depth "if" arms).append (Step.rows_else depth otherwise)).above depth "end"
  | .forIn key value iterator body =>
    ((((((iterator.shows depth).left ("for " ++ key ++ ", " ++ value ++ " in ")).right
      " do").line depth).append (Stat.rows_list (depth + 1) body)).above depth "end").binders
        [key, value]
  | .scoped proxy object body =>
    (((((((object.shows depth).left ("local " ++ proxy ++ " = ")).right _).line
      (depth + 1)).below depth "do").append (Stat.rows_list (depth + 1) body)).above depth
        _).binders [proxy]
  | .goTo label =>
    rows_atom (a := .goTo label) rfl (by simp only [String.toList_append]; rfl) (by decide)
      (by decide) depth
  | .label _ => rows_plain depth _
  | .breakLoop => rows_atom (a := .leave) rfl rfl (by decide) (by decide) depth
  | .ret value => ((value.shows depth).left "return ").line depth

theorem Stat.rows_list (depth : Nat) : (code : List Stat) →
    Rows settings.newline (Stat.atomsList code) (Stat.renderList settings depth code)
  | [] => rows_empty
  | s :: rest => (s.rows depth).append (Stat.rows_list depth rest)

end

/-- The text of a chunk has the atoms of its tree. -/
theorem Chunk.count_atoms_le (chunk : Chunk) {a : Atom} (h : ∀ name, a ≠ .bind name) :
    (Stat.atomsList chunk.body).count a ≤
      occurrences (a.begins settings.newline) ('\n' :: (chunk.render settings).toList) := by
  rw [Chunk.render, toList_withNewlines]
  exact (Stat.rows_list settings 0 chunk.body).2 a h

/-- A comment of the tree is in the text. -/
theorem Chunk.infix_of_mem_atoms (chunk : Chunk) {text : String}
    (h : .note text ∈ Stat.atomsList chunk.body ∨ .noted text ∈ Stat.atomsList chunk.body) :
    (withNewlines settings.newline (noteText text)).toList <:+:
      (chunk.render settings).toList := by
  rw [toList_withNewlines]
  rcases h with h | h
  · have hcount := chunk.count_atoms_le settings (a := .note text) nofun
    exact infix_of_pos_lines '\n' (Nat.lt_of_lt_of_le (List.count_pos_iff.mpr h) hcount)
  · have hcount := chunk.count_atoms_le settings (a := .noted text) nofun
    have hpos := Nat.lt_of_lt_of_le (List.count_pos_iff.mpr h) hcount
    obtain ⟨rest, hdash⟩ := respell_noteText settings.newline text
    have hfirst : (Atom.noted text).begins settings.newline
        ('\n' :: (chunk.render settings).toList) = false := by
      change (respell settings.newline (noteText text).toList).isPrefixOf _ = false
      rw [hdash]
      rfl
    rw [occurrences_cons, hfirst, if_neg Bool.false_ne_true, Nat.zero_add] at hpos
    exact infix_of_pos_occurrences hpos

end EcmaLua.Lua
