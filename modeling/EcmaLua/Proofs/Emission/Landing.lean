import EcmaLua.Emission.State
import EcmaLua.Proofs.Emission.Control
import EcmaLua.Proofs.Lua.Jumps

/-!
# Landings of loops

What making code does to the constructs around it. A landing is set by the first bare `continue`
for its loop and stays; everything else leaves the constructs as they were. With it goes what the
code itself is like: every jump has its target among the labels that the constructs promise, and
the jumps to the landing are the bare `continue`s.
-/

namespace EcmaLua.Emission

open Lua (Mark Vocabulary Stat)

/-- Names with one stem have different numbers. -/
theorem numbered_injective (stem : String) {k l : Nat}
    (h : stem ++ toString k = stem ++ toString l) : k = l := by
  simp only [String.append_right_inj, Nat.toString_eq_ofList_toDigits, String.ofList_inj] at h
  rw [← Nat.ofDigitChars_toDigits (b := 10) (n := k) (by decide) (by decide), h,
    Nat.ofDigitChars_toDigits (by decide) (by decide)]

theorem landingName_injective {k l : Nat} (h : landingName k = landingName l) : k = l :=
  numbered_injective _ h

/-- The stems of generated names. -/
def stems : List String :=
  ["__tmp", "__Continue", "__TryStatus", "__TryReturnValue", "__CatchReturnValue",
    "__TryFinalizer", "__TryHandler"]

/-- The names in generated code that are always the same, apart from support functions. -/
def fixedNames : List String :=
  ["self", "null", "RegExp", "arguments", "table", "error", "pcall", "bit32"]

/-- The comments in generated code that are always the same. -/
def fixedNotes : List String :=
  ["BreakStatement", "ContinueStatement", "MultipleCatchClauses", "TryBody", "Finally", "Catch",
    "EarlyReturn", "CheckCatch", "JustFinalizer", "BEGIN", "END"]

/-- The code with other code around it that neither jumps nor is jumped to. -/
def Amid (inner code : List Stat) : Prop :=
  ∃ front behind, code = front ++ inner ++ behind ∧ Stat.ownMarksList front = [] ∧
    Stat.ownMarksList behind = []

theorem Amid.refl (code : List Stat) : Amid code code :=
  ⟨[], [], (List.append_nil _).symm, rfl, rfl⟩

/-- The vocabulary has the texts of generated code, whatever the identifiers are. -/
structure Covers (v : Vocabulary) : Prop where
  spell : ∀ identifier, v.name (Lua.spell identifier)
  after : ∀ label, v.name (afterLabel label)
  numbered : ∀ stem ∈ stems, ∀ k : Nat, v.name (stem ++ toString k)
  helper : ∀ h : Lua.Helper, v.name h.name
  fixed : ∀ text ∈ fixedNames, v.name text
  note : ∀ text ∈ fixedNotes, v.note text

theorem covers_all : Covers .all :=
  ⟨fun _ => trivial, fun _ => trivial, fun _ _ _ => trivial, fun _ => trivial,
    fun _ _ => trivial, fun _ _ => trivial⟩

/-- Code with `n` bare `continue`s for the nearest loop leaves the constructs as they were, unless
it has the first of them: then it has set the landing, to a new name. -/
def Touches (n : Nat) (s s' : State) : Prop :=
  (s'.control = s.control ∧ (s.control.landing = some none → n = 0)) ∨
    (s.control.landing = some none ∧ 0 < n ∧ ∃ k, s.supply.last < k ∧ k ≤ s'.supply.last ∧
      s'.control = s.control.land (landingName k))

/-- What making `code` did to the state. -/
structure Lands (v : Vocabulary) (n : Nat) (free : String → Prop) (s s' : State)
    (code : List Stat) : Prop where
  grows : s.supply.last ≤ s'.supply.last
  touches : Touches n s s'
  /-- the bare `continue`s go to the landing -/
  jumps : ∀ name, s'.control.landing = some (some name) →
    n ≤ (Stat.ownMarksList code).count (.goTo name)
  /-- nothing else goes to that landing or to one of code before or after, and none of them is
  printed -/
  others : ∀ k, (k ≤ s.supply.last ∨ s'.supply.last < k ∨ s.control.landing = some none ∧
      s'.control.landing = some (some (landingName k))) → free (landingName k) →
    (Stat.ownMarksList code).count (.goTo (landingName k)) =
        (if s'.control.landing = some (some (landingName k)) then n else 0) ∧
      .label (landingName k) ∉ Stat.ownMarksList code
  settled : ∀ visible, (∀ x ∈ s'.control.targets, x ∈ visible ∧ v.name x) →
    Stat.SettledBlock v visible s'.control.leaves code

section Steps

variable {v : Vocabulary} {n m : Nat} {free free' : String → Prop} {s s' s'' : State}
  {code rest : List Stat}

theorem Touches.leaves (h : Touches n s s') : s'.control.leaves = s.control.leaves := by
  rcases h with ⟨heq, -⟩ | ⟨-, -, k, -, -, heq⟩
  · rw [heq]
  · rw [heq, Control.leaves_land]

theorem Touches.targets (h : Touches n s s') :
    ∀ x ∈ s.control.targets, x ∈ s'.control.targets := by
  rcases h with ⟨heq, -⟩ | ⟨hl, -, k, -, -, heq⟩
  · rw [heq]
    exact fun _ => id
  · rw [heq]
    exact Control.targets_land hl _

/-- Where there are no constructs, none come up. -/
theorem Touches.outermost (h : Touches n s s') (hs : s.control = []) : s'.control = [] := by
  rcases h with ⟨heq, -⟩ | ⟨hl, -⟩
  · rw [heq, hs]
  · rw [hs] at hl
    exact absurd hl nofun

/-- A landing that is set stays. -/
theorem Touches.landed {name : String} (h : Touches n s s')
    (hs : s.control.landing = some (some name)) : s'.control.landing = some (some name) := by
  rcases h with ⟨heq, -⟩ | ⟨hl, -⟩
  · rw [heq, hs]
  · rw [hl] at hs
    exact absurd hs (by simp)

/-- A landing that is set was set before, or is a new name. -/
theorem Touches.landing {name : String} (h : Touches n s s')
    (hs : s'.control.landing = some (some name)) :
    s.control.landing = some (some name) ∨ s.control.landing = some none ∧
      ∃ k, s.supply.last < k ∧ k ≤ s'.supply.last ∧ name = landingName k := by
  rcases h with ⟨heq, -⟩ | ⟨hl, -, k, hk, hk', heq⟩
  · rw [heq] at hs
    exact Or.inl hs
  · rw [heq, Control.landing_land (by rw [hl]; simp)] at hs
    exact Or.inr ⟨hl, k, hk, hk', by simpa using hs.symm⟩

/-- Code without a bare `continue` for the nearest loop leaves its landing unset. -/
theorem Touches.eq_zero (h : Touches n s s') (hs : s'.control.landing = some none) : n = 0 := by
  rcases h with ⟨heq, hn⟩ | ⟨hl, -, k, -, -, heq⟩
  · rw [heq] at hs
    exact hn hs
  · rw [heq, Control.landing_land (by rw [hl]; simp)] at hs
    exact absurd hs (by simp)

theorem Touches.trans (h : Touches n s s') (hg : s.supply.last ≤ s'.supply.last)
    (h' : Touches m s' s'') (hg' : s'.supply.last ≤ s''.supply.last) :
    Touches (n + m) s s'' := by
  rcases h with ⟨heq, hn⟩ | ⟨hl, hn, k, hk, hk', heq⟩
  · rcases h' with ⟨heq', hm⟩ | ⟨hl', hm, k, hk, hk', heq'⟩
    · refine Or.inl ⟨heq'.trans heq, fun hs => ?_⟩
      rw [hn hs, hm (by rw [heq, hs])]
    · rw [heq] at hl' heq'
      exact Or.inr ⟨hl', by omega, k, by omega, hk', heq'⟩
  · rcases h' with ⟨heq', hm⟩ | ⟨hl', -⟩
    · exact Or.inr ⟨hl, by omega, k, hk, by omega, heq'.trans heq⟩
    · rw [heq, Control.landing_land (by rw [hl]; simp)] at hl'
      exact absurd hl' (by simp)

/-- Code made after code. -/
theorem Lands.append (h : Lands v n free s s' code) (h' : Lands v m free' s' s'' rest) :
    Lands v (n + m) (fun name => free name ∧ free' name) s s'' (code ++ rest) := by
  refine ⟨Nat.le_trans h.grows h'.grows, h.touches.trans h.grows h'.touches h'.grows,
    fun name hname => ?_, fun k hk hfree => ?_, fun visible hv => ?_⟩
  · rw [Stat.ownMarksList_append, List.count_append]
    have hm := h'.jumps name hname
    rcases h'.touches.landing hname with hs | ⟨hs, -⟩
    · have hn := h.jumps name hs
      omega
    · have hn := h.touches.eq_zero hs
      omega
  · have hg := h.grows
    have hg' := h'.grows
    have hlater : k ≤ s'.supply.last ∨ s''.supply.last < k ∨ s'.control.landing = some none ∧
        s''.control.landing = some (some (landingName k)) := by
      rcases hk with hk | hk | ⟨hs, hk⟩
      · exact Or.inl (by omega)
      · exact Or.inr (Or.inl hk)
      · rcases h'.touches.landing hk with hs' | ⟨hs', -⟩
        · rcases h.touches.landing hs' with hs'' | ⟨-, l, -, hl, heq⟩
          · rw [hs] at hs''
            exact absurd hs'' (by simp)
          · rw [landingName_injective heq]
            exact Or.inl hl
        · exact Or.inr (Or.inr ⟨hs', hk⟩)
    have hearlier : k ≤ s.supply.last ∨ s'.supply.last < k ∨ s.control.landing = some none ∧
        s'.control.landing = some (some (landingName k)) := by
      rcases hk with hk | hk | ⟨hs, hk⟩
      · exact Or.inl hk
      · exact Or.inr (Or.inl (by omega))
      · rcases h'.touches.landing hk with hs' | ⟨-, l, hl, -, heq⟩
        · exact Or.inr (Or.inr ⟨hs, hs'⟩)
        · rw [landingName_injective heq]
          exact Or.inr (Or.inl hl)
    obtain ⟨hcount, hlabel⟩ := h.others k hearlier hfree.1
    obtain ⟨hcount', hlabel'⟩ := h'.others k hlater hfree.2
    rw [Stat.ownMarksList_append, List.count_append, hcount, hcount', List.mem_append, not_or]
    refine ⟨?_, hlabel, hlabel'⟩
    by_cases hs : s'.control.landing = some (some (landingName k))
    · rw [if_pos hs, if_pos (h'.touches.landed hs), if_pos (h'.touches.landed hs)]
    · rw [if_neg hs]
      split
      · next hs' =>
          rcases h'.touches.landing hs' with hs' | ⟨hs', -⟩
          · exact absurd hs' hs
          · rw [h.touches.eq_zero hs']
      · rfl
  · rw [Stat.settledBlock_append]
    refine ⟨?_, h'.settled visible hv⟩
    rw [h'.touches.leaves]
    refine h.settled _ fun x hx => ?_
    obtain ⟨hmem, hname⟩ := hv x (h'.touches.targets x hx)
    exact ⟨List.mem_append_right _ hmem, hname⟩

/-- The constructs are the same, and the numbers go up. -/
def Steady (s s' : State) : Prop :=
  s'.control = s.control ∧ s.supply.last ≤ s'.supply.last

theorem Steady.refl (s : State) : Steady s s := ⟨rfl, Nat.le_refl _⟩

theorem Steady.trans (h : Steady s s') (h' : Steady s' s'') : Steady s s'' :=
  ⟨h'.1.trans h.1, Nat.le_trans h.2 h'.2⟩

/-- Steps that leave the constructs alone can come before. -/
theorem Lands.after (h : Lands v n free s' s'' code) (hs : Steady s s') :
    Lands v n free s s'' code := by
  obtain ⟨hc, hl⟩ := hs
  refine ⟨Nat.le_trans hl h.grows, ?_, h.jumps, fun k hk hfree => ?_, h.settled⟩
  · rcases h.touches with ⟨heq, hn⟩ | ⟨hland, hn, k, hk, hk', heq⟩
    · rw [hc] at heq hn
      exact Or.inl ⟨heq, hn⟩
    · rw [hc] at hland heq
      exact Or.inr ⟨hland, hn, k, by omega, hk', heq⟩
  · refine h.others k ?_ hfree
    rw [hc]
    exact hk.imp (fun hle => by omega) id

/-- Other code with the same marks, settled where the first one is. -/
theorem Lands.recode (h : Lands v n free s s' code)
    (hm : Stat.ownMarksList rest = Stat.ownMarksList code)
    (hs : ∀ visible loop, Stat.SettledBlock v visible loop code →
      Stat.SettledBlock v visible loop rest) :
    Lands v n free s s' rest := by
  refine ⟨h.grows, h.touches, ?_, ?_, fun visible hv => hs _ _ (h.settled visible hv)⟩
  · rw [hm]
    exact h.jumps
  · rw [hm]
    exact h.others

theorem Lands.mono (h : Lands v n free s s' code) (hf : ∀ name, free' name → free name) :
    Lands v n free' s s' code :=
  ⟨h.grows, h.touches, h.jumps, fun k hk hfree => h.others k hk (hf _ hfree), h.settled⟩

/-- Code without marks, settled everywhere. -/
def Quiet (v : Vocabulary) (code : List Stat) : Prop :=
  Stat.ownMarksList code = [] ∧ ∀ visible loop, Stat.SettledBlock v visible loop code

theorem Quiet.lands (h : Quiet v code) (hs : Steady s s') : Lands v 0 free s s' code := by
  refine ⟨hs.2, Or.inl ⟨hs.1, fun _ => rfl⟩, fun _ _ => Nat.zero_le _, fun k _ _ => ?_,
    fun visible _ => h.2 visible _⟩
  rw [h.1]
  simp

theorem Quiet.nil : Quiet v [] := ⟨rfl, fun _ _ => trivial⟩

theorem Quiet.one {stat : Stat} (hm : stat.ownMarks = [])
    (hs : ∀ visible loop, stat.Settled v visible loop) : Quiet v [stat] :=
  ⟨by rw [Stat.ownMarksList_singleton, hm], fun _ loop => ⟨hs _ loop, trivial⟩⟩

theorem Quiet.append (h : Quiet v code) (h' : Quiet v rest) : Quiet v (code ++ rest) := by
  refine ⟨by rw [Stat.ownMarksList_append, h.1, h'.1]; rfl, fun visible loop => ?_⟩
  rw [Stat.settledBlock_append]
  exact ⟨h.2 _ loop, h'.2 visible loop⟩

/-- Code without marks can stand in front. -/
theorem Quiet.settled_append (h : Quiet v code) {visible : List String} {loop : Bool}
    (hr : Stat.SettledBlock v visible loop rest) :
    Stat.SettledBlock v visible loop (code ++ rest) := by
  rw [Stat.settledBlock_append]
  exact ⟨h.2 _ loop, hr⟩

/-- The labels behind labeled statements are no landings. -/
theorem afterLabel_ne_landingName (label : String) (k : Nat) :
    afterLabel label ≠ landingName k := by
  intro h
  have hlast := congrArg (fun text : String => text.toList.getLast?) h
  simp only [afterLabel, landingName, String.toList_append, Nat.toString_eq_ofList_toDigits,
    String.toList_ofList, List.getLast?_append] at hlast
  have hne : Nat.toDigits 10 k ≠ [] := Nat.toDigits_ne_nil
  have hr : (Nat.toDigits 10 k).getLast? = some ((Nat.toDigits 10 k).getLast hne) :=
    List.getLast?_eq_some_getLast hne
  rw [hr] at hlast
  have hdigit := Nat.isDigit_of_mem_toDigits (by decide) (by decide) (List.getLast_mem hne)
  have heq : 'r' = (Nat.toDigits 10 k).getLast hne := by simpa using hlast
  rw [← heq] at hdigit
  exact absurd hdigit (by decide)

/-- Labels behind labeled statements are no jumps. -/
theorem count_append_afterLabels (marks : List Mark) (labels : List String) (name : String) :
    (marks ++ labels.map fun label => Mark.label (afterLabel label)).count (.goTo name) =
      marks.count (.goTo name) := by
  rw [List.count_append, Nat.add_eq_left, List.count_eq_zero]
  simp

theorem not_mem_append_afterLabels {marks : List Mark} {k : Nat}
    (h : .label (landingName k) ∉ marks) (labels : List String) :
    .label (landingName k) ∉ marks ++ labels.map fun label => Mark.label (afterLabel label) := by
  rw [List.mem_append, not_or]
  refine ⟨h, ?_⟩
  simp only [List.mem_map, Mark.label.injEq, not_exists, not_and]
  exact fun label _ => afterLabel_ne_landingName label k

/-- A construct that jumps see through keeps its place, and the constructs around it are touched
as they are from inside. -/
theorem Touches.unwrap {e : Enclosure} (he : e = .switch ∨ ∃ label, e = .labeled label)
    (h : Touches n { s with control := e :: s.control } s') :
    s'.control = e :: s'.control.tail ∧ Touches n s { s' with control := s'.control.tail } ∧
      s'.control.landing = Control.landing s'.control.tail := by
  have hlanding (control : Control) : Control.landing (e :: control) = control.landing := by
    rcases he with rfl | ⟨label, rfl⟩ <;> rfl
  have hland (name : String) (control : Control) :
      Control.land name (e :: control) = e :: control.land name := by
    rcases he with rfl | ⟨label, rfl⟩ <;> rfl
  rcases h with ⟨heq, hn⟩ | ⟨hl, hn, k, hk, hk', heq⟩
  · rw [hlanding] at hn
    exact ⟨by rw [heq]; rfl, Or.inl ⟨by rw [heq]; rfl, hn⟩, by rw [heq, hlanding]; rfl⟩
  · rw [hland] at heq
    rw [hlanding] at hl
    exact ⟨by rw [heq]; rfl, Or.inr ⟨hl, hn, k, hk, hk', by rw [heq]; rfl⟩,
      by rw [heq, hlanding]; rfl⟩

/-- A construct that jumps see through keeps its place, and the code is made for the
constructs around it. -/
theorem Lands.unwrap {e : Enclosure} (he : e = .switch ∨ ∃ label, e = .labeled label)
    (h : Lands v n free { s with control := e :: s.control } s' code) (labels : List String)
    (hm : Stat.ownMarksList rest =
      Stat.ownMarksList code ++ labels.map fun label => .label (afterLabel label))
    (hs : s'.control = e :: s'.control.tail → ∀ visible,
      (∀ x ∈ Control.targets s'.control.tail, x ∈ visible ∧ v.name x) →
        Stat.SettledBlock v visible (Control.leaves s'.control.tail) rest) :
    Lands v n free s { s' with control := s'.control.tail } rest := by
  have hlanding (control : Control) : Control.landing (e :: control) = control.landing := by
    rcases he with rfl | ⟨label, rfl⟩ <;> rfl
  obtain ⟨hcontrol, htouches, hsame⟩ := h.touches.unwrap he
  refine ⟨h.grows, htouches, ?_, fun k hk hfree => ?_, hs hcontrol⟩
  · simp only [hm, count_append_afterLabels, ← hsame]
    exact h.jumps
  · simp only [hm, count_append_afterLabels, ← hsame] at hk ⊢
    obtain ⟨hcount, hlabel⟩ := h.others k (by rwa [hlanding]) hfree
    exact ⟨hcount, not_mem_append_afterLabels hlabel labels⟩

/-- A block around labeled code, with the label behind its end. -/
theorem Lands.labeledBlock (hv : Covers v) {label : String}
    (h : Lands v n free { s with control := .labeled label :: s.control } s' code) :
    Lands v n free s { s' with control := s'.control.tail }
      [.doBlock (code ++ [.label (afterLabel label)])] := by
  have hmarks : Stat.ownMarksList [.doBlock (code ++ [.label (afterLabel label)])] =
      Stat.ownMarksList code ++ [label].map fun label => .label (afterLabel label) := by
    rw [Stat.ownMarksList_singleton, Stat.ownMarks, Stat.ownMarksList_append]
    rfl
  refine h.unwrap (Or.inr ⟨label, rfl⟩) [label] hmarks fun hcontrol visible hvisible => ?_
  have hleaves : s'.control.leaves = Control.leaves s'.control.tail := by
    rw [hcontrol]
    rfl
  rw [← hleaves]
  refine ⟨Stat.settledBlock_append.mpr ⟨h.settled _ fun x hx => ?_, hv.after label, trivial⟩,
    trivial⟩
  rw [hcontrol] at hx
  rcases List.mem_cons.mp hx with rfl | hx
  · exact ⟨List.mem_append_left _ List.mem_cons_self, hv.after label⟩
  · obtain ⟨hmem, hname⟩ := hvisible x hx
    exact ⟨List.mem_append_right _ hmem, hname⟩

/-- A `switch` is a loop that `break` leaves. -/
theorem Lands.switchBlock {front : List Stat} (hf : Quiet v front)
    (h : Lands v n free { s with control := .switch :: s.control } s' code) :
    Lands v n free s { s' with control := s'.control.tail }
      [.repeatUntil (front ++ code) (.bool true)] := by
  have hmarks : Stat.ownMarksList [.repeatUntil (front ++ code) (.bool true)] =
      Stat.ownMarksList code ++ [] := by
    rw [Stat.ownMarksList_singleton, Stat.ownMarks, Stat.ownMarksList_append, hf.1,
      List.nil_append, List.append_nil]
  refine h.unwrap (Or.inl rfl) [] hmarks fun hcontrol visible hvisible => ?_
  refine ⟨⟨hf.settled_append ?_, trivial, .inl rfl⟩, trivial⟩
  have hleaves : s'.control.leaves = true := by
    rw [hcontrol]
    rfl
  rw [← hleaves]
  refine h.settled visible fun x hx => ?_
  rw [hcontrol] at hx
  exact hvisible x hx

/-- What making the code of a loop's body did to the state; the labels behind the loop are still
to be printed. -/
structure Loops (v : Vocabulary) (free : String → Prop) (labels : List String) (s s' : State)
    (body : List Stat) : Prop where
  steady : Steady s s'
  others : ∀ k, (k ≤ s.supply.last ∨ s'.supply.last < k) → free (landingName k) →
    (Stat.ownMarksList body).count (.goTo (landingName k)) = 0 ∧
      .label (landingName k) ∉ Stat.ownMarksList body
  settled : ∀ visible, (∀ x ∈ s'.control.targets, x ∈ visible ∧ v.name x) →
    (∀ label ∈ labels, afterLabel label ∈ visible) → Stat.SettledBlock v visible true body

/-- The body of a loop is printed with the labels that `continue` goes to, and the landing is among
them exactly if a bare `continue` asked for it. -/
theorem Lands.looped (hv : Covers v) {labels : List String}
    (h : Lands v n free { s with control := .loop labels none :: s.control } s' code) :
    ∃ landing : Option String, s'.control = .loop labels landing :: s.control ∧
      (n = 0 → landing = none) ∧
      (0 < n → ∃ k, s.supply.last < k ∧ k ≤ s'.supply.last ∧ landing = some (landingName k)) ∧
      Loops v (fun name => free name ∧ ∀ label ∈ labels, Lua.spell label ≠ name) labels s
        { s' with control := s'.control.tail }
        (.doBlock code :: (labels.map Lua.spell ++ landing.toList).map .label) := by
  obtain ⟨landing, hcontrol, hnone, hsome⟩ : ∃ landing : Option String,
      s'.control = .loop labels landing :: s.control ∧ (n = 0 → landing = none) ∧
      (0 < n → ∃ k, s.supply.last < k ∧ k ≤ s'.supply.last ∧ landing = some (landingName k)) := by
    rcases h.touches with ⟨heq, hn⟩ | ⟨-, hn, k, hk, hk', heq⟩
    · have hzero := hn rfl
      exact ⟨none, heq, fun _ => rfl, fun hpos => absurd hpos (by omega)⟩
    · exact ⟨_, heq, fun hzero => absurd hn (by omega), fun _ => ⟨k, hk, hk', rfl⟩⟩
  refine ⟨landing, hcontrol, hnone, hsome, ⟨by rw [hcontrol]; rfl, h.grows⟩, ?_, ?_⟩
  · intro k hk hfree
    -- the landing of this loop has a number that is not `k`
    have hlanding : landing ≠ some (landingName k) := by
      rintro rfl
      have hpos : 0 < n := Nat.pos_of_ne_zero fun hzero => absurd (hnone hzero) (by simp)
      obtain ⟨l, hl, hl', heq⟩ := hsome hpos
      have : k = l := landingName_injective (by simpa using heq)
      simp only at hk
      omega
    obtain ⟨hcount, hlabel⟩ := h.others k (hk.imp id Or.inl) hfree.1
    have hother : s'.control.landing ≠ some (some (landingName k)) := by
      rw [hcontrol]
      simpa [Control.landing] using hlanding
    rw [if_neg hother] at hcount
    have hmarks : Stat.ownMarksList
          (.doBlock code :: (labels.map Lua.spell ++ landing.toList).map .label) =
        Stat.ownMarksList code ++ (labels.map Lua.spell ++ landing.toList).map .label := by
      rw [Stat.ownMarksList, Stat.ownMarksList_map_label]
      rfl
    rw [hmarks]
    constructor
    · rw [List.count_append, hcount, Nat.zero_add, List.count_eq_zero]
      simp
    · rw [List.mem_append, not_or]
      refine ⟨hlabel, ?_⟩
      simp only [List.mem_map, List.mem_append, Option.mem_toList, Mark.label.injEq, not_exists,
        not_and]
      rintro name (⟨label, hmem, rfl⟩ | hmem) heq
      · exact hfree.2 label hmem heq
      · exact hlanding (heq ▸ hmem)
  · intro visible hvisible hafter
    have hnames : ∀ x ∈ labels.map Lua.spell ++ landing.toList, v.name x := by
      intro x hx
      rcases List.mem_append.mp hx with hx | hx
      · obtain ⟨label, -, rfl⟩ := List.mem_map.mp hx
        exact hv.spell label
      · have hpos : 0 < n := by
          refine Nat.pos_of_ne_zero fun hzero => ?_
          rw [hnone hzero] at hx
          exact absurd hx (by simp)
        obtain ⟨k, -, -, heq⟩ := hsome hpos
        rw [heq, Option.toList_some, List.mem_singleton] at hx
        rw [hx]
        exact hv.numbered _ (by decide) k
    refine ⟨?_, Stat.settledBlock_map_label hnames⟩
    rw [Stat.labels_map_label]
    have hinner := h.settled (labels.map Lua.spell ++ landing.toList ++ visible)
    rw [hcontrol] at hinner hvisible
    refine hinner fun x hx => ?_
    simp only [Control.targets, List.append_assoc, List.mem_append] at hx
    rcases hx with hx | hx | hx | hx
    · obtain ⟨label, hmem, rfl⟩ := List.mem_map.mp hx
      exact ⟨List.mem_append_right _ (hafter label hmem), hv.after label⟩
    · have hmem : x ∈ labels.map Lua.spell ++ landing.toList := List.mem_append_left _ hx
      exact ⟨List.mem_append_left _ hmem, hnames x hmem⟩
    · have hmem : x ∈ labels.map Lua.spell ++ landing.toList := List.mem_append_right _ hx
      exact ⟨List.mem_append_left _ hmem, hnames x hmem⟩
    · obtain ⟨hmem, hname⟩ := hvisible x hx
      exact ⟨List.mem_append_right _ hmem, hname⟩

end Steps

end EcmaLua.Emission
