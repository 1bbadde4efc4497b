import Mathlib.Data.List.Nodup
import EcmaLua.Proofs.Emission.Landing

/-!
# Resolution of jumps

A jump addresses the innermost construct of the right kind. The search for it stops at the first
barrier: a jump is blocked if there is a barrier inside its target, and also if there is a barrier
and no target at all. While constructs come and go, the bare `continue`s of a loop all get the
same label, and those of another loop a different one.
-/

namespace EcmaLua.Emission

/-- A `break` or `continue`, with its label if it has one. -/
structure JumpForm where
  continues : Bool
  label : Option String
deriving DecidableEq, Repr

/-- A `continue` without a label. -/
def JumpForm.bareContinue : JumpForm := ⟨true, none⟩

/-- Whether the jump may address a construct: a loop that carries its label, if it has one; and
for a `break`, a `switch` if it has no label, or a statement with the label. -/
def JumpForm.addresses (form : JumpForm) : Enclosure → Bool
  | .loop labels _ => form.label.all labels.contains
  | .switch => !form.continues && form.label.isNone
  | .labeled name => !form.continues && form.label == some name
  | .barrier => false

/-- Whether the jump can be made. -/
def Jump.isMade : Jump → Bool
  | .leave | .goTo _ => true
  | .blocked | .missing => false

theorem Jump.isMade_iff {jump : Jump} :
    jump.isMade = true ↔ jump ≠ .blocked ∧ jump ≠ .missing := by
  cases jump <;> simp [isMade]

namespace Control

/-- The position of the target, counted from the inside. -/
def target? (form : JumpForm) (control : Control) : Option Nat := control.findIdx? form.addresses

/-- How the jump is resolved. -/
def resolve (form : JumpForm) (supply : Supply) (control : Control) : Jump × Control × Supply :=
  if form.continues then control.continueJump form.label supply
  else (control.breakJump form.label, control, supply)

/-- The answer to the jump. -/
def answer (form : JumpForm) (supply : Supply) (control : Control) : Jump :=
  (control.resolve form supply).1

section Search

variable {form : JumpForm} {e : Enclosure} {rest : Control} (supply : Supply)

theorem answer_nil (form : JumpForm) : answer form supply [] = .missing := by
  obtain ⟨continues, label⟩ := form
  cases continues <;> rfl

theorem answer_barrier (form : JumpForm) (rest : Control) :
    answer form supply (.barrier :: rest) = .blocked := by
  obtain ⟨continues, label⟩ := form
  cases continues <;> rfl

/-- The search ends at a construct that the jump may address. -/
theorem answer_addressed (h : form.addresses e = true) :
    (answer form supply (e :: rest)).isMade = true := by
  obtain ⟨continues, label⟩ := form
  cases e with
  | loop labels landing =>
    cases label with
    | none => cases continues <;> cases landing <;> rfl
    | some wanted =>
      have hw : labels.contains wanted = true := h
      cases continues
      · simp only [answer, resolve, breakJump, hw, if_true, Bool.false_eq_true, if_false]
        rfl
      · simp only [answer, resolve, continueJump, hw, if_true]
        rfl
  | switch =>
    obtain ⟨rfl, rfl⟩ : continues = false ∧ label = none := by
      simpa [JumpForm.addresses] using h
    rfl
  | labeled name =>
    obtain ⟨rfl, rfl⟩ : continues = false ∧ label = some name := by
      simpa [JumpForm.addresses] using h
    simp [answer, resolve, breakJump, Jump.isMade]
  | barrier => exact absurd h (by simp [JumpForm.addresses])

/-- The search passes over all other constructs. -/
theorem answer_passed (h : form.addresses e = false) (hb : e ≠ .barrier) :
    answer form supply (e :: rest) = answer form supply rest := by
  obtain ⟨continues, label⟩ := form
  cases e with
  | loop labels landing =>
    cases label with
    | none => exact absurd h (by simp [JumpForm.addresses])
    | some wanted =>
      have hw : labels.contains wanted = false := h
      cases continues
      · simp only [answer, resolve, breakJump, hw, Bool.false_eq_true, if_false]
      · simp only [answer, resolve, continueJump, hw, Bool.false_eq_true, if_false, if_true]
  | switch =>
    cases continues
    · obtain ⟨wanted, rfl⟩ : ∃ wanted, label = some wanted := by
        simpa [JumpForm.addresses, Option.isSome_iff_exists] using h
      rfl
    · rfl
  | labeled name =>
    cases continues
    · have hn : label ≠ some name := by simpa [JumpForm.addresses] using h
      simp only [answer, resolve, breakJump, hn, Bool.false_eq_true, if_false]
    · rfl
  | barrier => exact absurd rfl hb

theorem target?_addressed (h : form.addresses e = true) : target? form (e :: rest) = some 0 := by
  simp [target?, List.findIdx?_cons, h]

theorem target?_passed (h : form.addresses e = false) :
    target? form (e :: rest) = (target? form rest).map (· + 1) := by
  simp [target?, List.findIdx?_cons, h]

end Search

/-- What decides about a jump: where its target is, and whether there is a barrier inside of it,
or anywhere if there is no target. -/
theorem answer_cases (form : JumpForm) (supply : Supply) (control : Control) :
    match control.target? form with
    | some i => if .barrier ∈ control.take i then control.answer form supply = .blocked
        else (control.answer form supply).isMade = true
    | none => control.answer form supply = if .barrier ∈ control then .blocked else .missing := by
  induction control with
  | nil => exact answer_nil supply form
  | cons e rest ih =>
    by_cases ha : form.addresses e = true
    · rw [target?_addressed ha]
      exact answer_addressed supply ha
    · rw [Bool.not_eq_true] at ha
      rw [target?_passed ha]
      by_cases hb : e = .barrier
      · subst hb
        rw [answer_barrier]
        cases target? form rest <;> simp
      · rw [answer_passed supply ha hb]
        have hmem (l : Control) : .barrier ∈ e :: l ↔ .barrier ∈ l := by
          simp [Ne.symm hb]
        cases htarget : target? form rest with
        | none => simpa [htarget, hmem] using ih
        | some i => simpa [htarget, hmem] using ih

/-- No jump but a bare `continue` changes anything. -/
theorem resolve_other {form : JumpForm} (h : form ≠ .bareContinue) (supply : Supply)
    (control : Control) :
    control.resolve form supply = (control.answer form supply, control, supply) := by
  obtain ⟨continues, label⟩ := form
  cases continues with
  | false => rfl
  | true =>
    cases label with
    | none => exact absurd rfl h
    | some wanted =>
      obtain ⟨jump, heq, -⟩ := continueJump_labeled wanted supply control
      simp only [answer, resolve, heq, if_true]

end Control

/-- A construct when it is opened: a loop has no landing yet. -/
def Enclosure.opened : Enclosure → Enclosure
  | .loop labels _ => .loop labels none
  | e => e

/-- What can happen while code is made. -/
inductive Move where
  /-- a construct begins -/
  | enter (e : Enclosure)
  /-- the innermost construct ends -/
  | leave
  /-- the body of a function begins, where no construct around can be addressed -/
  | enterFunction
  | leaveFunction
  /-- a name is made up -/
  | fresh (stem : String)
  /-- a jump is resolved -/
  | jump (form : JumpForm)

/-- A jump that was resolved, with the number of its target. -/
structure Resolved where
  form : JumpForm
  target : Option Nat
  jump : Jump
deriving DecidableEq, Repr

/-- The constructs around a place, each with the number that it got when it was opened, and the
jumps that were resolved on the way. -/
structure Session where
  frames : List (Nat × Enclosure) := []
  /-- the constructs around the functions around, innermost function first -/
  outer : List (List (Nat × Enclosure)) := []
  supply : Supply := {}
  /-- how many constructs were opened -/
  count : Nat := 0
  log : List Resolved := []

namespace Session

/-- The constructs without their numbers. -/
def control (s : Session) : Control := s.frames.map Prod.snd

/-- The number of the construct that a jump addresses. -/
def targetNumber (s : Session) (form : JumpForm) : Option Nat :=
  (s.control.target? form).bind fun i => s.frames[i]?.map Prod.fst

def step (s : Session) : Move → Session
  | .enter e => { s with frames := (s.count, e.opened) :: s.frames, count := s.count + 1 }
  | .leave => { s with frames := s.frames.tail }
  | .enterFunction => { s with frames := [], outer := s.frames :: s.outer }
  | .leaveFunction =>
    match s.outer with
    | [] => s
    | frames :: outer => { s with frames, outer }
  | .fresh stem => { s with supply := (s.supply.fresh stem).2 }
  | .jump form =>
    let (jump, control, supply) := s.control.resolve form s.supply
    { s with
      frames := (s.frames.map Prod.fst).zip control
      supply
      log := s.log ++ [⟨form, s.targetNumber form, jump⟩] }

def run (s : Session) (moves : List Move) : Session := moves.foldl step s

/-- All constructs, those around the functions around included. -/
def all (s : Session) : List (Nat × Enclosure) := s.frames ++ s.outer.flatten

/-- A bare `continue` for the loop with the number went to the label. -/
def Landed (s : Session) (number : Nat) (label : String) : Prop :=
  ⟨.bareContinue, some number, .goTo label⟩ ∈ s.log

/-- Numbers tell constructs apart. A loop has the landing that its bare `continue`s went to, and
none if there was no such jump. Landings are made-up names, one for each loop. -/
structure Sound (s : Session) : Prop where
  nodup : (s.all.map Prod.fst).Nodup
  bounded : ∀ frame ∈ s.all, frame.1 < s.count
  past : ∀ number label, s.Landed number label → number < s.count
  landed : ∀ number labels label, (number, .loop labels (some label)) ∈ s.all →
    s.Landed number label
  unlanded : ∀ number labels label, (number, .loop labels none) ∈ s.all →
    ¬ s.Landed number label
  numbered : ∀ number label, s.Landed number label →
    ∃ k ≤ s.supply.last, label = landingName k
  apart : ∀ i j label label', s.Landed i label → s.Landed j label' → (i = j ↔ label = label')

section Steps

variable {s : Session}

theorem sound_start (supply : Supply) : Sound { supply } where
  nodup := List.nodup_nil
  bounded := nofun
  past := nofun
  landed := nofun
  unlanded := nofun
  numbered := nofun
  apart := nofun

/-- A session with no new landings and with constructs that were there before. -/
theorem Sound.of_sublist (h : s.Sound) {t : Session} (hall : t.all.Sublist s.all)
    (hlanded : ∀ number label, t.Landed number label ↔ s.Landed number label)
    (hcount : t.count = s.count) (hsupply : s.supply.last ≤ t.supply.last) : t.Sound := by
  refine ⟨h.nodup.sublist (hall.map _), fun frame hf => ?_, fun number label hl => ?_,
    fun number labels label hm => ?_, fun number labels label hm => ?_,
    fun number label hl => ?_, fun i j label label' hi hj => ?_⟩
  · rw [hcount]
    exact h.bounded frame (hall.mem hf)
  · rw [hcount]
    exact h.past number label ((hlanded _ _).mp hl)
  · exact (hlanded _ _).mpr (h.landed number labels label (hall.mem hm))
  · exact fun hl => h.unlanded number labels label (hall.mem hm) ((hlanded _ _).mp hl)
  · obtain ⟨k, hk, heq⟩ := h.numbered number label ((hlanded _ _).mp hl)
    exact ⟨k, by omega, heq⟩
  · exact h.apart i j label label' ((hlanded _ _).mp hi) ((hlanded _ _).mp hj)

theorem Sound.enter (h : s.Sound) (e : Enclosure) : (s.step (.enter e)).Sound := by
  have hnew (number : Nat) (label : String) (hl : s.Landed number label) : number ≠ s.count :=
    Nat.ne_of_lt (h.past number label hl)
  refine ⟨List.nodup_cons.mpr ⟨fun hm => ?_, h.nodup⟩, ?_, fun number label hl =>
    Nat.lt_succ_of_lt (h.past number label hl), fun number labels label hm => ?_,
    fun number labels label hm hl => ?_, h.numbered, h.apart⟩
  · obtain ⟨frame, hf, heq⟩ := List.mem_map.mp hm
    exact absurd heq (Nat.ne_of_lt (h.bounded frame hf))
  · rintro frame (_ | ⟨_, hf⟩)
    · exact Nat.lt_succ_self _
    · exact Nat.lt_succ_of_lt (h.bounded frame hf)
  · rcases List.mem_cons.mp hm with heq | hm
    · cases e <;> simp [Enclosure.opened] at heq
    · exact h.landed number labels label hm
  · rcases List.mem_cons.mp hm with heq | hm
    · exact hnew number label hl (congrArg Prod.fst heq)
    · exact h.unlanded number labels label hm hl

/-- The loop of a bare `continue`, and what setting its landing does to the constructs. -/
theorem frames_of_landing {frames : List (Nat × Enclosure)} {landing : Option String}
    (h : Control.landing (frames.map Prod.snd) = some landing) :
    ∃ before number labels after, frames = before ++ (number, .loop labels landing) :: after ∧
      Control.target? .bareContinue (frames.map Prod.snd) = some before.length ∧
      ∀ name, (frames.map Prod.fst).zip (Control.land name (frames.map Prod.snd)) =
        before ++ (number, .loop labels (some name)) :: after := by
  induction frames with
  | nil => exact absurd h (by simp [Control.landing])
  | cons frame rest ih =>
    obtain ⟨number, e⟩ := frame
    -- a construct that is passed over stays in front of the loop
    have hpassed (hl : Control.landing (rest.map Prod.snd) = some landing)
        (ha : JumpForm.bareContinue.addresses e = false)
        (hland : ∀ name, Control.land name (e :: rest.map Prod.snd) =
          e :: Control.land name (rest.map Prod.snd)) :
        ∃ before n labels after, (number, e) :: rest =
            before ++ (n, .loop labels landing) :: after ∧
          Control.target? .bareContinue (e :: rest.map Prod.snd) = some before.length ∧
          ∀ name, (number :: rest.map Prod.fst).zip
              (Control.land name (e :: rest.map Prod.snd)) =
            before ++ (n, .loop labels (some name)) :: after := by
      obtain ⟨before, n, labels, after, heq, ht, hz⟩ := ih hl
      refine ⟨(number, e) :: before, n, labels, after, by rw [heq]; rfl, ?_, fun name => ?_⟩
      · rw [Control.target?_passed ha, ht]
        rfl
      · rw [hland, List.zip_cons_cons, hz]
        rfl
    cases e with
    | loop labels l =>
      obtain rfl : l = landing := by simpa [Control.landing] using h
      refine ⟨[], number, labels, rest, rfl, Control.target?_addressed rfl, fun name => ?_⟩
      simp only [List.map_cons, Control.land, List.zip_cons_cons, List.nil_append]
      rw [← List.zip_of_prod rfl rfl]
    | switch => exact hpassed h rfl fun _ => rfl
    | labeled label => exact hpassed h rfl fun _ => rfl
    | barrier => exact absurd h (by simp [Control.landing])

/-- The session after a jump, from how the jump is resolved. -/
theorem step_jump {form : JumpForm} {jump : Jump} {control : Control} {supply : Supply}
    (h : s.control.resolve form s.supply = (jump, control, supply)) :
    s.step (.jump form) =
      { s with
        frames := (s.frames.map Prod.fst).zip control
        supply
        log := s.log ++ [⟨form, s.targetNumber form, jump⟩] } := by
  simp only [step, h]

/-- A jump that leaves the constructs alone keeps a session sound, if a bare `continue` goes to
where others for its loop went before. -/
theorem Sound.settled (h : s.Sound) {form : JumpForm} {jump : Jump}
    (hr : s.control.resolve form s.supply = (jump, s.control, s.supply))
    (hknown : ∀ number label, form = .bareContinue → s.targetNumber form = some number →
      jump = .goTo label → s.Landed number label) :
    (s.step (.jump form)).Sound := by
  rw [step_jump hr]
  have hframes : (s.frames.map Prod.fst).zip s.control = s.frames :=
    (List.zip_of_prod rfl rfl).symm
  rw [hframes]
  refine h.of_sublist (List.Sublist.refl _) (fun number label => ?_) rfl (Nat.le_refl _)
  simp only [Landed, List.mem_append, List.mem_singleton, Resolved.mk.injEq]
  refine ⟨fun hl => hl.elim id fun ⟨hf, hn, hj⟩ => ?_, Or.inl⟩
  exact hknown number label hf.symm hn.symm hj.symm

/-- A landing that is set to the next name, for a loop that had none. -/
theorem Sound.land (h : s.Sound) {t : Session} {before rest : List (Nat × Enclosure)}
    {number : Nat} {labels : List String} {name : String}
    (hname : name = landingName (s.supply.last + 1))
    (hall : s.all = before ++ (number, .loop labels none) :: rest)
    (hall' : t.all = before ++ (number, .loop labels (some name)) :: rest)
    (hcount : t.count = s.count) (hsupply : t.supply.last = s.supply.last + 1)
    (hlanded : ∀ i label, t.Landed i label ↔ s.Landed i label ∨ i = number ∧ label = name) :
    t.Sound := by
  have hnumbers : t.all.map Prod.fst = s.all.map Prod.fst := by simp [hall, hall']
  have hloop : (number, .loop labels none) ∈ s.all := by simp [hall]
  -- the constructs but for the loop are those from before, with other numbers
  have hmem {frame : Nat × Enclosure} (hf : frame ∈ t.all) :
      frame = (number, .loop labels (some name)) ∨ frame ∈ s.all ∧ frame.1 ≠ number := by
    rw [hall', List.mem_append, List.mem_cons, or_left_comm, ← List.mem_append] at hf
    refine hf.imp_right fun hf => ⟨?_, fun heq => ?_⟩
    · rw [hall, List.mem_append, List.mem_cons]
      exact (List.mem_append.mp hf).imp_right Or.inr
    · have hnodup := h.nodup
      rw [hall, List.map_append, List.map_cons, List.nodup_middle, List.nodup_cons,
        ← List.map_append] at hnodup
      have hfst := List.mem_map_of_mem (f := Prod.fst) hf
      exact hnodup.1 (heq ▸ hfst)
  have hfirst (label : String) : ¬ s.Landed number label := h.unlanded number labels label hloop
  have hnew (i : Nat) : ¬ s.Landed i name := fun hi => by
    obtain ⟨k, hk, heq⟩ := h.numbered i name hi
    have := landingName_injective (hname.symm.trans heq)
    omega
  refine ⟨hnumbers ▸ h.nodup, fun frame hf => ?_, fun i label hi => ?_,
    fun i labels' label hm => ?_, fun i labels' label hm hi => ?_, fun i label hi => ?_,
    fun i j label label' hi hj => ?_⟩
  · rw [hcount]
    rcases hmem hf with heq | ⟨hold, -⟩
    · rw [heq]
      exact h.bounded (number, .loop labels none) hloop
    · exact h.bounded frame hold
  · rw [hcount]
    rcases (hlanded _ _).mp hi with hi | ⟨rfl, -⟩
    · exact h.past i label hi
    · exact h.bounded _ hloop
  · rcases hmem hm with heq | ⟨hold, -⟩
    · simp only [Prod.mk.injEq, Enclosure.loop.injEq, Option.some.injEq] at heq
      exact (hlanded _ _).mpr (Or.inr ⟨heq.1, heq.2.2⟩)
    · exact (hlanded _ _).mpr (Or.inl (h.landed i labels' label hold))
  · rcases hmem hm with heq | ⟨hold, hne⟩
    · simp at heq
    · rcases (hlanded _ _).mp hi with hi | ⟨heq, -⟩
      · exact h.unlanded i labels' label hold hi
      · exact hne heq
  · rw [hsupply]
    rcases (hlanded _ _).mp hi with hi | ⟨-, rfl⟩
    · obtain ⟨k, hk, heq⟩ := h.numbered i label hi
      exact ⟨k, Nat.le_succ_of_le hk, heq⟩
    · exact ⟨s.supply.last + 1, Nat.le_refl _, hname⟩
  · rcases (hlanded _ _).mp hi with hi | ⟨rfl, rfl⟩ <;>
      rcases (hlanded _ _).mp hj with hj | ⟨rfl, rfl⟩
    · exact h.apart i j label label' hi hj
    · exact ⟨fun heq => absurd (heq ▸ hi) (hfirst label), fun heq => absurd (heq ▸ hi) (hnew i)⟩
    · exact ⟨fun heq => absurd (heq ▸ hj) (hfirst label'),
        fun heq => absurd (heq ▸ hj) (hnew j)⟩
    · exact iff_of_true rfl rfl

/-- The first bare `continue` for a loop. -/
theorem Sound.first (h : s.Sound) (hl : s.control.landing = some none) :
    (s.step (.jump .bareContinue)).Sound := by
  have hresolve : s.control.resolve .bareContinue s.supply =
      (.goTo (landingName (s.supply.last + 1)),
        s.control.land (landingName (s.supply.last + 1)), ⟨s.supply.last + 1⟩) :=
    Control.continueJump_unlanded hl s.supply
  obtain ⟨before, number, labels, after, hframes, htarget, hzip⟩ := frames_of_landing hl
  have hnumber : s.targetNumber .bareContinue = some number := by
    rw [targetNumber, control, htarget, Option.bind_some, hframes]
    simp
  have hall : s.all = before ++ (number, .loop labels none) :: (after ++ s.outer.flatten) := by
    rw [all, hframes, List.append_assoc, List.cons_append]
  rw [step_jump hresolve, hnumber, control, hzip]
  refine h.land rfl hall ?_ rfl rfl fun i label => ?_
  · rw [all, List.append_assoc, List.cons_append]
  · simp only [Landed, List.mem_append, List.mem_singleton, Resolved.mk.injEq, true_and,
      Option.some.injEq, Jump.goTo.injEq]

theorem Sound.jump (h : s.Sound) (form : JumpForm) : (s.step (.jump form)).Sound := by
  by_cases hform : form = .bareContinue
  · subst hform
    rcases hl : s.control.landing with _ | _ | name
    · obtain ⟨jump, hj, heq⟩ := Control.continueJump_outside hl s.supply
      refine h.settled heq fun number label _ _ hgo => ?_
      rcases hj with rfl | rfl <;> exact absurd hgo (by simp)
    · exact h.first hl
    · refine h.settled (Control.continueJump_landed hl s.supply) fun number label _ hn hgo => ?_
      obtain ⟨before, n, labels, after, hframes, htarget, -⟩ := frames_of_landing hl
      obtain rfl : n = number := by
        rw [targetNumber, control, htarget, Option.bind_some, hframes] at hn
        simpa using hn
      obtain rfl : name = label := by simpa using hgo
      refine h.landed n labels name (List.mem_append_left _ ?_)
      rw [hframes]
      exact List.mem_append_right _ List.mem_cons_self
  · exact h.settled (Control.resolve_other hform s.supply s.control)
      fun _ _ hf => absurd hf hform

theorem Sound.step (h : s.Sound) (move : Move) : (s.step move).Sound := by
  cases move with
  | enter e => exact h.enter e
  | leave =>
    exact h.of_sublist ((List.tail_sublist _).append_right _) (fun _ _ => .rfl) rfl
      (Nat.le_refl _)
  | enterFunction =>
    exact h.of_sublist (List.Sublist.refl _) (fun _ _ => .rfl) rfl (Nat.le_refl _)
  | leaveFunction =>
    rcases houter : s.outer with _ | ⟨frames, outer⟩
    · simpa only [Session.step, houter] using h
    · simp only [Session.step, houter]
      refine h.of_sublist ?_ (fun _ _ => .rfl) rfl (Nat.le_refl _)
      rw [all, all, houter, List.flatten_cons]
      exact List.sublist_append_right _ _
  | fresh stem =>
    exact h.of_sublist (List.Sublist.refl _) (fun _ _ => .rfl) rfl (Nat.le_succ _)
  | jump form => exact h.jump form

theorem Sound.run (h : s.Sound) (moves : List Move) : (s.run moves).Sound := by
  induction moves generalizing s with
  | nil => exact h
  | cons move rest ih => exact ih (h.step move)

end Steps

end Session

/-- A jump is made if there is no barrier inside its target. It is blocked by a barrier inside
its target, and without a target by any barrier. It is missing if there is neither target nor
barrier. From whatever supply of names a session starts and whatever happens in it, two bare
`continue`s go to the same label exactly if they are for the same loop. -/
theorem jump_resolved_exactly (form : JumpForm) (supply : Supply) (control : Control)
    (moves : List Move) :
    ((control.answer form supply).isMade = true ↔
        ∃ i, control.target? form = some i ∧ .barrier ∉ control.take i) ∧
      (control.answer form supply = .blocked ↔
        (∃ i, control.target? form = some i ∧ .barrier ∈ control.take i) ∨
          control.target? form = none ∧ .barrier ∈ control) ∧
      (control.answer form supply = .missing ↔
        control.target? form = none ∧ .barrier ∉ control) ∧
      ∀ i j label label',
        (Session.run { supply } moves).Landed i label →
          (Session.run { supply } moves).Landed j label' → (i = j ↔ label = label') := by
  have hcases := control.answer_cases form supply
  suffices hanswer : _ ∧ _ ∧ _ from
    ⟨hanswer.1, hanswer.2.1, hanswer.2.2, ((Session.sound_start supply).run moves).apart⟩
  rcases htarget : control.target? form with _ | i
  · by_cases hb : .barrier ∈ control
    · have ha : control.answer form supply = .blocked := by simpa [htarget, hb] using hcases
      simp [ha, hb, Jump.isMade_iff]
    · have ha : control.answer form supply = .missing := by simpa [htarget, hb] using hcases
      simp [ha, hb, Jump.isMade_iff]
  · by_cases hb : .barrier ∈ control.take i
    · have ha : control.answer form supply = .blocked := by simpa [htarget, hb] using hcases
      simp [ha, hb, Jump.isMade_iff]
    · have ha : (control.answer form supply).isMade = true := by
        simpa [htarget, hb] using hcases
      simp [ha, hb, Jump.isMade_iff.mp ha]

/-- Two loops, one in the other, and `continue`s for the outer one before and after the inner
one. -/
theorem jump_resolved_exactly_nested :
    let session : Session := Session.run {} [.enter (.loop [] none), .jump .bareContinue,
      .enter .switch, .enter (.loop [] none), .jump .bareContinue, .leave, .jump .bareContinue]
    session.Landed 0 "__Continue1" ∧ session.Landed 2 "__Continue2" ∧
      (0 = 2 ↔ "__Continue1" = "__Continue2") := by
  intro session
  have houter : session.Landed 0 "__Continue1" := by
    rw [Session.Landed]
    decide +kernel
  have hinner : session.Landed 2 "__Continue2" := by
    rw [Session.Landed]
    decide +kernel
  exact ⟨houter, hinner,
    (jump_resolved_exactly .bareContinue {} [] _).2.2.2 0 2 _ _ houter hinner⟩

/-- A `continue` with the label of a block, in a `try` statement inside of the block: there is no
loop to go on with, and still the jump is blocked rather than missing. -/
theorem continue_block_blocked :
    let control : Control := [.barrier, .loop [] none, .labeled "a"]
    control.target? ⟨true, some "a"⟩ = none ∧ control.answer ⟨true, some "a"⟩ {} = .blocked := by
  decide

end EcmaLua.Emission
