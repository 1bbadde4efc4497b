import EcmaLua.Proofs.Emission.Internal
import EcmaLua.Proofs.Emission.Settled
import EcmaLua.Proofs.Lua.Labels

/-!
# Labels of a body

A label of the program becomes up to two labels in Lua, one behind the body of a loop and one behind
the statement, and a loop with a bare `continue` has a landing. If the labels of nested statements
have no text in common, all of these are told apart: two are never seen from one place under one
name. Labels of statements that are not nested may well be equal.
-/

namespace EcmaLua

open Emission
open Lua (Stat Tail)

namespace Emission

/-- The Lua labels that a label of the program may become. -/
def labelTexts (label : String) : List String := [Lua.spell label, afterLabel label]

/-- The label is no landing, and none of its Lua labels is one of a label around it. -/
structure IsNew (around : List String) (label : String) : Prop where
  landing : ∀ k, label ≠ landingName k
  others : ∀ outer ∈ around, ∀ text ∈ labelTexts label, text ∉ labelTexts outer

end Emission

mutual

/-- Every label of a labeled statement is new where it stands. What stands in a function or in a
part of a `try` statement is not seen from outside and is left out. -/
def Stmt.LabelsApart (around : List String) : Stmt → Prop
  | .labeled label body => IsNew around label ∧ body.LabelsApart (label :: around)
  | .ifStmt _ cons alt => cons.LabelsApart around ∧ Stmt.LabelsApartOpt around alt
  | .whileStmt _ body | .doWhileStmt body _ | .forStmt _ _ _ body | .forInStmt _ _ body
  | .withStmt _ body _ => body.LabelsApart around
  | .switchStmt _ cases => SwitchCase.LabelsApart around cases
  | .block body => Stmt.LabelsApartList around body
  | _ => True

def Stmt.LabelsApartList (around : List String) : List Stmt → Prop
  | [] => True
  | s :: rest => s.LabelsApart around ∧ Stmt.LabelsApartList around rest

def Stmt.LabelsApartOpt (around : List String) : Option Stmt → Prop
  | none => True
  | some s => s.LabelsApart around

def SwitchCase.LabelsApart (around : List String) : List SwitchCase → Prop
  | [] => True
  | ⟨_, body⟩ :: rest =>
    Stmt.LabelsApartList around body ∧ SwitchCase.LabelsApart around rest

end

namespace Emission

open Lua (Vocabulary)
open Lua.Stat (Separate Unlabeled ApartBlock)

/-- The name is no landing and no Lua label of a label around. -/
def Clear (around : List String) (name : String) : Prop :=
  (∀ k, name ≠ landingName k) ∧ ∀ outer ∈ around, name ∉ labelTexts outer

/-- The name is a landing made between the states, and not the one that the nearest loop has got
since then. -/
def NewLanding (s s' : State) (name : String) : Prop :=
  ∃ k, s.supply.last < k ∧ k ≤ s'.supply.last ∧ name = landingName k ∧
    (s.control.landing = some none → s'.control.landing ≠ some (some name))

/-- The labels in code made between the states: they are told apart, and each is a landing or clear
of the labels around. -/
structure Plants (around : List String) (s s' : State) (code : List Stat) : Prop where
  separate : Separate code
  texts : ∀ name, .label name ∈ Stat.ownMarksList code →
    Clear around name ∨ NewLanding s s' name

/-- The labels in the code are as said, in every state. -/
def Planting (around : List String) (act : Emit (List Stat)) : Prop :=
  ∀ s, Plants around s (act s).2 (act s).1

/-- The code has no labels, in every state. -/
def Bare (act : Emit (List Stat)) : Prop :=
  ∀ s, Unlabeled (act s).1

/-- The labels right before a statement, outermost first, have no Lua label in common with each
other, and are new among those around. -/
structure Fit (around labels : List String) : Prop where
  pairwise : labels.Pairwise fun a b => ∀ text ∈ labelTexts a, text ∉ labelTexts b
  new : ∀ label ∈ labels, IsNew around label

section Texts

variable {around around' labels : List String} {label name : String} {s s' s'' : State}

theorem spell_ne_afterLabel (label : String) : Lua.spell label ≠ afterLabel label := by
  intro h
  have hlength := congrArg String.length h
  simp [afterLabel] at hlength

theorem Clear.mono (h : Clear around' name) (hsub : around ⊆ around') : Clear around name :=
  ⟨h.1, fun outer houter => h.2 outer (hsub houter)⟩

theorem IsNew.mono (h : IsNew around' label) (hsub : around ⊆ around') : IsNew around label :=
  ⟨h.landing, fun outer houter => h.others outer (hsub houter)⟩

theorem IsNew.clear_spell (h : IsNew around label) : Clear around (Lua.spell label) := by
  refine ⟨fun k heq => h.landing k ((spell_eq_landingName_iff label k).mp heq), fun outer ho => ?_⟩
  exact h.others outer ho _ List.mem_cons_self

theorem IsNew.clear_after (h : IsNew around label) : Clear around (afterLabel label) := by
  refine ⟨afterLabel_ne_landingName label, fun outer ho => h.others outer ho _ ?_⟩
  exact List.mem_cons_of_mem _ List.mem_cons_self

theorem Fit.nil (around : List String) : Fit around [] := ⟨List.Pairwise.nil, nofun⟩

/-- One more label inside those before a statement. -/
theorem Fit.snoc (h : Fit around labels) {inner : List String} (hl : IsNew inner label)
    (hsub : labels ++ around ⊆ inner) : Fit around (labels ++ [label]) := by
  refine ⟨List.pairwise_append.mpr ⟨h.pairwise, List.pairwise_singleton _ _, ?_⟩, ?_⟩
  · intro a ha b hb text hta htb
    obtain rfl := List.mem_singleton.mp hb
    exact hl.others a (hsub (List.mem_append_left _ ha)) text htb hta
  · intro b hb
    rcases List.mem_append.mp hb with hb | hb
    · exact h.new b hb
    · obtain rfl := List.mem_singleton.mp hb
      exact hl.mono fun a ha => hsub (List.mem_append_right _ ha)

theorem Fit.nodup_spell (h : Fit around labels) : (labels.map Lua.spell).Nodup := by
  refine List.Pairwise.map _ (fun a b hab heq => ?_) h.pairwise
  exact hab (Lua.spell a) List.mem_cons_self (by simp [labelTexts, heq])

theorem Fit.nodup_after (h : Fit around labels) : (labels.map afterLabel).Nodup := by
  refine List.Pairwise.map _ (fun a b hab heq => ?_) h.pairwise
  exact hab (afterLabel a) (by simp [labelTexts]) (by simp [labelTexts, heq])

theorem Fit.spell_not_mem_after (h : Fit around labels) {label : String} (hl : label ∈ labels) :
    Lua.spell label ∉ labels.map afterLabel := by
  have hforth : labels.Pairwise fun a b => Lua.spell a ≠ afterLabel b :=
    h.pairwise.imp fun {a b} hab heq =>
      hab (Lua.spell a) List.mem_cons_self (by simp [labelTexts, heq])
  have hback : labels.Pairwise (flip fun a b => Lua.spell a ≠ afterLabel b) :=
    h.pairwise.imp fun {a b} hab heq =>
      hab (afterLabel a) (by simp [labelTexts]) (by simp [labelTexts, ← heq])
  intro hmem
  obtain ⟨other, ho, heq⟩ := List.mem_map.mp hmem
  exact List.Pairwise.forall_of_forall_of_flip (fun a _ => spell_ne_afterLabel a) hforth hback
    hl ho heq.symm

/-- A name that is clear of labels is none of their Lua labels. -/
theorem Clear.not_mem_spell (h : Clear (labels ++ around) name) :
    name ∉ labels.map Lua.spell := by
  intro hmem
  obtain ⟨label, hl, rfl⟩ := List.mem_map.mp hmem
  exact h.2 label (List.mem_append_left _ hl) List.mem_cons_self

theorem Clear.not_mem_after (h : Clear (labels ++ around) name) :
    name ∉ labels.map afterLabel := by
  intro hmem
  obtain ⟨label, hl, rfl⟩ := List.mem_map.mp hmem
  exact h.2 label (List.mem_append_left _ hl) (by simp [labelTexts])

theorem landingName_not_mem_after (k : Nat) (labels : List String) :
    landingName k ∉ labels.map afterLabel := by
  intro hmem
  obtain ⟨label, -, heq⟩ := List.mem_map.mp hmem
  exact afterLabel_ne_landingName label k heq

end Texts

section Kit

variable {around around' labels : List String} {label : String} {s s' s'' : State} {n m : Nat}
  {v : Vocabulary} {free free' : String → Prop} {code rest : List Stat}
  {act act' : Emit (List Stat)}

theorem Unlabeled.plants (h : Unlabeled code) : Plants around s s' code :=
  ⟨h.separate, fun name hname => absurd hname (h name)⟩

theorem Bare.planting (h : Bare act) : Planting around act := fun s => Unlabeled.plants (h s)

theorem Quiet.unlabeled (h : Quiet v code) : Unlabeled code := by
  intro name hname
  rw [h.1] at hname
  exact absurd hname List.not_mem_nil

theorem Gives.bare (h : Gives (Quiet v) act) : Bare act := fun s => (h s).2.unlabeled

theorem Plants.mono (h : Plants around' s s' code) (hsub : around ⊆ around') :
    Plants around s s' code :=
  ⟨h.separate, fun name hname => (h.texts name hname).imp (·.mono hsub) id⟩

theorem Planting.mono (h : Planting around' act) (hsub : around ⊆ around') :
    Planting around act :=
  fun s => (h s).mono hsub

theorem Plants.recode (h : Plants around s s' code)
    (hm : Stat.ownMarksList rest = Stat.ownMarksList code)
    (hs : Separate code → Separate rest) : Plants around s s' rest := by
  refine ⟨hs h.separate, ?_⟩
  rw [hm]
  exact h.texts

/-- A landing made by the first of two pieces of code. -/
theorem NewLanding.before {name : String} (h : NewLanding s s' name)
    (ht : Lands v n free s' s'' rest) : NewLanding s s'' name := by
  obtain ⟨k, hk, hk', rfl, hother⟩ := h
  refine ⟨k, hk, Nat.le_trans hk' ht.grows, rfl, fun hnone hsome => ?_⟩
  rcases ht.touches.landing hsome with hearlier | ⟨-, l, hl, -, heq⟩
  · exact hother hnone hearlier
  · have := landingName_injective heq
    omega

/-- A landing made by the second. -/
theorem NewLanding.after {name : String} (h : NewLanding s' s'' name)
    (ht : Lands v n free s s' code) (ht' : Lands v m free' s' s'' rest) :
    NewLanding s s'' name := by
  obtain ⟨k, hk, hk', rfl, hother⟩ := h
  refine ⟨k, Nat.lt_of_le_of_lt ht.grows hk, hk', rfl, fun hnone hsome => ?_⟩
  -- a landing set by the first piece has a smaller number
  rcases ht'.touches.landing hsome with hearlier | ⟨hstill, -⟩
  · rcases ht.touches.landing hearlier with hfirst | ⟨-, l, -, hl, heq⟩
    · rw [hnone] at hfirst
      exact absurd hfirst (by simp)
    · have := landingName_injective heq
      omega
  · exact hother hstill hsome

theorem Plants.append (h : Plants around s s' code) (ht : Lands v n free s s' code)
    (h' : Plants around s' s'' rest) (ht' : Lands v m free' s' s'' rest) :
    Plants around s s'' (code ++ rest) := by
  refine ⟨h.separate.append h'.separate, fun name hname => ?_⟩
  rw [Stat.ownMarksList_append] at hname
  rcases List.mem_append.mp hname with hname | hname
  · exact (h.texts name hname).imp id (·.before ht')
  · exact (h'.texts name hname).imp id (·.after ht ht')

theorem Planting.append (h : Planting around act) (ht : Codes v n free act)
    (h' : Planting around act') (ht' : Codes v m free' act') :
    Planting around (do
      let code ← act
      let rest ← act'
      pure (code ++ rest)) :=
  fun s => (h s).append (ht s) (h' _) (ht' _)

/-- Steps that leave the constructs alone can come before. -/
theorem Plants.after (h : Plants around s' s'' code) (hs : Steady s s') :
    Plants around s s'' code := by
  refine ⟨h.separate, fun name hname => (h.texts name hname).imp id ?_⟩
  rintro ⟨k, hk, hk', heq, hother⟩
  rw [hs.1] at hother
  exact ⟨k, Nat.lt_of_le_of_lt hs.2 hk, hk', heq, hother⟩

theorem Gives.thenPlants {α : Type} {P : α → Prop} {x : Emit α} {f : α → Emit (List Stat)}
    (hx : Gives P x) (hf : ∀ a, P a → Planting around (f a)) : Planting around (x >>= f) := by
  intro s
  obtain ⟨hs, ha⟩ := hx s
  exact (hf _ ha _).after hs

/-- The code is made for the constructs around one that jumps see through. -/
theorem Plants.unwrap {e : Enclosure} (he : e = .switch ∨ ∃ label, e = .labeled label)
    (h : Plants around { s with control := e :: s.control } s' code)
    (ht : Touches n { s with control := e :: s.control } s') :
    Plants around s { s' with control := s'.control.tail } code := by
  have hlanding (control : Control) : Control.landing (e :: control) = control.landing := by
    rcases he with rfl | ⟨label, rfl⟩ <;> rfl
  refine ⟨h.separate, fun name hname => (h.texts name hname).imp id ?_⟩
  rintro ⟨k, hk, hk', heq, hother⟩
  rw [hlanding, (ht.unwrap he).2.2] at hother
  exact ⟨k, hk, hk', heq, hother⟩

/-- Labeled blocks around code change nothing about the labels in it. -/
theorem Planting.labeled (h : Planting around act) (ht : Codes v n free act) (hv : Covers v)
    (labels : List String) : Planting around (Emission.labeled labels act) := by
  induction labels with
  | nil => exact h
  | cons label rest ih =>
    intro s
    have hlands := ht.labeled hv rest { s with control := .labeled label :: s.control }
    exact (ih { s with control := .labeled label :: s.control }).unwrap (Or.inr ⟨label, rfl⟩)
      hlands.touches

/-- Blocks with labels behind them, around code whose own labels are others. -/
theorem separate_nested (h : Separate code) (hn : (labels.map afterLabel).Nodup)
    (hc : ∀ name, .label name ∈ Stat.ownMarksList code → name ∉ labels.map afterLabel) :
    Separate (nested labels code) := by
  induction labels with
  | nil => exact h
  | cons label rest ih =>
    obtain ⟨hlabel, hrest⟩ := List.nodup_cons.mp hn
    have hin := ih hrest fun name hname hmem => hc name hname (List.mem_cons_of_mem _ hmem)
    have hblock : nested (label :: rest) code =
        [.doBlock (nested rest code ++ [.label (afterLabel label)])] := rfl
    rw [hblock]
    refine ⟨rfl, fun visible hvisible => ⟨?_, trivial⟩⟩
    rw [Stat.ownMarksList_singleton] at hvisible
    have hsingle : [afterLabel label].Nodup := List.nodup_singleton _
    refine hin.labeled hsingle ?_ hvisible
    intro name hname
    rw [ownMarksList_nested] at hname
    rw [List.mem_singleton]
    rintro rfl
    rcases List.mem_append.mp hname with hname | hname
    · exact hc _ hname List.mem_cons_self
    · refine hlabel ?_
      simpa using hname

/-- The labels of code in labeled blocks. -/
theorem plants_nested (hfit : Fit around labels) (h : Separate code)
    (ht : ∀ name, .label name ∈ Stat.ownMarksList code →
      (Clear around name ∧ name ∉ labels.map afterLabel) ∨ NewLanding s s' name) :
    Plants around s s' (nested labels code) := by
  refine ⟨separate_nested h hfit.nodup_after fun name hname => ?_, fun name hname => ?_⟩
  · rcases ht name hname with hclear | ⟨k, -, -, rfl, -⟩
    · exact hclear.2
    · exact landingName_not_mem_after k labels
  · rw [ownMarksList_nested] at hname
    rcases List.mem_append.mp hname with hname | hname
    · exact (ht name hname).imp And.left id
    · obtain ⟨label, hl, heq⟩ := List.mem_map.mp hname
      obtain rfl : afterLabel label = name := by simpa using heq
      exact Or.inl (hfit.new label (List.mem_reverse.mp hl)).clear_after

theorem Planting.labeledCode (hfit : Fit around labels) (h : Planting (labels ++ around) act)
    (ht : Codes v n free act) (hv : Covers v) : Planting around (labeledCode labels act) := by
  intro s
  have hin := h.labeled ht hv labels s
  refine plants_nested hfit hin.separate fun name hname => (hin.texts name hname).imp ?_ id
  exact fun hclear => ⟨hclear.mono (List.subset_append_right _ _), hclear.not_mem_after⟩

theorem labeled_result (labels : List String) (act : Emit (List Stat)) (s : State) :
    ∃ s', (Emission.labeled labels act s).1 = (act s').1 := by
  induction labels generalizing s with
  | nil => exact ⟨s, rfl⟩
  | cons label rest ih => exact ih { s with control := .labeled label :: s.control }

theorem Bare.labeledReturn (hfit : Fit around labels) (h : Bare act) :
    Planting around (labeledReturn labels act) := by
  intro s
  obtain ⟨s', hs⟩ := labeled_result labels act s
  have hcode : Unlabeled (Emission.labeled labels act s).1 := by
    rw [hs]
    exact h s'
  have hinner : Unlabeled (if labels.isEmpty then (Emission.labeled labels act s).1
      else [.doBlock (Emission.labeled labels act s).1]) := by
    split
    · exact hcode
    · intro name hname
      rw [Stat.ownMarksList_singleton] at hname
      exact hcode name hname
  exact plants_nested hfit hinner.separate fun name hname => absurd hname (hinner name)

/-- The labels in the code of a loop's body, with those behind it; the labels behind the loop are
still to be printed. -/
structure Rings (around labels : List String) (s s' : State) (body : List Stat) : Prop where
  steady : Steady s s'
  apart : ∀ visible, (∀ name, .label name ∈ Stat.ownMarksList body → name ∉ visible) →
    ApartBlock visible body
  texts : ∀ name, .label name ∈ Stat.ownMarksList body →
    (Clear around name ∧ name ∉ labels.map afterLabel) ∨
      ∃ k, s.supply.last < k ∧ k ≤ s'.supply.last ∧ name = landingName k

theorem Rings.after {body : List Stat} (h : Rings around labels s' s'' body)
    (hs : Steady s s') : Rings around labels s s'' body :=
  ⟨hs.trans h.steady, h.apart, fun name hname => (h.texts name hname).imp id
    fun ⟨k, hk, hk', heq⟩ => ⟨k, Nat.lt_of_le_of_lt hs.2 hk, hk', heq⟩⟩

theorem Rings.before {body : List Stat} (h : Rings around labels s s' body)
    (hs : Steady s' s'') : Rings around labels s s'' body :=
  ⟨h.steady.trans hs, h.apart, fun name hname => (h.texts name hname).imp id
    fun ⟨k, hk, hk', heq⟩ => ⟨k, hk, Nat.le_trans hk' hs.2, heq⟩⟩

/-- The loop around a body, in blocks with the labels behind the loop. -/
theorem Rings.nested {body : List Stat} (h : Rings around labels s s' body)
    (hfit : Fit around labels)
    (hm : Stat.ownMarksList code = Stat.ownMarksList body)
    (hl : Stat.labels code = [])
    (hs : ∀ visible, ApartBlock visible body → Stat.ApartEach visible code) :
    Plants around s s' (nested labels code) := by
  refine plants_nested hfit ⟨hl, fun visible hv => hs visible (h.apart visible ?_)⟩ ?_
  · rwa [hm] at hv
  · intro name hname
    rw [hm] at hname
    refine (h.texts name hname).imp id fun ⟨k, hk, hk', heq⟩ => ⟨k, hk, hk', heq, ?_⟩
    rw [h.steady.1]
    exact fun hnone hsome => absurd (hnone.symm.trans hsome) (by simp)

/-- A loop with code in front of it, at the start of its body and at its end. -/
theorem Rings.forLoop {body start step : List Stat} {c : Lua.Expr}
    (h : Rings around labels s s' body) (hfit : Fit around labels) (hstart : Quiet v start)
    (hstep : Quiet v step) :
    Plants around s s' (Emission.nested labels (start ++ [.whileLoop c (body ++ step)])) := by
  refine h.nested hfit ?_ ?_ fun visible hb => ?_
  · rw [Stat.ownMarksList_append, hstart.1, List.nil_append, Stat.ownMarksList_singleton,
      Stat.ownMarks, Stat.ownMarksList_append, hstep.1, List.append_nil]
  · rw [Stat.labels_append, hstart.unlabeled.labels]
    rfl
  · refine Stat.apartEach_append.mpr
      ⟨Stat.apartEach_of_unlabeled visible _ hstart.unlabeled, ?_, trivial⟩
    exact hb.append_unlabeled hstep.unlabeled

/-- A loop over keys, each stored at the start of the body. -/
theorem Rings.keyLoop {body store : List Stat} {key ignored : String} {iterator : Lua.Expr}
    (h : Rings around labels s s' body) (hfit : Fit around labels) (hstore : Quiet v store) :
    Plants around s s' (Emission.nested labels [.forIn key ignored iterator (store ++ body)]) := by
  refine h.nested hfit ?_ rfl fun visible hb =>
    ⟨hstore.unlabeled.apartBlock_append hb, trivial⟩
  rw [Stat.ownMarksList_singleton, Stat.ownMarks, Stat.ownMarksList_append, hstore.1,
    List.nil_append]

/-- A `switch` is a loop with code in front of the cases. -/
theorem Plants.switchBlock {front : List Stat} {c : Lua.Expr} (hf : Quiet v front)
    (h : Plants around { s with control := .switch :: s.control } s' code)
    (ht : Touches n { s with control := .switch :: s.control } s') :
    Plants around s { s' with control := s'.control.tail } [.repeatUntil (front ++ code) c] := by
  refine (h.unwrap (Or.inl rfl) ht).recode ?_ fun hsep =>
    (hf.unlabeled.separate.append hsep).wrap rfl rfl fun _ => id
  rw [Stat.ownMarksList_singleton, Stat.ownMarks, Stat.ownMarksList_append, hf.1,
    List.nil_append]

/-- The body of a loop: the labels behind it are different from each other, and none of them is in
the body. -/
theorem rings_loopBody (hv : Covers v) {body : Emit (List Stat)} (hfit : Fit around labels)
    (ht : Codes v n free body) (h : Planting (labels ++ around) body) (s : State) :
    Rings around labels s (loopBody labels body s).2 (loopBody labels body s).1 := by
  have hin := h { s with control := .loop labels none :: s.control }
  obtain ⟨landing, hcontrol, hnone, hsome, hloops⟩ :=
    (ht { s with control := .loop labels none :: s.control }).looped hv
  -- what is printed behind the body: the loop's labels and its landing, if it got one
  have hlanding : ∀ name ∈ landing, ∃ k, s.supply.last < k ∧
      k ≤ (loopBody labels body s).2.supply.last ∧ name = landingName k := by
    rintro name rfl
    have hpos : 0 < n := Nat.pos_of_ne_zero fun hzero => absurd (hnone hzero) (by simp)
    obtain ⟨k, hk, hk', heq⟩ := hsome hpos
    exact ⟨k, hk, hk', by simpa using heq⟩
  have hspell : ∀ label ∈ labels, ∀ k, Lua.spell label ≠ landingName k :=
    fun label hl k => (hfit.new label hl).clear_spell.1 k
  have hnodup : (labels.map Lua.spell ++ landing.toList).Nodup := by
    refine List.nodup_append.mpr ⟨hfit.nodup_spell, by cases landing <;> simp, ?_⟩
    rintro _ hmem name hname rfl
    obtain ⟨label, hl, rfl⟩ := List.mem_map.mp hmem
    obtain ⟨k, -, -, heq⟩ := hlanding _ (Option.mem_toList.mp hname)
    exact hspell label hl k heq
  have hinside : ∀ name, .label name ∈ Stat.ownMarksList
      (body { s with control := .loop labels none :: s.control }).1 →
      name ∉ labels.map Lua.spell ++ landing.toList := by
    intro name hname
    rw [List.mem_append, not_or, Option.mem_toList]
    rcases hin.texts name hname with hclear | ⟨k, hk, hk', rfl, hother⟩
    · refine ⟨hclear.not_mem_spell, fun hmem => ?_⟩
      obtain ⟨k, -, -, heq⟩ := hlanding name hmem
      exact hclear.1 k heq
    · -- the loop had no landing when its body began, so the one it has now is not in the body
      refine ⟨fun hmem => ?_, fun hmem => hother rfl ?_⟩
      · obtain ⟨label, hl, heq⟩ := List.mem_map.mp hmem
        exact hspell label hl k heq
      · rw [hcontrol]
        exact congrArg some hmem
  have hblock : Separate [.doBlock (body { s with control := .loop labels none :: s.control }).1] :=
    hin.separate.wrap rfl rfl fun _ => id
  rw [loopBody_eq hcontrol]
  refine ⟨hloops.steady, fun visible hvisible => hblock.labeled hnodup ?_ hvisible,
    fun name hname => ?_⟩
  · rwa [Stat.ownMarksList_singleton]
  · rw [Stat.ownMarksList, Stat.ownMarksList_map_label, Stat.ownMarks] at hname
    rcases List.mem_append.mp hname with hname | hname
    · rcases hin.texts name hname with hclear | ⟨k, hk, hk', heq, -⟩
      · exact Or.inl ⟨hclear.mono (List.subset_append_right _ _), hclear.not_mem_after⟩
      · exact Or.inr ⟨k, hk, hk', heq⟩
    · obtain ⟨text, hmem, heq⟩ := List.mem_map.mp hname
      obtain rfl : text = name := by simpa using heq
      rcases List.mem_append.mp hmem with hmem | hmem
      · obtain ⟨label, hl, rfl⟩ := List.mem_map.mp hmem
        exact Or.inl ⟨(hfit.new label hl).clear_spell, hfit.spell_not_mem_after hl⟩
      · exact Or.inr (hlanding text (Option.mem_toList.mp hmem))

end Kit

section Constructs

variable {v : Vocabulary} (hv : Covers v) {n m : Nat} {free free' : String → Prop}
  {around labels : List String} {test r : Rendition} {act body init update : Emit (List Stat)}

theorem bare_jumpCode (note : String) (blocked missing : Finding) (jump : Jump) :
    Bare (jumpCode note blocked missing jump) := by
  intro s name hname
  cases jump with
  | leave => exact absurd (List.mem_singleton.mp hname) (by simp)
  | goTo label => exact absurd (List.mem_singleton.mp hname) (by simp)
  | blocked => exact List.not_mem_nil hname
  | missing => exact List.not_mem_nil hname

theorem bare_breakCode (label : Option String) (span : Span) : Bare (breakCode label span) := by
  intro s
  rw [breakCode_eq]
  exact bare_jumpCode _ _ _ _ _

theorem bare_continueCode (label : Option String) (span : Span) :
    Bare (continueCode label span) := by
  intro s
  rw [continueCode_eq]
  exact bare_jumpCode _ _ _ _ _

/-- Making what follows a branch has the labels as said, in every state. -/
def AltersLabels (around : List String) (act : Emit Tail) : Prop :=
  ∀ s, Plants around s (act s).2 [.ifThen .nil [] (act s).1]

/-- A branch, and what follows it. -/
theorem Plants.branch {s s' s'' : State} {code : List Stat} {tail : Tail} {stat : Stat}
    (h : Plants around s s' code) (ht : Lands v n free s s' code)
    (h' : Plants around s' s'' [.ifThen .nil [] tail])
    (ht' : Lands v m free' s' s'' [.ifThen .nil [] tail])
    (hl : Stat.labels [stat] = [])
    (hm : stat.ownMarks = Stat.ownMarksList code ++ tail.ownMarks)
    (hs : ∀ visible, ApartBlock visible code → tail.Apart visible → stat.Apart visible) :
    Plants around s s'' [stat] := by
  have hmarks : Stat.ownMarksList [stat] =
      Stat.ownMarksList (code ++ [.ifThen .nil [] tail]) := by
    rw [Stat.ownMarksList_singleton, hm, Stat.ownMarksList_append,
      Stat.ownMarksList_singleton]
    rfl
  refine (h.append ht h' ht').recode hmarks fun hsep => ⟨hl, fun visible hv => ⟨?_, trivial⟩⟩
  rw [hmarks] at hv
  obtain ⟨hcode, htail, -⟩ := Stat.apartEach_append.mp (hsep.apart visible hv)
  exact hs visible ((Stat.apartBlock_iff_of_labels h.separate.labels).mpr hcode) htail.2

theorem Plants.caseBody {s s' : State} {code : List Stat} (h : Plants around s s' code)
    (selected : String) (k : Nat) : Plants around s s' [caseBody selected k code] := by
  have hmarks : (Emission.caseBody selected k code).ownMarks = Stat.ownMarksList code :=
    List.append_nil _
  refine h.recode ?_ fun hsep => hsep.wrap rfl hmarks fun _ hb => ⟨hb, trivial⟩
  rw [Stat.ownMarksList_singleton, hmarks]

include hv

theorem planting_whileCode (ht : test.Calm v) (hc : Codes v n free body) (hfit : Fit around labels)
    (hb : Planting (labels ++ around) body) :
    Planting around (do pure (nested labels (← whileCode labels test body))) := by
  intro s
  obtain ⟨hs, -⟩ := hv.law.condition ht s
  have hloop := (rings_loopBody hv hfit hc hb (condition test s).2).after hs
  exact hloop.nested hfit (Stat.ownMarksList_singleton _) rfl fun _ h => ⟨h, trivial⟩

theorem planting_doWhileCode (ht : test.Calm v) (hc : Codes v n free body)
    (hfit : Fit around labels) (hb : Planting (labels ++ around) body) :
    Planting around (do pure (nested labels (← doWhileCode labels body test))) := by
  intro s
  obtain ⟨hs, -⟩ := hv.law.condition ht (loopBody labels body s).2
  have hloop := (rings_loopBody hv hfit hc hb s).before hs
  exact hloop.nested hfit (Stat.ownMarksList_singleton _) rfl fun _ h => ⟨h, trivial⟩

theorem planting_forCode (hi : Gives (Quiet v) init) {tests : Option Rendition}
    (ht : ∀ t ∈ tests, t.Calm v) (hu : Gives (Quiet v) update) (hc : Codes v n free body)
    (hfit : Fit around labels) (hb : Planting (labels ++ around) body) :
    Planting around (do pure (nested labels (← forCode labels init tests update body))) := by
  intro s
  rw [forCode_eq]
  obtain ⟨hs₁, hstart⟩ := hi s
  obtain ⟨hs₂, -⟩ := hv.law.conditionOpt ht (init s).2
  have hloop := rings_loopBody hv hfit hc hb (conditionOpt tests (init s).2).2
  obtain ⟨hs₃, hstep⟩ := hu (loopBody labels body (conditionOpt tests (init s).2).2).2
  exact ((hloop.after (hs₁.trans hs₂)).before hs₃).forLoop hfit hstart hstep

theorem planting_forInCode (ho : r.Calm v) {head : Emit (String × List Stat)}
    (hh : Gives (fun h => v.name h.1 ∧ Quiet v h.2) head) (hc : Codes v n free body)
    (hfit : Fit around labels) (hb : Planting (labels ++ around) body) :
    Planting around (do pure (nested labels (← forInCode labels r head body))) := by
  intro s
  obtain ⟨hs₁, -⟩ := ho.value s
  have hstem : "__tmp" ∈ stems := by decide
  obtain ⟨hs₂, -⟩ := gives_fresh hv hstem (r.value s).2
  obtain ⟨hs₃, hk⟩ := hh (fresh "__tmp" (r.value s).2).2
  have hloop := rings_loopBody hv hfit hc hb (head (fresh "__tmp" (r.value s).2).2).2
  exact (hloop.after ((hs₁.trans hs₂).trans hs₃)).keyLoop hfit hk.2

theorem planting_switchCode (hd : r.Calm v)
    {arms : (value selected : String) → Emit (List Lua.Arm)}
    (ha : ∀ value selected, v.name value → v.name selected →
      Gives (Lua.Arm.SettledList v) (arms value selected))
    (default : Option Nat) {bodies : (selected : String) → Emit (List Stat)}
    (hc : ∀ selected, v.name selected → Codes v n free (bodies selected))
    (hb : ∀ selected, Planting around (bodies selected)) :
    Planting around (switchCode r arms default bodies) := by
  refine (gives_fresh hv (by decide)).thenPlants fun value hvalue => ?_
  refine (gives_fresh hv (by decide)).thenPlants fun selected hs => ?_
  refine hd.value.thenPlants fun d he => (ha value selected hvalue hs).thenPlants fun tests ht => ?_
  have hlocals := (hv.law.defineOne hvalue he).append (hv.law.defineOne hs (hv.law.int 0))
  have hfront := hlocals.append (hv.law.selection hs ht default)
  exact fun s => (hb selected { s with control := .switch :: s.control }).switchBlock hfront
    (hc selected hs { s with control := .switch :: s.control }).touches

theorem planting_withCode (span : Span) (ho : r.Calm v) (hb : Planting around body) :
    Planting around (withCode span r body) := by
  refine (gives_fresh hv (by decide)).thenPlants fun proxy _ => ho.value.thenPlants fun o _ => ?_
  intro s
  have hin := hb { s with scope := .object "with" proxy :: s.scope, captured := [] :: s.captured }
  have hscoped := hin.recode
    (Stat.ownMarksList_singleton (.scoped proxy (Lua.Helper.toObject.call [o]) _)) fun hsep =>
      hsep.wrap rfl rfl fun _ => id
  exact ⟨hscoped.separate, hscoped.texts⟩

theorem planting_branch (ht : test.Calm v) (hc : Codes v n free body) (hb : Planting around body)
    {tail : Emit Tail} (hc' : Alters v m free' tail) (hb' : AltersLabels around tail) :
    Planting around (do
      let c ← condition test
      let code ← body
      pure [.ifThen c code (← tail)]) := by
  refine (hv.law.condition ht).thenPlants fun c _ s => ?_
  exact (hb s).branch (hc s) (hb' _) (hc' _) rfl rfl fun _ h h' => ⟨h, h'⟩

theorem altersLabels_elseif (ht : test.Calm v) (hc : Codes v n free body)
    (hb : Planting around body) {tail : Emit Tail} (hc' : Alters v m free' tail)
    (hb' : AltersLabels around tail) :
    AltersLabels around (do
      let c ← condition test
      let code ← body
      pure (.elseif c code (← tail))) := by
  intro s₀
  obtain ⟨hs, -⟩ := hv.law.condition ht s₀
  have hbranch (s : State) : Plants around s (tail (body s).2).2
      [.ifThen .nil [] (.elseif (condition test s₀).1 (body s).1 (tail (body s).2).1)] :=
    (hb s).branch (hc s) (hb' _) (hc' _) rfl rfl fun _ h h' =>
      ⟨⟨⟨List.nodup_nil, nofun⟩, trivial⟩, h, h'⟩
  exact (hbranch (condition test s₀).2).after hs

omit hv in
theorem altersLabels_otherwise (hb : Planting around body) :
    AltersLabels around (do pure (.otherwise (← body))) :=
  fun s => (hb s).recode (Stat.ownMarksList_singleton _) fun hsep =>
    hsep.wrap rfl rfl fun _ h => ⟨⟨⟨List.nodup_nil, nofun⟩, trivial⟩, h⟩

omit hv in
theorem altersLabels_none : AltersLabels around (pure .none) := by
  intro s
  refine Unlabeled.plants fun name hname => ?_
  exact absurd hname List.not_mem_nil

end Constructs

end Emission

section Walk

variable {around inner : List String} {labels : List String} {n : Nat} {free : String → Prop}
  {code : Emit (List Stat)}

/-- A statement that is no loop, under its labels. -/
theorem planting_plain (hfit : Fit around labels) (hsub : labels ++ around ⊆ inner)
    (hc : Codes .all n free code) (h : Planting inner code) :
    Planting around (labeledCode labels code) :=
  (h.mono hsub).labeledCode hfit hc covers_all

theorem planting_quiet (hfit : Fit around labels) (h : Gives (Quiet .all) code) :
    Planting around (labeledCode labels code) := by
  have hc : Codes .all 0 (fun _ => True) code := h.codes
  exact h.bare.planting.labeledCode hfit hc covers_all

end Walk

mutual

/-- The labels in the code of a statement. The list `inner` holds the labels right before the
statement and those around it. -/
theorem Stmt.planting_emit (place : Place) {around inner : List String}
    (hfit : Fit around place.labels) (hsub : place.labels ++ around ⊆ inner) : (st : Stmt) →
    st.LabelsApart inner → Planting around (st.emit place)
  | .empty, _ => planting_quiet hfit (.pure .nil)
  | .exprStmt e, _ => planting_quiet hfit e.calm_all.effect
  | .varStmt _ _, _ =>
    planting_quiet hfit ((gives_declareLocals covers_all _).bind fun _ hl =>
      (Settles.declarators fun d _ => settles_all (.decl d)).bind fun _ hd =>
        .pure (hl.append hd))
  | .funcStmt f, _ =>
    planting_quiet hfit (covers_all.law.functionDeclaration
      (fun n _ => ⟨gives_declareLocals covers_all [n], trivial⟩)
      (settles_all (.func f)))
  | .returnStmt arg, _ => by
    refine Bare.labeledReturn hfit (Gives.bare (covers_all.law.returned fun a ha => ?_))
    obtain ⟨r, hr, rfl⟩ := Option.map_eq_some_iff.mp ha
    exact (Settles.optional (fun a _ => settles_all (.expr a)) r hr).value
  | .throwStmt arg, _ =>
    planting_quiet hfit (covers_all.law.thrown arg.calm_all.value)
  | .breakStmt label span, _ => by
    have hc : Codes .all 0 (fun _ => True) (breakCode label span) :=
      codes_breakCode covers_all label span
    exact (bare_breakCode label span).planting.labeledCode hfit hc covers_all
  | .continueStmt none span, _ => by
    have hc : Codes .all 1 (fun _ => True) (continueCode none span) :=
      codes_continueBare covers_all span
    exact (bare_continueCode none span).planting.labeledCode hfit hc covers_all
  | .continueStmt (some label) span, _ =>
    (bare_continueCode (some label) span).planting.labeledCode hfit
      (codes_continueLabeled covers_all label span) covers_all
  | .ifStmt test cons alt, h => by
    have htest := test.calm_all
    have hcons := cons.codes_all .body
    have halt := Stmt.alters_all alt
    exact planting_plain hfit hsub (codes_branch covers_all htest hcons halt)
      (planting_branch covers_all htest hcons
        (cons.planting_emit .body (.nil inner) (fun _ => id) h.1) halt
        (Stmt.altersLabels_emitElse alt h.2))
  | .whileStmt test body, h =>
    planting_whileCode covers_all test.calm_all (body.codes_all .body) hfit
      ((body.planting_emit .body (.nil inner) (fun _ => id) h).mono hsub)
  | .doWhileStmt body test, h =>
    planting_doWhileCode covers_all test.calm_all (body.codes_all .body) hfit
      ((body.planting_emit .body (.nil inner) (fun _ => id) h).mono hsub)
  | .forStmt init _ _ body, h =>
    planting_forCode covers_all (settles_all (.init init))
      (Settles.optional fun e _ => settles_all (.expr e))
      (covers_all.law.updateCode (Settles.optional fun e _ => settles_all (.expr e)))
      (body.codes_all .body) hfit
      ((body.planting_emit .body (.nil inner) (fun _ => id) h).mono hsub)
  | .forInStmt head object body, h =>
    planting_forInCode covers_all object.calm_all
      (settles_all (.head head)) (body.codes_all .body) hfit
      ((body.planting_emit .body (.nil inner) (fun _ => id) h).mono hsub)
  | .switchStmt discriminant cases, h => by
    have hd := discriminant.calm_all
    have hcases (c : SwitchCase) (_ : c ∈ cases) := settles_all (.case c)
    have harms (value selected : String) (hvalue : Lua.Vocabulary.all.name value)
        (hs : Lua.Vocabulary.all.name selected) := Settles.arms hcases hs hvalue 1
    have hbodies (selected : String) (hs : Lua.Vocabulary.all.name selected) :=
      Settles.bodies hcases hs 1
    exact planting_plain hfit hsub (codes_switchCode covers_all hd harms _ hbodies)
      (planting_switchCode covers_all hd harms _ hbodies fun selected =>
        SwitchCase.planting_emitBodies 1 selected cases h)
  | .tryStmt _ _ _ _, _ => planting_quiet hfit (Settles.attempt covers_all fun q _ => settles_all q)
  | .withStmt object body span, h => by
    have hobject := object.calm_all
    have hbody := body.codes_all .body
    exact planting_plain hfit hsub (codes_withCode covers_all span hobject hbody)
      (planting_withCode covers_all span hobject
        (body.planting_emit .body (.nil inner) (fun _ => id) h))
  | .labeled label body, h => by
    refine body.planting_emit (.statement (place.labels ++ [label]))
      (hfit.snoc h.1 hsub) (fun a ha => ?_) h.2
    rw [Place.labels, List.append_assoc, List.mem_append, List.mem_append] at ha
    rcases ha with ha | ha | ha
    · exact List.mem_cons_of_mem _ (hsub (List.mem_append_left _ ha))
    · rw [List.mem_singleton.mp ha]
      exact List.mem_cons_self
    · exact List.mem_cons_of_mem _ (hsub (List.mem_append_right _ ha))
  | .block body, h => by
    have hbody := Stmt.planting_emitList body h
    cases place with
    | body => exact hbody.mono fun a ha => hsub (List.mem_append_right _ ha)
    | statement labels =>
      have hcodes := (Stmt.codesList_all body).recode
        (fun code => Stat.ownMarksList_singleton (.doBlock code))
        fun _ _ _ hs => ⟨hs, trivial⟩
      refine planting_plain hfit hsub hcodes fun s => ?_
      exact (hbody s).recode (Stat.ownMarksList_singleton _) fun hsep =>
        hsep.wrap rfl rfl fun _ => id
  | .unsupported node, _ =>
    planting_quiet hfit ((gives_report _).bind fun _ _ => .pure (quiet_note trivial))

theorem Stmt.planting_emitList {inner : List String} : (body : List Stmt) →
    Stmt.LabelsApartList inner body → Planting inner (Stmt.emitList body)
  | [], _ => fun _ => Unlabeled.plants fun _ => List.not_mem_nil
  | s :: rest, h => by
    have hfirst := s.planting_emit (.statement []) (.nil inner) (fun _ => id) h.1
    rw [Stmt.emitList]
    cases hends : s.endsBlock with
    | true => exact hfirst
    | false =>
      exact hfirst.append (s.codes_all (.statement [])) (Stmt.planting_emitList rest h.2)
        (Stmt.codesList_all rest)

theorem Stmt.altersLabels_emitElse {inner : List String} : (alt : Option Stmt) →
    Stmt.LabelsApartOpt inner alt → AltersLabels inner (Stmt.emitElse alt)
  | none, _ => altersLabels_none
  | some s, h => by
    have hcode := s.planting_emit .body (.nil inner) (fun _ => id) h
    cases s with
    | ifStmt test cons alt =>
      exact altersLabels_elseif covers_all
        test.calm_all (cons.codes_all .body)
        (cons.planting_emit .body (.nil inner) (fun _ => id) h.1)
        (Stmt.alters_all alt)
        (Stmt.altersLabels_emitElse alt h.2)
    | _ => exact altersLabels_otherwise hcode

theorem SwitchCase.planting_emitBodies {inner : List String} (k : Nat) (selected : String) :
    (cases : List SwitchCase) → SwitchCase.LabelsApart inner cases →
    Planting inner (SwitchCase.emitBodies k cases selected)
  | [], _ => fun _ => Unlabeled.plants fun _ => List.not_mem_nil
  | ⟨_, []⟩ :: rest, h => SwitchCase.planting_emitBodies (k + 1) selected rest h.2
  | ⟨_, s :: body⟩ :: rest, h => by
    have hcase : Planting inner (do pure [caseBody selected k (← Stmt.emitList (s :: body))]) :=
      fun st => (Stmt.planting_emitList (s :: body) h.1 st).caseBody selected k
    exact hcase.append (codes_caseBody (v := .all) trivial k
        (Stmt.codesList_all (s :: body)))
      (SwitchCase.planting_emitBodies (k + 1) selected rest h.2)
      (Settles.bodies (fun c _ => settles_all (.case c)) trivial (k + 1))

end

/-- Where the labels of nested statements have no text in common, the labels in the code of a body
are told apart, in whatever state it is made. Each part of a `try` statement is such a body. -/
theorem Stmt.apartBlock_emitList {body : List Stmt} (h : Stmt.LabelsApartList [] body)
    (s : State) : Stat.ApartBlock [] (Stmt.emitList body s).1 :=
  (Stmt.planting_emitList body h s).separate.apartBlock fun _ _ => List.not_mem_nil

open Lua.Stat (Unlabeled)

theorem unlabeled_declareLocals (names : List String) (s : State) :
    Unlabeled (declareLocals names s).1 :=
  (gives_declareLocals covers_all names s).2.unlabeled

/-- A function has its body behind code without labels. -/
theorem functionCode_body (params : List String) (names : Declarations)
    (body : Emit (List Stat)) (s : State) :
    ∃ inputs packed front s', (functionCode params names body s).1 =
        Lua.Helper.defineFunction.call [.func inputs packed (front ++ (body s').1)] ∧
      Unlabeled front := by
  obtain ⟨s₁, s₂, hcode⟩ : ∃ s₁ s₂, (functionCode params names body s).1 =
      Lua.Helper.defineFunction.call [if names.references "arguments" then
        .func ["self"] true ((if (params.map Lua.spell).isEmpty then []
            else [.define (params.map Lua.spell) .vararg]) ++
          [.define ["arguments"] (.call (.field (.name "table") "pack") [.vararg]),
            .assign (.field (.name "arguments") "__Length") (.field (.name "arguments") "n")] ++
          ((declareLocals names.funcs s₁).1 ++ (body s₂).1))
        else .func ("self" :: params.map Lua.spell) false
          ((declareLocals names.funcs s₁).1 ++ (body s₂).1)] := ⟨_, _, rfl⟩
  rw [hcode]
  have hlocals := unlabeled_declareLocals names.funcs s₁
  split
  · refine ⟨_, _, _, s₂, by rw [← List.append_assoc], fun name hname => ?_⟩
    rw [Stat.ownMarksList_append, Stat.ownMarksList_append] at hname
    rcases List.mem_append.mp hname with hname | hname
    · rw [(quiet_unpacked covers_all params).1] at hname
      exact absurd hname List.not_mem_nil
    · exact hlocals name hname
  · exact ⟨_, _, _, s₂, rfl, hlocals⟩

/-- The labels of a function are told apart. -/
theorem Func.apartBlock_emit (f : Func) (h : Stmt.LabelsApartList [] f.body) (s : State) :
    ∃ inputs packed code,
      (f.emit s).1 = Lua.Helper.defineFunction.call [.func inputs packed code] ∧
        Stat.ApartBlock [] code := by
  obtain ⟨name, params, body⟩ := f
  obtain ⟨inputs, packed, front, s', hcode, hfront⟩ :=
    functionCode_body params (.ofBody body) (Stmt.emitList body) s
  exact ⟨inputs, packed, _, hcode, hfront.apartBlock_append (Stmt.apartBlock_emitList h s')⟩

/-- The labels of a program outside its functions are told apart. -/
theorem Program.apartBlock_emit (p : Program) (h : Stmt.LabelsApartList [] p.body) :
    Stat.ApartBlock [] p.emit.chunk.body := by
  obtain ⟨s₁, s₂, hcode⟩ : ∃ s₁ s₂, p.emit.chunk.body =
      [.marker "BEGIN"] ++ (declareLocals (Declarations.ofBody p.body).funcs s₁).1 ++
        (Stmt.emitList p.body s₂).1 ++ [.marker "END"] := ⟨_, _, rfl⟩
  have hmarker (text : String) : Unlabeled [.marker text] := fun _ => List.not_mem_nil
  rw [hcode, List.append_assoc, List.append_assoc]
  apply (hmarker "BEGIN").apartBlock_append
  apply (unlabeled_declareLocals _ s₁).apartBlock_append
  exact (Stmt.apartBlock_emitList h s₂).append_unlabeled (hmarker "END")

end EcmaLua
