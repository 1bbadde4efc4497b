import EcmaLua.Proofs.Emission.Binding
import EcmaLua.Proofs.Lua.Atoms
import EcmaLua.Proofs.Program.Issues

/-!
# Visits of an emission

When emission comes to an issue, it leaves a comment or a jump in the code, and it reports the
issue or has spelled it. The visits of an action are all that it comes to, in order and each as
often as the action comes to it: they account for the findings that the action adds, and for the
atoms of the code that it makes.
-/

namespace EcmaLua

open Emission
open Lua (Helper Atom Stat)

namespace JumpStatement

/-- The kind of the statement. -/
def kindName (j : JumpStatement) : String :=
  if j.continues then "ContinueStatement" else "BreakStatement"

/-- The finding when the target lies outside a barrier. -/
def blocked (j : JumpStatement) : Finding :=
  if j.continues then .blockedContinue j.span else .blockedBreak j.span

/-- The finding when there is no target. -/
def stray (j : JumpStatement) : Finding :=
  if j.continues then .strayContinue j.span else .strayBreak j.span

end JumpStatement

/-- Whether the finding is a remark about a statement that has code all the same. -/
def Finding.isAside : Finding → Bool
  | .manyCatches _ _ | .namelessFunction | .withScope _ _ => true
  | _ => false

namespace Emission

/-- What emission makes of an issue: a comment, behind an expression or on a line of its own, or
the spelling of a jump. -/
inductive Visit where
  | unsupported (node : Unsupported) (inline : Bool)
  | jump (statement : JumpStatement) (spelling : Jump)
deriving DecidableEq, Repr

namespace Visit

def issue : Visit → Issue
  | .unsupported node _ => .unsupported node
  | .jump statement _ => .jump statement

/-- What is reported; a jump that has a spelling is not. -/
def finding : Visit → Option Finding
  | .unsupported node _ => some (.unsupported node)
  | .jump _ .leave | .jump _ (.goTo _) => none
  | .jump statement .blocked => some statement.blocked
  | .jump statement .missing => some statement.stray

/-- What stands in the code. -/
def atom : Visit → Atom
  | .unsupported node true => .noted node.kind
  | .unsupported node false => .note node.kind
  | .jump _ .leave => .leave
  | .jump _ (.goTo label) => .goTo label
  | .jump statement .blocked | .jump statement .missing => .note statement.kindName

end Visit

/-- The second atoms have all of the first, and no others but those that are allowed. -/
structure Fits (Q : Atom → Prop) (pre post : List Atom) : Prop where
  kept : ∀ a, pre.count a ≤ post.count a
  accounted : ∀ a ∈ post, a ∈ pre ∨ Q a

section Fits

variable {Q : Atom → Prop} {a b c d : List Atom}

theorem Fits.of_eq (h : a = b) : Fits Q a b := by
  subst h
  exact ⟨fun _ => Nat.le_refl _, fun _ hm => Or.inl hm⟩

theorem Fits.trans (h : Fits Q a b) (h' : Fits Q b c) : Fits Q a c := by
  refine ⟨fun x => Nat.le_trans (h.kept x) (h'.kept x), fun x hx => ?_⟩
  rcases h'.accounted x hx with hb | hq
  · exact h.accounted x hb
  · exact Or.inr hq

theorem Fits.append (h : Fits Q a b) (h' : Fits Q c d) : Fits Q (a ++ c) (b ++ d) := by
  refine ⟨fun x => ?_, fun x hx => ?_⟩
  · have hfirst := h.kept x
    have hsecond := h'.kept x
    rw [List.count_append, List.count_append]
    omega
  · rcases List.mem_append.mp hx with hx | hx
    · exact (h.accounted x hx).imp (List.mem_append_left _) id
    · exact (h'.accounted x hx).imp (List.mem_append_right _) id

/-- Allowed atoms may be added. -/
theorem Fits.extra (h : Fits Q a b) (hc : ∀ x ∈ c, Q x) : Fits Q a (c ++ b) := by
  have hnil : Fits Q [] c := ⟨fun _ => Nat.zero_le _, fun x hx => Or.inr (hc x hx)⟩
  exact hnil.append h

theorem Fits.bound (h : Fits Q a b) {name : String} (hq : Q (.bind name)) :
    Fits Q a (.bind name :: b) :=
  h.extra (c := [.bind name]) (by simpa using hq)

/-- The order does not matter, and what is there already may be repeated. -/
theorem Fits.of_count (h : ∀ x, c.count x = a.count x + b.count x)
    (hb : ∀ x ∈ b, x ∈ a ∨ Q x) : Fits Q a c := by
  refine ⟨fun x => ?_, fun x hx => ?_⟩
  · rw [h]
    exact Nat.le_add_right _ _
  · have hpos := List.count_pos_iff.mpr hx
    rw [h] at hpos
    by_cases hxa : x ∈ a
    · exact Or.inl hxa
    · rw [List.count_eq_zero.mpr hxa, Nat.zero_add] at hpos
      exact hb x (List.count_pos_iff.mp hpos)

end Fits

/-- What code may have beside what the visits leave in it; the atoms that code has of itself are
allowed. -/
structure Allowance where
  allows : Atom → Prop
  generated : ∀ {name : String}, Generated name → allows (.bind name)
  self : allows (.bind "self")
  arguments : allows (.bind "arguments")
  clauses : allows (.note "MultipleCatchClauses")

/-- The names may be bound, as they are spelled. -/
abbrev Named (Q : Allowance) (names : List String) : Prop :=
  ∀ x ∈ names, Q.allows (.bind (Lua.spell x))

/-- The action comes to the given issues, in this order. Its visits account for what it adds to the
findings, and together with the atoms made before, for those of the code that it makes. -/
def Accounts {α : Type} (view : α → List Atom) (Q : Allowance) (N : List Issue)
    (pre : List Atom) (act : Emit α) : Prop :=
  ∀ s, ∃ visits : List Visit,
    visits.map Visit.issue = N ∧
    (act s).2.findings.filter (!·.isAside) =
      s.findings.filter (!·.isAside) ++ visits.filterMap Visit.finding ∧
    Fits Q.allows (pre ++ visits.map Visit.atom) (view (act s).1)

/-- An action that makes an expression. -/
abbrev ExprAccounts (Q : Allowance) (N : List Issue) (act : Emit Lua.Expr) : Prop :=
  Accounts Lua.Expr.atoms Q N [] act

/-- An action that makes statements. -/
abbrev CodeAccounts (Q : Allowance) (N : List Issue) (act : Emit (List Stat)) : Prop :=
  Accounts Stat.atomsList Q N [] act

/-- The action comes to nothing, and its result has the property. -/
def Silent {α : Type} (P : α → Prop) (act : Emit α) : Prop :=
  ∀ s, P (act s).1 ∧ (act s).2.findings.filter (!·.isAside) = s.findings.filter (!·.isAside)

section Rules

variable {α β : Type} {view : α → List Atom} {view' : β → List Atom} {Q : Allowance}
  {P : α → Prop} {N M : List Issue} {pre : List Atom} {x : Emit α}

theorem Accounts.pure {a : α} (h : Fits Q.allows pre (view a)) :
    Accounts view Q [] pre (Pure.pure a) := by
  intro s
  refine ⟨[], rfl, (List.append_nil _).symm, ?_⟩
  rw [List.map_nil, List.append_nil]
  exact h

theorem Accounts.bind {f : α → Emit β} (hx : Accounts view Q N [] x)
    (hf : ∀ a, Accounts view' Q M (pre ++ view a) (f a)) :
    Accounts view' Q (N ++ M) pre (x >>= f) := by
  intro s
  obtain ⟨first, hissues, hfindings, hfits⟩ := hx s
  obtain ⟨second, hissues', hfindings', hfits'⟩ := hf (x s).1 (x s).2
  refine ⟨first ++ second, ?_, ?_, ?_⟩
  · rw [List.map_append, hissues, hissues']
  · change (f (x s).1 (x s).2).2.findings.filter (!·.isAside) = _
    rw [hfindings', hfindings, List.filterMap_append, List.append_assoc]
  · have hpre : Fits Q.allows (pre ++ (first ++ second).map Visit.atom)
        (pre ++ view (x s).1 ++ second.map Visit.atom) := by
      rw [List.map_append, ← List.append_assoc]
      exact ((Fits.of_eq rfl).append hfits).append (.of_eq rfl)
    exact hpre.trans hfits'

/-- What comes behind an action may come to nothing. -/
theorem Accounts.bindNone {f : α → Emit β} (hx : Accounts view Q N [] x)
    (hf : ∀ a, Accounts view' Q [] (pre ++ view a) (f a)) :
    Accounts view' Q N pre (x >>= f) := by
  have hall := hx.bind hf
  rwa [List.append_nil] at hall

/-- The last step of an action. -/
theorem Accounts.last {f : α → β} (hx : Accounts view Q N [] x)
    (h : ∀ a, Fits Q.allows (pre ++ view a) (view' (f a))) :
    Accounts view' Q N pre (x >>= fun a => Pure.pure (f a)) :=
  hx.bindNone fun a => .pure (h a)

theorem Silent.bind {f : α → Emit β} (hx : Silent P x)
    (hf : ∀ a, P a → Accounts view' Q N pre (f a)) : Accounts view' Q N pre (x >>= f) := by
  intro s
  obtain ⟨ha, hsame⟩ := hx s
  obtain ⟨visits, hissues, hfindings, hfits⟩ := hf _ ha (x s).2
  exact ⟨visits, hissues, hfindings.trans (by rw [hsame]), hfits⟩

theorem Accounts.inFrame (h : Accounts view Q N pre x) (frame : Frame) :
    Accounts view Q N pre (inFrame frame x) :=
  fun s => h { s with scope := frame :: s.scope }

theorem Accounts.enclosed (h : Accounts view Q N pre x) (enclosure : Enclosure) :
    Accounts (fun result => view result.1) Q N pre (enclosed enclosure x) :=
  fun s => h { s with control := enclosure :: s.control }

theorem Accounts.walled (h : Accounts view Q N pre x) : Accounts view Q N pre (walled x) :=
  h.enclosed .barrier

theorem Accounts.labeled (h : Accounts view Q N pre x) (labels : List String) :
    Accounts view Q N pre (labeled labels x) := by
  induction labels with
  | nil => exact h
  | cons label rest ih => exact ih.enclosed (.labeled label)

theorem Accounts.detached (h : Accounts view Q N pre x) : Accounts view Q N pre (detached x) :=
  fun s => h { s with control := [] }

theorem Accounts.capturing (h : Accounts view Q N pre x) :
    Accounts (fun result => view result.1) Q N pre (capturing x) :=
  fun s => h { s with captured := [] :: s.captured }

theorem silent_fresh {stem : String} (h : stem ∈ stems) : Silent Generated (fresh stem) :=
  fun s => ⟨⟨stem, h, s.supply.last + 1, rfl⟩, rfl⟩

theorem silent_report {finding : Finding} (h : finding.isAside = true) :
    Silent (fun _ => True) (report finding) := by
  intro s
  refine ⟨trivial, ?_⟩
  change (s.findings ++ [finding]).filter (!·.isAside) = _
  rw [List.filter_append, List.filter_cons_of_neg (by simp [h]), List.filter_nil, List.append_nil]

theorem silent_lookup (name : String) : Silent (fun _ => True) (lookup name) := by
  intro s
  refine ⟨trivial, ?_⟩
  rw [lookup_eq]
  dsimp only
  split <;> rfl

theorem silent_declareNew (names : List String) :
    Silent (fun new => ∀ n ∈ new, n ∈ names) (declareNew names) :=
  fun s => ⟨fun _ hn => mem_declareNew hn, by rw [declareNew_eq]⟩

theorem silent_declared {names : List String} (h : Named Q names) :
    Silent (fun code => ∀ a ∈ Stat.atomsList code, Q.allows a) (declareLocals names) := by
  intro s
  refine ⟨fun a ha => ?_, (silent_declareNew names s).2⟩
  change a ∈ Stat.atomsList (if (declareNew names s).1.isEmpty then []
    else [.declare ((declareNew names s).1.map Lua.spell)]) at ha
  split at ha
  · exact absurd ha (by simp)
  · simp only [Stat.atomsList, Stat.atoms, List.append_nil, List.map_map,
      List.mem_map] at ha
    obtain ⟨n, hn, rfl⟩ := ha
    exact h n (mem_declareNew hn)

/-- A part that may be missing, and comes to nothing then. -/
def AccountsOpt (view : α → List Atom) (Q : Allowance) (N : List Issue) :
    Option (Emit α) → Prop
  | none => N = []
  | some act => Accounts view Q N [] act

/-- The atoms of a part that may be missing. -/
def atomsOpt (view : α → List Atom) : Option α → List Atom
  | none => []
  | some a => view a

theorem AccountsOpt.optional {act : Option (Emit α)} (h : AccountsOpt view Q N act) :
    Accounts (atomsOpt view) Q N [] (optional act) := by
  cases act with
  | none =>
    obtain rfl : N = [] := h
    exact .pure (.of_eq rfl)
  | some a =>
    have hsome : Accounts (atomsOpt view) Q N [] (a >>= fun b => Pure.pure (some b)) :=
      h.last fun _ => .of_eq rfl
    exact hsome

theorem AccountsOpt.map_walled {act : Option (Emit α)} (h : AccountsOpt view Q N act) :
    AccountsOpt view Q N (act.map Emission.walled) := by
  cases act with
  | none => exact h
  | some a => exact h.walled

end Rules

end Emission

end EcmaLua
