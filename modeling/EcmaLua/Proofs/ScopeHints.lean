import EcmaLua.Proofs.Emission.Restoring
import EcmaLua.Proofs.Program.Agreement

/-!
# Hints on `with` statements

Emission keeps two stacks: the open frames, and for each open `with` statement the names that were
looked up and that its object may hold. They stay aligned. A name is noted for the innermost `with`
statement exactly when no frame inside of it binds the name, so the hint on a statement lists the
free names of its body that are surely mentioned there. A mention in code that is not made, such as
the operand of `void`, does not count.
-/

namespace EcmaLua

open Emission

/-- The name of a sure mention. -/
def Find.name? : Find → Option String
  | .name text true => some text
  | .name _ false | .scope _ _ => none

/-- The free names that are surely mentioned in the body of a `with` statement. -/
def Stmt.affected (body : Stmt) : List String := nameSet (body.finds.filterMap Find.name?)

/-- The hint on a `with` statement. -/
def Find.hint? : Find → Option (List String × Span)
  | .scope body span => some (body.affected, span)
  | .name _ _ => none

theorem Stmt.mem_affected {body : Stmt} {name : String} :
    name ∈ body.affected ↔ .name name true ∈ body.finds := by
  rw [Stmt.affected, mem_nameSet, List.mem_filterMap]
  constructor
  · rintro ⟨z, hz, hname⟩
    cases z with
    | name text sure =>
      cases sure with
      | true =>
        obtain rfl : text = name := Option.some.inj hname
        exact hz
      | false => cases hname
    | scope => cases hname
  · exact fun h => ⟨_, h, rfl⟩

/-- Only the `with` statements of the finds have hints. -/
theorem Find.mem_hints {L : List Find} {names : List String} {span : Span} :
    (names, span) ∈ L.filterMap Find.hint? ↔
      ∃ body : Stmt, .scope body span ∈ L ∧ body.affected = names := by
  rw [List.mem_filterMap]
  constructor
  · rintro ⟨z, hz, hhint⟩
    cases z with
    | name => cases hhint
    | scope body place =>
      obtain ⟨rfl, rfl⟩ : body.affected = names ∧ place = span :=
        Prod.mk.injEq .. ▸ Option.some.inj hhint
      exact ⟨body, hz, rfl⟩
  · rintro ⟨body, hbody, rfl⟩
    exact ⟨_, hbody, rfl⟩

namespace Emission

/-- Whether a table may hold the name. -/
def Scope.IsDynamic (scope : Scope) (name : String) : Prop :=
  ∃ proxy, scope.resolve name = .dynamic proxy

section Scope

variable {a : Scope}

theorem Scope.isDynamic_lexical {frame : Frame} (hk : frame.kind = .lexical) (name : String) :
    Scope.IsDynamic (frame :: a) name ↔ (frame.role? name).isNone ∧ a.IsDynamic name := by
  simp only [Scope.IsDynamic, Scope.resolve, hk]
  cases frame.role? name <;> simp

/-- Every name that gets to a `with` statement may be held by its object. -/
theorem Scope.isDynamic_object (label proxy : String) (ha : a ≠ []) (name : String) :
    Scope.IsDynamic (.object label proxy :: a) name := by
  refine ⟨proxy, ?_⟩
  simp [Scope.resolve, Frame.object, ha]

end Scope

/-- What was found on the way from one state to the other: a name that a table may hold is noted
for the innermost open `with` statement, and a `with` statement has its hint. -/
structure Noticed (L : List Find) (s s' : State) : Prop where
  outer : s'.captured.tail = s.captured.tail
  names : s.captured ≠ [] → ∀ name, name ∈ s'.captured.headD [] ↔
    name ∈ s.captured.headD [] ∨ (s.scope.IsDynamic name ∧ .name name true ∈ L)
  hints : ∀ hint, hint ∈ s'.findings.filterMap hint? ↔
    hint ∈ s.findings.filterMap hint? ∨ hint ∈ L.filterMap Find.hint?

namespace Noticed

variable {L M : List Find} {s s' s'' : State}

theorem nothing (hc : s'.captured = s.captured) (hf : s'.findings = s.findings) :
    Noticed [] s s' :=
  ⟨by rw [hc], by simp [hc], by simp [hf]⟩

theorem trans (h : Noticed L s s') (hk : Kept s s') (h' : Noticed M s' s'') :
    Noticed (L ++ M) s s'' where
  outer := h'.outer.trans h.outer
  names := by
    intro hopen name
    have hopen' : s'.captured ≠ [] := by
      rw [← List.length_pos_iff, hk.captured, List.length_pos_iff]
      exact hopen
    have hsame : s'.scope.IsDynamic name ↔ s.scope.IsDynamic name := by
      simp only [Scope.IsDynamic, hk.scope.resolve]
    rw [h'.names hopen', h.names hopen, hsame, List.mem_append]
    tauto
  hints := by
    intro hint
    rw [h'.hints, h.hints, List.filterMap_append, List.mem_append, or_assoc]

/-- Finds that are not sure do not count. -/
theorem alike (hLM : ∀ z, z.isSure = true → (z ∈ L ↔ z ∈ M)) (h : Noticed L s s') :
    Noticed M s s' where
  outer := h.outer
  names := by
    intro hopen name
    rw [h.names hopen, hLM _ rfl]
  hints := by
    rintro ⟨names, span⟩
    simp only [h.hints, Find.mem_hints, hLM (.scope _ _) rfl]

end Noticed

/-- The action notices the finds, wherever a frame is open. -/
structure Notices (wide : Bool) (L : List Find) (α : Type) (act : Emit α) : Prop where
  leaves : Leaves wide L α act
  noticed : ∀ s, s.scope ≠ [] → Noticed L s (act s).2

theorem Leaves.keeps {w : Bool} {L : List Find} {α : Type} {act : Emit α}
    (h : Leaves w L α act) : Keeps act := by
  cases w with
  | true => exact h
  | false => exact Restores.keeps h

theorem noticed_lookup (name : String) (s : State) :
    Noticed [.name name true] s (lookup name s).2 := by
  rw [lookup_eq]
  cases hr : s.scope.resolve name with
  | dynamic proxy =>
    cases hc : s.captured with
    | nil => exact ⟨by simp [hc], by simp [hc], by simp [Find.hint?]⟩
    | cons names rest =>
      refine ⟨by simp [hc], fun _ n => ?_, by simp [Find.hint?]⟩
      have hdynamic : n = name → s.scope.IsDynamic n := fun h => ⟨proxy, h ▸ hr⟩
      simp [hc]
      tauto
  | bound | global =>
    refine ⟨rfl, fun _ n => ?_, by simp [Find.hint?]⟩
    have hstatic : n = name → ¬ s.scope.IsDynamic n := by
      rintro rfl ⟨proxy, hproxy⟩
      exact absurd (hr.symm.trans hproxy) nofun
    simp
    tauto

/-- A lexical frame hides the names that it binds. -/
theorem noticed_lexical {L : List Find} {frame : Frame} {s s' : State}
    (hk : frame.kind = .lexical) (h : Noticed L { s with scope := frame :: s.scope } s') :
    Noticed (L.filter (Find.passes frame)) s s' where
  outer := h.outer
  names := by
    intro hopen name
    rw [h.names hopen, Scope.isDynamic_lexical hk, List.mem_filter, Find.passes]
    tauto
  hints := by
    rintro ⟨names, span⟩
    rw [h.hints, Find.mem_hints, Find.mem_hints]
    simp only [List.mem_filter, Find.passes, and_true]

/-- A `with` statement lists the names of its body, and tells nothing to the one around it. -/
theorem noticed_within {body : Stmt} (span : Span) {proxy : String} {s s' : State}
    (hs : s.scope ≠ [])
    (h : Noticed body.finds
      { s with scope := .object "with" proxy :: s.scope, captured := [] :: s.captured } s') :
    Noticed (body.finds.map Find.outward ++ [.scope body span]) s
      { s' with
        scope := s'.scope.tail, captured := s'.captured.tail,
        findings := s'.findings ++ [.withScope (nameSet (s'.captured.headD [])) span] } := by
  have hlist : nameSet (s'.captured.headD []) = body.affected := by
    refine nameSet_congr fun name => ?_
    have haffected : name ∈ body.affected ↔ _ := Stmt.mem_affected
    rw [Stmt.affected, mem_nameSet] at haffected
    rw [h.names (List.cons_ne_nil _ _), haffected]
    simp [Scope.isDynamic_object _ _ hs]
  have houter : s'.captured.tail = s.captured := h.outer
  refine ⟨by rw [houter], fun _ name => ?_, ?_⟩
  · have hnone : .name name true ∉ body.finds.map Find.outward := by
      rw [List.mem_map]
      rintro ⟨z, -, hz⟩
      cases z <;> cases hz
    simp [houter, hnone]
  · rintro ⟨names, place⟩
    have hscope (inner : Stmt) :
        .scope inner place ∈ body.finds.map Find.outward ↔ .scope inner place ∈ body.finds := by
      rw [List.mem_map]
      refine ⟨?_, fun hz => ⟨_, hz, rfl⟩⟩
      rintro ⟨z, hmem, hz⟩
      cases z <;> cases hz
      exact hmem
    rw [hlist, List.filterMap_append, List.mem_append, h.hints, or_assoc, Find.mem_hints,
      List.filterMap_append, List.mem_append, Find.mem_hints]
    simp [hscope, hint?, Find.hint?]

theorem closed_notices : Closed (fun _ => True) Notices where
  widen h := ⟨closed_leaves.widen h.leaves, h.noticed⟩
  alike hLM h := ⟨closed_leaves.alike hLM h.leaves, fun s hs => (h.noticed s hs).alike hLM⟩
  pure a := ⟨closed_leaves.pure a, fun _ _ => .nothing rfl rfl⟩
  bind {_ _ _ _ _ x _} hx hf := by
    refine ⟨closed_leaves.bind hx.leaves fun a => (hf a).leaves, fun s hs => ?_⟩
    have hkept := hx.leaves.keeps s
    have hscope : (x s).2.scope ≠ [] := by
      rwa [← List.isEmpty_eq_false_iff, hkept.scope.isEmpty, List.isEmpty_eq_false_iff]
    exact (hx.noticed s hs).trans hkept ((hf (x s).1).noticed _ hscope)
  fresh stem := ⟨closed_leaves.fresh stem, fun _ _ => .nothing rfl rfl⟩
  report {_ finding} ha hn := by
    refine ⟨closed_leaves.report ha hn, fun s _ => ?_⟩
    change Noticed [] s { s with findings := s.findings ++ [finding] }
    exact ⟨rfl, by simp, by simp [hn]⟩
  lookup name := ⟨closed_leaves.lookup name, fun s _ => noticed_lookup name s⟩
  declareNew names := by
    refine ⟨closed_leaves.declareNew names, fun s _ => ?_⟩
    rw [declareNew_eq]
    exact .nothing rfl rfl
  breakJump label := ⟨closed_leaves.breakJump label, fun _ _ => .nothing rfl rfl⟩
  continueJump label := ⟨closed_leaves.continueJump label, fun _ _ => .nothing rfl rfl⟩
  lexical {_ _ _ _ frame} hk hx := by
    refine ⟨closed_leaves.lexical hk hx.leaves, fun s _ => ?_⟩
    have hbody := hx.noticed { s with scope := frame :: s.scope } (List.cons_ne_nil _ _)
    have h := noticed_lexical hk hbody
    exact ⟨h.outer, h.names, h.hints⟩
  within {_ span _ _ _} proxy g ha hx := by
    refine ⟨closed_leaves.within proxy g ha hx.leaves, fun s hs => ?_⟩
    have hbody := hx.noticed
      { s with scope := .object "with" proxy :: s.scope, captured := [] :: s.captured }
      (List.cons_ne_nil _ _)
    have h := noticed_within span hs hbody
    exact ⟨h.outer, h.names, h.hints⟩
  enclosed enclosure hx := by
    refine ⟨closed_leaves.enclosed enclosure hx.leaves, fun s hs => ?_⟩
    have h := hx.noticed { s with control := enclosure :: s.control } hs
    exact ⟨h.outer, h.names, h.hints⟩
  detached hx := by
    refine ⟨closed_leaves.detached hx.leaves, fun s hs => ?_⟩
    have h := hx.noticed { s with control := [] } hs
    exact ⟨h.outer, h.names, h.hints⟩

end Emission

/-- The hints of a program are those on the `with` statements that code is made of. -/
theorem Program.withScope_mem_findings {p : Program} {names : List String} {span : Span} :
    .withScope names span ∈ p.emit.findings ↔
      ∃ body : Stmt, .scope body span ∈ Stmt.findsList p.body ∧ body.affected = names := by
  have hroot := (Program.has_root closed_notices (admitted_all p.nodes)).noticed
    { scope := [.object "program" Lua.globalObjects] } (List.cons_ne_nil _ _)
  have hhints : (names, span) ∈ p.emit.findings.filterMap hint? ↔ _ := hroot.hints (names, span)
  have hhint : (names, span) ∈ p.emit.findings.filterMap hint? ↔
      .withScope names span ∈ p.emit.findings := by
    rw [List.mem_filterMap]
    refine ⟨?_, fun h => ⟨_, h, rfl⟩⟩
    rintro ⟨finding, hfinding, hname⟩
    cases finding <;> cases hname
    exact hfinding
  rw [← hhint, hhints, Find.mem_hints]
  simp [Find.passes]

/-- The list has the names with a free mention in the body that is looked up there. -/
structure Stmt.ListedBy (names : List String) (body : Stmt) : Prop where
  ascending : names.Pairwise (· < ·)
  mem_iff : ∀ name, name ∈ names ↔ .name name true ∈ body.finds

theorem Stmt.listedBy_affected (body : Stmt) : Stmt.ListedBy body.affected body where
  ascending := pairwise_nameSet _
  mem_iff _ := Stmt.mem_affected

/-- Every `with` statement that code is made of has a hint that lists the free names of its body,
every hint is one of these, and a list without names makes a hint without help. -/
theorem Program.hints_list_free_names (p : Program) :
    (∀ (body : Stmt) (span : Span), .scope body span ∈ Stmt.findsList p.body →
      ∃ names, .withScope names span ∈ p.emit.findings ∧ Stmt.ListedBy names body) ∧
    ∀ (names : List String) (span : Span), .withScope names span ∈ p.emit.findings →
      (∃ body, .scope body span ∈ Stmt.findsList p.body ∧ Stmt.ListedBy names body) ∧
      (Finding.withScope names span).help =
        if names = [] then none else some ("affected names: " ++ ", ".intercalate names) := by
  refine ⟨fun body span h => ?_, fun names span h => ⟨?_, ?_⟩⟩
  · exact ⟨body.affected, Program.withScope_mem_findings.mpr ⟨body, h, rfl⟩,
      body.listedBy_affected⟩
  · obtain ⟨body, hbody, rfl⟩ := Program.withScope_mem_findings.mp h
    exact ⟨body, hbody, body.listedBy_affected⟩
  · cases names <;> rfl

/-- A call with a function that binds one of two names, a `with` statement, a loop over keys, and
a statement that is never reached. -/
def crowdedBody : Stmt :=
  .block [
    .exprStmt (.call (.ident "f") [.ident "x", .func ⟨none, ["z"],
      [.returnStmt (some (.binary .add (.ident "z") (.ident "w")))]⟩]),
    .withStmt (.ident "b") (.exprStmt (.ident "y")) .nowhere,
    .forInStmt (.target (.ident "k")) (.ident "p") .empty,
    .returnStmt none,
    .exprStmt (.ident "v")]

def crowdedScope : Program where
  body := [.withStmt (.ident "a") crowdedBody ⟨⟨0⟩, 1, 9⟩]

theorem crowdedScope_hints :
    crowdedScope.emit.findings =
        [.withScope ["y"] .nowhere, .withScope ["b", "f", "p", "w", "x"] ⟨⟨0⟩, 1, 9⟩] ∧
      .scope crowdedBody ⟨⟨0⟩, 1, 9⟩ ∈ Stmt.findsList crowdedScope.body ∧
      ∃ names, .withScope names ⟨⟨0⟩, 1, 9⟩ ∈ crowdedScope.emit.findings ∧
        Stmt.ListedBy names crowdedBody := by
  have hscope : .scope crowdedBody ⟨⟨0⟩, 1, 9⟩ ∈ Stmt.findsList crowdedScope.body := by
    simp [crowdedScope, Stmt.findsList, Stmt.finds]
  exact ⟨by decide +kernel, hscope, crowdedScope.hints_list_free_names.1 _ _ hscope⟩

/-- What the body of an inner `with` statement mentions is not listed in the hint of the outer one,
though both objects could have these names. -/
theorem innerScope_unlisted :
    let body : Stmt := .block [.withStmt (.ident "b")
      (.block [.exprStmt (.call (.ident "f") [.ident "x"])]) ⟨⟨0⟩, 11, 29⟩]
    "f" ∈ body.refs ∧ "x" ∈ body.refs ∧
      (Program.mk [.withStmt (.ident "a") body ⟨⟨0⟩, 0, 31⟩]).hoist.emit.findings =
        [.withScope ["f", "x"] ⟨⟨0⟩, 11, 29⟩, .withScope ["b"] ⟨⟨0⟩, 0, 31⟩] := by
  decide +kernel

end EcmaLua
