import EcmaLua.Proofs.Emission.Locals

/-!
# Bindings of variables

What a hoisted program declares becomes locals at the start of the Lua function that it belongs
to, each name in one place: the functions in ascending order, then the variables in the order of
their first declarations. Nothing behind these locals declares a name of the program. Whether a
name keeps its one binding is another matter: the variable in the head of a loop over keys is
bound anew by the loop.
-/

namespace EcmaLua

open Emission

section Declared

/-- The names of the locals at the start of a body, against what the body declares. -/
structure DeclaredOnce (bound : List String) (body : List Stmt) : Prop where
  ascending : (functionLocals bound body).Pairwise (· < ·)
  functions : ∀ n, n ∈ functionLocals bound body ↔ n ∈ Stmt.funcNamesList body ∧ n ∉ bound
  inOrder : (leadingNames bound body).Pairwise fun a b =>
    (Stmt.varsList body).idxOf a < (Stmt.varsList body).idxOf b
  vars : ∀ n, n ∈ leadingNames bound body ↔
    n ∈ Stmt.varsList body ∧ n ∉ Stmt.funcNamesList body ∧ n ∉ bound

theorem mem_functionLocals {bound : List String} {body : List Stmt} {n : String} :
    n ∈ functionLocals bound body ↔ n ∈ Stmt.funcNamesList body ∧ n ∉ bound := by
  rw [functionLocals, List.mem_filter, mem_nameSet]
  simp

/-- First occurrences stand in the order of their places. -/
theorem pairwise_firstOccurrences (names : List String) :
    (firstOccurrences names).Pairwise fun a b => names.idxOf a < names.idxOf b := by
  induction names with
  | nil => exact .nil
  | cons name rest ih =>
    rw [firstOccurrences]
    refine List.pairwise_cons.mpr ⟨fun b hb => ?_, ?_⟩
    · have hne : name ≠ b := by
        rintro rfl
        simp at hb
      rw [List.idxOf_cons_self, List.idxOf_cons_ne _ hne]
      exact Nat.succ_pos _
    · refine List.Pairwise.imp_of_mem ?_ (ih.filter _)
      intro a b ha hb hlt
      have hne {n : String} (hn : n ∈ (firstOccurrences rest).filter (· ≠ name)) : name ≠ n := by
        rintro rfl
        simp at hn
      rw [List.idxOf_cons_ne _ (hne ha), List.idxOf_cons_ne _ (hne hb)]
      exact Nat.succ_lt_succ hlt

theorem declaredOnce (bound : List String) (body : List Stmt) : DeclaredOnce bound body where
  ascending := (pairwise_nameSet _).filter _
  functions _ := mem_functionLocals
  inOrder := (pairwise_firstOccurrences _).filter _
  vars _ := mem_leadingNames

theorem nodup_ownNames {bound : List String} (h : bound.Nodup) (body : List Stmt) :
    (ownNames bound body).Nodup := by
  have hfunctions : (functionLocals bound body).Nodup := (nodup_nameSet _).filter _
  unfold ownNames
  refine List.nodup_append'.mpr ⟨List.nodup_append'.mpr ⟨h, hfunctions, ?_⟩,
    nodup_leadingNames bound body, ?_⟩
  · intro n hn hf
    exact (mem_functionLocals.mp hf).2 hn
  · intro n hn hv
    obtain ⟨-, hfunc, hbound⟩ := mem_leadingNames.mp hv
    rcases List.mem_append.mp hn with hn | hn
    · exact hbound hn
    · exact hfunc (mem_functionLocals.mp hn).1

end Declared

section Root

variable {r : BindingRule} {around : List String → Prop} {fits : List String → Func → Prop}
  {p : Program} {taken : List String}

/-- The code of a hoisted program: its declarations, and code that binds what the rule allows. -/
theorem Program.exists_front (hr : r.Lawful around fits) (ht : around taken)
    (hfits : ∀ f ∈ p.functions, fits taken f)
    (hheads : ∀ x ∈ Stmt.headsList p.hoist.body, r.control taken (Lua.spell x)) :
    ∃ rest, p.hoist.emit.chunk.body =
        [.marker "BEGIN"] ++ (Lua.front [] p.body ++ rest) ++ [.marker "END"] ∧
      Lua.Stat.BindsAll r taken rest := by
  have hknows : Knows (fits taken) p.hoist.functions := by
    intro g hg
    obtain ⟨f, hf, rfl⟩ := List.mem_map.mp (p.functions_hoist.mem_iff.mp hg)
    exact ⟨f, hfits f hf, rfl⟩
  have hfuncs : ∀ f ∈ Stmt.funcsList p.body, Always (Lua.Expr.Binds r taken) f.hoist.emit :=
    fun f hf => hr.reaches.holdsAt taken (.func f.hoist) (Func.allows ht hknows
      (Func.mem_body_hoist_of_funcs (f := ⟨none, [], p.body⟩) hf))
  have hbare : ∀ s ∈ Stmt.residueList p.body,
      Always (Lua.Stat.BindsAll r taken) (s.emit (.statement [])) := by
    intro s hs
    have hallows := ((Stmt.bare_residueList p.body).forall_mem s hs).allows ht hknows hheads
      (Func.mem_body_hoist_of_residue (f := ⟨none, [], p.body⟩) hs)
    exact ((hr.reaches.holdsAt taken (.stmt s) hallows).1 (.statement []) nofun).mono
      fun _ hc => hc.1
  have hopened : Opened [] ({ scope := [rootFrame (.ofBody p.hoist.body),
      .object "program" Lua.globalObjects] } : State) := by
    refine ⟨_, _, rfl, ?_, ?_⟩ <;> unfold rootFrame <;> split <;> simp [Frame.define, Frame.lexical]
  have hnone : ∀ n ∈ ([] : List String), n ∈ ([] : List String) := nofun
  obtain ⟨rest, hrest, hbinds⟩ := EcmaLua.exists_front hnone hfuncs hbare hopened
  refine ⟨rest, ?_, hbinds⟩
  rw [← hrest, ← funcs_hoistBody [] p.body, ← List.append_assoc]
  rfl

end Root

/-- Locals behind the declarations have made-up names. -/
def Program.declaringRule (p : Program) : BindingRule where
  scope f := f ∈ p.functions
  temporary _ n := Generated n
  control _ _ := True

theorem Program.lawful_declaringRule (p : Program) :
    p.declaringRule.Lawful (fun _ => True) fun _ f => f ∈ p.functions where
  temporary _ h := h
  control _ _ := trivial
  scope h := h
  enter _ _ := trivial
  inner _ _ h := h
  head _ _ _ := trivial

section OneBinding

/-- No binder of the generated code can take one of the names a second time. The names are those
that a function, or the root, binds at its start, and `functions` are the hoisted functions whose
code stands behind that. -/
structure Unambiguous (names : List String) (functions : List Func) : Prop where
  spelling : ∀ a ∈ names, ∀ b ∈ names, Lua.spell a = Lua.spell b → a = b
  /-- no loop over keys has one of the names as its variable -/
  heads : ∀ f ∈ functions, ∀ x ∈ Stmt.headsList f.body, ∀ n ∈ names, Lua.spell x ≠ Lua.spell n
  generated : ∀ n ∈ names, ¬ Generated (Lua.spell n)

/-- A function has no parameter twice, and none called `arguments` where it mentions them; no
other binder takes its names. -/
structure Func.Unambiguous (f : Func) : Prop where
  params : f.bound.Nodup
  names : EcmaLua.Unambiguous (ownNames f.bound f.body) (f.hoist :: f.hoist.inner)

/-- The root and all functions are unambiguous. -/
structure Program.Unambiguous (p : Program) : Prop where
  root : EcmaLua.Unambiguous (ownNames [] p.body) (⟨none, [], p.hoist.body⟩ :: p.hoist.functions)
  functions : ∀ f ∈ p.functions, f.Unambiguous

/-- No function binds a name twice at its start, and nothing behind it binds a name that it or a
function around it has bound there. -/
def Program.singleRule (p : Program) : BindingRule where
  scope f := f ∈ p.functions ∧ f.taken.Nodup
  temporary taken n := n ∉ taken
  control taken n := n ∉ taken

variable {p : Program}

theorem Unambiguous.nodup {bound : List String} {body : List Stmt} {functions : List Func}
    (h : Unambiguous (ownNames bound body) functions) (hbound : bound.Nodup) :
    ((ownNames bound body).map Lua.spell).Nodup :=
  (nodup_ownNames hbound body).map_on h.spelling

theorem Unambiguous.not_generated {names : List String} {functions : List Func}
    (h : Unambiguous names functions) : ∀ n ∈ names.map Lua.spell, ¬ Generated n :=
  List.forall_mem_map.mpr h.generated

theorem Unambiguous.head_not_mem {names : List String} {functions : List Func}
    (h : Unambiguous names functions) {f : Func} (hf : f ∈ functions) {x : String}
    (hx : x ∈ Stmt.headsList f.body) : Lua.spell x ∉ names.map Lua.spell := by
  intro hmem
  obtain ⟨n, hn, heq⟩ := List.mem_map.mp hmem
  exact h.heads f hf x hx n hn heq.symm

/-- A function at a place where the functions around it have taken names. -/
structure Program.Fits (p : Program) (taken : List String) (f : Func) : Prop where
  mem : f ∈ p.functions
  unambiguous : f.Unambiguous
  heads : ∀ x ∈ Stmt.headsList f.hoist.body, Lua.spell x ∉ taken

theorem Program.lawful_singleRule (p : Program) :
    p.singleRule.Lawful (fun taken => ∀ n ∈ taken, ¬ Generated n) p.Fits where
  temporary ht hn hmem := ht _ hmem hn
  control ht hn hmem := ht _ hmem hn
  scope h := ⟨h.mem, h.unambiguous.names.nodup h.unambiguous.params⟩
  enter ht h := List.forall_mem_append.mpr ⟨h.unambiguous.names.not_generated, ht⟩
  inner := by
    intro taken f g hf hinner hg
    refine ⟨hg.mem, hg.unambiguous, fun x hx hmem => ?_⟩
    rcases List.mem_append.mp hmem with hmem | hmem
    · exact hf.unambiguous.names.head_not_mem (List.mem_cons_of_mem _ hinner) hx hmem
    · exact hg.heads x hx hmem
  head := by
    intro taken f hf x hx hmem
    rcases List.mem_append.mp hmem with hmem | hmem
    · exact hf.unambiguous.names.head_not_mem List.mem_cons_self hx hmem
    · exact hf.heads x hx hmem

/-- Every variable and parameter keeps the one binding that its function, or the root, starts
with. -/
def Program.OneBinding (p : Program) : Prop :=
  ((ownNames [] p.body).map Lua.spell).Nodup ∧
  ∃ rest, p.hoist.emit.chunk.body =
      [.marker "BEGIN"] ++ (Lua.front [] p.body ++ rest) ++ [.marker "END"] ∧
    Lua.Stat.BindsAll p.singleRule ((ownNames [] p.body).map Lua.spell) rest

theorem Program.Unambiguous.oneBinding (h : p.Unambiguous) : p.OneBinding := by
  refine ⟨h.root.nodup List.nodup_nil,
    Program.exists_front p.lawful_singleRule h.root.not_generated ?_ ?_⟩
  · intro f hf
    refine ⟨hf, h.functions f hf, fun x hx => ?_⟩
    have hmem : f.hoist ∈ p.hoist.functions :=
      p.functions_hoist.mem_iff.mpr (List.mem_map_of_mem hf)
    exact h.root.head_not_mem (List.mem_cons_of_mem _ hmem) hx
  · intro x hx
    exact h.root.head_not_mem List.mem_cons_self hx

/-- Variables keep their one binding where the names are unambiguous. A loop over keys whose head
is a variable is why they may be not: the loop always binds the variable itself. -/
theorem Program.binds_once (p : Program) :
    (p.Unambiguous → p.OneBinding) ∧
    ∀ (place : Place) (key : String) (object : Expr) (body : Stmt) (s : State),
      ∃ ignored iterator code,
        ((Stmt.forInStmt (.target (.ident key)) object body).emit place s).1 =
          nested place.labels [.forIn (Lua.spell key) ignored iterator code] :=
  ⟨Program.Unambiguous.oneBinding, fun _ _ _ _ _ => ⟨_, _, _, rfl⟩⟩

/-- Made-up names begin with an underscore. -/
theorem Emission.Generated.head {n : String} (h : Generated n) : n.toList.head? = some '_' := by
  obtain ⟨stem, hstem, k, rfl⟩ := h
  have hhead : ∀ stem ∈ stems, stem.toList.head? = some '_' := by decide
  rw [String.toList_append, List.head?_append, hhead stem hstem]
  rfl

theorem Unambiguous.of_plain {names : List String} {functions : List Func}
    (hspelling : ∀ a ∈ names, ∀ b ∈ names, Lua.spell a = Lua.spell b → a = b)
    (hheads : ∀ f ∈ functions, ∀ x ∈ Stmt.headsList f.body, ∀ n ∈ names,
      Lua.spell x ≠ Lua.spell n)
    (hplain : ∀ n ∈ names, (Lua.spell n).toList.head? ≠ some '_') :
    Unambiguous names functions :=
  ⟨hspelling, hheads, fun n hn h => hplain n hn h.head⟩

/-- A loop over keys that stores each key in a property, in a function with packed arguments. -/
def visits : Program :=
  ⟨[.varStmt .var [⟨"total", some (.func ⟨some "loop", ["list"],
        [.returnStmt (some (.call (.ident "loop") [.ident "arguments"]))]⟩)⟩],
    .funcStmt ⟨some "visit", ["list"],
      [.forInStmt (.target (.member (.ident "list") "key")) (.ident "arguments")
          (.exprStmt (.call (.ident "total") [])),
        .varStmt .var [⟨"last", none⟩]]⟩]⟩

theorem unambiguous_visits : visits.Unambiguous where
  root := .of_plain (by decide) (by decide) (by decide)
  functions f hf :=
    { params := (by decide : ∀ f ∈ visits.functions, f.bound.Nodup) f hf
      names := .of_plain
        ((by decide : ∀ f ∈ visits.functions, ∀ a ∈ ownNames f.bound f.body,
          ∀ b ∈ ownNames f.bound f.body, Lua.spell a = Lua.spell b → a = b) f hf)
        ((by decide : ∀ f ∈ visits.functions, ∀ g ∈ f.hoist :: f.hoist.inner,
          ∀ x ∈ Stmt.headsList g.body, ∀ n ∈ ownNames f.bound f.body,
            Lua.spell x ≠ Lua.spell n) f hf)
        ((by decide : ∀ f ∈ visits.functions, ∀ n ∈ ownNames f.bound f.body,
          (Lua.spell n).toList.head? ≠ some '_') f hf) }

theorem visits_binds_once : visits.Unambiguous ∧ visits.OneBinding :=
  ⟨unambiguous_visits, (Program.binds_once visits).1 unambiguous_visits⟩

/-- A loop over keys with a declared variable in its head, and a read of the variable behind it. -/
def keyLoop : Program :=
  ⟨[.varStmt .var [⟨"k", none⟩], .forInStmt (.target (.ident "k")) (.ident "o") (.block []),
    .exprStmt (.call (.ident "f") [.ident "k"])]⟩

/-- The variable that the loop binds is not the local that is read behind it. -/
theorem keyLoop_binds_twice :
    keyLoop.hoist.emit.chunk.body =
      [.marker "BEGIN", .declare ["k"],
        .forIn "k" "__tmp1" (Lua.Helper.iterate.call [.read "o"]) [.doBlock []],
        .call (.call (.read "f") [.read "k"]), .marker "END"] ∧
    ¬ keyLoop.OneBinding := by
  refine ⟨rfl, ?_⟩
  rintro ⟨-, rest, hcode, hbinds⟩
  have hrest : rest ++ [.marker "END"] =
      [.forIn "k" "__tmp1" (Lua.Helper.iterate.call [.read "o"]) [.doBlock []],
        .call (.call (.read "f") [.read "k"]), .marker "END"] :=
    (List.cons.inj (List.cons.inj hcode).2).2.symm
  have hloop : .forIn "k" "__tmp1" (Lua.Helper.iterate.call [.read "o"]) [.doBlock []] ∈ rest := by
    cases rest with
    | nil => nomatch hrest
    | cons s others =>
      rw [← (List.cons.inj hrest).1]
      exact List.mem_cons_self
  cases hbinds _ hloop with
  | leaf h => exact h
  | forIn hkey => exact hkey (by decide)

end OneBinding

end EcmaLua
