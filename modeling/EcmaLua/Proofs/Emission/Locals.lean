import EcmaLua.Proofs.Emission.Binding
import EcmaLua.Proofs.Emission.Restoring
import EcmaLua.Proofs.Emission.Walk
import EcmaLua.Proofs.Program.Agreement

/-!
# Locals of hoisted bodies

The locals that a function or the program root declares. A frame notes the names that have locals
in it, so each name gets one: first the functions, all of them at the start, then the variables of
the declaration that a hoisted body begins with. The function declarations behind it find their
names noted, and what is left of the body declares nothing.
-/

namespace EcmaLua

open Emission
open List (forall_mem_append forall_mem_cons forall_mem_singleton forall_mem_map)
open Lua (Stat)

namespace Emission

/-- The innermost frame is lexical, and the names with locals in it are these. -/
def Opened (names : List String) (s : State) : Prop :=
  ∃ f rest, s.scope = f :: rest ∧ f.kind = .lexical ∧ ∀ n, n ∈ f.declared ↔ n ∈ names

/-- The innermost frame is lexical, and these names have locals in it. -/
def Ready (names : List String) (s : State) : Prop :=
  ∃ f rest, s.scope = f :: rest ∧ f.kind = .lexical ∧ ∀ n ∈ names, n ∈ f.declared

section Frames

variable {names seen : List String} {s s' : State}

theorem Opened.ready (h : Opened names s) : Ready names s := by
  obtain ⟨f, rest, hscope, hkind, hdeclared⟩ := h
  exact ⟨f, rest, hscope, hkind, fun n hn => (hdeclared n).mpr hn⟩

theorem Opened.congr {others : List String} (h : Opened names s)
    (hsame : ∀ n, n ∈ names ↔ n ∈ others) : Opened others s := by
  obtain ⟨f, rest, hscope, hkind, hdeclared⟩ := h
  exact ⟨f, rest, hscope, hkind, fun n => (hdeclared n).trans (hsame n)⟩

/-- Locals stay. -/
theorem Ready.kept (h : Ready names s) (hk : Kept s s') : Ready names s' := by
  obtain ⟨f, rest, hscope, hkind, hdeclared⟩ := h
  have hgrows := hk.scope
  rw [hscope] at hgrows
  cases hgrows' : s'.scope with
  | nil =>
    rw [hgrows'] at hgrows
    nomatch hgrows
  | cons f' rest' =>
    rw [hgrows'] at hgrows
    cases hgrows with
    | lexical _ new =>
      exact ⟨_, _, hgrows', hkind, fun n hn => List.mem_append_right _ (hdeclared n hn)⟩
    | object hkind' _ => exact absurd (hkind.symm.trans hkind') nofun

/-- Whatever an action gives in every state it gives where names are ready, and they stay so. -/
theorem Always.ensures_ready {α : Type} {P : α → Prop} {act : Emit α} (h : Always P act)
    (hk : Keeps act) : Ensures (Ready names) P act :=
  fun s hs => ⟨(h s trivial).1, hs.kept (hk s)⟩

/-- A name is noted once. -/
theorem Opened.declare (h : Opened seen s) (name : String) :
    (s.scope.declare name).1 = !seen.contains name ∧
      Opened (name :: seen) { s with scope := (s.scope.declare name).2 } := by
  obtain ⟨f, rest, hscope, hkind, hdeclared⟩ := h
  have hcontains : f.declared.contains name = seen.contains name := by
    rw [Bool.eq_iff_iff, List.contains_iff_mem, List.contains_iff_mem]
    exact hdeclared name
  rw [hscope, Scope.declare]
  simp only [hkind, hcontains]
  split
  · next hseen =>
      refine ⟨by rw [hseen]; rfl, f, rest, rfl, hkind, fun n => ?_⟩
      rw [hdeclared, List.mem_cons, or_iff_right_of_imp]
      rintro rfl
      exact List.contains_iff_mem.mp hseen
  · next hseen =>
      refine ⟨by rw [Bool.eq_false_iff.mpr hseen]; rfl, _, rest, rfl, rfl, fun n => ?_⟩
      rw [List.mem_cons, List.mem_cons, hdeclared]

theorem declareNew_cons (name : String) (rest : List String) (s : State) :
    (declareNew (name :: rest) s).1 =
      if (s.scope.declare name).1
        then name :: (declareNew rest { s with scope := (s.scope.declare name).2 }).1
        else (declareNew rest { s with scope := (s.scope.declare name).2 }).1 := rfl

theorem Opened.declareNew (h : Opened seen s) (names : List String) :
    Opened (names ++ seen) (declareNew names s).2 := by
  induction names generalizing seen s with
  | nil => exact h
  | cons name rest ih =>
    refine Opened.congr (ih (h.declare name).2) fun n => ?_
    simp only [List.mem_append, List.mem_cons, or_left_comm, or_assoc]

/-- Of names without repetitions the ones without a local are new. -/
theorem Opened.declareNew_eq_filter (h : Opened seen s) (hnames : names.Nodup) :
    (Emission.declareNew names s).1 = names.filter fun n => !seen.contains n := by
  induction names generalizing seen s with
  | nil => rfl
  | cons name rest ih =>
    obtain ⟨hname, hrest⟩ := List.nodup_cons.mp hnames
    have hothers : (Emission.declareNew rest { s with scope := (s.scope.declare name).2 }).1 =
        rest.filter fun n => !seen.contains n := by
      rw [ih (h.declare name).2 hrest]
      refine List.filter_congr fun n hn => ?_
      have hne : n ≠ name := fun heq => hname (heq ▸ hn)
      simp [hne]
    rw [declareNew_cons, (h.declare name).1, hothers, List.filter_cons]

end Frames

section Front

variable {bound : List String} {s : State}

theorem declareLocals_eq {names new : List String} (h : (declareNew names s).1 = new) :
    declareLocals names s = (Lua.localsOf new, (declareNew names s).2) := by
  subst h
  rfl

theorem nodup_nameSet (names : List String) : (nameSet names).Nodup :=
  (pairwise_nameSet names).imp ne_of_lt

/-- The variables of a hoisted body that are neither functions nor bound before. -/
theorem filter_leadingNames {params : List String} (h : ∀ n ∈ params, n ∈ bound)
    (body : List Stmt) :
    (leadingNames params body).filter
        (fun n => !(nameSet (Stmt.funcNamesList body) ++ bound).contains n) =
      leadingNames bound body := by
  unfold leadingNames
  rw [List.filter_filter]
  refine List.filter_congr fun n _ => ?_
  have hparams := h n
  rw [Bool.eq_iff_iff]
  simp only [Bool.and_eq_true, Bool.not_eq_true', List.contains_eq_mem, decide_eq_false_iff_not,
    List.mem_append, mem_nameSet]
  tauto

end Front

end Emission

theorem Declarator.emit_plain (names : List String) :
    Declarator.emit (names.map fun name => ⟨name, none⟩) = pure [] := by
  induction names with
  | nil => rfl
  | cons name rest ih =>
    rw [List.map_cons, Declarator.emit_cons, ih]
    rfl

/-- The declaration that a hoisted body begins with declares its names. -/
theorem Stmt.emitList_declaration (names : List String) :
    Stmt.emitList (declaration names) = declareLocals names := by
  cases names with
  | nil => rfl
  | cons name rest =>
    have hemit : Stmt.emitList [.varStmt .var ((name :: rest).map fun n => ⟨n, none⟩)] = (do
        let locals ← declareLocals (Declarator.names ((name :: rest).map fun n => ⟨n, none⟩))
        let inits ← Declarator.emit ((name :: rest).map fun n => ⟨n, none⟩)
        pure (locals ++ inits ++ [])) := rfl
    rw [declaration, hemit, Declarator.names_plain, Declarator.emit_plain]
    · simp
    · exact List.cons_ne_nil _ _

/-- Statements none of which has to be the last of its block. -/
theorem Stmt.emitList_append {first : List Stmt} (h : ∀ s ∈ first, s.endsBlock = false)
    (rest : List Stmt) : Stmt.emitList (first ++ rest) = (do
      let code ← Stmt.emitList first
      let more ← Stmt.emitList rest
      pure (code ++ more)) := by
  induction first with
  | nil => simp [Stmt.emitList]
  | cons s others ih =>
    obtain ⟨hs, hothers⟩ := forall_mem_cons.mp h
    funext state
    simp only [List.cons_append, Stmt.emitList, hs, ih hothers, Bool.false_eq_true, if_false,
      bind_assoc, pure_bind, List.append_assoc]

/-- The code of a hoisted body behind the declaration of its variables. -/
def Emission.remainder (body : List Stmt) : Emit (List Stat) := do
  let functions ← Stmt.emitList (((Stmt.funcsList body).map Func.hoist).map .funcStmt)
  pure (functions ++ (← Stmt.emitList (Stmt.residueList body)))

theorem Stmt.emitList_hoistBody (params : List String) (body : List Stmt) :
    Stmt.emitList (hoistBody params body) = (do
      let locals ← declareLocals (leadingNames params body)
      pure (locals ++ (← remainder body))) := by
  have hdeclaration : ∀ s ∈ declaration (leadingNames params body), s.endsBlock = false := by
    cases leadingNames params body with
    | nil => exact nofun
    | cons name rest => exact forall_mem_singleton.mpr rfl
  have hfunctions : ∀ s ∈ ((Stmt.funcsList body).map Func.hoist).map Stmt.funcStmt,
      s.endsBlock = false := forall_mem_map.mpr fun _ _ => rfl
  rw [hoistBody_eq, hoistedFuncStmts, List.append_assoc, Stmt.emitList_append hdeclaration,
    Stmt.emitList_declaration, Stmt.emitList_append hfunctions, remainder]

section Body

variable {r : BindingRule} {taken : List String}

/-- A function declaration finds its name noted. -/
theorem Emission.ensures_functionDeclaration {names : List String} {name : Option String}
    (hname : ∀ n ∈ name, n ∈ names) {literal : Emit Lua.Expr} (hl : Restores literal)
    (hb : Always (Lua.Expr.Binds r taken) literal) :
    Ensures (Ready names) (Stat.BindsAll r taken) (functionDeclaration name literal) := by
  cases name with
  | none =>
    exact Always.ensures_ready ((always_any _).bind fun _ _ => .pure nofun)
      ((restores_report _).keeps.bind fun _ => .pure _)
  | some n =>
    have hnone : Ensures (Ready names) (· = []) (declareLocals [n]) := by
      intro s hs
      refine ⟨?_, hs.kept (keeps_declareLocals [n] s)⟩
      obtain ⟨f, rest, hscope, hkind, hdeclared⟩ := hs
      have hnew : (declareNew [n] s).1 = [] := by
        have hmem : f.declared.contains n = true :=
          List.contains_iff_mem.mpr (hdeclared n (hname n rfl))
        rw [declareNew_cons, hscope, Scope.declare]
        simp only [hkind, hmem, if_true]
        rfl
      rw [declareLocals_eq hnew]
      rfl
    refine hnone.bind fun locals hlocals => ?_
    refine Always.ensures_ready ?_ ?_
    · have htarget : Always (Lua.Expr.Binds r taken) (Rendition.bareName n) :=
        (always_any _).bind fun _ _ => .pure (.leaf trivial)
      refine htarget.bind fun _ ht => hb.bind fun _ hf => .pure ?_
      rw [hlocals]
      exact forall_mem_singleton.mpr (.assign ht hf)
    · exact (Rendition.restores_bareName n).keeps.bind fun _ => hl.keeps.bind fun _ => .pure _

theorem ensures_funcStmts {names : List String} {fs : List Func}
    (hnames : ∀ f ∈ fs, ∀ n ∈ f.name, n ∈ names)
    (hb : ∀ f ∈ fs, Always (Lua.Expr.Binds r taken) f.emit) :
    Ensures (Ready names) (Stat.BindsAll r taken) (Stmt.emitList (fs.map .funcStmt)) := by
  induction fs with
  | nil => exact .pure nofun
  | cons f rest ih =>
    obtain ⟨hname, hnames⟩ := forall_mem_cons.mp hnames
    obtain ⟨hf, hb⟩ := forall_mem_cons.mp hb
    have hcode : Ensures (Ready names) (Stat.BindsAll r taken)
        (Stmt.emit (.statement []) (.funcStmt f)) :=
      (ensures_functionDeclaration hname f.restores_emit hf).bind fun _ hc => .pure hc
    exact hcode.bind fun _ hc => (ih hnames hb).bind fun _ hrest =>
      .pure (forall_mem_append.mpr ⟨hc, hrest⟩)

theorem always_statements {body : List Stmt}
    (h : ∀ s ∈ body, Always (Stat.BindsAll r taken) (s.emit (.statement []))) :
    Always (Stat.BindsAll r taken) (Stmt.emitList body) := by
  induction body with
  | nil => exact .pure nofun
  | cons s rest ih =>
    obtain ⟨hs, hrest⟩ := forall_mem_cons.mp h
    refine hs.bind fun _ hc => ?_
    split
    · exact .pure hc
    · exact (ih hrest).bind fun _ hr => .pure (forall_mem_append.mpr ⟨hc, hr⟩)

/-- A hoisted body: its declarations, and code that binds what the rule allows. -/
theorem exists_front {params bound : List String} (hparams : ∀ n ∈ params, n ∈ bound)
    {body : List Stmt}
    (hf : ∀ f ∈ Stmt.funcsList body, Always (Lua.Expr.Binds r taken) f.hoist.emit)
    (hb : ∀ s ∈ Stmt.residueList body,
      Always (Stat.BindsAll r taken) (s.emit (.statement [])))
    {s : State} (hs : Opened bound s) :
    ∃ rest, (declareLocals (nameSet (Stmt.funcNamesList body)) s).1 ++
        (Stmt.emitList (hoistBody params body)
          (declareLocals (nameSet (Stmt.funcNamesList body)) s).2).1 =
        Lua.front bound body ++ rest ∧ Stat.BindsAll r taken rest := by
  let functions := nameSet (Stmt.funcNamesList body)
  have hfuncs := declareLocals_eq
    (hs.declareNew_eq_filter (nodup_nameSet (Stmt.funcNamesList body)))
  have hopened : Opened (functions ++ bound) (declareNew functions s).2 := hs.declareNew functions
  have hvars := declareLocals_eq (hopened.declareNew_eq_filter (nodup_leadingNames params body))
  rw [filter_leadingNames hparams] at hvars
  have hready := hopened.ready.kept (keeps_declareLocals (leadingNames params body) _)
  have hnames : ∀ f ∈ (Stmt.funcsList body).map Func.hoist, ∀ n ∈ f.name,
      n ∈ functions ++ bound := by
    refine forall_mem_map.mpr fun f hmem n hn => List.mem_append_left _ ?_
    rw [Func.name_hoist] at hn
    rw [mem_nameSet, Stmt.funcNamesList]
    exact List.mem_filterMap.mpr ⟨f, hmem, hn⟩
  have hrest : Ensures (Ready (functions ++ bound)) (Stat.BindsAll r taken) (remainder body) :=
    (ensures_funcStmts hnames (forall_mem_map.mpr hf)).bind fun _ hcode =>
      ((always_statements hb).ensures_ready (Stmt.keeps_emitList _)).bind fun _ hrest =>
        .pure (forall_mem_append.mpr ⟨hcode, hrest⟩)
  refine ⟨_, ?_, (hrest _ hready).1⟩
  rw [hfuncs, Stmt.emitList_hoistBody]
  change Lua.localsOf (functionLocals bound body) ++
    ((declareLocals (leadingNames params body) (declareNew functions s).2).1 ++ _) = _
  rw [hvars, Lua.front, List.append_assoc]
  rfl

/-- The state in which the body of a function makes its declarations. -/
def Emission.insideFunction (f : Func) (s : State) : State :=
  (declareNew f.bound
    { s with
      control := []
      scope := .lexical "function" (Declarations.ofBody f.hoist.body).vars
        (Declarations.ofBody f.hoist.body).funcs f.bound :: s.scope }).2

/-- The Lua function of a function, from the code that its body gives. -/
theorem Func.emit_hoist_eq (f : Func) {s : State} {rest : List Stat}
    (h : (declareLocals (nameSet (Stmt.funcNamesList f.body)) (insideFunction f s)).1 ++
      (Stmt.emitList (hoistBody f.params f.body)
        (declareLocals (nameSet (Stmt.funcNamesList f.body)) (insideFunction f s)).2).1 =
      Lua.front f.bound f.body ++ rest) :
    (f.hoist.emit s).1 = f.literal rest := by
  have hfuncs : (Declarations.ofBody f.hoist.body).funcs = nameSet (Stmt.funcNamesList f.body) := by
    rw [Func.body_hoist, funcs_hoistBody]
  rw [← hfuncs] at h
  obtain ⟨name, params, body⟩ := f
  unfold Func.literal
  rw [← h]
  rfl

/-- The Lua function of a hoisted function has the layout. -/
theorem Func.always_emit_hoist {f : Func} (hscope : r.scope f)
    (hf : ∀ g ∈ Stmt.funcsList f.body,
      Always (Lua.Expr.Binds r (f.taken ++ taken)) g.hoist.emit)
    (hb : ∀ s ∈ Stmt.residueList f.body,
      Always (Stat.BindsAll r (f.taken ++ taken)) (s.emit (.statement []))) :
    Always (Lua.Expr.Binds r taken) f.hoist.emit := by
  intro s _
  have hparams : ∀ n ∈ f.params, n ∈ f.bound := by
    intro n hn
    unfold Func.bound
    split
    · exact List.mem_append_left _ hn
    · exact hn
  have hopened : Opened f.bound (insideFunction f s) := by
    have hempty : Opened [] { s with
        control := []
        scope := .lexical "function" (Declarations.ofBody f.hoist.body).vars
          (Declarations.ofBody f.hoist.body).funcs f.bound :: s.scope } :=
      ⟨_, _, rfl, rfl, fun _ => Iff.rfl⟩
    exact (hempty.declareNew f.bound).congr fun n => by rw [List.append_nil]
  obtain ⟨rest, hrest, hbinds⟩ := exists_front hparams hf hb hopened
  rw [f.emit_hoist_eq hrest]
  exact ⟨.function hscope hbinds, trivial⟩

end Body

theorem Stmt.BareList.forall_mem {body : List Stmt} (h : Stmt.BareList body) :
    ∀ s ∈ body, s.Bare := by
  induction body with
  | nil => exact nofun
  | cons s rest ih => exact forall_mem_cons.mpr ⟨h.1, ih h.2⟩

theorem Func.mem_body_hoist_of_funcs {f g : Func} (h : g ∈ Stmt.funcsList f.body) :
    .funcStmt g.hoist ∈ f.hoist.body := by
  rw [Func.body_hoist, hoistBody_eq]
  exact List.mem_append_left _ (List.mem_append_right _ (List.mem_map_of_mem h))

theorem Func.mem_body_hoist_of_residue {f : Func} {s : Stmt} (h : s ∈ Stmt.residueList f.body) :
    s ∈ f.hoist.body := by
  rw [Func.body_hoist, hoistBody_eq]
  exact List.mem_append_right _ h

/-- All of the functions are hoisted functions that fit. -/
abbrev Emission.Knows (fits : Func → Prop) (fs : List Func) : Prop :=
  ∀ g ∈ fs, ∃ f, fits f ∧ g = f.hoist

/-- The fragment declares nothing, and the rule allows the variables of its loops over keys. -/
def Fragment.Rests (r : BindingRule) (taken : List String) : Fragment → Prop
  | .stmt s => s.Bare ∧ ∀ x ∈ s.heads, r.control taken (Lua.spell x)
  | .clause c => Stmt.BareList c.body ∧ ∀ x ∈ Stmt.headsList c.body, r.control taken (Lua.spell x)
  | .case c => Stmt.BareList c.body ∧ ∀ x ∈ Stmt.headsList c.body, r.control taken (Lua.spell x)
  | .init i => i.Bare
  | .decl _ => False
  | _ => True

theorem Fragment.Rests.parts {r : BindingRule} {taken : List String} {p : Fragment}
    (h : p.Rests r taken) (hp : ∀ f, p ≠ .func f) : ∀ q ∈ p.parts, q.Rests r taken := by
  have hbare : ∀ body, Stmt.BareList body ↔ _ := forall_of_cons trivial fun _ _ => Iff.rfl
  have hcases : ∀ cs, SwitchCase.Bare cs ↔ ∀ c ∈ cs, Stmt.BareList c.body :=
    forall_of_cons trivial fun c _ => by cases c; rfl
  have hclauses : ∀ cs, CatchClause.Bare cs ↔ ∀ c ∈ cs, Stmt.BareList c.body :=
    forall_of_cons trivial fun c _ => by cases c; rfl
  have hheads : Stmt.headsList = _ := eq_flatMap rfl fun _ _ => rfl
  have hcaseHeads : SwitchCase.heads = List.flatMap fun c => Stmt.headsList c.body :=
    eq_flatMap rfl fun c _ => by cases c; rfl
  have hclauseHeads : CatchClause.heads = List.flatMap fun c => Stmt.headsList c.body :=
    eq_flatMap rfl fun c _ => by cases c; rfl
  have halt : Stmt.headsOpt = _ := eq_flatMapOpt (g := Stmt.heads) rfl fun _ => rfl
  have hblock : Stmt.headsBlock = _ := eq_flatMapOpt (g := Stmt.headsList) rfl fun _ => rfl
  have hbareOpt (s : Option Stmt) : Stmt.BareOpt s ↔ ∀ x ∈ s, x.Bare := by
    cases s <;> simp [Stmt.BareOpt]
  have hbareBlock (b : Option (List Stmt)) : Stmt.BareBlock b ↔ ∀ x ∈ b, Stmt.BareList x := by
    cases b <;> simp [Stmt.BareBlock]
  rcases p with x | x | x | x | x | x | x | x | x <;> cases x <;>
    simp only [Fragment.parts, Rests, Stmt.Bare, Stmt.heads, ForInit.Bare, List.mem_flatMap,
      List.mem_append, List.mem_cons, List.mem_map, Option.mem_toList, *] at h hp ⊢ <;>
    grind [Rests, ForInit.Bare]

section Walk

variable {r : BindingRule} {around : List String → Prop} {fits : List String → Func → Prop}
  {taken : List String} {body : List Stmt}

/-- What is asked of a fragment where the names are taken. -/
def BindingRule.Allows (r : BindingRule) (around : List String → Prop)
    (fits : List String → Func → Prop) (taken : List String) (p : Fragment) : Prop :=
  around taken ∧ Knows (fits taken) p.functions ∧ p.Rests r taken

theorem Stmt.functions_subset {s : Stmt} (h : s ∈ body) :
    s.functions ⊆ Stmt.functionsList body := by
  rw [show Stmt.functionsList = _ from Fragment.eq_flatMap rfl fun _ _ => rfl]
  exact fun g hg => List.mem_flatMap.mpr ⟨s, h, hg⟩

/-- A statement of a body that declares nothing. -/
theorem Stmt.Bare.allows {s : Stmt} (hb : s.Bare) (ht : around taken)
    (hk : Knows (fits taken) (Stmt.functionsList body))
    (hh : ∀ x ∈ Stmt.headsList body, r.control taken (Lua.spell x)) (h : s ∈ body) :
    r.Allows around fits taken (.stmt s) := by
  refine ⟨ht, fun g hg => hk g (Stmt.functions_subset h hg), hb, fun x hx => hh x ?_⟩
  rw [show Stmt.headsList = _ from Fragment.eq_flatMap rfl fun _ _ => rfl]
  exact List.mem_flatMap.mpr ⟨s, h, hx⟩

/-- A function that a body declares. -/
theorem Func.allows {f : Func} (ht : around taken)
    (hk : Knows (fits taken) (Stmt.functionsList body)) (h : .funcStmt f ∈ body) :
    r.Allows around fits taken (.func f) := by
  refine ⟨ht, fun g hg => hk g (Stmt.functions_subset h ?_), trivial⟩
  obtain ⟨name, params, body⟩ := f
  exact hg

/-- What the rule allows reaches through the programs whose functions fit. -/
theorem BindingRule.Lawful.reaches (hr : r.Lawful around fits) :
    Judgement.Reaches (fun taken => .bound r taken) Always (fun _ _ => True)
      (fun taken => Lua.Tail.Binds r taken)
      (fun taken h => r.control taken h.1 ∧ Stat.BindsAll r taken h.2)
      (r.Allows around fits) where
  law h := hr.law h.1
  parts {_ p} h hp q hq := by
    refine ⟨h.1, fun g hg => h.2.1 g ?_, h.2.2.parts hp q hq⟩
    rw [Fragment.reads_functions]
    exact List.mem_append_right _ (List.mem_flatMap.mpr ⟨q, hq, by simpa using hg⟩)
  ready _ hf := by
    unfold Judgement.Ready
    split
    · exact ⟨.leaf trivial, .leaf trivial⟩
    · exact ⟨fun _ _ => trivial, hf _ rfl⟩
    · exact .inl trivial
    · exact .inl trivial
    · exact ⟨.noted (.leaf trivial), forall_mem_singleton.mpr (.leaf trivial)⟩
    · trivial
  function {taken g} h hs := by
    obtain ⟨ht, hk, -⟩ := h
    obtain ⟨⟨f, hf, rfl⟩, hinner⟩ : (∃ f, fits taken f ∧ g = f.hoist) ∧
        Knows (fits taken) g.inner := forall_mem_cons.mp hk
    -- what stands in the body stands where the names of the function are taken
    have hknows : Knows (fits (f.taken ++ taken)) (Stmt.functionsList f.hoist.body) := by
      intro h hmem
      rw [show Stmt.functionsList f.hoist.body = f.hoist.inner by cases f.hoist; rfl] at hmem
      obtain ⟨g, hg, rfl⟩ := hinner h hmem
      exact ⟨g, hr.inner hf hmem hg, rfl⟩
    have hin := hr.enter ht hf
    refine Func.always_emit_hoist (hr.scope hf) (fun g hmem => ?_) fun s hmem => ?_
    · have hmem := Func.mem_body_hoist_of_funcs hmem
      exact (hs _ _ hmem).2 _ rfl (Func.allows hin hknows hmem)
    · have hbare := (Stmt.bare_residueList f.body).forall_mem s hmem
      have hmem := Func.mem_body_hoist_of_residue hmem
      have hcode := (hs _ _ hmem).1 (hbare.allows hin hknows (hr.head hf) hmem)
      exact (hcode.1 _ fun _ _ => trivial).mono fun _ hc => hc.1
  labels _ := trivial
  param _ _ _ := trivial
  declared h := h.elim (fun h => h.2.2.1.elim) fun h => h.2.2.elim
  named h := h.2.2.elim
  declaration h := h.2.2.1.elim
  breakCode _ := always_breakCode _ _
  continueCode _ := always_continueCode _ _
  note _ := forall_mem_singleton.mpr (.leaf trivial)
  key {taken head _ _} h he := by
    have hkey : ∀ x ∈ head.names, r.control taken (Lua.spell x) :=
      fun x hx => h.2.2.2 x (List.mem_append_left _ hx)
    cases head with
    | var _ name => exact .pure ⟨hkey name List.mem_cons_self, List.forall_mem_nil _⟩
    | target e =>
      have htarget := (he e rfl).target (.inl trivial)
      cases e
      case ident name => exact .pure ⟨hkey name List.mem_cons_self, List.forall_mem_nil _⟩
      all_goals
        refine (always_fresh hr h.1 (by simp [stems])).bind fun _ hfresh => ?_
        exact htarget.bind fun _ ht => .pure ⟨hfresh.2, forall_mem_singleton.mpr (.store ht)⟩
  labeled labels h := h.labeled labels
  nested _ := bindsAll_nested
  loopBody _ := always_loopBody
  whileLoop he h := forall_mem_singleton.mpr (.whileLoop he h)
  repeatUntil h he := forall_mem_singleton.mpr (.repeatUntil h he)
  enclosed h := h.enclosed .switch
  walled h := h.walled
  forIn h ho hh hb := always_forInCode hr h.1 ho.forget hh hb
  withCode h ho hb := always_withCode hr h.1 _ ho.forget hb
  arms ha hb := forall_mem_append.mpr ⟨ha, hb⟩
  noTail := .none
  otherwise := .otherwise
  elseif := .elseif
  ifThen hc hb ht := forall_mem_singleton.mpr (.ifThen hc hb ht)

end Walk

end EcmaLua
