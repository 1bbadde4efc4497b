import EcmaLua.Proofs.Emission.Restoring

/-!
# Operations on the open frames

A name is looked up from the innermost frame outwards, up to the first frame that can tell. While a
lexical frame is open nothing happens to the frames around it; through an object frame names may get
locals in the nearest lexical frame around it. Within one frame a name gets a local once.
-/

namespace EcmaLua.Emission

/-- Whether the lookup of a name goes past the frame: it is lexical, and does not bind the name. -/
def Frame.passes (name : String) (f : Frame) : Bool := f.kind = .lexical ∧ f.role? name = none

namespace Scope

/-- What a name is, by the first frame that its lookup does not go past and by the frames around
that one. The outermost frame is the global object. -/
def told (name : String) : Scope → Resolution
  | [] => .global
  | f :: outer =>
    match f.kind with
    | .lexical => (f.role? name).elim .global .bound
    | .object proxy => if outer = [] then .global else .dynamic proxy

theorem resolve_eq (name : String) (s : Scope) :
    s.resolve name = told name (s.dropWhile (Frame.passes name)) := by
  induction s with
  | nil => rfl
  | cons f outer ih =>
    rw [resolve, List.dropWhile_cons]
    cases hk : f.kind with
    | lexical =>
      cases hrole : f.role? name with
      | none => simpa [Frame.passes, hk, hrole] using ih
      | some role => simp [Frame.passes, told, hk, hrole]
    | object proxy => simp [Frame.passes, told, hk]

/-- The operations on the open frames. -/
inductive Op where
  | pushLexical (label : String) (vars funcs params : List String)
  | pushObject (label proxy : String)
  | pop
  | define (name : String) (role : Role)
  | resolve (name : String)
  | declare (name : String)

/-- What an operation answers. -/
inductive Answer where
  | done
  | closed (frame : Frame)
  | resolved (resolution : Resolution)
  | declared (new : Bool)
deriving DecidableEq

/-- One operation; there is no answer if no frame is open that could be closed. -/
def step (s : Scope) : Op → Option (Answer × Scope)
  | .pushLexical label vars funcs params =>
    some (.done, Frame.lexical label vars funcs params :: s)
  | .pushObject label proxy => some (.done, Frame.object label proxy :: s)
  | .pop =>
    match s with
    | [] => none
    | f :: rest => some (.closed f, rest)
  | .define name role => some (.done, s.define name role)
  | .resolve name => some (.resolved (s.resolve name), s)
  | .declare name => some (.declared (s.declare name).1, (s.declare name).2)

/-- The answers of operations that follow each other. -/
def run (s : Scope) : List Op → Option (List Answer × Scope)
  | [] => some ([], s)
  | op :: ops =>
    (s.step op).bind fun (a, t) => (run t ops).map fun (answers, u) => (a :: answers, u)

/-- How many frames are open on top of a certain frame after an operation, if there were `depth`
before it; none if it closes that frame. -/
def Op.depth (depth : Nat) : Op → Option Nat
  | .pushLexical .. | .pushObject .. => some (depth + 1)
  | .pop => if depth = 0 then none else some (depth - 1)
  | .define .. | .resolve _ | .declare _ => some depth

def depth (start : Nat) (ops : List Op) : Option Nat := ops.foldlM Op.depth start

/-- The operations close the frames that they open, and no others. -/
def Balanced (ops : List Op) : Prop := depth 0 ops = some 0

instance (ops : List Op) : Decidable (Balanced ops) := inferInstanceAs (Decidable (_ = _))

section Runs

variable {inner outer : Scope} {f : Frame} {d : Nat}

theorem run_cons {s t u : Scope} {op : Op} {ops : List Op} {a : Answer} {answers : List Answer}
    (hstep : s.step op = some (a, t)) (hrun : t.run ops = some (answers, u)) :
    s.run (op :: ops) = some (a :: answers, u) := by
  rw [run, hstep]
  exact congrArg (Option.map _) hrun

/-- What follows operations goes on from where they end. -/
theorem run_append {s t : Scope} {ops : List Op} {answers : List Answer}
    (h : s.run ops = some (answers, t)) (later : List Op) :
    s.run (ops ++ later) = (t.run later).map fun (more, u) => (answers ++ more, u) := by
  induction ops generalizing s answers with
  | nil =>
    obtain ⟨rfl, rfl⟩ := Prod.mk.inj (Option.some.inj h)
    exact Option.map_id.symm ▸ rfl
  | cons op ops ih =>
    obtain ⟨⟨a, s'⟩, hstep, hmap⟩ := Option.bind_eq_some_iff.mp h
    obtain ⟨⟨rest, t'⟩, hrest, heq⟩ := Option.map_eq_some_iff.mp hmap
    obtain ⟨rfl, rfl⟩ := Prod.mk.inj heq
    rw [List.cons_append, run, hstep, Option.bind_some]
    change Option.map _ (s'.run (ops ++ later)) = _
    rw [ih hrest, Option.map_map]
    rfl

/-- What a frame and those around it have become while it was open. -/
structure Within (f : Frame) (outer : Scope) (f' : Frame) (outer' : Scope) : Prop where
  kind : f'.kind = f.kind
  declared : f.declared ⊆ f'.declared
  same : f.kind = .lexical → outer' = outer
  grows : Grows outer outer'

namespace Within

variable {f' f'' : Frame} {outer' outer'' : Scope}

theorem refl (f : Frame) (outer : Scope) : Within f outer f outer :=
  ⟨rfl, List.Subset.refl _, fun _ => rfl, .refl _⟩

theorem trans (h : Within f outer f' outer') (h' : Within f' outer' f'' outer'') :
    Within f outer f'' outer'' where
  kind := h'.kind.trans h.kind
  declared := List.Subset.trans h.declared h'.declared
  same hk := (h'.same (h.kind.trans hk)).trans (h.same hk)
  grows := h.grows.trans h'.grows

end Within

theorem declare_lexical (name : String) (hk : f.kind = .lexical) :
    declare name (f :: outer) =
      if f.declared.contains name then (false, f :: outer)
      else (true, { f with declared := name :: f.declared } :: outer) := by
  rw [declare, hk]

theorem declare_object (name : String) {proxy : String} (hk : f.kind = .object proxy) :
    declare name (f :: outer) = ((declare name outer).1, f :: (declare name outer).2) := by
  rw [declare, hk]

/-- A local goes to one of the frames on top of a frame, to the frame, or through it to those
around it. -/
theorem declare_within (name : String) (inner : Scope) (f : Frame) (outer : Scope) :
    ∃ inner' f' outer', (declare name (inner ++ f :: outer)).2 = inner' ++ f' :: outer' ∧
      inner'.length = inner.length ∧ Within f outer f' outer' := by
  induction inner with
  | nil =>
    cases hk : f.kind with
    | lexical =>
      rw [List.nil_append, declare_lexical name hk]
      split
      · exact ⟨[], f, outer, rfl, rfl, .refl _ _⟩
      · exact ⟨[], _, outer, rfl, rfl, rfl, List.subset_cons_self _ _, fun _ => rfl, .refl _⟩
    | object proxy =>
      rw [List.nil_append, declare_object name hk]
      exact ⟨[], f, _, rfl, rfl, rfl, List.Subset.refl _,
        fun hlexical => absurd (hlexical.symm.trans hk) FrameKind.noConfusion,
        .declare name outer⟩
  | cons g inner ih =>
    cases hk : g.kind with
    | lexical =>
      rw [List.cons_append, declare_lexical name hk]
      split
      · exact ⟨g :: inner, f, outer, rfl, rfl, .refl _ _⟩
      · exact ⟨_ :: inner, f, outer, rfl, rfl, .refl _ _⟩
    | object proxy =>
      obtain ⟨inner', f', outer', heq, hlength, hwithin⟩ := ih
      rw [List.cons_append, declare_object name hk, heq]
      exact ⟨g :: inner', f', outer', rfl, congrArg (· + 1) hlength, hwithin⟩

/-- An operation that does not close a frame has an answer, and leaves the frame open. -/
theorem step_within {op : Op} (f : Frame) (outer : Scope)
    (hdepth : op.depth inner.length = some d) :
    ∃ a inner' f' outer', step (inner ++ f :: outer) op = some (a, inner' ++ f' :: outer') ∧
      inner'.length = d ∧ Within f outer f' outer' := by
  cases op with
  | pushLexical label vars funcs params =>
    exact ⟨_, _ :: inner, f, outer, rfl, Option.some.inj hdepth, .refl _ _⟩
  | pushObject label proxy =>
    exact ⟨_, _ :: inner, f, outer, rfl, Option.some.inj hdepth, .refl _ _⟩
  | pop =>
    cases inner with
    | nil => cases hdepth
    | cons g inner => exact ⟨_, inner, f, outer, rfl, Option.some.inj hdepth, .refl _ _⟩
  | define name role =>
    cases inner with
    | nil =>
      exact ⟨_, [], f.define name role, outer, rfl, Option.some.inj hdepth, rfl,
        List.Subset.refl _, fun _ => rfl, .refl _⟩
    | cons g inner =>
      exact ⟨_, g.define name role :: inner, f, outer, rfl, Option.some.inj hdepth, .refl _ _⟩
  | resolve name => exact ⟨_, inner, f, outer, rfl, Option.some.inj hdepth, .refl _ _⟩
  | declare name =>
    obtain ⟨inner', f', outer', heq, hlength, hwithin⟩ := declare_within name inner f outer
    exact ⟨_, inner', f', outer', congrArg (fun t => some (_, t)) heq,
      hlength.trans (Option.some.inj hdepth), hwithin⟩

theorem run_within (inner : Scope) (f : Frame) (outer : Scope) {ops : List Op}
    (hdepth : depth inner.length ops = some d) :
    ∃ answers inner' f' outer',
      run (inner ++ f :: outer) ops = some (answers, inner' ++ f' :: outer') ∧
      inner'.length = d ∧ Within f outer f' outer' := by
  induction ops generalizing inner f outer with
  | nil => exact ⟨[], inner, f, outer, rfl, Option.some.inj hdepth, .refl _ _⟩
  | cons op ops ih =>
    rw [depth, List.foldlM_cons] at hdepth
    obtain ⟨d', hop, hops⟩ := Option.bind_eq_some_iff.mp hdepth
    obtain ⟨a, inner', f', outer', hstep, hlength, hwithin⟩ := step_within f outer hop
    rw [← hlength] at hops
    obtain ⟨answers, inner'', f'', outer'', hrun, hlength', hwithin'⟩ := ih _ _ _ hops
    exact ⟨a :: answers, inner'', f'', outer'', run_cons hstep hrun, hlength',
      hwithin.trans hwithin'⟩

/-- Operations between the opening of a frame and its closing. -/
theorem run_block (s : Scope) (op : Op) {body : List Op} (hbody : Balanced body)
    (hpush : s.step op = some (.done, f :: s)) :
    ∃ answers s', s.run (op :: body ++ [.pop]) = some (answers, s') ∧ Grows s s' ∧
      (f.kind = .lexical → s' = s) := by
  obtain ⟨answers, inner, f', s', hrun, hlength, hwithin⟩ := run_within [] f s hbody
  obtain rfl := List.length_eq_zero_iff.mp hlength
  have hclose : run (f :: s) (body ++ [.pop]) = some (answers ++ [.closed f'], s') :=
    run_append hrun [.pop]
  exact ⟨_, s', run_cons hpush hclose, hwithin.grows, hwithin.same⟩

/-- Where the local of a name goes to: a lexical frame with object frames on top of it. -/
structure Nearest (inner : Scope) (f : Frame) : Prop where
  objects : ∀ g ∈ inner, ∃ proxy, g.kind = .object proxy
  lexical : f.kind = .lexical

theorem declare_append (name : String) (h : ∀ g ∈ inner, ∃ proxy, g.kind = .object proxy)
    (s : Scope) :
    declare name (inner ++ s) = ((declare name s).1, inner ++ (declare name s).2) := by
  induction inner with
  | nil => rfl
  | cons g inner ih =>
    obtain ⟨⟨proxy, hk⟩, hinner⟩ := List.forall_mem_cons.mp h
    rw [List.cons_append, declare_object name hk, ih hinner]
    rfl

/-- The frame has the local afterwards. -/
theorem declare_nearest (name : String) (h : Nearest inner f) (outer : Scope) :
    ∃ new f', declare name (inner ++ f :: outer) = (new, inner ++ f' :: outer) ∧
      f'.kind = .lexical ∧ name ∈ f'.declared := by
  rw [declare_append name h.objects, declare_lexical name h.lexical]
  split
  · next hmem => exact ⟨_, f, rfl, h.lexical, List.contains_iff_mem.mp hmem⟩
  · exact ⟨_, _, rfl, h.lexical, List.mem_cons_self⟩

theorem declare_of_mem {name : String} (h : Nearest inner f) (hmem : name ∈ f.declared)
    (outer : Scope) : declare name (inner ++ f :: outer) = (false, inner ++ f :: outer) := by
  rw [declare_append name h.objects, declare_lexical name h.lexical,
    if_pos (List.contains_iff_mem.mpr hmem)]

/-- A frame gives a name a local once: when it has been asked for one, it has none to give as long
as it is open. -/
theorem declare_again (name : String) (h : Nearest inner f) {ops : List Op}
    (hdepth : depth inner.length ops = some d) (outer : Scope) :
    ∃ answers inner' f', run (inner ++ f :: outer) (.declare name :: ops) =
        some (answers, inner' ++ f' :: outer) ∧ inner'.length = d ∧
      (Nearest inner' f' →
        declare name (inner' ++ f' :: outer) = (false, inner' ++ f' :: outer)) := by
  obtain ⟨new, g, hdeclare, hkind, hmem⟩ := declare_nearest name h outer
  obtain ⟨answers, inner', f', outer', hrun, hlength, hwithin⟩ := run_within inner g outer hdepth
  rw [hwithin.same hkind] at hrun
  have hstep : step (inner ++ f :: outer) (.declare name) =
      some (.declared new, inner ++ g :: outer) := by
    rw [step, hdeclare]
  exact ⟨_, inner', f', run_cons hstep hrun, hlength,
    fun hnearest => declare_of_mem hnearest (hwithin.declared hmem) outer⟩

end Runs

/-- What holds of operations on the open frames `s`. -/
structure Laws (s : Scope) : Prop where
  /-- a name is what the first frame says that its lookup does not go past -/
  lookup : ∀ name, s.resolve name = told name (s.dropWhile (Frame.passes name))
  /-- what happens within a lexical frame has no effect on what follows -/
  lexical : ∀ label vars funcs params body, Balanced body →
    ∃ answers, s.run (.pushLexical label vars funcs params :: body ++ [.pop]) = some (answers, s) ∧
      ∀ later, s.run (.pushLexical label vars funcs params :: body ++ [.pop] ++ later) =
        (s.run later).map fun (more, t) => (answers ++ more, t)
  /-- what happens within an object frame gives at most locals to the nearest lexical frame -/
  object : ∀ label proxy body, Balanced body →
    ∃ answers s', s.run (.pushObject label proxy :: body ++ [.pop]) = some (answers, s') ∧
      Grows s s' ∧ ∀ name, s'.resolve name = s.resolve name
  /-- a frame that was asked for the local of a name has none to give, as long as it is open -/
  once : ∀ name inner f outer ops d, s = inner ++ f :: outer → Nearest inner f →
    depth inner.length ops = some d →
    ∃ answers inner' f', s.run (.declare name :: ops) = some (answers, inner' ++ f' :: outer) ∧
      inner'.length = d ∧
      (Nearest inner' f' →
        declare name (inner' ++ f' :: outer) = (false, inner' ++ f' :: outer))

/-- The laws hold of all frames, and so after all operations. -/
theorem stack_laws (s : Scope) : s.Laws where
  lookup name := s.resolve_eq name
  lexical label vars funcs params body hbody := by
    obtain ⟨answers, s', hrun, -, hsame⟩ :=
      run_block s (.pushLexical label vars funcs params) hbody rfl
    rw [hsame rfl] at hrun
    exact ⟨answers, hrun, run_append hrun⟩
  object label proxy body hbody := by
    obtain ⟨answers, s', hrun, hgrows, -⟩ := run_block s (.pushObject label proxy) hbody rfl
    exact ⟨answers, s', hrun, hgrows, hgrows.resolve⟩
  once name inner f outer ops d hs hnearest hdepth := by
    rw [hs]
    exact declare_again name hnearest hdepth outer

/-- The frames of a program with a variable and a function. -/
def programFrames : Scope := [.lexical "toplevels" ["a"] ["main"] [], .object "program" "globals"]

/-- A name is looked up, gets a local, and is looked up from a function that hides it. -/
def hidingSteps : List Op :=
  [.define "a" .builtin, .resolve "a", .declare "b", .pushLexical "f" [] [] ["a"], .declare "b",
    .resolve "a", .pop]

/-- In a function the steps leave no trace; around an object the name keeps its local. -/
theorem programFrames_laws :
    (∃ answers, programFrames.run (.pushLexical "g" [] [] [] :: hidingSteps ++ [.pop]) =
      some (answers, programFrames)) ∧
    (∃ answers s', programFrames.run (.pushObject "with" "o" :: hidingSteps ++ [.pop]) =
        some (answers, s') ∧ Grows programFrames s' ∧ (s'.declare "b").1 = false) ∧
    programFrames.resolve "main" = .bound .function ∧ programFrames.resolve "b" = .global ∧
    ∃ answers f', programFrames.run (.declare "b" :: hidingSteps) =
        some (answers, [f', .object "program" "globals"]) ∧
      declare "b" [f', .object "program" "globals"] =
        (false, [f', .object "program" "globals"]) := by
  have h := stack_laws programFrames
  refine ⟨?_, ?_, (h.lookup _).trans (by decide), (h.lookup _).trans (by decide), ?_⟩
  · obtain ⟨answers, hrun, -⟩ := h.lexical "g" [] [] [] hidingSteps (by decide)
    exact ⟨answers, hrun⟩
  · obtain ⟨answers, s', hrun, hgrows, -⟩ := h.object "with" "o" hidingSteps (by decide)
    have hlocal : (programFrames.run (.pushObject "with" "o" :: hidingSteps ++ [.pop])).map
        (fun p => (p.2.declare "b").1) = some false := by decide
    rw [hrun] at hlocal
    exact ⟨answers, s', hrun, hgrows, Option.some.inj hlocal⟩
  · obtain ⟨answers, inner, f', hrun, hlength, honce⟩ :=
      h.once "b" [] (.lexical "toplevels" ["a"] ["main"] []) _ hidingSteps 0 rfl
        ⟨List.forall_mem_nil _, rfl⟩ (by decide)
    obtain rfl := List.length_eq_zero_iff.mp hlength
    have hkind : (programFrames.run (.declare "b" :: hidingSteps)).map
        (fun p => p.2.head?.map Frame.kind) = some (some .lexical) := by decide
    rw [hrun] at hkind
    exact ⟨answers, f', hrun,
      honce ⟨List.forall_mem_nil _, Option.some.inj (Option.some.inj hkind)⟩⟩

end Scope

end EcmaLua.Emission
