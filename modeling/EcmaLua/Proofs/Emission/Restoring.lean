import EcmaLua.Proofs.Emission.Closure
import EcmaLua.Proofs.Program.Nodes

/-!
# What emission leaves in place

Frames are closed as often as they are opened, and so are the sets of captured names. Making the
code of an expression leaves the frames as they were. Making that of a statement may give names
locals in the nearest lexical frame, and changes nothing else about the frames.
-/

namespace EcmaLua

open Emission

namespace Emission

/-- The frames are the same, except that the nearest lexical one may have more locals. -/
inductive Scope.Grows : Scope → Scope → Prop
  | nil : Grows [] []
  | lexical {f : Frame} (h : f.kind = .lexical) (new : List String) (rest : Scope) :
      Grows (f :: rest) ({ f with declared := new ++ f.declared } :: rest)
  | object {f : Frame} {proxy : String} {rest rest' : Scope} (h : f.kind = .object proxy)
      (hrest : Grows rest rest') : Grows (f :: rest) (f :: rest')

namespace Scope.Grows

variable {f : Frame} {a b c rest : Scope}

theorem refl (scope : Scope) : Grows scope scope := by
  induction scope with
  | nil => exact .nil
  | cons f rest ih =>
    cases hk : f.kind with
    | lexical => exact .lexical hk [] rest
    | object proxy => exact .object hk ih

theorem trans (h : Grows a b) (h' : Grows b c) : Grows a c := by
  induction h generalizing c with
  | nil => exact h'
  | @lexical f hk new rest =>
    cases h' with
    | lexical _ more =>
      have hall := Grows.lexical hk (more ++ new) rest
      rwa [List.append_assoc] at hall
    | object hk' => exact absurd (hk.symm.trans hk') nofun
  | object hk _ ih =>
    cases h' with
    | lexical hk' => exact absurd (hk.symm.trans hk') nofun
    | object _ hrest => exact .object hk (ih hrest)

theorem of_nil (h : Grows [] b) : b = [] := by
  cases h
  rfl

/-- A lexical frame keeps the frames around it as they are. -/
theorem of_lexical (hk : f.kind = .lexical) (h : Grows (f :: rest) b) : ∃ f', b = f' :: rest := by
  cases h with
  | lexical _ new => exact ⟨_, rfl⟩
  | object hk' => exact absurd (hk.symm.trans hk') nofun

theorem of_object {proxy : String} (hk : f.kind = .object proxy) (h : Grows (f :: rest) b) :
    ∃ rest', b = f :: rest' ∧ Grows rest rest' := by
  cases h with
  | lexical hk' => exact absurd (hk.symm.trans hk') nofun
  | object _ hrest => exact ⟨_, rfl, hrest⟩

theorem declare (name : String) (scope : Scope) : Grows scope (scope.declare name).2 := by
  induction scope with
  | nil => exact .nil
  | cons f rest ih =>
    unfold Scope.declare
    split
    · next hk =>
        split
        · exact refl _
        · exact .lexical hk [name] rest
    · next hk => exact .object hk ih

theorem isEmpty (h : Grows a b) : b.isEmpty = a.isEmpty := by
  cases h <;> rfl

/-- A local changes nothing about where names are looked up. -/
theorem resolve (h : Grows a b) (name : String) :
    Scope.resolve name b = Scope.resolve name a := by
  induction h with
  | nil => rfl
  | lexical hk new rest => simp only [Scope.resolve, hk, Frame.role?]
  | object hk hrest ih => simp only [Scope.resolve, hk, hrest.isEmpty]

end Scope.Grows

/-- Nothing happened to the frames, and as many sets of captured names are open. -/
structure Still (s s' : State) : Prop where
  scope : s'.scope = s.scope
  captured : s'.captured.length = s.captured.length
  underflow : s'.underflow = s.underflow

/-- Names may have got locals in the nearest lexical frame. -/
structure Kept (s s' : State) : Prop where
  scope : Scope.Grows s.scope s'.scope
  captured : s'.captured.length = s.captured.length
  underflow : s'.underflow = s.underflow

theorem Kept.trans {s s' s'' : State} (h : Kept s s') (h' : Kept s' s'') : Kept s s'' :=
  ⟨h.scope.trans h'.scope, h'.captured.trans h.captured, h'.underflow.trans h.underflow⟩

theorem Still.kept {s s' : State} (h : Still s s') : Kept s s' :=
  ⟨h.scope ▸ .refl _, h.captured, h.underflow⟩

/-- From every state the action gives the frames back as they were. -/
def Restores {α : Type} (act : Emit α) : Prop := ∀ s, Still s (act s).2

/-- From every state the action gives no more than locals. -/
def Keeps {α : Type} (act : Emit α) : Prop := ∀ s, Kept s (act s).2

section Actions

variable {α β : Type} {x : Emit α} {f : α → Emit β}

namespace Restores

theorem pure (a : α) : Restores (Pure.pure a : Emit α) := fun _ => ⟨rfl, rfl, rfl⟩

theorem bind (hx : Restores x) (hf : ∀ a, Restores (f a)) : Restores (x >>= f) := by
  intro s
  have h := hx s
  have h' := hf (x s).1 (x s).2
  exact ⟨h'.scope.trans h.scope, h'.captured.trans h.captured, h'.underflow.trans h.underflow⟩

theorem keeps (hx : Restores x) : Keeps x := fun s => (hx s).kept

end Restores

/-- Closing a frame is no underflow where one is open. -/
theorem underflow_inFrame {frame frame' : Frame} {rest : Scope} {s : State}
    (h : (x { s with scope := frame :: s.scope }).2.scope = frame' :: rest) :
    (inFrame frame x s).2.underflow = (x { s with scope := frame :: s.scope }).2.underflow := by
  change (_ || List.isEmpty _) = _
  rw [h, List.isEmpty_cons, Bool.or_false]

namespace Keeps

theorem pure (a : α) : Keeps (Pure.pure a : Emit α) := (Restores.pure a).keeps

theorem bind (hx : Keeps x) (hf : ∀ a, Keeps (f a)) : Keeps (x >>= f) :=
  fun s => (hx s).trans (hf (x s).1 (x s).2)

/-- A lexical frame takes the locals with it. -/
theorem inFrame_lexical (hx : Keeps x) {frame : Frame} (hk : frame.kind = .lexical) :
    Restores (inFrame frame x) := by
  intro s
  have h := hx { s with scope := frame :: s.scope }
  obtain ⟨frame', hscope⟩ := h.scope.of_lexical hk
  refine ⟨?_, h.captured, ?_⟩
  · exact congrArg List.tail hscope
  · exact (underflow_inFrame hscope).trans h.underflow

theorem inFrame_object (hx : Keeps x) {frame : Frame} {proxy : String}
    (hk : frame.kind = .object proxy) : Keeps (inFrame frame x) := by
  intro s
  have h := hx { s with scope := frame :: s.scope }
  obtain ⟨rest, hscope, hgrows⟩ := h.scope.of_object hk
  refine ⟨?_, h.captured, ?_⟩
  · change Scope.Grows s.scope (x { s with scope := frame :: s.scope }).2.scope.tail
    rw [hscope]
    exact hgrows
  · exact (underflow_inFrame hscope).trans h.underflow

/-- The set that is opened is closed again. -/
theorem capturing (hx : Keeps x) : Keeps (capturing x) := by
  intro s
  have h := hx { s with captured := [] :: s.captured }
  refine ⟨h.scope, ?_, h.underflow⟩
  change List.length (List.tail _) = _
  rw [List.length_tail, h.captured]
  rfl

end Keeps

end Actions

section Primitives

theorem restores_report (finding : Finding) : Restores (report finding) := fun _ => ⟨rfl, rfl, rfl⟩

theorem restores_lookup (name : String) : Restores (lookup name) := by
  intro s
  rw [lookup_eq]
  simp only
  split
  · next hcaptured => exact ⟨rfl, by simp [hcaptured], rfl⟩
  · exact ⟨rfl, rfl, rfl⟩

theorem keeps_declareNew (names : List String) : Keeps (declareNew names) := by
  induction names with
  | nil => exact .pure _
  | cons name rest ih =>
    intro s
    have hdeclare : Kept s { s with scope := (s.scope.declare name).2 } :=
      ⟨.declare name s.scope, rfl, rfl⟩
    exact hdeclare.trans (ih { s with scope := (s.scope.declare name).2 })

theorem keeps_declareLocals (names : List String) : Keeps (declareLocals names) :=
  (keeps_declareNew names).bind fun _ => .pure _

theorem Rendition.restores_bareName (name : String) : Restores (bareName name) :=
  (restores_lookup name).bind fun _ => .pure _

end Primitives

/-- The action gives no more than locals, and in the narrow form not even these. -/
def Leaves (wide : Bool) (_ : List Find) (α : Type) (act : Emit α) : Prop :=
  match wide with
  | true => Keeps act
  | false => Restores act

theorem Restores.leaves {α : Type} {act : Emit α} {w : Bool} {L : List Find} (h : Restores act) :
    Leaves w L α act := by
  cases w with
  | true => exact h.keeps
  | false => exact h

theorem closed_leaves : Closed (fun _ => True) Leaves where
  widen h := h.keeps
  alike _ h := h
  pure a := (Restores.pure a).leaves
  bind {w _ _ _ _ _ _} hx hf := by
    cases w with
    | true => exact hx.bind hf
    | false => exact hx.bind hf
  fresh _ := Restores.leaves fun _ => ⟨rfl, rfl, rfl⟩
  report _ _ := (restores_report _).leaves
  lookup name := (restores_lookup name).leaves
  declareNew names := keeps_declareNew names
  breakJump _ := Restores.leaves fun _ => ⟨rfl, rfl, rfl⟩
  continueJump _ := Restores.leaves fun _ => ⟨rfl, rfl, rfl⟩
  lexical hk hx := (hx.inFrame_lexical hk).leaves
  within _ _ _ hx :=
    ((hx.capturing).inFrame_object rfl).bind fun _ =>
      (restores_report _).keeps.bind fun _ => .pure _
  enclosed {w _ _ _} e hx := by
    cases w <;> intro s <;> exact
      ⟨(hx { s with control := e :: s.control }).scope,
        (hx { s with control := e :: s.control }).captured,
        (hx { s with control := e :: s.control }).underflow⟩
  detached {w _ _ _} hx := by
    cases w <;> intro s <;> exact
      ⟨(hx { s with control := [] }).scope, (hx { s with control := [] }).captured,
        (hx { s with control := [] }).underflow⟩

/-- No use of the expression does anything to the frames. -/
structure Rendition.Restoring (r : Rendition) : Prop where
  value : Restores r.value
  unguarded : Restores r.unguarded
  target : Restores r.target
  effect : Restores r.effect
  base : Restores r.base
  invoke : ∀ args, Restores args → Restores (r.invoke args)
  delete : Restores r.delete

end Emission

/-- Making the code of an expression leaves the frames as they were. -/
theorem Expr.restoring_emit (e : Expr) : e.emit.Restoring := by
  have h := e.has_emit closed_leaves (admitted_all e.nodes)
  exact ⟨h.value, h.unguarded, h.target, h.effect, h.base, fun _ ha => h.invoke (M := []) ha,
    e.has_delete closed_leaves (admitted_all e.nodes)⟩

theorem Expr.restores_emitValues (es : List Expr) : Restores (Expr.emitValues es) :=
  Expr.has_emitValues closed_leaves es (admitted_all _)

theorem Func.restores_emit (f : Func) : Restores f.emit :=
  f.has_emit closed_leaves (admitted_all f.nodes)

/-- Making the code of a statement gives names locals, and does no more to the frames. -/
theorem Stmt.keeps_emit (place : Place) (st : Stmt) : Keeps (st.emit place) :=
  st.has_emit closed_leaves place (admitted_all st.nodes)

theorem Stmt.keeps_emitList (body : List Stmt) : Keeps (Stmt.emitList body) :=
  Stmt.has_emitList closed_leaves body (admitted_all _)

end EcmaLua
