import EcmaLua.Proofs.Meaning.Evaluation
import EcmaLua.Proofs.Program.Idempotence

/-!
# Hoisting keeps the meaning

Values hold functions by number, so that hoisting every function of a store changes nothing else
in it. An action follows another if it does, on the hoisted store, what the other does on the
store: with the same result, the same effects and a store that is hoisted again. A hoisted body
follows its source, and then so do calls, and the whole program.
-/

namespace EcmaLua

open Meaning

namespace Meaning

variable {H : Host} {α β : Type}

def Closure.hoist {D : Type} (f : Closure D) : Closure D := { f with code := f.code.hoist }

/-- The store with all of its functions hoisted. -/
def Store.hoist (s : Store H) : Store H := { s with closures := s.closures.map Closure.hoist }

/-- The second action does on the hoisted store what the first does on the store. -/
def Follows (x y : Eval H α) : Prop :=
  ∀ s : Store H, y.run s.hoist = ((x.run s).1, (x.run s).2.hoist)

theorem run_bind (x : Eval H α) (f : α → Eval H β) (s : Store H) :
    (x >>= f).run s =
      match x.run s with
      | (.ok a, s') => (f a).run s'
      | (.error stop, s') => (.error stop, s') := by
  change (StateT.bind x.run (ExceptT.bindCont f)) s = _
  simp only [StateT.bind, bind]
  rcases x.run s with ⟨result, s'⟩
  cases result with
  | ok a => rfl
  | error stop => rfl

namespace Follows

variable {x y : Eval H α} {f g : α → Eval H β}

theorem pure (a : α) : Follows (Pure.pure a : Eval H α) (Pure.pure a) := fun _ => rfl

theorem throw (stop : Stop H.Datum) :
    Follows (MonadExcept.throw stop : Eval H α) (MonadExcept.throw stop) := fun _ => rfl

theorem bind (h : Follows x y) (hf : ∀ a, Follows (f a) (g a)) :
    Follows (x >>= f) (y >>= g) := by
  intro s
  rw [run_bind, run_bind, h s]
  rcases x.run s with ⟨result, s'⟩
  cases result with
  | ok a => exact hf a s'
  | error stop => rfl

theorem map (φ : α → β) (h : Follows x y) : Follows (φ <$> x) (φ <$> y) := by
  rw [map_eq_pure_bind, map_eq_pure_bind]
  exact h.bind fun a => .pure (φ a)

theorem ite {x' y' : Eval H α} (c : Bool) (h : Follows x y) (h' : Follows x' y') :
    Follows (if c then x else x') (if c then y else y') := by
  cases c with
  | true => exact h
  | false => exact h'

theorem get {f g : Store H → Eval H α} (h : ∀ s, Follows (f s) (g s.hoist)) :
    Follows (MonadState.get >>= f) (MonadState.get >>= g) :=
  fun s => h s s

theorem modify {f : Store H → Store H} (h : ∀ s, f s.hoist = (f s).hoist) :
    Follows (modify f : Eval H Unit) (modify f) := by
  intro s
  change (Except.ok (), f s.hoist) = _
  rw [h s]
  rfl

theorem set {s s' : Store H} (h : s' = s.hoist) :
    Follows (MonadStateOf.set s : Eval H Unit) (MonadStateOf.set s') := by
  intro t
  rw [h]
  rfl

theorem attempt (h : Follows x y) : Follows (Meaning.attempt x) (Meaning.attempt y) := by
  intro s
  unfold Meaning.attempt
  simp only [ExceptT.run_mk, h s]
  rcases x.run s with ⟨result, s'⟩
  cases result with
  | ok a => rfl
  | error stop => cases stop <;> rfl

theorem settle (result : Except (Value H.Datum) α) :
    Follows (Meaning.settle result) (Meaning.settle result) := by
  cases result with
  | ok a => exact .pure a
  | error v => exact .throw _

end Follows

/-- Calls on the hoisted store do what they do on the store. -/
def Calls.Follow (calls : Calls H) : Prop :=
  ∀ number receiver args, Follows (calls number receiver args) (calls number receiver args)

section Actions

variable {calls : Calls H} (hc : calls.Follow)

theorem follows_note (effect : Effect H.Datum) : Follows (note effect) (note effect) :=
  .modify fun _ => rfl

include hc in
theorem Process.follows_run (process : Process H.Datum H.World) :
    Follows (process.run calls) (process.run calls) := by
  induction process with
  | finish world result => exact .bind (.modify fun _ => rfl) fun _ => .settle result
  | call world number receiver args next ih =>
    refine .bind (.modify fun _ => rfl) fun _ => ?_
    refine .bind (hc number receiver args).attempt fun result => .get fun s => ?_
    exact ih s.world result

include hc in
theorem follows_ask (request : Request H.Datum) :
    Follows (ask calls request) (ask calls request) :=
  .bind (follows_note _) fun _ => .get fun _ => Process.follows_run hc _

include hc in
theorem follows_resolve (name : String) (chain : List (Layer H.Datum)) :
    Follows (resolve calls name chain) (resolve calls name chain) := by
  induction chain with
  | nil => exact .pure _
  | cons layer rest ih =>
    cases layer with
    | record number => exact .get fun s => .ite _ (.pure _) ih
    | object value => exact .bind (follows_ask hc _) fun found => .ite _ (.pure _) ih

include hc in
theorem follows_load (place : Ref H.Datum) : Follows (load calls place) (load calls place) := by
  cases place with
  | value v => exact .pure v
  | slot record name => exact .get fun s => .pure _
  | global name => exact follows_ask hc _
  | property object key => exact follows_ask hc _

include hc in
theorem follows_save (v : Value H.Datum) (place : Ref H.Datum) :
    Follows (save calls v place) (save calls v place) := by
  cases place with
  | value _ => exact .bind (follows_ask hc _) fun _ => .pure _
  | slot record name => exact .bind (follows_note _) fun _ => .modify fun _ => rfl
  | global name => exact .bind (follows_ask hc _) fun _ => .pure _
  | property object key => exact .bind (follows_ask hc _) fun _ => .pure _

include hc in
theorem follows_callValue (callee receiver : Value H.Datum) (args : List (Value H.Datum)) :
    Follows (callValue calls callee receiver args) (callValue calls callee receiver args) := by
  cases callee with
  | datum d => exact follows_ask hc _
  | function number => exact hc number receiver args

include hc in
theorem follows_applyUnary (op : UnaryOp) (arg : Ref H.Datum) :
    Follows (applyUnary calls op arg) (applyUnary calls op arg) := by
  have hread := follows_load hc arg
  unfold applyUnary
  split
  · exact follows_ask hc _
  · exact hread.bind fun _ => .pure _
  · exact follows_ask hc _
  · exact follows_ask hc _
  · exact follows_ask hc _
  · exact follows_ask hc _
  · exact hread.bind fun _ => follows_ask hc _

include hc in
theorem follows_applyUpdate (op : UpdateOp) (leading : Bool) (arg : Ref H.Datum) :
    Follows (applyUpdate calls op leading arg) (applyUpdate calls op leading arg) := by
  refine .bind (follows_load hc arg) fun v => .bind (follows_ask hc _) fun old => ?_
  refine .bind (follows_ask hc _) fun new => .bind (follows_save hc new arg) fun _ => ?_
  exact .pure _

theorem follows_newRecord (record : Record H.Datum) :
    Follows (newRecord record) (newRecord record) :=
  .get fun _ => .bind (.set rfl) fun _ => .pure _

theorem Store.hoist_addClosures (s : Store H) (closures : List (Closure H.Datum)) :
    { s.hoist with closures := s.hoist.closures ++ closures.map Closure.hoist } =
      Store.hoist { s with closures := s.closures ++ closures } := by
  simp only [Store.hoist, List.map_append]

/-- A hoisted function has the number that its source has. -/
theorem follows_newClosure (f : Closure H.Datum) :
    Follows (newClosure f) (newClosure f.hoist) := by
  refine .get fun s => .bind (.set (s.hoist_addClosures [f])) fun _ => ?_
  have hlength : s.hoist.closures.length = s.closures.length := List.length_map _
  rw [hlength]
  exact .pure _

theorem follows_makeFunction (f : Func) (chain : List (Layer H.Datum)) :
    Follows (makeFunction f chain) (makeFunction f.hoist chain) := by
  unfold makeFunction
  rw [f.name_hoist]
  cases f.name with
  | none => exact follows_newClosure ⟨f, chain⟩
  | some name =>
    refine .get fun s => ?_
    have hlength : s.hoist.closures.length = s.closures.length := List.length_map _
    rw [hlength]
    refine .bind (follows_newRecord _) fun number => ?_
    exact follows_newClosure ⟨f, .record number :: chain⟩

end Actions

section Loops

variable {body body' : Eval H (Exit H.Datum)} {test test' : Eval H Bool}
  {update update' : Eval H Unit}

theorem follows_next {rest rest' : Eval H (Exit H.Datum)} (exit : Exit H.Datum)
    (h : Follows rest rest') : Follows (exit.next rest) (exit.next rest') := by
  cases exit with
  | normal => exact h
  | broke label => exact .pure _
  | continued label => exact .pure _
  | returned v => exact .pure _

theorem follows_whileRounds (labels : List String) (ht : Follows test test')
    (hb : Follows body body') (hu : Follows update update') (n : Nat) :
    Follows (whileRounds labels test body update n) (whileRounds labels test' body' update' n) := by
  induction n with
  | zero => exact .throw _
  | succ n ih =>
    refine .bind ht fun passed => .ite _ (.bind hb fun exit => ?_) (.pure _)
    exact .ite _ (.bind hu fun _ => ih) (.pure _)

theorem follows_doWhileRounds (labels : List String) (hb : Follows body body')
    (ht : Follows test test') (n : Nat) :
    Follows (doWhileRounds labels body test n) (doWhileRounds labels body' test' n) := by
  induction n with
  | zero => exact .throw _
  | succ n ih =>
    refine .bind hb fun exit => .ite _ (.bind ht fun passed => ?_) (.pure _)
    exact .ite _ ih (.pure _)

end Loops

section Trying

variable {block block' : Eval H (Exit H.Datum)}
  {handler handler' : Option (Value H.Datum → Eval H (Exit H.Datum))}
  {finalizer finalizer' : Option (Eval H (Exit H.Datum))}

theorem follows_tryParts (hb : Follows block block')
    (hh : Option.Rel (fun f g => ∀ v, Follows (f v) (g v)) handler handler')
    (hf : Option.Rel Follows finalizer finalizer') :
    Follows (tryParts block handler finalizer) (tryParts block' handler' finalizer') := by
  refine .bind hb.attempt fun tried => .bind ?_ fun result => ?_
  · cases hh with
    | none => cases tried <;> exact .pure _
    | some h =>
      cases tried with
      | ok exit => exact .pure _
      | error v => exact (h v).attempt
  · cases hf with
    | none => exact .settle result
    | some h => exact .bind h fun exit => follows_next exit (.settle result)

end Trying

section Entry

theorem bindParams_ne_none {params : List String} {name : String} (h : name ∈ params)
    (args : List (Value H.Datum)) (r : Record H.Datum) : bindParams params args r name ≠ none := by
  have hkeep : ∀ (params : List String) (args : List (Value H.Datum)) (r : Record H.Datum),
      r name ≠ none → bindParams params args r name ≠ none := by
    intro params
    induction params with
    | nil => exact fun _ _ hr => hr
    | cons other rest ih =>
      intro args r hr
      refine ih _ _ ?_
      rw [bindName]
      split
      · exact Option.some_ne_none _
      · exact hr
  induction params generalizing args r with
  | nil => exact absurd h List.not_mem_nil
  | cons other rest ih =>
    rcases List.mem_cons.mp h with rfl | h
    · refine hkeep rest _ _ ?_
      rw [bindName, if_pos rfl]
      exact Option.some_ne_none _
    · exact ih h _ _

theorem bindFuncs_ne_none {fs : List Func} {name : String} {n : Nat} {r : Record H.Datum}
    (h : name ∈ fs.filterMap Func.name ∨ r name ≠ none) : bindFuncs fs n r name ≠ none := by
  induction fs generalizing n r with
  | nil => exact h.resolve_left List.not_mem_nil
  | cons f rest ih =>
    refine ih ?_
    rw [List.filterMap_cons] at h
    cases hname : f.name with
    | none =>
      rw [hname] at h
      exact h
    | some other =>
      rw [hname, List.mem_cons, or_assoc] at h
      rcases h with rfl | h | h
      · refine Or.inr ?_
        simp [bindName]
      · exact Or.inl h
      · refine Or.inr ?_
        simp only [bindName]
        split
        · exact Option.some_ne_none _
        · exact h

theorem bindFuncs_hoist (fs : List Func) (n : Nat) (r : Record H.Datum) :
    bindFuncs (fs.map Func.hoist) n r = bindFuncs fs n r := by
  induction fs generalizing n r with
  | nil => rfl
  | cons f rest ih => rw [List.map_cons, bindFuncs, bindFuncs, ih, f.name_hoist]

/-- The variables that hoisting takes out of the declaration are bound already. -/
theorem bindVars_leadingNames (params : List String) (body : List Stmt) {r : Record H.Datum}
    (h : ∀ name, name ∈ Stmt.funcNamesList body ∨ name ∈ params → r name ≠ none) :
    bindVars (leadingNames params body) r = bindVars (Stmt.varsList body) r := by
  funext name
  unfold bindVars
  cases hr : r name with
  | some v => rfl
  | none =>
    have hiff : name ∈ leadingNames params body ↔ name ∈ Stmt.varsList body := by
      rw [mem_leadingNames, and_iff_left_iff_imp]
      intro _
      exact not_or.mp fun hbound => h name hbound hr
    simp only [hiff]

/-- A hoisted body is entered as its source is, and has the hoisted functions. -/
theorem follows_enter (start : Record H.Datum) (params : List String)
    (args : List (Value H.Datum)) (body : List Stmt) (chain : List (Layer H.Datum)) :
    Follows (enter start params args body chain)
      (enter start params args (hoistBody params body) chain) := by
  have hbound (n : Nat) (name : String)
      (h : name ∈ Stmt.funcNamesList body ∨ name ∈ params) :
      bindFuncs (Stmt.funcsList body) n (bindParams params args start) name ≠ none := by
    rw [Stmt.funcNamesList] at h
    exact bindFuncs_ne_none (h.imp_right fun hp => bindParams_ne_none hp args start)
  refine .get fun s => ?_
  have hlength : s.hoist.closures.length = s.closures.length := List.length_map _
  refine .bind (.set ?_) fun _ => .pure _
  simp only [varsList_hoistBody, funcsList_hoistBody, bindFuncs_hoist, hlength,
    bindVars_leadingNames params body (hbound s.closures.length)]
  simp only [Store.hoist, List.map_append, List.map_map]
  rfl

end Entry

end Meaning

section Expressions

variable {H : Host} {calls : Calls H} (hc : calls.Follow)

include hc

mutual

/-- An expression denotes what it did before its functions were hoisted. -/
theorem Expr.follows_denote (ctx : Context H.Datum) : (e : Expr) →
    Follows (e.denote calls ctx) (e.hoist.denote calls ctx)
  | .ident name => follows_resolve hc name ctx.chain
  | .this => .pure _
  | .lit _ => (follows_ask hc _).map _
  | .array items =>
    .bind (follows_ask hc _) fun array =>
      .bind (Expr.follows_fill ctx array 0 items) fun _ => .pure _
  | .object props =>
    .bind (follows_ask hc _) fun object =>
      .bind (Property.follows_fill ctx object props) fun _ => .pure _
  | .func f => (follows_makeFunction f ctx.chain).map _
  | .unary op arg =>
    .bind (Expr.follows_denote ctx arg) fun place => (follows_applyUnary hc op place).map _
  | .update op leading arg =>
    .bind (Expr.follows_denote ctx arg) fun place =>
      (follows_applyUpdate hc op leading place).map _
  | .binary _ left right =>
    .bind (.bind (Expr.follows_denote ctx left) (follows_load hc)) fun _ =>
      .bind (.bind (Expr.follows_denote ctx right) (follows_load hc)) fun _ =>
        (follows_ask hc _).map _
  | .logical _ left right =>
    .bind (.bind (Expr.follows_denote ctx left) (follows_load hc)) fun _ =>
      .ite _ (.map _ (.bind (Expr.follows_denote ctx right) (follows_load hc))) (.pure _)
  | .assign none target value =>
    .bind (Expr.follows_denote ctx target) fun place =>
      .bind (.bind (Expr.follows_denote ctx value) (follows_load hc)) fun v =>
        .bind (follows_save hc v place) fun _ => .pure _
  | .assign (some _) target value =>
    .bind (Expr.follows_denote ctx target) fun place =>
      .bind (follows_load hc place) fun _ =>
        .bind (.bind (Expr.follows_denote ctx value) (follows_load hc)) fun _ =>
          .bind (follows_ask hc _) fun v => .bind (follows_save hc v place) fun _ => .pure _
  | .cond test cons alt =>
    .bind (.bind (Expr.follows_denote ctx test) (follows_load hc)) fun _ =>
      .ite _ (.map _ (.bind (Expr.follows_denote ctx cons) (follows_load hc)))
        (.map _ (.bind (Expr.follows_denote ctx alt) (follows_load hc)))
  | .call callee args =>
    .bind (Expr.follows_denote ctx callee) fun place =>
      .bind (follows_load hc place) fun f => .bind (Expr.follows_values ctx args) fun vs =>
        (follows_callValue hc f place.receiver vs).map _
  | .new callee args =>
    .bind (.bind (Expr.follows_denote ctx callee) (follows_load hc)) fun _ =>
      .bind (Expr.follows_values ctx args) fun _ => (follows_ask hc _).map _
  | .member object _ =>
    .bind (.bind (Expr.follows_denote ctx object) (follows_load hc)) fun _ => .pure _
  | .index object key =>
    .bind (.bind (Expr.follows_denote ctx object) (follows_load hc)) fun _ =>
      .bind (.bind (Expr.follows_denote ctx key) (follows_load hc)) fun _ => .pure _
  | .seq items => .bind (Expr.follows_values ctx items) fun _ => .pure _
  | .unsupported _ => (follows_ask hc _).map _

theorem Expr.follows_values (ctx : Context H.Datum) : (es : List Expr) →
    Follows (Expr.values calls ctx es) (Expr.values calls ctx (Expr.hoistList es))
  | [] => .pure _
  | e :: rest =>
    .bind (.bind (Expr.follows_denote ctx e) (follows_load hc)) fun _ =>
      .bind (Expr.follows_values ctx rest) fun _ => .pure _

theorem Expr.follows_fill (ctx : Context H.Datum) (array : Value H.Datum) (index : Nat) :
    (items : List (Option Expr)) →
    Follows (Expr.fill calls ctx array index items)
      (Expr.fill calls ctx array index (Expr.hoistItems items))
  | [] => .bind (follows_ask hc _) fun _ => .pure _
  | none :: rest => Expr.follows_fill ctx array (index + 1) rest
  | some e :: rest =>
    .bind (.bind (Expr.follows_denote ctx e) (follows_load hc)) fun _ =>
      .bind (follows_ask hc _) fun _ => Expr.follows_fill ctx array (index + 1) rest

theorem Property.follows_fill (ctx : Context H.Datum) (object : Value H.Datum) :
    (props : List Property) →
    Follows (Property.fill calls ctx object props)
      (Property.fill calls ctx object (Property.hoist props))
  | [] => .pure _
  | .named _ value :: rest =>
    .bind (.bind (Expr.follows_denote ctx value) (follows_load hc)) fun _ =>
      .bind (follows_ask hc _) fun _ => Property.follows_fill ctx object rest
  | .computed key value :: rest =>
    .bind (.bind (Expr.follows_denote ctx key) (follows_load hc)) fun _ =>
      .bind (.bind (Expr.follows_denote ctx value) (follows_load hc)) fun _ =>
        .bind (follows_ask hc _) fun _ => Property.follows_fill ctx object rest

end

theorem Expr.follows_value (ctx : Context H.Datum) (e : Expr) :
    Follows (e.value calls ctx) (e.hoist.value calls ctx) :=
  .bind (e.follows_denote hc ctx) (follows_load hc)

theorem Expr.follows_effects (ctx : Context H.Datum) (e : Option Expr) :
    Follows (Expr.effects calls ctx e) (Expr.effects calls ctx (Expr.hoistOpt e)) := by
  cases e with
  | none => exact .pure _
  | some e => exact .bind (e.follows_value hc ctx) fun _ => .pure _

theorem Expr.follows_passes (ctx : Context H.Datum) (e : Option Expr) :
    Follows (Expr.passes calls ctx e) (Expr.passes calls ctx (Expr.hoistOpt e)) := by
  cases e with
  | none => exact .pure _
  | some e => exact (e.follows_value hc ctx).map _

end Expressions

section Declarations

variable {H : Host} {calls : Calls H}

/-- The joined assignments have the effects of their items, one after the other. -/
theorem Expr.effects_joinAssignments (ctx : Context H.Datum) (es : List Expr) :
    Expr.effects calls ctx (joinAssignments es) = (do
      let _ ← Expr.values calls ctx es) := by
  match es with
  | [] => rfl
  | [e] =>
    simp only [joinAssignments, Expr.effects, Expr.values, Expr.value, bind_assoc, pure_bind]
  | e :: e' :: rest =>
    simp only [joinAssignments, Expr.effects, Expr.value, Expr.denote, bind_assoc, pure_bind,
      load]

variable (hc : calls.Follow)

include hc

/-- Assignments do what the initializers of their declaration do. -/
theorem Declarator.follows_perform (ctx : Context H.Datum) (decls : List Declarator) :
    Follows (Declarator.perform calls ctx decls)
      (Expr.effects calls ctx (joinAssignments (Declarator.assignments decls))) := by
  induction decls with
  | nil => exact .pure _
  | cons d rest ih =>
    obtain ⟨name, init⟩ := d
    cases init with
    | none => exact ih
    | some init =>
      rw [Expr.effects_joinAssignments] at ih ⊢
      have hassign :
          Expr.values calls ctx (Declarator.assignments (⟨name, some init⟩ :: rest)) = (do
            let place ← resolve calls name ctx.chain
            let v ← init.hoist.value calls ctx
            save calls v place
            let vs ← Expr.values calls ctx (Declarator.assignments rest)
            pure (v :: vs)) := by
        simp only [Declarator.assignments, Expr.values, Expr.denote, Expr.value, bind_assoc,
          pure_bind, load]
      simp only [hassign, bind_assoc, pure_bind]
      refine .bind (follows_resolve hc name ctx.chain) fun place => ?_
      refine .bind (init.follows_value hc ctx) fun v => ?_
      exact .bind (follows_save hc v place) fun _ => ih

theorem ForInit.follows_start (ctx : Context H.Datum) (init : ForInit) :
    Follows (init.start calls ctx) (init.residue.start calls ctx) := by
  cases init with
  | none => exact .pure _
  | vars kind decls =>
    have hdecls := Declarator.follows_perform hc ctx decls
    rw [ForInit.residue]
    cases hjoined : joinAssignments (Declarator.assignments decls) with
    | none =>
      rw [hjoined] at hdecls
      exact hdecls
    | some e =>
      rw [hjoined] at hdecls
      exact hdecls
  | expr e => exact Expr.follows_effects hc ctx (some e)

theorem ForInHead.follows_place (ctx : Context H.Datum) (head : ForInHead) :
    Follows (head.place calls ctx) (head.residue.place calls ctx) := by
  cases head with
  | var kind name => exact follows_resolve hc name ctx.chain
  | target e => exact e.follows_denote hc ctx

theorem SwitchCase.follows_select (ctx : Context H.Datum) (v : Value H.Datum) (n : Nat) :
    (cases : List SwitchCase) →
    Follows (SwitchCase.select calls ctx v n cases)
      (SwitchCase.select calls ctx v n (SwitchCase.residue cases))
  | [] => .pure _
  | ⟨none, _⟩ :: rest => SwitchCase.follows_select ctx v (n + 1) rest
  | ⟨some test, _⟩ :: rest =>
    .bind (test.follows_value hc ctx) fun _ => .bind (follows_ask hc _) fun _ =>
      .ite _ (.pure _) (SwitchCase.follows_select ctx v (n + 1) rest)

end Declarations

/-- The default case stays at its place. -/
theorem SwitchCase.findIdx?_residue (cases : List SwitchCase) :
    ((SwitchCase.residue cases).findIdx? fun c => c.test.isNone) =
      cases.findIdx? fun c => c.test.isNone := by
  induction cases with
  | nil => rfl
  | cons c rest ih =>
    obtain ⟨test, body⟩ := c
    cases test with
    | none => rfl
    | some test => simp [SwitchCase.residue, Expr.hoistOpt, List.findIdx?_cons, ih]

section Statements

variable {H : Host} {calls : Calls H} {bound : Nat}

mutual

/-- What is left of a statement does what the statement did. -/
theorem Stmt.follows_execute (hc : calls.Follow) (ctx : Context H.Datum)
    (labels : List String) : (s : Stmt) →
    Follows (s.execute calls bound ctx labels)
      ((s.residue.getD .empty).execute calls bound ctx labels)
  | .empty => .pure _
  | .exprStmt e => .bind (Expr.follows_effects hc ctx (some e)) fun _ => .pure _
  | .varStmt _ decls => by
    have hdecls := Declarator.follows_perform hc ctx decls
    rw [Stmt.residue]
    cases hjoined : joinAssignments (Declarator.assignments decls) with
    | none =>
      rw [hjoined] at hdecls
      exact .bind hdecls fun _ => .pure _
    | some e =>
      rw [hjoined] at hdecls
      exact .bind hdecls fun _ => .pure _
  | .funcStmt _ => .pure _
  | .returnStmt none => .pure _
  | .returnStmt (some e) => (e.follows_value hc ctx).map _
  | .throwStmt e => .bind (e.follows_value hc ctx) fun _ => .throw _
  | .breakStmt _ _ => .pure _
  | .continueStmt _ _ => .pure _
  | .ifStmt test cons alt =>
    .bind (Expr.follows_passes hc ctx (some test)) fun _ =>
      .ite _ (Stmt.follows_execute hc ctx [] cons) (Stmt.follows_executeOpt hc ctx alt)
  | .whileStmt test body =>
    follows_whileRounds labels (Expr.follows_passes hc ctx (some test))
      (Stmt.follows_execute hc ctx [] body) (.pure _) bound
  | .doWhileStmt body test =>
    follows_doWhileRounds labels (Stmt.follows_execute hc ctx [] body)
      (Expr.follows_passes hc ctx (some test)) bound
  | .forStmt init test update body =>
    .bind (init.follows_start hc ctx) fun _ =>
      follows_whileRounds labels (Expr.follows_passes hc ctx test)
        (Stmt.follows_execute hc ctx [] body) (Expr.follows_effects hc ctx update) bound
  | .forInStmt head object body =>
    .bind (object.follows_value hc ctx) fun _ => .bind (follows_ask hc _) fun _ =>
      follows_whileRounds labels (.map _ (follows_ask hc _))
        (.bind (follows_ask hc _) fun key =>
          .bind (head.follows_place hc ctx) fun place =>
            .bind (follows_save hc key place) fun _ => Stmt.follows_execute hc ctx [] body)
        (.pure _) bound
  | .switchStmt discriminant cases => by
    refine .bind (discriminant.follows_value hc ctx) fun v => ?_
    refine .bind (SwitchCase.follows_select hc ctx v 0 cases) fun selected => ?_
    rw [SwitchCase.findIdx?_residue]
    cases selected.or (cases.findIdx? fun c => c.test.isNone) with
    | none => exact .pure _
    | some n => exact (SwitchCase.follows_execute hc ctx n cases).map _
  | .tryStmt block handlers finalizer _ =>
    follows_tryParts (Stmt.follows_executeList hc ctx block)
      (CatchClause.follows_executeFirst hc ctx handlers)
      (Stmt.follows_executeBlock hc ctx finalizer)
  | .withStmt object body _ =>
    .bind (object.follows_value hc ctx) fun _ => .bind (follows_ask hc _) fun _ =>
      Stmt.follows_execute hc _ [] body
  | .labeled label body => (body.follows_execute hc ctx (labels ++ [label])).map _
  | .block body => Stmt.follows_executeList hc ctx body
  | .unsupported _ => .bind (follows_ask hc _) fun _ => .pure _

theorem Stmt.follows_executeList (hc : calls.Follow) (ctx : Context H.Datum) : (body : List Stmt) →
    Follows (Stmt.executeList calls bound ctx body)
      (Stmt.executeList calls bound ctx (Stmt.residueList body))
  | [] => .pure _
  | s :: rest => by
    have hs := Stmt.follows_execute hc ctx [] s
    have hrest := Stmt.follows_executeList hc ctx rest
    rw [Stmt.residueList]
    cases hresidue : s.residue with
    | none =>
      -- the statement did nothing, and nothing of it is left
      rw [hresidue] at hs
      have hboth := hs.bind fun exit => follows_next exit hrest
      rwa [Option.getD_none, Stmt.execute, pure_bind] at hboth
    | some r =>
      rw [hresidue] at hs
      exact hs.bind fun exit => follows_next exit hrest

theorem Stmt.follows_executeOpt (hc : calls.Follow) (ctx : Context H.Datum) : (s : Option Stmt) →
    Follows (Stmt.executeOpt calls bound ctx s)
      (Stmt.executeOpt calls bound ctx (Stmt.residueOpt s))
  | none => .pure _
  | some s => Stmt.follows_execute hc ctx [] s

theorem Stmt.follows_executeBlock (hc : calls.Follow) (ctx : Context H.Datum) :
    (body : Option (List Stmt)) →
    Option.Rel Follows (Stmt.executeBlock calls bound ctx body)
      (Stmt.executeBlock calls bound ctx (Stmt.residueBlock body))
  | none => .none
  | some body => .some (Stmt.follows_executeList hc ctx body)

theorem SwitchCase.follows_execute (hc : calls.Follow) (ctx : Context H.Datum) (n : Nat) :
    (cases : List SwitchCase) →
    Follows (SwitchCase.execute calls bound ctx n cases)
      (SwitchCase.execute calls bound ctx n (SwitchCase.residue cases))
  | [] => .pure _
  | ⟨_, body⟩ :: rest =>
    match n with
    | 0 =>
      .bind (Stmt.follows_executeList hc ctx body) fun exit =>
        follows_next exit (SwitchCase.follows_execute hc ctx 0 rest)
    | n + 1 => SwitchCase.follows_execute hc ctx n rest

theorem CatchClause.follows_executeFirst (hc : calls.Follow) (ctx : Context H.Datum) :
    (clauses : List CatchClause) →
    Option.Rel (fun f g => ∀ v, Follows (f v) (g v))
      (CatchClause.executeFirst calls bound ctx clauses)
      (CatchClause.executeFirst calls bound ctx (CatchClause.residue clauses))
  | [] => .none
  | ⟨none, body⟩ :: _ => .some fun _ => Stmt.follows_executeList hc ctx body
  | ⟨some _, body⟩ :: _ =>
    .some fun _ => .bind (follows_newRecord _) fun _ => Stmt.follows_executeList hc _ body

end

end Statements

section Bodies

variable {H : Host} {calls : Calls H} {bound : Nat}

/-- Leading declarations do nothing when they are come to. -/
theorem Stmt.executeList_declarations (ctx : Context H.Datum) (names : List String)
    (fs : List Func) (rest : List Stmt) :
    Stmt.executeList calls bound ctx (declaration names ++ (fs.map .funcStmt ++ rest)) =
      Stmt.executeList calls bound ctx rest := by
  have hplain (names : List String) :
      Declarator.perform calls ctx (names.map fun name => ⟨name, none⟩) = pure () := by
    induction names with
    | nil => rfl
    | cons name names ih => exact ih
  have hfuncs : Stmt.executeList calls bound ctx (fs.map .funcStmt ++ rest) =
      Stmt.executeList calls bound ctx rest := by
    induction fs with
    | nil => rfl
    | cons f fs ih =>
      rw [List.map_cons, List.cons_append, Stmt.executeList, Stmt.execute, pure_bind]
      exact ih
  rw [← hfuncs, declaration.eq_def]
  split
  · rfl
  · rw [List.singleton_append, Stmt.executeList, Stmt.execute, hplain, pure_bind, pure_bind]
    rfl

/-- A hoisted body does what the body did. -/
theorem follows_hoistBody (hc : calls.Follow) (ctx : Context H.Datum) (params : List String)
    (body : List Stmt) :
    Follows (Stmt.executeList calls bound ctx body)
      (Stmt.executeList calls bound ctx (hoistBody params body)) := by
  rw [hoistBody_eq, hoistedFuncStmts, List.append_assoc, Stmt.executeList_declarations]
  exact Stmt.follows_executeList hc ctx body

namespace Meaning

/-- Calls of hoisted functions do what calls of their sources do. -/
theorem callsWithin_follow (n : Nat) : (callsWithin n : Calls H).Follow := by
  induction n with
  | zero => exact fun _ _ _ => .throw _
  | succ n ih =>
    refine fun number receiver args => .get fun s => ?_
    rw [Store.hoist, List.getElem?_map]
    cases s.closures[number]? with
    | none => exact .pure _
    | some f =>
      refine .bind (follows_ask ih _) fun all => ?_
      simp only [Closure.hoist, Func.params_hoist, Func.body_hoist]
      refine .bind (follows_enter _ _ _ _ _) fun chain => ?_
      refine .bind (follows_hoistBody ih _ _ _) fun exit => ?_
      cases exit with
      | returned v => exact .pure _
      | normal => exact .pure _
      | broke label => exact .pure _
      | continued label => exact .pure _

end Meaning

theorem Program.follows_execute (bound : Nat) (ctx : Context H.Datum) (p : Program) :
    Follows (p.execute bound ctx) (p.hoist.execute bound ctx) :=
  .bind (follows_enter _ [] [] p.body ctx.chain) fun _ =>
    follows_hoistBody (callsWithin_follow bound) _ [] p.body

/-- From any store, a program and its hoisted form come to the same end, with the same effects,
and leave stores that differ at most in whether their functions are hoisted. -/
theorem Program.execute_hoist (bound : Nat) (ctx : Context H.Datum) (p : Program)
    (s : Store H) :
    ((p.hoist.execute bound ctx).run s).1 = ((p.execute bound ctx).run s).1 ∧
      ((p.hoist.execute bound ctx).run s).2.effects = ((p.execute bound ctx).run s).2.effects ∧
      ((p.hoist.execute bound ctx).run s).2.hoist = ((p.execute bound ctx).run s).2.hoist := by
  -- the hoisted program on the hoisted store follows both
  have hsource := p.follows_execute bound ctx s
  have hhoisted := p.hoist.follows_execute bound ctx s
  rw [p.hoist_hoist, hsource] at hhoisted
  obtain ⟨hresult, hstore⟩ := Prod.mk.inj hhoisted
  exact ⟨hresult.symm, (congrArg Store.effects hstore).symm, hstore.symm⟩

end Bodies

end EcmaLua
