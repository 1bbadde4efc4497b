import EcmaLua.Proofs.Emission.Spots

/-!
# Sites through the emission

What the code of a program shows of it are the spots of its landmarks: a checked name for each site
that has to be checked, a bare one for every other site, a marker for each phase, all in order. The
walk is over the program, and each case puts the spots of the parts together as the construct does.
-/

namespace EcmaLua

open Emission
open Lua (Stat Field Arm shown)

/-- What the code of landmarks shows of them. -/
def Landmark.spotsList (marks : List Landmark) : List Lua.Spot := shown (marks.map Landmark.spot)

@[simp] theorem Landmark.spotsList_nil : Landmark.spotsList [] = [] := rfl

@[simp] theorem Landmark.spotsList_cons (mark : Landmark) (rest : List Landmark) :
    Landmark.spotsList (mark :: rest) = mark.spot.shown ++ Landmark.spotsList rest :=
  List.flatMap_cons

@[simp] theorem Landmark.spotsList_append (a b : List Landmark) :
    Landmark.spotsList (a ++ b) = Landmark.spotsList a ++ Landmark.spotsList b := by
  simp [Landmark.spotsList]

@[simp] theorem Landmark.spot_site (site : Site) : (Landmark.site site).spot = site.spot := rfl

@[simp] theorem Landmark.spot_phase (p : Phase) : (Landmark.phase p).spot = .marker p.word := rfl

open Landmark (spotsList)

/-- The spots of an expression's landmarks, for each of its uses. -/
def Expr.uses (F : Scope) (e : Expr) : Uses where
  value := spotsList (e.landmarks F .read)
  inspected := spotsList (e.landmarks F .inspected)
  target := spotsList (e.landmarks F .written)
  effect := spotsList (e.landmarks F .dropped)
  deleted := spotsList (e.landmarksDeleted F)

section Uses

variable (F : Scope)

theorem Emission.Rendition.Shows.of_eq {F : Scope} {u w : Uses} {r : Rendition} (h : r.Shows F u)
    (hu : w = u) : r.Shows F w := hu ▸ h

theorem Expr.uses_unary (op : UnaryOp) (arg : Expr) :
    (arg.unary op).uses F = .alike ((arg.uses F).operand op) ((arg.uses F).operand op) := by
  cases op <;> rfl

theorem Expr.uses_update (op : UpdateOp) (leading : Bool) (arg : Expr) :
    (arg.update op leading).uses F =
      .alike
        (if leading then (arg.uses F).target ++ (arg.uses F).value ++ (arg.uses F).value
          else (arg.uses F).value ++ (arg.uses F).target ++ (arg.uses F).value)
        ((arg.uses F).target ++ (arg.uses F).value) := by
  cases leading <;> simp [Expr.uses, Expr.landmarks, Expr.landmarksDeleted, Uses.alike]

theorem Expr.uses_assign (op : Option BinaryOp) (target value : Expr) :
    (target.assign op value).uses F =
      .alike
        ((target.uses F).target ++ ((if op.isSome then (target.uses F).value else [])
          ++ (value.uses F).value) ++ (target.uses F).value)
        ((target.uses F).target ++ ((if op.isSome then (target.uses F).value else [])
          ++ (value.uses F).value)) := by
  cases op <;> simp [Expr.uses, Expr.landmarks, Expr.landmarksDeleted, Uses.alike]

end Uses

section Parts

variable {F : Scope} {arg : Option Expr} (h : ∀ e ∈ arg, e.emit.Shows F (e.uses F))

include h

theorem Emission.reads_itemCode :
    Reads F (spotsList (Expr.landmarksOpt F .read arg)) (itemCode arg) := by
  cases arg with
  | none => exact .pure rfl
  | some e => exact (h e rfl).value

theorem Emission.coded_initCode (name : String) :
    Coded F (spotsList ((if arg.isSome then [.site ⟨name, .written, F.resolve name⟩] else [])
      ++ Expr.landmarksOpt F .read arg)) (initCode name arg) := by
  cases arg with
  | none => exact .pure rfl
  | some e =>
    refine (coded_initialized name (h e rfl).value).mono fun _ hcode => hcode.trans ?_
    simp [Expr.uses, Expr.landmarksOpt]

theorem Emission.ensures_armCode (n : Nat) {value selected : String}
    (hv : isOwn value = true) (hs : isOwn selected = true) :
    Ensures (Within F) (fun arms =>
      shown (Arm.spotsList arms) = spotsList (Expr.landmarksOpt F .read arg))
      (armCode n arg value selected) := by
  cases arg with
  | none => exact .pure rfl
  | some e =>
    refine (h e rfl).value.bind fun x hx => .pure ?_
    simp [caseArm, hx, Lua.Spot.shown_own, hv, hs, Expr.uses, Expr.landmarksOpt]

theorem Emission.reads_conditionOpt :
    Reads F (spotsList (Expr.landmarksOpt F .read arg)) (conditionOpt (Expr.emitOpt arg)) := by
  cases arg with
  | none => exact .pure rfl
  | some e => exact reads_condition (h e rfl).value

theorem Emission.coded_updateCode :
    Coded F (spotsList (Expr.landmarksOpt F .dropped arg))
      (((Expr.emitOpt arg).map Rendition.effect).getD (pure [])) := by
  cases arg with
  | none => exact .pure rfl
  | some e => exact (h e rfl).effect

theorem Emission.coded_returned :
    Coded F (spotsList (Expr.landmarksOpt F .read arg))
      (returned ((Expr.emitOpt arg).map Rendition.value)) := by
  cases arg with
  | none => exact .pure rfl
  | some e =>
    refine (h e rfl).value.bind fun x hx => .pure ?_
    simp [hx, Expr.uses, Expr.landmarksOpt]

end Parts

/-- A case with an empty body has no code for it. -/
theorem Emission.caseBody_spots {F : Scope} {selected : String} (hs : isOwn selected = true)
    (n : Nat) {body : List Stmt} {code : List Stat}
    (h : shown (Stat.spotsList code) = spotsList (Stmt.landmarksList F body)) :
    shown (Stat.spotsList (if body.isEmpty then [] else [caseBody selected n code])) =
      spotsList (Stmt.landmarksList F body) := by
  cases body with
  | nil => rfl
  | cons s rest =>
    rw [← h]
    simp [caseBody, Lua.Spot.shown_own hs]

theorem Emission.part_finalizer (F : Scope) (finalizer : Option (List Stmt)) :
    part .finalizer (finalizer.map fun body => spotsList (Stmt.landmarksList F body)) =
      spotsList (Stmt.landmarksBlock F finalizer) := by
  cases finalizer <;> rfl

theorem Emission.part_handler (F : Scope) (handlers : List CatchClause) :
    part .handler (handlers.head?.map fun clause => spotsList (Stmt.landmarksList
        (.lexical "catch" [] [] clause.param.toList :: F) clause.body)) =
      spotsList (CatchClause.landmarksFirst F handlers) := by
  rcases handlers with _ | ⟨⟨param, body⟩, rest⟩ <;> rfl

mutual

/-- The code of every use of an expression has the spots of that use. -/
theorem Expr.shows (F : Scope) : (e : Expr) → e.emit.Shows F (e.uses F)
  | .ident name => (Rendition.Shows.ident name).of_eq
      (by simp [Expr.uses, Expr.landmarks, Expr.landmarksDeleted])
  | .this => Rendition.Shows.this
  | .lit value => Rendition.Shows.literal value
  | .array items => Rendition.Shows.array items.length (Expr.shows_items F 0 items)
  | .object props => Rendition.Shows.object (Property.shows F props)
  | .func ⟨name, params, body⟩ =>
    (Rendition.Shows.function (solid_functionValue name _
      (Func.shows _ ⟨name, params, body⟩))).of_eq
      (by simp [Expr.uses, Expr.landmarks, Expr.landmarksDeleted, Uses.alike, spotsList])
  | .unary op arg => (Rendition.Shows.unary op (Expr.shows F arg)).of_eq (arg.uses_unary F op)
  | .update op leading arg =>
    (Rendition.Shows.update op leading (Expr.shows F arg)).of_eq
      (arg.uses_update F op leading)
  | .binary op left right =>
    (Rendition.Shows.binary op (Expr.shows F left) (Expr.shows F right)).of_eq
      (by simp [Expr.uses, Expr.landmarks, Expr.landmarksDeleted, Uses.alike])
  | .logical op left right =>
    (Rendition.Shows.logical op (Expr.shows F left) (Expr.shows F right)).of_eq
      (by simp [Expr.uses, Expr.landmarks, Expr.landmarksDeleted, Uses.alike])
  | .assign op target value =>
    (Rendition.Shows.assign op (Expr.shows F target) (Expr.shows F value)).of_eq
      (target.uses_assign F op value)
  | .cond test cons alt =>
    (Rendition.Shows.conditional (Expr.shows F test) (Expr.shows F cons)
      (Expr.shows F alt)).of_eq
      (by simp [Expr.uses, Expr.landmarks, Expr.landmarksDeleted, Uses.alike])
  | .call callee args =>
    (Rendition.Shows.call (Expr.shows F callee) (Expr.shows_values F args)).of_eq
      (by simp [Expr.uses, Expr.landmarks, Expr.landmarksDeleted, Uses.alike])
  | .new callee args =>
    (Rendition.Shows.new (Expr.shows F callee) (Expr.shows_values F args)).of_eq
      (by simp [Expr.uses, Expr.landmarks, Expr.landmarksDeleted, Uses.alike])
  | .member object name => (Rendition.Shows.member (Expr.shows F object) name).of_eq
      (by simp [Expr.uses, Expr.landmarks, Expr.landmarksDeleted])
  | .index object key => (Rendition.Shows.index (Expr.shows F object) (Expr.shows F key)).of_eq
      (by simp [Expr.uses, Expr.landmarks, Expr.landmarksDeleted])
  | .seq items =>
    (Rendition.Shows.sequence (Expr.shows_values F items) (Expr.shows_effects F items)).of_eq
      (by simp [Expr.uses, Expr.landmarks, Expr.landmarksDeleted, Uses.alike])
  | .unsupported node => Rendition.Shows.unsupported node

theorem Expr.shows_values (F : Scope) : (es : List Expr) →
    Lists F (spotsList (Expr.landmarksList F .read es)) (Expr.emitValues es)
  | [] => .pure rfl
  | e :: rest => by
    refine (Expr.shows F e).value.bind fun x hx => ?_
    refine (Expr.shows_values F rest).bind fun xs hxs => .pure ?_
    simp [hx, hxs, Expr.uses, Expr.landmarksList]

theorem Expr.shows_effects (F : Scope) : (es : List Expr) →
    Coded F (spotsList (Expr.landmarksList F .dropped es)) (Expr.emitEffects es)
  | [] => .pure rfl
  | e :: rest => by
    refine (Expr.shows F e).effect.bind fun code hcode => ?_
    refine (Expr.shows_effects F rest).bind fun codes hcodes => .pure ?_
    simp [Stat.spotsList_append, hcode, hcodes, Expr.uses, Expr.landmarksList]

theorem Expr.shows_opt (F : Scope) : (arg : Option Expr) →
    ∀ e ∈ arg, e.emit.Shows F (e.uses F)
  | none => nofun
  | some e => by
    rintro _ ⟨⟩
    exact Expr.shows F e

theorem Expr.shows_items (F : Scope) (index : Nat) : (items : List (Option Expr)) →
    Ensures (Within F)
      (fun fs => shown (Field.spotsList fs) = spotsList (Expr.landmarksItems F items))
      (Expr.emitItems index items)
  | [] => .pure rfl
  | item :: rest => by
    rw [Expr.emitItems_cons]
    refine (reads_itemCode (Expr.shows_opt F item)).bind fun x hx => ?_
    refine (Expr.shows_items F (index + 1) rest).bind fun fs hfs => .pure ?_
    simp [hx, hfs, Expr.landmarksItems]

theorem Property.shows (F : Scope) : (props : List Property) →
    Ensures (Within F)
      (fun fs => shown (Field.spotsList fs) = spotsList (Property.landmarks F props))
      (Property.emit props)
  | [] => .pure rfl
  | .named key value :: rest => by
    refine (Expr.shows F value).value.bind fun x hx => ?_
    refine (Property.shows F rest).bind fun fs hfs => .pure ?_
    simp [Rendition.propName_spots, hx, hfs, Expr.uses, Property.landmarks]
  | .computed key value :: rest => by
    refine (Expr.shows F key).value.bind fun k hk => ?_
    refine (Expr.shows F value).value.bind fun x hx => ?_
    refine (Property.shows F rest).bind fun fs hfs => .pure ?_
    simp [hk, hx, hfs, Expr.uses, Property.landmarks]

theorem Func.shows (F : Scope) : (f : Func) → Solid F (spotsList (f.landmarks F)) f.emit
  | ⟨_, params, body⟩ => solid_functionCode params (.ofBody body) (Stmt.shows_list _ body)

theorem Declarator.shows (F : Scope) : (decls : List Declarator) →
    Coded F (spotsList (Declarator.landmarks F decls)) (Declarator.emit decls)
  | [] => .pure rfl
  | ⟨name, init⟩ :: rest => by
    rw [Declarator.emit_cons]
    refine (coded_initCode (Expr.shows_opt F init) name).bind fun code hcode => ?_
    refine (Declarator.shows F rest).bind fun codes hcodes => .pure ?_
    simp [Stat.spotsList_append, hcode, hcodes, Declarator.landmarks]

theorem ForInit.shows (F : Scope) : (init : ForInit) →
    Coded F (spotsList (init.landmarks F)) init.emit
  | .none => .pure rfl
  | .vars _ decls => coded_declarators _ (Declarator.shows F decls)
  | .expr e => (Expr.shows F e).effect

theorem ForInHead.shows (F : Scope) : (head : ForInHead) →
    Ensures (Within F) (fun p => shown (Stat.spotsList p.2) = spotsList (head.landmarks F))
      head.emit
  | .var _ name => .pure rfl
  | .target e => by
    have htarget := (Expr.shows F e).target
    cases e with
    | ident name => exact .pure rfl
    | _ =>
      refine (within_fresh _ ⟨_, rfl⟩).bind fun key hk => htarget.bind fun x hx => .pure ?_
      simp [hx, Lua.Spot.shown_own hk, Expr.uses, ForInHead.landmarks]

/-- The code of a statement has the spots of its landmarks. -/
theorem Stmt.shows (F : Scope) (place : Place) : (s : Stmt) →
    Coded F (spotsList (s.landmarks F)) (s.emit place)
  | .empty => coded_labeledCode (.pure rfl)
  | .exprStmt e => coded_labeledCode (Expr.shows F e).effect
  | .varStmt _ decls => coded_labeledCode (coded_declarators _ (Declarator.shows F decls))
  | .funcStmt ⟨name, params, body⟩ => by
    have hcode := coded_functionDeclaration name (Func.shows F ⟨name, params, body⟩)
    refine coded_labeledCode (hcode.mono fun _ h => h.trans ?_)
    cases name <;> rfl
  | .returnStmt arg => coded_labeledReturn (coded_returned (Expr.shows_opt F arg))
  | .throwStmt arg => coded_labeledCode (coded_thrown (Expr.shows F arg).value)
  | .breakStmt label span => coded_labeledCode (coded_breakCode label span)
  | .continueStmt label span => coded_labeledCode (coded_continueCode label span)
  | .ifStmt test cons alt => by
    refine coded_labeledCode ((reads_condition (Expr.shows F test).value).bind fun c hc => ?_)
    refine (cons.shows F .body).bind fun code hcode => ?_
    refine (Stmt.shows_else F alt).bind fun tail htail => .pure ?_
    simp [hc, hcode, htail, Expr.uses, Stmt.landmarks]
  | .whileStmt test body => by
    refine (coded_whileCode (Expr.shows F test).value (body.shows F .body)).bind
      fun code hcode => .pure ?_
    simp [nested_spots, hcode, Expr.uses, Stmt.landmarks]
  | .doWhileStmt body test => by
    refine (coded_doWhileCode (body.shows F .body) (Expr.shows F test).value).bind
      fun code hcode => .pure ?_
    simp [nested_spots, hcode, Expr.uses, Stmt.landmarks]
  | .forStmt init test update body => by
    refine (coded_forCode (init.shows F) (reads_conditionOpt (Expr.shows_opt F test))
      (coded_updateCode (Expr.shows_opt F update)) (body.shows F .body)).bind
      fun code hcode => .pure ?_
    simp [nested_spots, hcode, Stmt.landmarks]
  | .forInStmt head object body => by
    refine (coded_forInCode (Expr.shows F object).value (head.shows F)
      (body.shows F .body)).bind fun code hcode => .pure ?_
    simp [nested_spots, hcode, Expr.uses, Stmt.landmarks]
  | .switchStmt discriminant cases => by
    refine coded_labeledCode ((coded_switchCode (Expr.shows F discriminant).value
      (fun _ _ hv hs => SwitchCase.shows_arms F 1 cases hv hs) _
      (fun _ hs => SwitchCase.shows_bodies F 1 cases hs)).mono fun _ h => h.trans ?_)
    simp [Expr.uses, Stmt.landmarks]
  | .tryStmt block handlers finalizer span => by
    refine coded_labeledCode ((coded_tryCode span handlers.length (Stmt.shows_list F block)
      (Stmt.shows_block F finalizer) (CatchClause.shows_first F handlers)).mono
      fun _ h => h.trans ?_)
    rw [part_finalizer, part_handler, Option.isSome_map, Stmt.landmarks]
    split <;> simp
  | .withStmt object body span => by
    refine coded_labeledCode ((coded_withCode span (Expr.shows F object).value
      (body.shows (.object "with" "" :: F) .body)).mono fun _ h => h.trans ?_)
    simp [Expr.uses, Stmt.landmarks]
  | .labeled label body => body.shows F (.statement (place.labels ++ [label]))
  | .block body => by
    have hbody := Stmt.shows_list F body
    cases place with
    | body => exact hbody
    | statement labels =>
      refine coded_labeledCode (hbody.bind fun code hcode => .pure ?_)
      simp [hcode, Stmt.landmarks]
  | .unsupported node =>
    coded_labeledCode ((within_report _).bind fun _ _ => .pure rfl)

theorem Stmt.shows_list (F : Scope) : (body : List Stmt) →
    Coded F (spotsList (Stmt.landmarksList F body)) (Stmt.emitList body)
  | [] => .pure rfl
  | s :: rest => by
    refine (s.shows F (.statement [])).bind fun code hcode => ?_
    rw [Stmt.landmarksList]
    split
    · refine .pure ?_
      rw [hcode, List.append_nil]
    · refine (Stmt.shows_list F rest).bind fun codes hcodes => .pure ?_
      simp [Stat.spotsList_append, hcode, hcodes]

theorem Stmt.shows_block (F : Scope) : (body : Option (List Stmt)) →
    Ensures (Within F) (fun o => (o.map fun code => shown (Stat.spotsList code)) =
      body.map fun body => spotsList (Stmt.landmarksList F body))
      (optional ((Stmt.emitBlock body).map walled))
  | none => .pure rfl
  | some body => (ensures_walled (Stmt.shows_list F body)).map fun _ h => congrArg some h

theorem Stmt.shows_else (F : Scope) : (alt : Option Stmt) →
    Ensures (Within F) (fun tail => shown tail.spots = spotsList (Stmt.landmarksOpt F alt))
      (Stmt.emitElse alt)
  | none => .pure rfl
  | some s => by
    have hshows := s.shows F .body
    cases s with
    | ifStmt test cons alt =>
      refine (reads_condition (Expr.shows F test).value).bind fun c hc => ?_
      refine (cons.shows F .body).bind fun code hcode => ?_
      refine (Stmt.shows_else F alt).bind fun tail htail => .pure ?_
      simp [hc, hcode, htail, Expr.uses, Stmt.landmarksOpt, Stmt.landmarks]
    | _ => exact hshows.bind fun _ hcode => .pure hcode

theorem SwitchCase.shows_arms (F : Scope) (n : Nat) (cases : List SwitchCase)
    {value selected : String} (hv : isOwn value = true) (hs : isOwn selected = true) :
    Ensures (Within F) (fun arms =>
      shown (Arm.spotsList arms) = spotsList (SwitchCase.landmarksTests F cases))
      (SwitchCase.emitArms n cases value selected) :=
  match cases with
  | [] => .pure rfl
  | ⟨test, _⟩ :: rest => by
    rw [SwitchCase.emitArms_cons]
    refine (ensures_armCode (Expr.shows_opt F test) n hv hs).bind fun arm harm => ?_
    refine (SwitchCase.shows_arms F (n + 1) rest hv hs).bind fun arms harms => .pure ?_
    simp [Arm.spotsList_append, harm, harms, SwitchCase.landmarksTests]

theorem SwitchCase.shows_bodies (F : Scope) (n : Nat) (cases : List SwitchCase)
    {selected : String} (hs : isOwn selected = true) :
    Coded F (spotsList (SwitchCase.landmarksBodies F cases))
      (SwitchCase.emitBodies n cases selected) :=
  match cases with
  | [] => .pure rfl
  | ⟨_, body⟩ :: rest => by
    refine (Stmt.shows_list F body).bind fun code hcode => ?_
    refine (SwitchCase.shows_bodies F (n + 1) rest hs).bind fun codes hcodes => .pure ?_
    rw [Stat.spotsList_append, Lua.shown_append, hcodes, SwitchCase.landmarksBodies,
      Landmark.spotsList_append, caseBody_spots hs n hcode]

theorem CatchClause.shows_first (F : Scope) : (handlers : List CatchClause) →
    Ensures (Within F) (fun o => (o.map fun p => shown (Stat.spotsList p.2)) =
      handlers.head?.map fun clause => spotsList (Stmt.landmarksList
        (.lexical "catch" [] [] clause.param.toList :: F) clause.body))
      (optional (CatchClause.emitFirst handlers))
  | [] => .pure rfl
  | ⟨param, body⟩ :: _ =>
    (ensures_handlerCode param (Stmt.shows_list _ body)).map fun _ h => congrArg some h

end

/-- What a program's chunk shows of it are the spots of its landmarks. -/
theorem Program.spots_emit (p : Program) :
    shown (Stat.spotsList p.emit.chunk.body) = spotsList p.landmarks := by
  have hbody : Coded [rootFrame (.ofBody p.body), .object "program" ""] (spotsList p.landmarks)
      (do
        let locals ← declareLocals (Declarations.ofBody p.body).funcs
        pure ([.marker "BEGIN"] ++ locals ++ (← Stmt.emitList p.body) ++ [.marker "END"])) := by
    refine (coded_declareLocals _).bind fun locals hl => ?_
    refine (Stmt.shows_list _ p.body).bind fun code hcode => .pure ?_
    simp [Stat.spotsList_append, hl, hcode, Program.landmarks, Phase.word]
  have hroot : (rootFrame (.ofBody p.body)).outline = rootFrame (.ofBody p.body) := by
    unfold rootFrame
    dsimp only
    split <;> rfl
  rw [← hroot] at hbody
  have hemission : Coded [] (spotsList p.landmarks) p.emission :=
    ensures_inFrame (.object "program" Lua.globalObjects) (ensures_inFrame _ hbody)
  exact (hemission {} rfl).1

end EcmaLua
