import EcmaLua.Proofs.Emission.Actions
import EcmaLua.Proofs.Lua.Spots
import EcmaLua.Proofs.Program.Sites

/-!
# Spots of the uses of an expression

Of the spots of generated code, those show the program that are phases, checked names or bare names
that the code does not keep for itself. Each use of an expression has code with spots of its own: a
checked name where its value is read, a bare one where it is written to or inspected. What an
emission knows about the names at a place are its open frames; neither the locals noted in them nor
the tables behind objects matter for a spot. The combinators of renditions and the constructs of
statements put spots one behind the other in the order of the text.
-/

namespace EcmaLua

open Emission
open Lua (Helper Stat Field Arm Spot Step)

/-- Whether generated code keeps a name for itself. -/
def Emission.isOwn (text : String) : Bool :=
  "__".toList.isPrefixOf text.toList ||
    ["self", "arguments", "null", "RegExp", "pcall", "error", "table", "bit32", "rawequal"].contains
      text

namespace Lua

/-- What a spot shows of the program. -/
def Spot.shown : Spot → List Spot
  | .read side name => [.read side name]
  | .word .mention text => if isOwn text then [] else [.word .mention text]
  | .word .binder _ | .word .label _ | .word .literal _ | .note _ => []
  | .marker text => [.marker text]

/-- What spots show of the program, in order. -/
def shown (spots : List Spot) : List Spot := spots.flatMap Spot.shown

@[simp] theorem shown_nil : shown [] = [] := rfl

@[simp] theorem shown_cons (spot : Spot) (rest : List Spot) :
    shown (spot :: rest) = spot.shown ++ shown rest := List.flatMap_cons

@[simp] theorem shown_append (a b : List Spot) : shown (a ++ b) = shown a ++ shown b :=
  List.flatMap_append

@[simp] theorem shown_binders (names : List String) : shown (binders names) = [] := by
  induction names with
  | nil => rfl
  | cons name rest ih => exact ih

@[simp] theorem Spot.shown_literal (text : String) : (Spot.word .literal text).shown = [] := rfl

@[simp] theorem Spot.shown_label (text : String) : (Spot.word .label text).shown = [] := rfl

@[simp] theorem Spot.shown_note (text : String) : (Spot.note text).shown = [] := rfl

@[simp] theorem Spot.shown_marker (text : String) :
    (Spot.marker text).shown = [.marker text] := rfl

theorem Spot.shown_own {text : String} (h : isOwn text = true) :
    (Spot.word .mention text).shown = [] := if_pos h

@[simp] theorem shown_helper (h : Helper) (args : List Lua.Expr) (side : Side) :
    shown ((h.call args).spots side) = shown (Expr.spotsList args) := by
  have hname : shown (h.expr.spots .right) = [] := by cases h <;> decide
  rw [Helper.call, Expr.spots, shown_append, hname, List.nil_append]

end Lua

open Lua (shown)
open Lua.Spot (shown_own)

/-- The spot that the code of a site has: a name, checked or bare. -/
def Site.spot (site : Site) : Spot :=
  if site.isChecked then .read .right (Lua.spell site.name)
  else .word .mention (Lua.spell site.name)

/-- The spot that the code of a landmark has. -/
def Landmark.spot : Landmark → Spot
  | .site s => s.spot
  | .phase p => .marker p.word

namespace Emission

/-- What a frame binds, without its locals and the table behind it. -/
def Frame.outline (f : Frame) : Frame :=
  { f with
    kind := match f.kind with
      | .lexical => .lexical
      | .object _ => .object ""
    declared := [] }

/-- The open frames bind what the given ones bind. -/
def Within (F : Scope) (s : State) : Prop := s.scope.map Frame.outline = F

/-- The action makes an expression with these spots, wherever it ends. -/
abbrev Solid (F : Scope) (X : List Spot) : Emit Lua.Expr → Prop :=
  Ensures (Within F) fun e => ∀ side, shown (e.spots side) = X

/-- The action makes an expression with these spots on the right of an assignment. -/
abbrev Reads (F : Scope) (X : List Spot) : Emit Lua.Expr → Prop :=
  Ensures (Within F) fun e => shown (e.spots .right) = X

/-- The action makes expressions with these spots. -/
abbrev Lists (F : Scope) (X : List Spot) : Emit (List Lua.Expr) → Prop :=
  Ensures (Within F) fun es => shown (Lua.Expr.spotsList es) = X

/-- The action makes statements with these spots. -/
abbrev Coded (F : Scope) (X : List Spot) : Emit (List Stat) → Prop :=
  Ensures (Within F) fun code => shown (Stat.spotsList code) = X

section Frames

variable {F : Scope} {α : Type} {P : α → Prop} {act : Emit α}

theorem alwaysAssigned_outline (name : String) (scope : Scope) :
    Rendition.alwaysAssigned name (Scope.resolve name (scope.map Frame.outline)) =
      Rendition.alwaysAssigned name (scope.resolve name) := by
  induction scope with
  | nil => rfl
  | cons f rest ih =>
    obtain ⟨kind, label, bindings, declared⟩ := f
    cases kind with
    | lexical =>
      simp only [List.map_cons, Frame.outline, Scope.resolve, Frame.role?]
      split
      · rfl
      · exact ih
    | object proxy => cases rest <;> rfl

theorem outline_declare (name : String) (scope : Scope) :
    (scope.declare name).2.map Frame.outline = scope.map Frame.outline := by
  induction scope with
  | nil => rfl
  | cons f rest ih =>
    obtain ⟨kind, label, bindings, declared⟩ := f
    cases kind with
    | lexical =>
      simp only [Scope.declare]
      split <;> rfl
    | object proxy => exact congrArg (List.cons _) ih

theorem within_fresh (stem : String) (h : ∃ rest, stem.toList = '_' :: '_' :: rest) :
    Ensures (Within F) (fun name => isOwn name = true) (fresh stem) := by
  obtain ⟨rest, hstem⟩ := h
  intro s hs
  refine ⟨?_, hs⟩
  change ("__".toList.isPrefixOf (stem ++ toString s.supply.next.1).toList || _) = true
  rw [String.toList_append, hstem]
  rfl

theorem within_report (finding : Finding) :
    Ensures (Within F) (fun _ => True) (report finding) :=
  fun _ hs => ⟨trivial, hs⟩

theorem within_lookup (name : String) :
    Ensures (Within F) (fun resolution => Rendition.alwaysAssigned name resolution =
      Rendition.alwaysAssigned name (F.resolve name)) (lookup name) := by
  rintro s rfl
  rw [lookup_eq]
  refine ⟨(alwaysAssigned_outline name s.scope).symm, ?_⟩
  dsimp only
  split <;> rfl

theorem within_declareNew (names : List String) :
    Ensures (Within F) (fun _ => True) (declareNew names) := by
  induction names with
  | nil => exact .pure trivial
  | cons name rest ih =>
    intro s hs
    refine ⟨trivial, (ih { s with scope := (s.scope.declare name).2 } ?_).2⟩
    exact (outline_declare name s.scope).trans hs

theorem coded_declareLocals (names : List String) : Coded F [] (declareLocals names) := by
  refine (within_declareNew names).bind fun new _ => .pure ?_
  split <;> simp

theorem ensures_inFrame (frame : Frame) (h : Ensures (Within (frame.outline :: F)) P act) :
    Ensures (Within F) P (inFrame frame act) := by
  intro s hs
  obtain ⟨hp, hs'⟩ := h { s with scope := frame :: s.scope } (congrArg (List.cons _) hs)
  have htail : (act { s with scope := frame :: s.scope }).2.scope.tail.map Frame.outline = F := by
    rw [List.map_tail, hs', List.tail_cons]
  exact ⟨hp, htail⟩

theorem ensures_enclosed (enclosure : Enclosure) (h : Ensures (Within F) P act) :
    Ensures (Within F) (fun p => P p.1) (enclosed enclosure act) :=
  fun s hs => h { s with control := enclosure :: s.control } hs

theorem ensures_walled (h : Ensures (Within F) P act) : Ensures (Within F) P (walled act) :=
  ensures_enclosed .barrier h

theorem ensures_labeled (labels : List String) (h : Ensures (Within F) P act) :
    Ensures (Within F) P (labeled labels act) := by
  induction labels with
  | nil => exact h
  | cons label rest ih => exact ensures_enclosed (.labeled label) ih

theorem ensures_detached (h : Ensures (Within F) P act) : Ensures (Within F) P (detached act) :=
  fun s hs => h { s with control := [] } hs

theorem ensures_capturing (h : Ensures (Within F) P act) :
    Ensures (Within F) (fun p => P p.1) (capturing act) :=
  fun s hs => h { s with captured := [] :: s.captured } hs

end Frames

/-- The spots of the code of an expression, for each of its uses. -/
structure Uses where
  value : List Spot
  inspected : List Spot
  target : List Spot
  effect : List Spot
  deleted : List Spot

/-- The same spots whatever the use, but for the effect. -/
def Uses.alike (X effect : List Spot) : Uses := ⟨X, X, X, effect, []⟩

/-- The spots of the operand of a unary operator. -/
def Uses.operand (u : Uses) : UnaryOp → List Spot
  | .minus | .plus | .not | .bitNot => u.value
  | .typeof => u.inspected
  | .void => []
  | .delete => u.deleted

/-- The code of each use of an expression has the spots of that use. -/
structure Rendition.Shows (F : Scope) (u : Uses) (r : Rendition) : Prop where
  value : Reads F u.value r.value
  unguarded : Reads F u.inspected r.unguarded
  target : Ensures (Within F) (fun e => shown (e.spots .left) = u.target) r.target
  effect : Coded F u.effect r.effect
  base : Reads F u.value r.base
  key : ∀ k, shown ((r.key k).spots .right) = shown (k.spots .right)
  invoke : ∀ {X args}, Lists F X args → Solid F (u.value ++ X) (r.invoke args)
  delete : Solid F u.deleted r.delete

namespace Rendition

variable {F : Scope} {X Y : List Spot} {u w x : Uses} {value : Emit Lua.Expr}
  {effect : Emit (List Stat)} {args : Emit (List Lua.Expr)} {l r test cons alt : Rendition}

theorem coded_drop (h : Reads F X value) : Coded F X (drop value) :=
  h.bind fun e he => .pure (by simp [he])

/-- A rendition that needs nothing special but for its effect. -/
theorem Shows.ofValueEffect (hv : Solid F X value) (he : Coded F Y effect) :
    Shows F (.alike X Y) { ofValue value with effect := effect } where
  value := hv.mono fun _ h => h .right
  unguarded := hv.mono fun _ h => h .right
  target := hv.mono fun _ h => h .left
  effect := he
  base := hv.mono fun _ h => h .right
  key := fun _ => rfl
  invoke := fun ha => hv.bind fun _ hf => ha.bind fun _ ha => .pure fun _ => by
    simp [hf, ha, Uses.alike]
  delete := .pure fun _ => rfl

theorem Shows.ofValue (h : Solid F X value) : Shows F (.alike X X) (.ofValue value) :=
  .ofValueEffect h (coded_drop (h.mono fun _ h => h .right))

theorem isChecked_eq (name : String) {m : Mention} (hm : m = .read ∨ m = .dropped)
    (resolution : Resolution) :
    (Site.mk name m resolution).isChecked = !alwaysAssigned name resolution := by
  have hreads : (m == .read || m == .dropped) = true := by
    rcases hm with rfl | rfl <;> rfl
  simp only [Site.isChecked, hreads, Bool.true_and]
  cases resolution with
  | bound role => cases role <;> simp [alwaysAssigned]
  | dynamic proxy => simp [alwaysAssigned]
  | global => simp [alwaysAssigned]

theorem reads_readName (name : String) {m : Mention} (hm : m = .read ∨ m = .dropped) :
    Reads F (Site.mk name m (F.resolve name)).spot.shown (readName name) := by
  refine (within_lookup name).bind fun resolution hr => .pure ?_
  rw [Site.spot, isChecked_eq name hm, ← hr]
  cases alwaysAssigned name resolution <;> simp [Lua.Spot.shown]

theorem bareName_spots (name : String) {m : Mention} (hm : m = .written ∨ m = .inspected)
    (side : Lua.Side) :
    Ensures (Within F) (fun e => shown (e.spots side) =
      (Site.mk name m (F.resolve name)).spot.shown) (bareName name) := by
  refine (within_lookup name).bind fun _ _ => .pure ?_
  rcases hm with rfl | rfl <;> simp [Site.spot, Site.isChecked]

theorem Shows.ident (name : String) :
    Shows F ⟨(Site.mk name .read (F.resolve name)).spot.shown,
      (Site.mk name .inspected (F.resolve name)).spot.shown,
      (Site.mk name .written (F.resolve name)).spot.shown,
      (Site.mk name .dropped (F.resolve name)).spot.shown, []⟩ (.ident name) where
  value := reads_readName (m := .read) name (.inl rfl)
  unguarded := by
    dsimp only
    exact bareName_spots name (.inr rfl) .right
  target := by
    dsimp only
    exact bareName_spots name (.inl rfl) .left
  effect := coded_drop (reads_readName (m := .dropped) name (.inr rfl))
  base := reads_readName (m := .read) name (.inl rfl)
  key := fun k => by
    unfold Rendition.ident
    dsimp only
    split <;> simp
  invoke := fun ha => (reads_readName (m := .read) name (.inl rfl)).bind fun _ hf =>
    ha.bind fun _ ha => .pure fun _ => by simp [hf, ha]
  delete := .pure fun side => by simp [shown_own (by decide : isOwn "self" = true)]

theorem Shows.this : Shows F (.alike [] []) .this := by
  have hself : Solid F [] (Pure.pure (.name "self")) :=
    .pure fun _ => by simp [shown_own (by decide : isOwn "self" = true)]
  exact { Shows.ofValue hself with delete := .pure fun _ => rfl }

theorem literalValue_spots (literal : Literal) (side : Lua.Side) :
    shown ((literalValue literal).spots side) = [] := by
  have hnull : isOwn "null" = true := by decide
  have hregex : isOwn "RegExp" = true := by decide
  cases literal <;> simp [literalValue, shown_own, hnull, hregex]

theorem Shows.literal (literal : Literal) : Shows F (.alike [] []) (.literal literal) :=
  { Shows.ofValue (.pure fun side => literalValue_spots literal side) with
    base := .pure (literalValue_spots literal .right)
    invoke := fun ha => ha.bind fun _ ha => .pure fun side => (Lua.shown_helper _ _ side).trans ha }

theorem Shows.function (h : Solid F X value) : Shows F (.alike X X) (.function value) :=
  { Shows.ofValue h with
    invoke := fun ha => h.bind fun _ hf => ha.bind fun _ ha => .pure fun _ => by
      simp [hf, ha, Uses.alike] }

theorem binaryValue_spots (op : BinaryOp) (a b : Lua.Expr) (side : Lua.Side) :
    shown ((binaryValue op a b).spots side) =
      shown (a.spots .right) ++ shown (b.spots .right) := by
  unfold binaryValue
  split
  · dsimp only
    split <;> simp
  · simp

theorem Shows.binary (op : BinaryOp) (hl : Shows F u l) (hr : Shows F w r) :
    Shows F (.alike (u.value ++ w.value) (u.value ++ w.value)) (.binary op l r) := by
  refine .ofValue (hl.value.bind fun a ha => hr.value.bind fun b hb => .pure fun side => ?_)
  rw [binaryValue_spots, ha, hb]

theorem Shows.logical (op : LogicalOp) (hl : Shows F u l) (hr : Shows F w r) :
    Shows F (.alike (u.value ++ w.value) (u.value ++ w.value)) (.logical op l r) := by
  refine .ofValue (hl.value.bind fun a ha => hr.value.bind fun b hb => .pure fun side => ?_)
  simp [ha, hb]

theorem Shows.unary (op : UnaryOp) (h : Shows F u r) :
    Shows F (.alike (u.operand op) (u.operand op)) (.unary op r) := by
  apply Shows.ofValue
  cases op with
  | void => exact .pure fun _ => rfl
  | delete => exact h.delete
  | typeof =>
    refine h.unguarded.bind fun a ha => .pure fun side => ?_
    simp [ha, Uses.operand]
  | _ =>
    refine h.value.bind fun a ha => .pure fun side => ?_
    simp [ha, Uses.operand]

theorem Shows.conditional (ht : Shows F u test) (hc : Shows F w cons) (ha : Shows F x alt) :
    Shows F (.alike (u.value ++ w.value ++ x.value) (u.value ++ w.value ++ x.value))
      (.conditional test cons alt) := by
  refine .ofValue (ht.value.bind fun t ht => hc.value.bind fun c hc => ?_)
  refine ha.value.bind fun a ha => .pure fun side => ?_
  simp [ht, hc, ha]

theorem performing_spots (steps : List Step) (result : Lua.Expr) (side : Lua.Side) :
    (performing steps result).spots side = Step.spotsList steps ++ result.spots .right := by
  simp [performing]

theorem stepped_spots (op : UpdateOp) (current : Lua.Expr) (side : Lua.Side) :
    shown ((stepped op current).spots side) = shown (current.spots .right) := by
  cases op <;> simp [stepped]

/-- An update reads its operand once for the new value, and once for its own value. -/
theorem Shows.update (op : UpdateOp) (leading : Bool) (h : Shows F u r) :
    Shows F (.alike
      (if leading then u.target ++ u.value ++ u.value else u.value ++ u.target ++ u.value)
      (u.target ++ u.value)) (.update op leading r) := by
  apply Shows.ofValueEffect
  · refine h.target.bind fun place hp => h.value.bind fun current hc => ?_
    cases leading with
    | true =>
      refine .pure fun side => ?_
      simp [performing_spots, stepped_spots, hp, hc]
    | false =>
      refine (within_fresh _ ⟨_, rfl⟩).bind fun old ho => .pure fun side => ?_
      simp [performing_spots, stepped_spots, hp, hc, shown_own ho]
  · refine h.target.bind fun place hp => h.value.bind fun current hc => .pure ?_
    simp [stepped_spots, hp, hc]

theorem reads_assigned (op : Option BinaryOp) (hl : Shows F u l) (hr : Shows F w r) :
    Reads F ((if op.isSome then u.value else []) ++ w.value) (assigned op l r) := by
  cases op with
  | none => exact hr.value
  | some op =>
    refine hl.value.bind fun a ha => hr.value.bind fun b hb => .pure ?_
    rw [binaryValue_spots, ha, hb]
    rfl

/-- An assignment writes its target and, where its value counts, reads it behind. -/
theorem Shows.assign (op : Option BinaryOp) (hl : Shows F u l) (hr : Shows F w r) :
    Shows F (.alike
      (u.target ++ ((if op.isSome then u.value else []) ++ w.value) ++ u.value)
      (u.target ++ ((if op.isSome then u.value else []) ++ w.value))) (.assign op l r) := by
  have hnew := reads_assigned op hl hr
  apply Shows.ofValueEffect
  · refine hl.target.bind fun place hp => hnew.bind fun new hn => ?_
    refine hl.value.bind fun result hresult => .pure fun side => ?_
    simp [performing_spots, hp, hn, hresult]
  · refine hl.target.bind fun place hp => hnew.bind fun new hn => .pure ?_
    simp [hp, hn]

theorem Shows.call (hf : Shows F u r) (ha : Lists F X args) :
    Shows F (.alike (u.value ++ X) (u.value ++ X)) (.call r args) := by
  refine .ofValueEffect (hf.invoke ha) ((hf.invoke ha).bind fun e he => .pure ?_)
  simp [he]

theorem Shows.new (hf : Shows F u r) (ha : Lists F X args) :
    Shows F (.alike (u.value ++ X) (u.value ++ X)) (.new r args) := by
  refine .ofValue (hf.value.bind fun f hf => ha.bind fun es hes => .pure fun side => ?_)
  simp [hf, hes]

theorem solid_method {object key : Emit Lua.Expr} {K : List Spot} (ho : Reads F X object)
    (hk : Reads F K key) (ha : Lists F Y args) :
    Solid F (X ++ K ++ Y) (method object key args) := by
  refine ho.bind fun o ho => hk.bind fun k hk => ha.bind fun es hes => .pure fun side => ?_
  simp [ho, hk, hes]

theorem Shows.member (h : Shows F u r) (name : String) :
    Shows F ⟨u.value, u.value, u.value, u.value, u.value⟩ (.member r name) := by
  have hplace : Solid F u.value (r.member name).target :=
    h.base.bind fun e he => .pure fun _ => by simp [he]
  have hvalue : Solid F u.value (r.member name).value := by
    unfold Rendition.member
    simp only [Rendition.ofValue]
    split
    · exact h.value.bind fun e he => .pure fun side => by simp [he]
    · exact hplace
  have hkey : Reads F [] (Pure.pure (.string name)) := .pure rfl
  exact
    { Shows.ofValue hvalue with
      target := hplace.mono fun _ h => h .left
      invoke := fun ha => (solid_method h.value hkey ha).mono fun _ h => by
        simpa only [List.append_nil] using h
      delete := h.value.bind fun e he => .pure fun side => by simp [he] }

theorem Shows.index (hl : Shows F u l) (hr : Shows F w r) :
    Shows F ⟨u.value ++ w.value, u.value ++ w.value, u.value ++ w.value, u.value ++ w.value,
      u.value ++ w.value⟩ (.index l r) := by
  have hposition : Reads F w.value (do Pure.pure (l.key (← r.value))) :=
    hr.value.bind fun k hk => .pure ((hl.key k).trans hk)
  have hvalue : Solid F (u.value ++ w.value) (l.index r).value := by
    refine hl.base.bind fun o ho => hposition.bind fun k hk => .pure fun side => ?_
    simp [ho, hk]
  exact
    { Shows.ofValue hvalue with
      invoke := fun ha => solid_method hl.value hposition ha
      delete := hl.value.bind fun o ho => hr.value.bind fun k hk => .pure fun side => by
        simp [ho, hk] }

theorem Shows.sequence (hv : Lists F X args) (he : Coded F Y effect) :
    Shows F (.alike X Y) (.sequence args effect) := by
  refine .ofValueEffect (hv.bind fun es hes => .pure fun side => ?_) he
  simp [Field.spotsList_items, hes]

variable {fields : Emit (List Field)}

theorem Shows.array (count : Nat)
    (h : Ensures (Within F) (fun fs => shown (Field.spotsList fs) = X) fields) :
    Shows F (.alike X X) (.array count fields) := by
  refine .ofValue (h.bind fun fs hfs => .pure fun side => ?_)
  simp [Field.spotsList_append, hfs]

theorem Shows.object (h : Ensures (Within F) (fun fs => shown (Field.spotsList fs) = X) fields) :
    Shows F (.alike X X) (.object fields) := by
  refine .ofValue (h.bind fun fs hfs => .pure fun side => ?_)
  simp [hfs]

theorem Shows.unsupported (node : Unsupported) : Shows F (.alike [] []) (.unsupported node) :=
  .ofValueEffect ((within_report _).bind fun _ _ => .pure fun _ => rfl)
    ((within_report _).bind fun _ _ => .pure rfl)

theorem propName_spots (name : PropName) (side : Lua.Side) :
    shown ((propName name).spots side) = [] := by
  cases name <;> rfl

end Rendition

section Constructs

variable {F : Scope} {X Y Z : List Spot} {u : Uses} {r : Rendition}
  {value literal : Emit Lua.Expr} {act body : Emit (List Stat)} {labels : List String}

theorem nested_spots (labels : List String) (code : List Stat) :
    shown (Stat.spotsList (nested labels code)) = shown (Stat.spotsList code) := by
  induction labels with
  | nil => rfl
  | cons label rest ih =>
    change shown (Stat.spotsList [.doBlock (nested rest code ++ [.label (afterLabel label)])]) = _
    simp [Stat.spotsList_append, ih]

theorem labels_spots (labels : List String) :
    shown (Stat.spotsList (labels.map fun label => Stat.label (Lua.spell label))) = [] := by
  induction labels with
  | nil => rfl
  | cons label rest ih => exact ih

theorem coded_labeledCode (h : Coded F X act) : Coded F X (labeledCode labels act) :=
  (ensures_labeled labels h).bind fun code hc => .pure ((nested_spots labels code).trans hc)

theorem coded_labeledReturn (h : Coded F X act) : Coded F X (labeledReturn labels act) := by
  refine (ensures_labeled labels h).bind fun code hc => .pure ?_
  rw [nested_spots]
  split <;> simp [hc]

theorem coded_thrown (h : Reads F X value) : Coded F X (thrown value) := by
  refine h.bind fun e he => .pure ?_
  simp [he, shown_own (by decide : isOwn "error" = true)]

theorem coded_jumpCode (note : String) (blocked missing : Finding) (jump : Jump) :
    Coded F [] (jumpCode note blocked missing jump) := by
  cases jump with
  | leave => exact .pure rfl
  | goTo name => exact .pure rfl
  | blocked => exact (within_report _).bind fun _ _ => .pure rfl
  | missing => exact (within_report _).bind fun _ _ => .pure rfl

theorem coded_breakCode (label : Option String) (span : Span) :
    Coded F [] (breakCode label span) := by
  intro s hs
  rw [breakCode_eq]
  exact coded_jumpCode _ _ _ _ s hs

theorem coded_continueCode (label : Option String) (span : Span) :
    Coded F [] (continueCode label span) := by
  intro s hs
  rw [continueCode_eq]
  exact coded_jumpCode _ _ _ _ _ hs

theorem reads_condition (h : Reads F X r.value) : Reads F X (condition r) := by
  refine h.bind fun e he => .pure ?_
  simp [he]

theorem coded_loopBody (h : Coded F X body) : Coded F X (loopBody labels body) := by
  refine (ensures_enclosed (.loop labels none) h).bind ?_
  rintro ⟨code, enclosure⟩ hcode
  refine .pure ?_
  split <;> simp [Stat.spotsList_append, labels_spots, hcode]

theorem coded_whileCode (ht : Reads F X r.value) (hb : Coded F Y body) :
    Coded F (X ++ Y) (whileCode labels r body) := by
  refine (reads_condition ht).bind fun c hc => (coded_loopBody hb).bind fun code hcode => .pure ?_
  simp [hc, hcode]

theorem coded_doWhileCode (hb : Coded F X body) (ht : Reads F Y r.value) :
    Coded F (X ++ Y) (doWhileCode labels body r) := by
  refine (coded_loopBody hb).bind fun code hcode => (reads_condition ht).bind fun c hc => .pure ?_
  simp [hcode, hc]

theorem coded_forCode {init update : Emit (List Stat)} {test : Option Rendition}
    {U : List Spot} (hi : Coded F X init) (ht : Reads F Y (conditionOpt test))
    (hu : Coded F U update) (hb : Coded F Z body) :
    Coded F (X ++ Y ++ Z ++ U) (forCode labels init test update body) := by
  rw [forCode_eq]
  refine hi.bind fun start hstart => ht.bind fun c hc => ?_
  refine (coded_loopBody hb).bind fun code hcode => hu.bind fun step hstep => .pure ?_
  simp [Stat.spotsList_append, hstart, hc, hcode, hstep]

theorem coded_forInCode {head : Emit (String × List Stat)} (ho : Reads F X r.value)
    (hh : Ensures (Within F) (fun p => shown (Stat.spotsList p.2) = Y) head) (hb : Coded F Z body) :
    Coded F (X ++ Y ++ Z) (forInCode labels r head body) := by
  refine ho.bind fun o ho => (within_fresh _ ⟨_, rfl⟩).bind fun ignored _ => hh.bind ?_
  rintro ⟨key, store⟩ hstore
  refine (coded_loopBody hb).bind fun code hcode => .pure ?_
  simp [Stat.spotsList_append, ho, hcode, ← hstore]

theorem selection_spots {selected : String} (hs : isOwn selected = true) (arms : List Arm)
    (default : Option Nat) :
    shown (Stat.spotsList (selection selected arms default)) = shown (Arm.spotsList arms) := by
  cases arms <;> cases default <;> simp [selection, shown_own hs]

theorem coded_switchCode {arms : String → String → Emit (List Arm)}
    {bodies : String → Emit (List Stat)} (hd : Reads F X r.value)
    (ha : ∀ v s, isOwn v = true → isOwn s = true →
      Ensures (Within F) (fun as => shown (Arm.spotsList as) = Y) (arms v s))
    (default : Option Nat) (hb : ∀ s, isOwn s = true → Coded F Z (bodies s)) :
    Coded F (X ++ Y ++ Z) (switchCode r arms default bodies) := by
  refine (within_fresh _ ⟨_, rfl⟩).bind fun v hv => (within_fresh _ ⟨_, rfl⟩).bind fun s hs => ?_
  refine hd.bind fun d hd => (ha v s hv hs).bind fun as has => ?_
  refine (ensures_enclosed .switch (hb s hs)).bind ?_
  rintro ⟨code, enclosure⟩ hcode
  refine .pure ?_
  simp [Stat.spotsList_append, selection_spots hs, hcode, has, hd]

/-- The spots of the part of a `try` statement that may be missing. -/
def part (p : Phase) : Option (List Spot) → List Spot
  | none => []
  | some X => .marker p.word :: X

/-- The locals of a `try` statement are names of generated code. -/
structure TryNames.Own (names : TryNames) : Prop where
  status : isOwn names.status = true
  value : isOwn names.value = true
  catchValue : isOwn names.catchValue = true
  finalizer : isOwn names.finalizer = true
  handler : isOwn names.handler = true

theorem tryPhases_spots {names : TryNames} (h : names.Own) (code : List Stat)
    (final : Option (List Stat)) (caught : Option (List String × List Stat)) :
    shown (Stat.spotsList (tryPhases names code final caught)) =
      [.marker Phase.tryBody.word] ++ shown (Stat.spotsList code)
        ++ part .finalizer (final.map fun code => shown (Stat.spotsList code))
        ++ part .handler (caught.map fun p => shown (Stat.spotsList p.2))
        ++ [.marker Phase.earlyReturn.word, .marker Phase.checkCatch.word]
        ++ (if final.isSome then [.marker Phase.justFinalizer.word] else []) := by
  have herror : isOwn "error" = true := by decide
  have hpcall : isOwn "pcall" = true := by decide
  cases final <;> cases caught <;>
    simp [tryPhases, part, Phase.word, shown_own, h.status, h.value, h.catchValue, h.finalizer,
      h.handler, herror, hpcall]

theorem ensures_handlerCode (param : Option String)
    (h : Coded (.lexical "catch" [] [] param.toList :: F) X body) :
    Ensures (Within F) (fun p => shown (Stat.spotsList p.2) = X) (handlerCode param body) :=
  (ensures_inFrame (.lexical "catch" [] [] param.toList)
    ((within_declareNew _).bind fun _ _ => ensures_walled h)).bind fun _ hcode => .pure hcode

theorem coded_clauseNotes (clauses : Nat) (span : Span) :
    Coded F [] (clauseNotes clauses span) := by
  unfold clauseNotes
  split
  · exact .pure rfl
  · exact (within_report _).bind fun _ _ => .pure rfl

theorem coded_tryCode (span : Span) (clauses : Nat) {B C : Option (List Spot)}
    {handler : Option (Emit (List String × List Stat))}
    {finalizer : Option (Emit (List Stat))} (hb : Coded F X body)
    (hf : Ensures (Within F) (fun o => (o.map fun code => shown (Stat.spotsList code)) = B)
      (optional (finalizer.map walled)))
    (hh : Ensures (Within F) (fun o => (o.map fun p => shown (Stat.spotsList p.2)) = C)
      (optional handler)) :
    Coded F ([.marker Phase.tryBody.word] ++ X ++ part .finalizer B ++ part .handler C
      ++ [.marker Phase.earlyReturn.word, .marker Phase.checkCatch.word]
      ++ (if B.isSome then [.marker Phase.justFinalizer.word] else []))
      (tryCode span body clauses handler finalizer) := by
  rw [tryCode_eq]
  refine (within_fresh _ ⟨_, rfl⟩).bind fun status hs => ?_
  refine (within_fresh _ ⟨_, rfl⟩).bind fun value hv => ?_
  refine (within_fresh _ ⟨_, rfl⟩).bind fun catchValue hc => ?_
  refine (within_fresh _ ⟨_, rfl⟩).bind fun last hl => ?_
  refine (within_fresh _ ⟨_, rfl⟩).bind fun first hr => ?_
  have hown : TryNames.Own ⟨status, value, catchValue, last, first⟩ := ⟨hs, hv, hc, hl, hr⟩
  refine (coded_clauseNotes clauses span).bind fun notes hn => ?_
  refine (ensures_walled hb).bind fun code hcode => hf.bind fun final hfinal => ?_
  refine hh.bind fun caught hcaught => .pure ?_
  have hsome : final.isSome = B.isSome := by rw [← hfinal, Option.isSome_map]
  rw [Stat.spotsList_append, Lua.shown_append, hn, Stat.spotsList_singleton, Stat.spots,
    tryPhases_spots hown, hcode, hfinal, hcaught, hsome, List.nil_append]

theorem coded_withCode (span : Span) (ho : Reads F X r.value)
    (hb : Coded (.object "with" "" :: F) Y body) : Coded F (X ++ Y) (withCode span r body) := by
  refine (within_fresh _ ⟨_, rfl⟩).bind fun proxy _ => ho.bind fun o ho => ?_
  refine (ensures_inFrame (.object "with" proxy) (ensures_capturing hb)).bind ?_
  rintro ⟨code, names⟩ hcode
  refine (within_report _).bind fun _ _ => .pure ?_
  simp [ho, ← hcode]

theorem solid_functionCode (params : List String) (names : Declarations)
    (hb : Coded (functionFrame params names :: F) X body) :
    Solid F X (functionCode params names body) := by
  have hcode : Coded (functionFrame params names :: F) X (do
      let _ ← declareNew (if names.references "arguments" then params ++ ["arguments"] else params)
      let locals ← declareLocals names.funcs
      Pure.pure (locals ++ (← body))) := by
    refine (within_declareNew _).bind fun _ _ => (coded_declareLocals _).bind fun locals hl => ?_
    refine hb.bind fun code hcode => .pure ?_
    simp [Stat.spotsList_append, hl, hcode]
  refine (ensures_detached (ensures_inFrame (functionFrame params names) hcode)).bind
    fun code hcode => .pure fun side => ?_
  -- what comes before the body unpacks the arguments, and mentions nothing of the program
  have htable : isOwn "table" = true := by decide
  have harguments : isOwn "arguments" = true := by decide
  split
  · split <;> simp [hcode, shown_own, htable, harguments]
  · simp [hcode]

theorem solid_functionValue (name : Option String) (references : List String)
    (h : Solid (selfScope F name references) X literal) :
    Solid F (shown ((selfSite F .written name references).map Landmark.spot) ++ X
      ++ shown ((selfSite F .read name references).map Landmark.spot))
      (functionValue name references literal) := by
  cases name with
  | none => exact h.mono fun _ h side => by simp [selfSite, h side]
  | some name =>
    rw [selfScope] at h
    rw [functionValue]
    split
    · next hself =>
        rw [if_pos hself] at h
        refine (ensures_inFrame (.lexical "named-function" [] [name] [])
          ((within_declareNew [name]).bind fun _ _ => h)).bind fun f hf => .pure fun side => ?_
        have hbound : (selfScope F (some name) references).resolve name = .bound .function := by
          rw [selfScope, if_pos hself]
          simp [Scope.resolve, Frame.role?, Frame.lexical]
        rw [selfSite, selfSite, if_pos hself, if_pos hself, hbound]
        simp [hf, Landmark.spot, Site.spot, Site.isChecked]
    · next hself =>
        rw [if_neg hself] at h
        rw [selfSite, selfSite, if_neg hself, if_neg hself]
        exact h.mono fun _ h side => by simp [h side]

theorem coded_functionDeclaration (name : Option String) (h : Solid F X literal) :
    Coded F (match name with
      | none => []
      | some name => (Site.mk name .written (F.resolve name)).spot.shown ++ X)
      (functionDeclaration name literal) := by
  cases name with
  | none => exact (within_report _).bind fun _ _ => .pure rfl
  | some name =>
    refine (coded_declareLocals [name]).bind fun locals hl => ?_
    refine (Rendition.bareName_spots name (.inl rfl) .left).bind fun place hp => ?_
    exact h.bind fun f hf => .pure (by simp [Stat.spotsList_append, hl, hp, hf])

theorem coded_initialized (name : String) (h : Reads F X value) :
    Coded F ((Site.mk name .written (F.resolve name)).spot.shown ++ X)
      (initialized name value) := by
  refine (Rendition.bareName_spots name (.inl rfl) .left).bind fun place hp => ?_
  exact h.bind fun e he => .pure (by simp [hp, he])

/-- The locals of a declaration show nothing. -/
theorem coded_declarators (names : List String) (h : Coded F X act) :
    Coded F X (do pure ((← declareLocals names) ++ (← act))) := by
  refine (coded_declareLocals names).bind fun locals hl => h.bind fun code hcode => .pure ?_
  simp [Stat.spotsList_append, hl, hcode]

end Constructs

end Emission

end EcmaLua
