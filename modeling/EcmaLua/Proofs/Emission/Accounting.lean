import EcmaLua.Proofs.Emission.Visits

/-!
# Emission accounts for every issue

Every use of an expression for its value comes to the issues of the expression as it is used, its
effect to those without the use, and deleting it to those of its parts if it is a property. The code
of a statement comes to the issues of the statement. Each construct is accounted for from its parts,
and one walk over the tree puts them together.
-/

namespace EcmaLua

open Emission
open Lua (Helper Atom Stat Field Arm)
open List (forall_mem_append forall_mem_cons)

namespace Emission

/-- The uses of the expression come to the first issues, its effect to the second, and its deletion
to the third. -/
structure Rendition.Accounts (Q : Allowance) (N E D : List Issue) (r : Rendition) : Prop where
  value : ExprAccounts Q N r.value
  unguarded : ExprAccounts Q N r.unguarded
  target : ExprAccounts Q N r.target
  effect : CodeAccounts Q E r.effect
  base : ExprAccounts Q N r.base
  key : ∀ k, (r.key k).atoms = k.atoms
  invoke : ∀ {M args}, Emission.Accounts Lua.Expr.atomsList Q M [] args →
    ExprAccounts Q (N ++ M) (r.invoke args)
  delete : ExprAccounts Q D r.delete

/-- An expression that may be missing, and comes to nothing then. -/
def Rendition.AccountsOpt (Q : Allowance) (N : List Issue) : Option Rendition → Prop
  | none => N = []
  | some r => ∃ E D, r.Accounts Q N E D

namespace Rendition

variable {Q : Allowance} {N M K D D' D'' E E' E'' : List Issue} {value : Emit Lua.Expr}
  {effect : Emit (List Stat)} {args : Emit (List Lua.Expr)} {l r test cons alt : Rendition}

/-- A rendition that needs nothing special but for its effect. -/
theorem Accounts.ofValueEffect (hv : ExprAccounts Q N value) (he : CodeAccounts Q E effect) :
    Accounts Q N E [] { ofValue value with effect := effect } where
  value := hv
  unguarded := hv
  target := hv
  effect := he
  base := hv
  key := fun _ => rfl
  invoke := fun ha => hv.bind fun _ => ha.last fun _ => .of_eq (by simp)
  delete := .pure (.of_eq rfl)

theorem Accounts.ofValue (h : ExprAccounts Q N value) : Accounts Q N N [] (.ofValue value) :=
  .ofValueEffect h (h.last fun _ => .of_eq (by simp))

theorem accounts_bareName (name : String) : ExprAccounts Q [] (bareName name) :=
  (silent_lookup name).bind fun _ _ => .pure (.of_eq rfl)

theorem accounts_readName (name : String) : ExprAccounts Q [] (readName name) := by
  refine (silent_lookup name).bind fun _ _ => .pure (.of_eq ?_)
  split <;> rfl

theorem Accounts.ident (name : String) : Accounts Q [] [] [] (.ident name) :=
  { Accounts.ofValue (accounts_readName name) with
    unguarded := accounts_bareName name
    target := accounts_bareName name
    key := fun k => by
      unfold Rendition.ident
      dsimp only
      split
      · exact List.append_nil _
      · rfl
    delete := .pure (.of_eq (by simp)) }

theorem Accounts.this : Accounts Q [] [] [] .this := by
  have hself : ExprAccounts Q [] (Pure.pure (.name "self")) := .pure (.of_eq rfl)
  exact { Accounts.ofValue hself with delete := .pure (.of_eq rfl) }

theorem literalValue_atoms (literal : Literal) : (literalValue literal).atoms = [] := by
  cases literal with
  | regex pattern flags => exact Helper.atoms_call _ _
  | _ => rfl

theorem Accounts.literal (literal : Literal) : Accounts Q [] [] [] (.literal literal) := by
  have hvalue : ExprAccounts Q [] (Pure.pure (literalValue literal)) :=
    .pure (.of_eq (literalValue_atoms literal).symm)
  exact
    { Accounts.ofValue hvalue with
      base := .pure (.of_eq (literalValue_atoms literal).symm)
      invoke := fun ha => ha.last fun _ => .of_eq (by simp) }

theorem Accounts.function (h : ExprAccounts Q N value) : Accounts Q N N [] (.function value) :=
  { Accounts.ofValue h with
    invoke := fun ha => h.bind fun _ => ha.last fun _ => .of_eq (by simp) }

theorem binaryValue_atoms (op : BinaryOp) (a b : Lua.Expr) :
    (binaryValue op a b).atoms = a.atoms ++ b.atoms := by
  unfold binaryValue
  split
  · dsimp only
    split <;> simp
  · simp

theorem Accounts.binary (op : BinaryOp) (hl : l.Accounts Q N E D) (hr : r.Accounts Q M E' D') :
    Accounts Q (N ++ M) (N ++ M) [] (.binary op l r) :=
  .ofValue (hl.value.bind fun _ => hr.value.last fun _ => .of_eq (by simp [binaryValue_atoms]))

theorem Accounts.logical (op : LogicalOp) (hl : l.Accounts Q N E D) (hr : r.Accounts Q M E' D') :
    Accounts Q (N ++ M) (N ++ M) [] (.logical op l r) :=
  .ofValue (hl.value.bind fun _ => hr.value.last fun _ => .of_eq (by simp))

theorem Accounts.unary (op : UnaryOp) (h : r.Accounts Q N E D) :
    Accounts Q (op.issues N D) (op.issues N D) [] (.unary op r) := by
  apply Accounts.ofValue
  cases op with
  | void => exact .pure (.of_eq rfl)
  | delete => exact h.delete
  | typeof => exact h.unguarded.last fun _ => .of_eq (by simp)
  | minus | plus | not | bitNot => exact h.value.last fun _ => .of_eq (by simp)

theorem Accounts.conditional (ht : test.Accounts Q N E D) (hc : cons.Accounts Q M E' D')
    (ha : alt.Accounts Q K E'' D'') :
    Accounts Q (N ++ (M ++ K)) (N ++ (M ++ K)) [] (.conditional test cons alt) :=
  .ofValue (ht.value.bind fun _ => hc.value.bind fun _ => ha.value.last fun _ =>
    .of_eq (by simp))

theorem stepped_atoms (op : UpdateOp) (current : Lua.Expr) :
    (stepped op current).atoms = current.atoms := by
  cases op <;> simp [stepped]

/-- The code of the operand's value stands twice in an update that is used. -/
theorem Accounts.update (op : UpdateOp) (leading : Bool) (h : r.Accounts Q N E D) :
    Accounts Q (N ++ N) (N ++ N) [] (.update op leading r) := by
  apply Accounts.ofValueEffect
  · refine h.target.bind fun place => ?_
    cases leading with
    | true =>
      refine h.value.last fun current => .of_count (b := current.atoms) (fun a => ?_) ?_
      · simp [performing, stepped_atoms, Nat.add_assoc]
      · exact fun a ha => Or.inl (List.mem_append_right _ ha)
    | false =>
      refine h.value.bindNone fun current => ?_
      refine (silent_fresh (by simp [stems])).bind fun old hold => .pure ?_
      refine .of_count (b := .bind old :: current.atoms) (fun a => ?_) fun a ha => ?_
      · simp only [performing, stepped_atoms, Lua.Expr.atoms, Lua.Expr.atomsList,
          Lua.Step.atomsList, Lua.Step.atoms, List.append_nil, List.nil_append,
          List.count_append, List.count_cons]
        omega
      · rcases List.mem_cons.mp ha with rfl | ha
        · exact Or.inr (Q.generated hold)
        · exact Or.inl (List.mem_append_right _ ha)
  · refine h.target.bind fun place => h.value.last fun current => ?_
    exact .of_eq (by simp [stepped_atoms])

/-- The new value of a target reads the target where there is an operator. -/
theorem accounts_assigned (op : Option BinaryOp) (hl : l.Accounts Q N E D)
    (hr : r.Accounts Q M E' D') :
    ExprAccounts Q ((if op.isSome then N else []) ++ M) (assigned op l r) := by
  cases op with
  | none => exact hr.value
  | some op =>
    exact hl.value.bind fun _ => hr.value.last fun _ => .of_eq (by simp [binaryValue_atoms])

theorem Accounts.assign (op : Option BinaryOp) (hl : l.Accounts Q N E D)
    (hr : r.Accounts Q M E' D') :
    Accounts Q (N ++ ((if op.isSome then N else []) ++ (M ++ N)))
      (N ++ ((if op.isSome then N else []) ++ (M ++ []))) [] (.assign op l r) := by
  have hnew := accounts_assigned op hl hr
  rw [← List.append_assoc _ M, ← List.append_assoc _ M, List.append_nil]
  refine .ofValueEffect ?_ ?_
  · exact hl.target.bind fun _ => hnew.bind fun _ => hl.value.last fun _ =>
      .of_eq (by simp [performing])
  · exact hl.target.bind fun _ => hnew.last fun _ => .of_eq (by simp)

theorem Accounts.call (hf : r.Accounts Q N E D)
    (ha : Emission.Accounts Lua.Expr.atomsList Q M [] args) :
    Accounts Q (N ++ M) (N ++ M) [] (.call r args) :=
  .ofValueEffect (hf.invoke ha) ((hf.invoke ha).last fun _ => .of_eq (by simp))

theorem Accounts.new (hf : r.Accounts Q N E D)
    (ha : Emission.Accounts Lua.Expr.atomsList Q M [] args) :
    Accounts Q (N ++ M) (N ++ M) [] (.new r args) :=
  .ofValue (hf.value.bind fun _ => ha.last fun _ => .of_eq (by simp))

theorem accounts_method {object key : Emit Lua.Expr} (ho : ExprAccounts Q N object)
    (hk : ExprAccounts Q M key) (ha : Emission.Accounts Lua.Expr.atomsList Q K [] args) :
    ExprAccounts Q (N ++ (M ++ K)) (method object key args) :=
  ho.bind fun _ => hk.bind fun _ => ha.last fun _ => .of_eq (by simp)

theorem Accounts.member (h : r.Accounts Q N E D) (name : String) :
    Accounts Q N N N (.member r name) := by
  have hplace : ExprAccounts Q N (r.member name).target := h.base.last fun _ => .of_eq (by simp)
  have hvalue : ExprAccounts Q N (r.member name).value := by
    unfold Rendition.member
    simp only [Rendition.ofValue]
    split
    · exact h.value.last fun _ => .of_eq (by simp)
    · exact hplace
  have hname : ExprAccounts Q [] (Pure.pure (.string name)) := .pure (.of_eq rfl)
  exact
    { Accounts.ofValue hvalue with
      target := hplace
      invoke := fun ha => accounts_method h.value hname ha
      delete := h.value.last fun _ => .of_eq (by simp) }

theorem Accounts.index (ho : l.Accounts Q N E D) (hk : r.Accounts Q M E' D') :
    Accounts Q (N ++ M) (N ++ M) (N ++ M) (.index l r) := by
  have hposition : ExprAccounts Q M (do Pure.pure (l.key (← r.value)) : Emit Lua.Expr) :=
    hk.value.last fun k => .of_eq (ho.key k).symm
  have hvalue : ExprAccounts Q (N ++ M) (l.index r).value :=
    ho.base.bind fun _ => hposition.last fun _ => .of_eq (by simp)
  exact
    { Accounts.ofValue hvalue with
      invoke := fun {K args} ha => by
        have hmethod := accounts_method ho.value hposition ha
        rwa [← List.append_assoc] at hmethod
      delete := ho.value.bind fun _ => hk.value.last fun _ => .of_eq (by simp) }

theorem Accounts.sequence (hv : Emission.Accounts Lua.Expr.atomsList Q N [] args)
    (he : CodeAccounts Q E effect) : Accounts Q N E [] (.sequence args effect) :=
  .ofValueEffect (hv.last fun _ => .of_eq (by simp)) he

theorem Accounts.array (count : Nat) {fields : Emit (List Field)}
    (h : Emission.Accounts Field.atomsList Q N [] fields) :
    Accounts Q N N [] (.array count fields) :=
  .ofValue (h.last fun _ => .of_eq (by simp))

theorem Accounts.object {fields : Emit (List Field)}
    (h : Emission.Accounts Field.atomsList Q N [] fields) : Accounts Q N N [] (.object fields) :=
  .ofValue (h.last fun _ => .of_eq (by simp))

/-- A construct outside the subset is visited once, and has one comment. -/
theorem accounts_unsupported {α : Type} {view : α → List Atom} (node : Unsupported)
    (inline : Bool) {a : α} (h : view a = [(Visit.unsupported node inline).atom]) :
    Emission.Accounts view Q [.unsupported node] [] (do
      report (.unsupported node)
      Pure.pure a) := by
  intro s
  refine ⟨[.unsupported node inline], rfl, ?_, .of_eq h.symm⟩
  change (s.findings ++ [Finding.unsupported node]).filter (!·.isAside) = _
  rw [List.filter_append]
  rfl

theorem Accounts.unsupported (node : Unsupported) :
    Accounts Q [.unsupported node] [.unsupported node] [] (.unsupported node) :=
  .ofValueEffect (accounts_unsupported node true rfl) (accounts_unsupported node false rfl)

end Rendition

section Constructs

variable {Q : Allowance} {N M K L D E : List Issue} {e : Rendition} {tests : Option Rendition}
  {value literal : Emit Lua.Expr} {act body init update : Emit (List Stat)}
  {labels : List String}

theorem accounts_condition (h : e.Accounts Q N E D) :
    ExprAccounts Q N (condition e) :=
  h.value.last fun _ => .of_eq (by simp)

theorem accounts_conditionOpt (h : Rendition.AccountsOpt Q N tests) :
    ExprAccounts Q N (conditionOpt tests) := by
  cases tests with
  | none =>
    obtain rfl : N = [] := h
    exact .pure (.of_eq rfl)
  | some test =>
    obtain ⟨E, D, htest⟩ := h
    exact accounts_condition htest

@[simp] theorem atoms_nested (labels : List String) (code : List Stat) :
    Stat.atomsList (nested labels code) = Stat.atomsList code := by
  induction labels with
  | nil => rfl
  | cons label rest ih =>
    change Stat.atomsList [.doBlock (nested rest code ++ [.label (afterLabel label)])] = _
    simp [ih]

theorem accounts_labeledCode (h : CodeAccounts Q N act) :
    CodeAccounts Q N (labeledCode labels act) :=
  (h.labeled labels).last fun _ => .of_eq (by simp)

theorem accounts_labeledReturn (h : CodeAccounts Q N act) :
    CodeAccounts Q N (labeledReturn labels act) := by
  refine (h.labeled labels).last fun _ => .of_eq ?_
  rw [atoms_nested]
  split <;> simp

theorem accounts_returned (h : Rendition.AccountsOpt Q N tests) :
    CodeAccounts Q N (returned (tests.map Rendition.value)) := by
  cases tests with
  | none =>
    obtain rfl : N = [] := h
    exact .pure (.of_eq rfl)
  | some arg =>
    obtain ⟨E, D, harg⟩ := h
    exact harg.value.last fun _ => .of_eq (by simp)

theorem accounts_thrown (h : ExprAccounts Q N value) :
    CodeAccounts Q N (thrown value) :=
  h.last fun _ => .of_eq (by simp)

/-- A jump is visited once: it has a spelling, or a comment and a finding. -/
theorem accounts_jumpCode (j : JumpStatement)
    (h : ∀ s, ∃ spelling s', s'.findings = s.findings ∧
      act s = jumpCode j.kindName j.blocked j.stray spelling s') :
    CodeAccounts Q [.jump j] act := by
  intro s
  obtain ⟨spelling, s', hsame, heq⟩ := h s
  have hblocked : j.blocked.isAside = false := by
    unfold JumpStatement.blocked
    split <;> rfl
  have hstray : j.stray.isAside = false := by
    unfold JumpStatement.stray
    split <;> rfl
  refine ⟨[.jump j spelling], rfl, ?_, .of_eq ?_⟩
  · rw [heq, ← hsame]
    cases spelling with
    | leave | goTo label => exact (List.append_nil _).symm
    | blocked =>
      change (s'.findings ++ [j.blocked]).filter (!·.isAside) = _
      rw [List.filter_append, List.filter_cons_of_pos (by simp [hblocked])]
      rfl
    | missing =>
      change (s'.findings ++ [j.stray]).filter (!·.isAside) = _
      rw [List.filter_append, List.filter_cons_of_pos (by simp [hstray])]
      rfl
  · rw [heq]
    cases spelling <;> rfl

theorem accounts_breakCode (label : Option String) (span : Span) :
    CodeAccounts Q [.jump ⟨false, label, span⟩] (breakCode label span) :=
  accounts_jumpCode _ fun s => ⟨_, s, rfl, breakCode_eq label span s⟩

theorem accounts_continueCode (label : Option String) (span : Span) :
    CodeAccounts Q [.jump ⟨true, label, span⟩] (continueCode label span) :=
  accounts_jumpCode _ fun s => by
    refine ⟨_, _, ?_, continueCode_eq label span s⟩
    rfl

theorem accounts_loopBody (h : CodeAccounts Q N body) :
    CodeAccounts Q N (loopBody labels body) := by
  refine (h.enclosed (.loop labels none)).last fun result => .of_eq ?_
  obtain ⟨code, enclosure⟩ := result
  dsimp only
  split <;> simp

theorem accounts_whileCode (ht : e.Accounts Q N E D)
    (hb : CodeAccounts Q M body) :
    CodeAccounts Q (N ++ M) (whileCode labels e body) :=
  (accounts_condition ht).bind fun _ => (accounts_loopBody hb).last fun _ => .of_eq (by simp)

theorem accounts_doWhileCode (hb : CodeAccounts Q N body)
    (ht : e.Accounts Q M E D) :
    CodeAccounts Q (N ++ M) (doWhileCode labels body e) :=
  (accounts_loopBody hb).bind fun _ => (accounts_condition ht).last fun _ => .of_eq (by simp)

theorem accounts_forCode (hi : CodeAccounts Q N init)
    (ht : Rendition.AccountsOpt Q M tests) (hb : CodeAccounts Q K body)
    (hu : CodeAccounts Q L update) :
    CodeAccounts Q (N ++ (M ++ (K ++ L))) (forCode labels init tests update body) := by
  rw [forCode_eq]
  refine hi.bind fun _ => (accounts_conditionOpt ht).bind fun _ => ?_
  exact (accounts_loopBody hb).bind fun _ => hu.last fun _ => .of_eq (by simp)

/-- The atoms of the head of a loop over keys. -/
def headAtoms (head : String × List Stat) : List Atom :=
  .bind head.1 :: Stat.atomsList head.2

theorem accounts_forInCode (ho : e.Accounts Q N E D)
    {head : Emit (String × List Stat)} (hh : Accounts headAtoms Q M [] head)
    (hb : CodeAccounts Q K body) :
    CodeAccounts Q (N ++ (M ++ K)) (forInCode labels e head body) := by
  refine ho.value.bind fun o => (silent_fresh (by simp [stems])).bind fun ignored hi => ?_
  refine hh.bind fun h => (accounts_loopBody hb).last fun code => ?_
  refine .of_count (b := [.bind ignored]) (fun a => ?_) fun a ha => Or.inr ?_
  · simp only [headAtoms, Stat.atomsList, Stat.atoms, Helper.atoms_call,
      Lua.Expr.atomsList, Stat.atomsList_append, List.append_nil, List.nil_append,
      List.count_append, List.count_cons, List.count_nil]
    omega
  · rw [List.mem_singleton.mp ha]
    exact Q.generated hi

/-- The selection has the atoms of the tests. -/
theorem atoms_selection (selected : String) (arms : List Arm) (default : Option Nat) :
    Stat.atomsList (selection selected arms default) = Arm.atomsList arms := by
  cases arms with
  | nil => cases default <;> simp [selection]
  | cons arm rest => cases default <;> simp [selection]

theorem accounts_switchCode (hd : e.Accounts Q N E D)
    {arms : String → String → Emit (List Arm)}
    (ha : ∀ v s, Accounts Arm.atomsList Q M [] (arms v s)) (default : Option Nat)
    {bodies : String → Emit (List Stat)}
    (hb : ∀ s, CodeAccounts Q K (bodies s)) :
    CodeAccounts Q (N ++ (M ++ K)) (switchCode e arms default bodies) := by
  refine (silent_fresh (by simp [stems])).bind fun v hv => ?_
  refine (silent_fresh (by simp [stems])).bind fun s hs => ?_
  refine hd.value.bind fun d => (ha v s).bind fun tests => ?_
  refine ((hb s).enclosed .switch).last fun code => ?_
  refine .of_count (b := [.bind v, .bind s]) (fun a => ?_) fun a ha => Or.inr ?_
  · simp only [Stat.atomsList, Stat.atoms, Lua.Expr.atoms, atoms_selection,
      Stat.atomsList_append, List.map_cons, List.map_nil, List.append_nil, List.nil_append,
      List.count_append, List.count_cons, List.count_nil]
    omega
  · simp only [List.mem_cons, List.not_mem_nil, or_false] at ha
    rcases ha with rfl | rfl
    · exact Q.generated hv
    · exact Q.generated hs

/-- The atoms of a handler. -/
def handlerAtoms (handler : List String × List Stat) : List Atom :=
  handler.1.map .bind ++ Stat.atomsList handler.2

theorem accounts_handlerCode (param : Option String) (hn : Named Q param.toList)
    (hb : CodeAccounts Q N body) :
    Accounts handlerAtoms Q N [] (handlerCode param body) := by
  have hinner : CodeAccounts Q N (do
      let _ ← declareNew param.toList
      walled body) := (silent_declareNew _).bind fun _ _ => hb.walled
  refine (hinner.inFrame _).last fun code => (Fits.of_eq rfl).extra fun a ha => ?_
  obtain ⟨n, hm, rfl⟩ := List.mem_map.mp ha
  obtain ⟨x, hx, rfl⟩ := List.mem_map.mp hm
  exact hn x hx

theorem accounts_clauseNotes (clauses : Nat) (span : Span) :
    Silent (fun code => ∀ a ∈ Stat.atomsList code, Q.allows a) (clauseNotes clauses span) := by
  intro s
  unfold clauseNotes
  split
  · exact ⟨nofun, rfl⟩
  · have haside : (Finding.manyCatches clauses span).isAside = true := rfl
    refine ⟨fun a ha => ?_, (silent_report haside s).2⟩
    obtain rfl : a = .note "MultipleCatchClauses" := List.mem_singleton.mp ha
    exact Q.clauses

/-- The names that a `try` statement binds for itself. -/
def TryNames.atoms (names : TryNames) (finalizer : Option (List Stat))
    (handler : Option (List String × List Stat)) : List Atom :=
  [.bind names.status, .bind names.value] ++
    (finalizer.map fun _ => Atom.bind names.finalizer).toList ++
    (handler.map fun _ => [Atom.bind names.handler, .bind names.catchValue]).getD []

theorem TryNames.forall_atoms (names : TryNames) {finalizer : Option (List Stat)}
    {handler : Option (List String × List Stat)} (hstatus : Q.allows (.bind names.status))
    (hvalue : Q.allows (.bind names.value)) (hcatch : Q.allows (.bind names.catchValue))
    (hfinalizer : Q.allows (.bind names.finalizer)) (hhandler : Q.allows (.bind names.handler)) :
    ∀ a ∈ names.atoms finalizer handler, Q.allows a := by
  cases finalizer <;> cases handler <;>
    simp [TryNames.atoms, hstatus, hvalue, hcatch, hfinalizer, hhandler]

theorem count_tryPhases (names : TryNames) (code : List Stat)
    (finalizer : Option (List Stat)) (handler : Option (List String × List Stat))
    (a : Atom) :
    (Stat.atomsList (tryPhases names code finalizer handler)).count a =
      (Stat.atomsList code ++ atomsOpt Stat.atomsList finalizer ++
        atomsOpt handlerAtoms handler).count a + (names.atoms finalizer handler).count a := by
  cases finalizer <;> cases handler <;>
    simp [tryPhases, TryNames.atoms, atomsOpt, handlerAtoms, List.count_append,
      List.count_cons] <;> omega

theorem accounts_tryCode (span : Span) (clauses : Nat)
    (hb : CodeAccounts Q N body)
    {finalizer : Option (Emit (List Stat))}
    (hf : AccountsOpt Stat.atomsList Q M finalizer)
    {handler : Option (Emit (List String × List Stat))}
    (hh : AccountsOpt handlerAtoms Q K handler) :
    CodeAccounts Q (N ++ (M ++ K))
      (tryCode span body clauses handler finalizer) := by
  rw [tryCode_eq]
  refine (silent_fresh (by simp [stems])).bind fun status hstatus => ?_
  refine (silent_fresh (by simp [stems])).bind fun value hvalue => ?_
  refine (silent_fresh (by simp [stems])).bind fun catchValue hcatch => ?_
  refine (silent_fresh (by simp [stems])).bind fun finalizerName hfinalizer => ?_
  refine (silent_fresh (by simp [stems])).bind fun handlerName hhandler => ?_
  refine (accounts_clauseNotes (Q := Q) clauses span).bind fun notes hnotes => ?_
  refine hb.walled.bind fun code => hf.map_walled.optional.bind fun final => ?_
  refine hh.optional.last fun caught => ?_
  rw [Stat.atomsList_append]
  refine Fits.extra (.of_count (b := TryNames.atoms
    ⟨status, value, catchValue, finalizerName, handlerName⟩ final caught) (fun a => ?_) ?_) hnotes
  · rw [Stat.atomsList, Stat.atoms, Stat.atomsList, List.append_nil, List.nil_append]
    exact count_tryPhases _ code final caught a
  · exact fun a ha => Or.inr (TryNames.forall_atoms _ (Q.generated hstatus)
      (Q.generated hvalue) (Q.generated hcatch) (Q.generated hfinalizer)
      (Q.generated hhandler) a ha)

theorem accounts_withCode (span : Span) (ho : e.Accounts Q N E D)
    (hb : CodeAccounts Q M body) :
    CodeAccounts Q (N ++ M) (withCode span e body) := by
  refine (silent_fresh (by simp [stems])).bind fun proxy hp => ho.value.bind fun o => ?_
  refine (hb.capturing.inFrame _).bindNone fun result => ?_
  refine (silent_report rfl).bind fun _ _ => .pure ?_
  have hcode : Fits Q.allows ([] ++ o.atoms ++ Stat.atomsList result.1)
      (o.atoms ++ Stat.atomsList result.1) := .of_eq rfl
  have hbound := hcode.bound (Q.generated hp)
  simpa using hbound

/-- A function binds its receiver and parameters, the packed arguments, and what its body
declares. -/
theorem accounts_functionCode {params : List String} (hp : Named Q params)
    (names : Declarations) (hf : Named Q names.funcs)
    (hb : CodeAccounts Q N body) :
    ExprAccounts Q N (functionCode params names body) := by
  have hspelled : ∀ a ∈ (params.map Lua.spell).map Atom.bind, Q.allows a := by
    intro a ha
    obtain ⟨n, hn, rfl⟩ := List.mem_map.mp ha
    obtain ⟨x, hx, rfl⟩ := List.mem_map.mp hn
    exact hp x hx
  have hlocals : CodeAccounts Q N (do
      let locals ← declareLocals names.funcs
      Pure.pure (locals ++ (← body))) := by
    refine (silent_declared hf).bind fun locals hl => hb.last fun code => ?_
    rw [Stat.atomsList_append]
    exact (Fits.of_eq rfl).extra hl
  have hunpacked : ∀ a ∈ Stat.atomsList (if (params.map Lua.spell).isEmpty then []
      else [.define (params.map Lua.spell) .vararg]), Q.allows a := by
    split
    · exact nofun
    · simpa using hspelled
  have hinner : CodeAccounts Q N (do
      let _ ← declareNew (if names.references "arguments" then params ++ ["arguments"] else params)
      let locals ← declareLocals names.funcs
      Pure.pure (locals ++ (← body))) := (silent_declareNew _).bind fun _ _ => hlocals
  refine (hinner.inFrame _).detached.last fun code => ?_
  have hsame : Fits Q.allows ([] ++ Stat.atomsList code) (Stat.atomsList code) := .of_eq rfl
  rw [Helper.atoms_call]
  split
  · have hall := ((hsame.bound Q.arguments).extra hunpacked).bound Q.self
    simpa using hall
  · have hall := (hsame.extra hspelled).bound Q.self
    simpa using hall

theorem accounts_functionValue (name : Option String) (hn : Named Q name.toList)
    (references : List String) (hl : ExprAccounts Q N literal) :
    ExprAccounts Q N (functionValue name references literal) := by
  cases name with
  | none => exact hl
  | some name =>
    rw [functionValue]
    split
    · have hinner : ExprAccounts Q N (do
          let _ ← declareNew [name]
          literal) := (silent_declareNew _).bind fun _ _ => hl
      refine (hinner.inFrame _).last fun f => ?_
      have hbound := (Fits.of_eq (Q := Q.allows) (rfl : f.atoms = f.atoms)).bound
        (hn name (by simp))
      simpa using hbound
    · exact hl

theorem accounts_functionDeclaration (name : String) (hn : Named Q [name])
    (hl : ExprAccounts Q N literal) :
    CodeAccounts Q N (functionDeclaration (some name) literal) := by
  refine (silent_declared hn).bind fun locals hlocals => ?_
  refine (Rendition.accounts_bareName name).bind fun target => hl.last fun f => ?_
  rw [Stat.atomsList_append]
  exact Fits.extra (.of_eq (by simp)) hlocals

theorem accounts_nameless : CodeAccounts Q []
    (functionDeclaration none literal) :=
  (silent_report rfl).bind fun _ _ => .pure (.of_eq rfl)

end Constructs

section Parts

variable {Q : Allowance} {N : List Issue} {e : Option Expr}
  (h : Rendition.AccountsOpt Q N (Expr.emitOpt e))

include h

theorem accounts_itemCode : ExprAccounts Q N (itemCode e) := by
  cases e with
  | none =>
    obtain rfl : N = [] := h
    exact .pure (.of_eq rfl)
  | some e =>
    obtain ⟨E, D, he⟩ := h
    exact he.value

theorem accounts_initCode (name : String) :
    CodeAccounts Q N (initCode name e) := by
  cases e with
  | none =>
    obtain rfl : N = [] := h
    exact .pure (.of_eq rfl)
  | some e =>
    obtain ⟨E, D, he⟩ := h
    exact (Rendition.accounts_bareName name).bind fun _ => he.value.last fun _ =>
      .of_eq (by simp)

theorem accounts_armCode (n : Nat) (value selected : String) :
    Accounts Arm.atomsList Q N [] (armCode n e value selected) := by
  cases e with
  | none =>
    obtain rfl : N = [] := h
    exact .pure (.of_eq rfl)
  | some e =>
    obtain ⟨E, D, he⟩ := h
    exact he.value.last fun _ => .of_eq (by simp [caseArm])

end Parts

end Emission

/-- A declaration of variables: their locals, then their first values. -/
theorem Emission.accounts_declaration {Q : Allowance} {N : List Issue} {decls : List Declarator}
    (h : Named Q (Declarator.boundNames decls))
    (hd : CodeAccounts Q N (Declarator.emit decls)) :
    CodeAccounts Q N (do
      let locals ← declareLocals (Declarator.names decls)
      pure (locals ++ (← Declarator.emit decls))) := by
  have hnames : Named Q (Declarator.names decls) :=
    fun x hx => h x (Declarator.names_subset decls x hx)
  refine (silent_declared hnames).bind fun locals hl => hd.last fun code => ?_
  rw [Stat.atomsList_append]
  exact (Fits.of_eq rfl).extra hl

section Walk

variable {Q : Allowance}

mutual

/-- Every use of an expression accounts for the issues of the expression. -/
theorem Expr.accounts : (e : Expr) → Named Q e.boundNames →
    e.emit.Accounts Q (e.issues true) (e.issues false) e.issuesDeleted
  | .ident name, _ => .ident name
  | .this, _ => .this
  | .lit value, _ => .literal value
  | .array items, h => .array _ (Expr.accounts_items 0 items h)
  | .object props, h => .object (Property.accounts props h)
  | .func ⟨name, params, body⟩, h =>
    .function (accounts_functionValue name (forall_mem_append.mp h).1 _
      (Func.accounts ⟨name, params, body⟩ h))
  | .unary op arg, h => .unary op (Expr.accounts arg h)
  | .update op leading arg, h => .update op leading (Expr.accounts arg h)
  | .binary op left right, h =>
    have ⟨hl, hr⟩ := forall_mem_append.mp h
    .binary op (Expr.accounts left hl) (Expr.accounts right hr)
  | .logical op left right, h =>
    have ⟨hl, hr⟩ := forall_mem_append.mp h
    .logical op (Expr.accounts left hl) (Expr.accounts right hr)
  | .assign op target value, h =>
    have ⟨ht, hv⟩ := forall_mem_append.mp h
    .assign op (Expr.accounts target ht) (Expr.accounts value hv)
  | .cond test cons alt, h =>
    have ⟨ht, h⟩ := forall_mem_append.mp h
    have ⟨hc, ha⟩ := forall_mem_append.mp h
    .conditional (Expr.accounts test ht) (Expr.accounts cons hc) (Expr.accounts alt ha)
  | .call callee args, h =>
    have ⟨hf, ha⟩ := forall_mem_append.mp h
    .call (Expr.accounts callee hf) (Expr.accounts_values args ha)
  | .new callee args, h =>
    have ⟨hf, ha⟩ := forall_mem_append.mp h
    .new (Expr.accounts callee hf) (Expr.accounts_values args ha)
  | .member object name, h => .member (Expr.accounts object h) name
  | .index object key, h =>
    have ⟨ho, hk⟩ := forall_mem_append.mp h
    .index (Expr.accounts object ho) (Expr.accounts key hk)
  | .seq items, h => .sequence (Expr.accounts_values items h) (Expr.accounts_effects items h)
  | .unsupported node, _ => .unsupported node

theorem Expr.accounts_values : (es : List Expr) → Named Q (Expr.boundNamesList es) →
    Accounts Lua.Expr.atomsList Q (Expr.issuesList true es) [] (Expr.emitValues es)
  | [], _ => .pure (.of_eq rfl)
  | e :: rest, h =>
    have ⟨he, hr⟩ := forall_mem_append.mp h
    (Expr.accounts e he).value.bind fun _ =>
      (Expr.accounts_values rest hr).last fun _ => .of_eq rfl

theorem Expr.accounts_effects : (es : List Expr) → Named Q (Expr.boundNamesList es) →
    CodeAccounts Q (Expr.issuesList false es) (Expr.emitEffects es)
  | [], _ => .pure (.of_eq rfl)
  | e :: rest, h =>
    have ⟨he, hr⟩ := forall_mem_append.mp h
    (Expr.accounts e he).effect.bind fun _ =>
      (Expr.accounts_effects rest hr).last fun _ => .of_eq (by simp)

theorem Expr.accounts_opt : (e : Option Expr) → Named Q (Expr.boundNamesOpt e) →
    Rendition.AccountsOpt Q (Expr.issuesOpt true e) (Expr.emitOpt e)
  | none, _ => rfl
  | some e, h => ⟨_, _, Expr.accounts e h⟩

theorem Expr.accounts_effect : (e : Option Expr) → Named Q (Expr.boundNamesOpt e) →
    CodeAccounts Q (Expr.issuesOpt false e)
      (((Expr.emitOpt e).map Rendition.effect).getD (pure []))
  | none, _ => .pure (.of_eq rfl)
  | some e, h => (Expr.accounts e h).effect

theorem Expr.accounts_items (index : Nat) : (items : List (Option Expr)) →
    Named Q (Expr.boundNamesItems items) →
    Accounts Field.atomsList Q (Expr.issuesItems items) [] (Expr.emitItems index items)
  | [], _ => .pure (.of_eq rfl)
  | item :: rest, h => by
    obtain ⟨hi, hr⟩ := forall_mem_append.mp h
    rw [Expr.emitItems_cons]
    exact (accounts_itemCode (Expr.accounts_opt item hi)).bind fun _ =>
      (Expr.accounts_items (index + 1) rest hr).last fun _ => .of_eq (by simp)

theorem Property.accounts : (props : List Property) → Named Q (Property.boundNames props) →
    Accounts Field.atomsList Q (Property.issues props) [] (Property.emit props)
  | [], _ => .pure (.of_eq rfl)
  | .named key value :: rest, h =>
    have ⟨hv, hr⟩ := forall_mem_append.mp h
    (Expr.accounts value hv).value.bind fun _ =>
      (Property.accounts rest hr).last fun _ =>
        .of_eq (by cases key <;> simp [Rendition.propName])
  | .computed key value :: rest, h =>
    have ⟨hk, h⟩ := forall_mem_append.mp h
    have ⟨hv, hr⟩ := forall_mem_append.mp h
    (Expr.accounts key hk).value.bind fun _ => (Expr.accounts value hv).value.bind fun _ =>
      (Property.accounts rest hr).last fun _ => .of_eq (by simp)

theorem Func.accounts : (f : Func) → Named Q f.boundNames →
    ExprAccounts Q f.issues f.emit
  | ⟨_, params, body⟩, h => by
    obtain ⟨-, h⟩ := forall_mem_append.mp h
    obtain ⟨hp, h⟩ := forall_mem_append.mp h
    obtain ⟨hf, hb⟩ := forall_mem_append.mp h
    refine accounts_functionCode hp _ (fun x hx => hf x ?_) (Stmt.accounts_list body hb)
    exact Declarations.mem_funcs.mp hx

theorem Declarator.accounts : (decls : List Declarator) → Named Q (Declarator.boundNames decls) →
    CodeAccounts Q (Declarator.issues decls) (Declarator.emit decls)
  | [], _ => .pure (.of_eq rfl)
  | ⟨name, init⟩ :: rest, h => by
    obtain ⟨-, h⟩ := forall_mem_cons.mp h
    obtain ⟨hi, hr⟩ := forall_mem_append.mp h
    rw [Declarator.emit_cons]
    exact (accounts_initCode (Expr.accounts_opt init hi) name).bind fun _ =>
      (Declarator.accounts rest hr).last fun _ => .of_eq (by simp)

theorem ForInit.accounts : (init : ForInit) → Named Q init.boundNames →
    CodeAccounts Q init.issues init.emit
  | .none, _ => .pure (.of_eq rfl)
  | .vars _ decls, h => accounts_declaration h (Declarator.accounts decls h)
  | .expr e, h => (Expr.accounts e h).effect

theorem ForInHead.accounts : (head : ForInHead) → Named Q head.boundNames →
    Accounts headAtoms Q head.issues [] head.emit
  | .var _ name, h => .pure ((Fits.of_eq rfl).bound (h name (by simp [ForInHead.boundNames])))
  | .target e, h => by
    have hb : Named Q e.boundNames := by
      cases e
      case ident name => exact nofun
      all_goals exact h
    have htarget := (Expr.accounts e hb).target
    cases e
    case ident name => exact .pure ((Fits.of_eq rfl).bound (h name (List.mem_singleton.mpr rfl)))
    all_goals
      refine (silent_fresh (by simp [stems])).bind fun key hk => htarget.last fun target => ?_
      exact Fits.bound (.of_eq (by simp)) (Q.generated hk)

/-- The code of a statement accounts for the issues of the statement. -/
theorem Stmt.accounts (place : Place) : (s : Stmt) → Named Q s.boundNames →
    CodeAccounts Q s.issues (s.emit place)
  | .empty, _ => accounts_labeledCode (.pure (.of_eq rfl))
  | .exprStmt e, h => accounts_labeledCode (Expr.accounts e h).effect
  | .varStmt _ decls, h =>
    accounts_labeledCode (accounts_declaration h (Declarator.accounts decls h))
  | .funcStmt ⟨none, _, _⟩, _ => accounts_labeledCode accounts_nameless
  | .funcStmt ⟨some name, params, body⟩, h =>
    accounts_labeledCode (accounts_functionDeclaration name (forall_mem_append.mp h).1
      (Func.accounts ⟨some name, params, body⟩ h))
  | .returnStmt arg, h => accounts_labeledReturn (accounts_returned (Expr.accounts_opt arg h))
  | .throwStmt arg, h => accounts_labeledCode (accounts_thrown (Expr.accounts arg h).value)
  | .breakStmt label span, _ => accounts_labeledCode (accounts_breakCode label span)
  | .continueStmt label span, _ => accounts_labeledCode (accounts_continueCode label span)
  | .ifStmt test cons alt, h =>
    have ⟨ht, h⟩ := forall_mem_append.mp h
    have ⟨hc, ha⟩ := forall_mem_append.mp h
    accounts_labeledCode ((accounts_condition (Expr.accounts test ht)).bind fun _ =>
      (Stmt.accounts .body cons hc).bind fun _ =>
        (Stmt.accounts_else alt ha).last fun _ => .of_eq (by simp))
  | .whileStmt test body, h =>
    have ⟨ht, hb⟩ := forall_mem_append.mp h
    (accounts_whileCode (Expr.accounts test ht) (Stmt.accounts .body body hb)).last fun _ =>
      .of_eq (by simp)
  | .doWhileStmt body test, h =>
    have ⟨hb, ht⟩ := forall_mem_append.mp h
    (accounts_doWhileCode (Stmt.accounts .body body hb) (Expr.accounts test ht)).last fun _ =>
      .of_eq (by simp)
  | .forStmt init test update body, h =>
    have ⟨hi, h⟩ := forall_mem_append.mp h
    have ⟨ht, h⟩ := forall_mem_append.mp h
    have ⟨hu, hb⟩ := forall_mem_append.mp h
    (accounts_forCode (ForInit.accounts init hi) (Expr.accounts_opt test ht)
      (Stmt.accounts .body body hb) (Expr.accounts_effect update hu)).last
        fun _ => .of_eq (by simp)
  | .forInStmt head object body, h =>
    have ⟨hh, h⟩ := forall_mem_append.mp h
    have ⟨ho, hb⟩ := forall_mem_append.mp h
    (accounts_forInCode (Expr.accounts object ho) (ForInHead.accounts head hh)
      (Stmt.accounts .body body hb)).last fun _ => .of_eq (by simp)
  | .switchStmt discriminant cases, h =>
    have ⟨hd, hc⟩ := forall_mem_append.mp h
    accounts_labeledCode (accounts_switchCode (Expr.accounts discriminant hd)
      (SwitchCase.accounts_arms 1 cases hc) _ (SwitchCase.accounts_bodies 1 cases hc))
  | .tryStmt block handlers finalizer span, h =>
    have ⟨hb, h⟩ := forall_mem_append.mp h
    have ⟨hh, hf⟩ := forall_mem_append.mp h
    accounts_labeledCode (accounts_tryCode span _ (Stmt.accounts_list block hb)
      (Stmt.accounts_block finalizer hf) (CatchClause.accounts_first handlers hh))
  | .withStmt object body span, h =>
    have ⟨ho, hb⟩ := forall_mem_append.mp h
    accounts_labeledCode (accounts_withCode span (Expr.accounts object ho)
      (Stmt.accounts .body body hb))
  | .labeled label body, h => Stmt.accounts (.statement (place.labels ++ [label])) body h
  | .block body, h => by
    have hbody := Stmt.accounts_list body h
    cases place with
    | body => exact hbody
    | statement labels => exact accounts_labeledCode (hbody.last fun _ => .of_eq (by simp))
  | .unsupported node, _ => accounts_labeledCode (Rendition.accounts_unsupported node false rfl)

theorem Stmt.accounts_list : (body : List Stmt) → Named Q (Stmt.boundNamesList body) →
    CodeAccounts Q (Stmt.issuesList body) (Stmt.emitList body)
  | [], _ => .pure (.of_eq rfl)
  | s :: rest, h => by
    obtain ⟨hs, hr⟩ := forall_mem_append.mp h
    refine (Stmt.accounts (.statement []) s hs).bind fun code => ?_
    cases s.endsBlock with
    | true => exact .pure (.of_eq rfl)
    | false => exact (Stmt.accounts_list rest hr).last fun _ => .of_eq (by simp)

theorem Stmt.accounts_block : (body : Option (List Stmt)) → Named Q (Stmt.boundNamesBlock body) →
    AccountsOpt Stat.atomsList Q (Stmt.issuesBlock body) (Stmt.emitBlock body)
  | none, _ => rfl
  | some body, h => Stmt.accounts_list body h

theorem Stmt.accounts_else : (alt : Option Stmt) → Named Q (Stmt.boundNamesOpt alt) →
    Accounts Lua.Tail.atoms Q (Stmt.issuesOpt alt) [] (Stmt.emitElse alt)
  | none, _ => .pure (.of_eq rfl)
  | some s, h => by
    have hcode := Stmt.accounts .body s h
    cases s with
    | ifStmt test cons alt =>
      obtain ⟨ht, h⟩ := forall_mem_append.mp h
      obtain ⟨hc, ha⟩ := forall_mem_append.mp h
      exact (accounts_condition (Expr.accounts test ht)).bind fun _ =>
        (Stmt.accounts .body cons hc).bind fun _ =>
          (Stmt.accounts_else alt ha).last fun _ => .of_eq (by simp)
    | _ => exact hcode.last fun _ => .of_eq rfl

theorem SwitchCase.accounts_arms (n : Nat) : (cases : List SwitchCase) →
    Named Q (SwitchCase.boundNames cases) → (value selected : String) →
    Accounts Arm.atomsList Q (SwitchCase.testIssues cases) []
      (SwitchCase.emitArms n cases value selected)
  | [], _, _, _ => .pure (.of_eq rfl)
  | ⟨test, body⟩ :: rest, h, value, selected => by
    obtain ⟨ht, h⟩ := forall_mem_append.mp h
    obtain ⟨-, hr⟩ := forall_mem_append.mp h
    rw [SwitchCase.emitArms_cons]
    exact (accounts_armCode (Expr.accounts_opt test ht) n value selected).bind fun _ =>
      (SwitchCase.accounts_arms (n + 1) rest hr value selected).last fun _ => .of_eq (by simp)

theorem SwitchCase.accounts_bodies (n : Nat) : (cases : List SwitchCase) →
    Named Q (SwitchCase.boundNames cases) → (selected : String) →
    CodeAccounts Q (SwitchCase.bodyIssues cases)
      (SwitchCase.emitBodies n cases selected)
  | [], _, _ => .pure (.of_eq rfl)
  | ⟨test, body⟩ :: rest, h, selected => by
    obtain ⟨-, h⟩ := forall_mem_append.mp h
    obtain ⟨hb, hr⟩ := forall_mem_append.mp h
    have hbody := Stmt.accounts_list body hb
    have hrest := SwitchCase.accounts_bodies (n + 1) rest hr selected
    cases body with
    | nil =>
      refine hrest.last fun _ => .of_eq ?_
      simp
    | cons s body =>
      refine hbody.bind fun code => hrest.last fun _ => .of_eq ?_
      simp [caseBody]

theorem CatchClause.accounts_first : (clauses : List CatchClause) →
    Named Q (CatchClause.boundNames clauses) →
    AccountsOpt handlerAtoms Q (CatchClause.issuesFirst clauses) (CatchClause.emitFirst clauses)
  | [], _ => rfl
  | ⟨param, body⟩ :: _, h =>
    have ⟨hp, h⟩ := forall_mem_append.mp h
    accounts_handlerCode param hp (Stmt.accounts_list body (forall_mem_append.mp h).1)

end

/-- The emission of a program accounts for the issues of the program. -/
theorem Program.accounts (p : Program) (h : Named Q p.boundNames) :
    CodeAccounts Q p.issues p.emission := by
  obtain ⟨hf, hb⟩ := forall_mem_append.mp h
  have hfuncs : Named Q (Declarations.ofBody p.body).funcs :=
    fun x hx => hf x (Declarations.mem_funcs.mp hx)
  have hcode : CodeAccounts Q p.issues (do
      let locals ← declareLocals (Declarations.ofBody p.body).funcs
      pure ([.marker "BEGIN"] ++ locals ++ (← Stmt.emitList p.body) ++ [.marker "END"])) := by
    refine (silent_declared hfuncs).bind fun locals hl => ?_
    refine (Stmt.accounts_list p.body hb).last fun code => ?_
    have hall := (Fits.of_eq (Q := Q.allows) (rfl : Stat.atomsList code = _)).extra hl
    simpa using hall
  exact (hcode.inFrame _).inFrame _

end Walk

end EcmaLua
