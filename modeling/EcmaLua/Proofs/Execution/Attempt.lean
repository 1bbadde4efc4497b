import EcmaLua.Proofs.Emission.Binding
import EcmaLua.Proofs.Execution.Protection

/-!
# What a `try` statement runs

The code of a `try` statement comes down to a short protocol: the body is called under protection,
and what follows depends on how it ended. The phases of the code are run one by one; then a run of
the protocol is read as the list of calls that it makes.
-/

namespace EcmaLua

open Emission
open Lua (Stat)

namespace Protection

variable {H : Host}

section Protocol

/-- The closure of a part that may be missing. -/
def closureOf : Option (List String × List Stat) → Run H (Option Value)
  | none => pure none
  | some (params, code) => do pure (some (← newClosure params code))

/-- Call the finalizer, if there is one. -/
def finish : Option Value → Run H Unit
  | none => pure ()
  | some f => do
    let _ ← call f []
    pure ()

/-- What follows when the body raised a value. -/
def recover (v : Value) (finalizer : Option Value) : Option Value → Run H (Option Value)
  | none => do
    finish finalizer
    throw v
  | some handler => do
    let data ← fieldOf v (.string "data")
    let caught ← call handler [if data.truth then data else v]
    finish finalizer
    pure (some (first caught))

/-- What follows the body: `status` tells whether it came through, `v` is what it returned or
raised. -/
def settle (status v : Value) (finalizer handler : Option Value) : Run H (Option Value) :=
  if status.truth then do
    finish finalizer
    pure (if v = .nil then none else some v)
  else recover v finalizer handler

/-- The protocol of a `try` statement. -/
def trying (body : List Stat) (finalizer : Option (List Stat))
    (handler : Option (List String × List Stat)) : Run H (Option Value) := do
  let b ← newClosure [] body
  let results ← shield (call b [])
  let f ← closureOf (finalizer.map fun code => ([], code))
  let h ← closureOf handler
  settle (first results) (first results.tail) f h

end Protocol

section Phases

theorem closureOf_bind {α : Type} {part : Option (List String × List Stat)}
    {k k' : Option Value → Run H α}
    (h : ∀ n : Option Nat, n.isSome = part.isSome → k (n.map .closure) = k' (n.map .closure)) :
    closureOf part >>= k = closureOf part >>= k' := by
  cases part with
  | none =>
    rw [closureOf, pure_bind, pure_bind]
    exact h none rfl
  | some part =>
    rw [closureOf, bind_assoc, bind_assoc]
    refine newClosure_bind fun n => ?_
    rw [pure_bind, pure_bind]
    exact h (some n) rfl

/-- The locals of a `try` statement are different from each other and from the functions that its
code calls. -/
structure Apart (names : TryNames) : Prop where
  nodup : [names.status, names.value, names.catchValue, names.finalizer, names.handler].Nodup
  pcall : "pcall" ∉ [names.status, names.value, names.catchValue, names.finalizer, names.handler]
  error : "error" ∉ [names.status, names.value, names.catchValue, names.finalizer, names.handler]

/-- A closure in a local. -/
def closurePhase (title name : String) : Option (List String × List Stat) → List Stat
  | none => []
  | some (params, code) =>
    [.marker title, .define [name] (.paren (.func params false code))]

/-- The call of the finalizer, if there is one. -/
def finishPhase (names : TryNames) (finalizes : Bool) : List Stat :=
  if finalizes then [.call (.call (.name names.finalizer) [])] else []

/-- What follows when the body raised a value; the last argument tells whether there is a
handler. -/
def failurePhase (names : TryNames) (finalizes : Bool) : Bool → List Stat
  | false =>
    finishPhase names finalizes ++ [.call (.call (.name "error") [.name names.value, .int 0])]
  | true =>
    .define [names.catchValue] (.call (.name names.handler)
      [.binop .or (.field (.name names.value) "data") (.name names.value)]) ::
      (finishPhase names finalizes ++ [.ret (.name names.catchValue)])

/-- All that follows the body and the closures. -/
def verdictPhase (names : TryNames) (finalizes handles : Bool) : List Stat :=
  .marker "EarlyReturn" ::
    .ifThen (.binop .and (.name names.status) (.binop .ne .nil (.name names.value)))
      (finishPhase names finalizes ++ [.ret (.name names.value)]) .none ::
    .marker "CheckCatch" ::
    .ifThen (.unop .not (.name names.status)) (failurePhase names finalizes handles) .none ::
    (if finalizes then .marker "JustFinalizer" :: finishPhase names finalizes else [])

theorem tryPhases_eq (names : TryNames) (body : List Stat)
    (finalizer : Option (List Stat)) (handler : Option (List String × List Stat)) :
    tryPhases names body finalizer handler =
      .marker "TryBody" ::
      .define [names.status, names.value] (.call (.name "pcall") [.func [] false body]) ::
      (closurePhase "Finally" names.finalizer (finalizer.map fun code => ([], code)) ++
        (closurePhase "Catch" names.handler handler ++
          verdictPhase names finalizer.isSome handler.isSome)) := by
  cases finalizer <;> rcases handler with _ | ⟨_, _⟩ <;> rfl

theorem eval_pcall (env : Env) (body : List Stat) :
    eval (H := H) env (.call (.name "pcall") [.func [] false body]) =
      newClosure [] body >>= fun b => shield (call b []) := by
  simp only [eval, evalArgs, pure_bind, bind_assoc, first_cons]
  exact newClosure_bind fun n => rfl

theorem execList_closurePhase (env : Env) (rest : List Stat) (title name : String)
    (part : Option (List String × List Stat)) :
    execList (H := H) env (closurePhase title name part ++ rest) =
      closureOf part >>= fun f => execList (f.toList.map (name, ·) ++ env) rest := by
  rcases part with _ | ⟨params, code⟩
  · simp [closurePhase, closureOf]
  · simp [closurePhase, closureOf, eval, bindAll, first]

theorem lookup_option_of_ne {env : Env} {name other : String} {o : Option Value}
    (h : name ≠ other) : (o.toList.map (other, ·) ++ env).lookup name = env.lookup name := by
  cases o with
  | none => rfl
  | some v => exact lookup_cons_of_ne h

theorem lookup_option_self {env : Env} {name : String} {o : Option Nat} :
    ∀ n ∈ o, ((o.map Value.closure).toList.map (name, ·) ++ env).lookup name =
      some (.closure n) := by
  rintro n rfl
  simp

/-- The locals hold how the body ended, and the closures. -/
structure Holds (names : TryNames) (env : Env) (status v : Value) (f h : Option Nat) : Prop where
  status : env.lookup names.status = some status
  value : env.lookup names.value = some v
  finalizer : ∀ n ∈ f, env.lookup names.finalizer = some (.closure n)
  handler : ∀ n ∈ h, env.lookup names.handler = some (.closure n)

theorem execList_finishPhase {names : TryNames} {env : Env} {f : Option Nat} (hn : Apart names)
    (hf : ∀ n ∈ f, env.lookup names.finalizer = some (.closure n)) (rest : List Stat) :
    execList (H := H) env (finishPhase names f.isSome ++ rest) =
      finish (f.map .closure) >>= fun _ => execList env rest := by
  cases f with
  | none => simp [finishPhase, finish]
  | some n =>
    have hp : names.finalizer ≠ "pcall" := fun h => hn.pcall (by simp [← h])
    have he : names.finalizer ≠ "error" := fun h => hn.error (by simp [← h])
    simp [finishPhase, finish, eval, evalArgs, eval_local hp he (hf n rfl), first, apply, invoke]

theorem raisedBy_level_zero (H : Host) (v : Value) : raisedBy H [v, .int 0] = v := by
  cases v <;> rfl

theorem execList_failurePhase {names : TryNames} {env : Env} {status v : Value} {f h : Option Nat}
    (hn : Apart names) (henv : Holds names env status v f h) :
    execList (H := H) env (failurePhase names f.isSome h.isSome) =
      recover v (f.map .closure) (h.map .closure) := by
  obtain ⟨hnodup, hp, he⟩ := hn
  have hn := Apart.mk hnodup hp he
  simp only [List.mem_cons, List.not_mem_nil, or_false, not_or] at hp he
  have hv : eval (H := H) env (.name names.value) = pure [v] :=
    eval_local (Ne.symm hp.2.1) (Ne.symm he.2.1) henv.value
  cases h with
  | none =>
    rw [Option.isSome_none, failurePhase, execList_finishPhase hn henv.finalizer]
    refine bind_congr fun _ => ?_
    simp only [execList_call, eval, evalArgs, hv, first_cons, pure_bind, apply, invoke,
      raisedBy_level_zero]
    rfl
  | some n =>
    have hh : eval (H := H) env (.name names.handler) = pure [.closure n] :=
      eval_local (Ne.symm hp.2.2.2.2) (Ne.symm he.2.2.2.2) (henv.handler n rfl)
    have hdata : eval (H := H) env
        (.binop .or (.field (.name names.value) "data") (.name names.value)) =
        fieldOf v (.string "data") >>= fun data => pure [if data.truth then data else v] := by
      simp only [eval, hv, first_cons, pure_bind, bind_assoc]
      refine bind_congr fun data => ?_
      by_cases ht : data.truth <;> simp [ht]
    have hcv : ∀ caught, eval (H := H) ((names.catchValue, caught) :: env)
        (.name names.catchValue) = pure [caught] := fun caught =>
      eval_local (Ne.symm hp.2.2.1) (Ne.symm he.2.2.1) (by simp)
    have hff : names.finalizer ≠ names.catchValue := by
      simp only [List.nodup_cons, List.mem_cons, not_or] at hnodup
      exact Ne.symm hnodup.2.2.1.1
    rw [Option.isSome_some, failurePhase, execList_define, eval, hh, pure_bind, evalArgs, hdata]
    simp only [bind_assoc, pure_bind, evalArgs, first_cons]
    refine bind_congr fun data => ?_
    change call (.closure n) [if data.truth then data else v] >>= _ = _
    refine bind_congr fun caught => ?_
    have hlookup : ∀ k ∈ f, ((names.catchValue, first caught) :: env).lookup names.finalizer =
        some (.closure k) := fun k hk => by
      rw [lookup_cons_of_ne hff, henv.finalizer k hk]
    rw [bindAll, bindAll, execList_finishPhase hn hlookup]
    refine bind_congr fun _ => ?_
    rw [execList_ret, hcv, pure_bind]
    rfl

theorem execList_verdictPhase {names : TryNames} {env : Env} {status v : Value}
    {f h : Option Nat} (hn : Apart names) (henv : Holds names env status v f h) :
    execList (H := H) env (verdictPhase names f.isSome h.isSome) =
      settle status v (f.map .closure) (h.map .closure) := by
  have hp := hn.pcall
  have he := hn.error
  simp only [List.mem_cons, List.not_mem_nil, or_false, not_or] at hp he
  have hs : eval (H := H) env (.name names.status) = pure [status] :=
    eval_local (Ne.symm hp.1) (Ne.symm he.1) henv.status
  have hv : eval (H := H) env (.name names.value) = pure [v] :=
    eval_local (Ne.symm hp.2.1) (Ne.symm he.2.1) henv.value
  have hlast : execList (H := H) env
      (if f.isSome then .marker "JustFinalizer" :: finishPhase names f.isSome else []) =
      finish (f.map .closure) >>= fun _ => pure none := by
    have hfinish := execList_finishPhase (H := H) hn henv.finalizer []
    rw [List.append_nil] at hfinish
    cases f with
    | none => simp [finish]
    | some n => simpa using hfinish
  rw [verdictPhase, execList_marker, execList_ifThen, execList_marker, execList_ifThen, hlast,
    execList_failurePhase hn henv, execList_finishPhase hn henv.finalizer]
  by_cases hstatus : status.truth
  · by_cases hnil : v = .nil <;> simp [eval, hs, hv, hstatus, hnil, settle,
      andThen_bind, -bind_pure_comp]
  · have hrecover (next : Run H (Option Value)) :
        andThen (recover v (f.map .closure) (h.map .closure)) next =
          recover v (f.map .closure) (h.map .closure) := by
      cases h with
      | none => simp only [Option.map_none, recover, andThen_bind, andThen_throw]
      | some n => simp only [Option.map_some, recover, andThen_bind, andThen_some]
    simp [eval, hs, hv, hstatus, settle, hrecover]

theorem execList_tryPhases {names : TryNames} (hn : Apart names) (body : List Stat)
    (finalizer : Option (List Stat)) (handler : Option (List String × List Stat))
    (env : Env) :
    execList (H := H) env (tryPhases names body finalizer handler) =
      trying body finalizer handler := by
  rw [tryPhases_eq, execList_marker, execList_define, eval_pcall, bind_assoc, trying]
  refine bind_congr fun b => bind_congr fun results => ?_
  rw [execList_closurePhase]
  refine closureOf_bind fun f hf => ?_
  rw [execList_closurePhase]
  refine closureOf_bind fun h hh => ?_
  rw [Option.isSome_map] at hf
  rw [← hf, ← hh]
  refine execList_verdictPhase hn ?_
  obtain ⟨hnodup, -, -⟩ := hn
  simp only [List.nodup_cons, List.mem_cons, List.not_mem_nil, or_false, not_or] at hnodup
  obtain ⟨⟨hsv, -, hsf, hsh⟩, ⟨-, hvf, hvh⟩, -, hfh, -⟩ := hnodup
  constructor
  · rw [lookup_option_of_ne hsh, lookup_option_of_ne hsf]
    simp [bindAll, lookup_cons_of_ne hsv]
  · rw [lookup_option_of_ne hvh, lookup_option_of_ne hvf]
    simp [bindAll]
  · intro n hn
    rw [lookup_option_of_ne hfh]
    exact lookup_option_self n hn
  · exact lookup_option_self

theorem execList_nested (env : Env) (labels : List String) (code : List Stat) :
    execList (H := H) env (nested labels code) = execList env code := by
  induction labels with
  | nil => rfl
  | cons label rest ih =>
    change execList env [.doBlock (nested rest code ++ [.label (afterLabel label)])] = _
    rw [execList_doBlock, execList_append_label, ih]

end Phases

end Protection

namespace Emission

/-- The action gives this result in some state. -/
def Yields {α : Type} (act : Emit α) (a : α) : Prop := ∃ s, (act s).1 = a

theorem always_yields {α : Type} (act : Emit α) : Always (Yields act) act :=
  fun s _ => ⟨⟨s, rfl⟩, trivial⟩

theorem always_numbered (stem : String) :
    Always (fun name => ∃ k : Nat, name = stem ++ toString k) (fresh stem) :=
  fun s _ => ⟨⟨s.supply.last + 1, rfl⟩, trivial⟩

/-- Two texts that start differently. -/
theorem append_ne_append {a b x y : String} (n : Nat) (ha : n ≤ a.toList.length)
    (hb : n ≤ b.toList.length) (h : a.toList.take n ≠ b.toList.take n) : a ++ x ≠ b ++ y := by
  intro heq
  have htake := congrArg (fun text : String => text.toList.take n) heq
  simp only [String.toList_append, List.take_append_of_le_length ha,
    List.take_append_of_le_length hb] at htake
  exact h htake

theorem apart_numbered (a b c d e : Nat) :
    Protection.Apart ⟨"__TryStatus" ++ toString a, "__TryReturnValue" ++ toString b,
      "__CatchReturnValue" ++ toString c, "__TryFinalizer" ++ toString d,
      "__TryHandler" ++ toString e⟩ := by
  have hne {s t x y : String} (h : (6 ≤ s.toList.length ∧ 6 ≤ t.toList.length ∧
      s.toList.take 6 ≠ t.toList.take 6)) : s ++ x ≠ t ++ y :=
    append_ne_append 6 h.1 h.2.1 h.2.2
  have hbare {s t x : String} (h : (2 ≤ s.toList.length ∧ 2 ≤ t.toList.length ∧
      s.toList.take 2 ≠ t.toList.take 2)) : s ≠ t ++ x := by
    simpa using append_ne_append (x := "") (y := x) 2 h.1 h.2.1 h.2.2
  constructor
  · simp only [List.nodup_cons, List.mem_cons, List.not_mem_nil, or_false, not_or, List.nodup_nil,
      and_true, not_false_eq_true]
    refine ⟨⟨hne ?_, hne ?_, hne ?_, hne ?_⟩, ⟨hne ?_, hne ?_, hne ?_⟩, ⟨hne ?_, hne ?_⟩,
      hne ?_⟩ <;> decide
  · simp only [List.mem_cons, List.not_mem_nil, or_false, not_or]
    refine ⟨hbare ?_, hbare ?_, hbare ?_, hbare ?_, hbare ?_⟩ <;> decide
  · simp only [List.mem_cons, List.not_mem_nil, or_false, not_or]
    refine ⟨hbare ?_, hbare ?_, hbare ?_, hbare ?_, hbare ?_⟩ <;> decide

/-- Code of a `try` statement whose parts are made by these actions. -/
def Tries (body : Emit (List Stat)) (finalizer : Option (Emit (List Stat)))
    (handler : Option (Emit (List String × List Stat))) (code : List Stat) : Prop :=
  ∃ notes names b f h, code = notes ++ [.doBlock (tryPhases names b f h)] ∧
    (∀ s ∈ notes, ∃ text, s = .note text) ∧ Protection.Apart names ∧
    Yields body b ∧ Yields (optional finalizer) f ∧ Yields (optional handler) h

theorem always_tries (span : Span) (body : Emit (List Stat)) (clauses : Nat)
    (handler : Option (Emit (List String × List Stat)))
    (finalizer : Option (Emit (List Stat))) :
    Always (Tries body finalizer handler) (tryCode span body clauses handler finalizer) := by
  have hnotes : Always (fun notes => ∀ s ∈ notes, ∃ text, s = Stat.note text)
      (clauseNotes clauses span) := by
    unfold clauseNotes
    split
    · exact .pure (List.forall_mem_nil _)
    · exact (always_any _).bind fun _ _ => .pure (List.forall_mem_singleton.mpr ⟨_, rfl⟩)
  have hfinal : Always (Yields (optional finalizer)) (optional (finalizer.map walled)) := by
    cases finalizer with
    | none => exact always_yields _
    | some act => exact fun s _ => ⟨⟨{ s with control := .barrier :: s.control }, rfl⟩, trivial⟩
  rw [tryCode_eq]
  refine (always_numbered _).bind fun _ hstatus => (always_numbered _).bind fun _ hvalue => ?_
  refine (always_numbered _).bind fun _ hcatch => (always_numbered _).bind fun _ hfinalizer => ?_
  refine (always_numbered _).bind fun _ hhandler => hnotes.bind fun notes hn => ?_
  refine (always_yields body).walled.bind fun b hb => hfinal.bind fun f hf => ?_
  refine (always_yields _).bind fun h hh => .pure ?_
  refine ⟨notes, _, b, f, h, rfl, hn, ?_, hb, hf, hh⟩
  obtain ⟨_, rfl⟩ := hstatus
  obtain ⟨_, rfl⟩ := hvalue
  obtain ⟨_, rfl⟩ := hcatch
  obtain ⟨_, rfl⟩ := hfinalizer
  obtain ⟨_, rfl⟩ := hhandler
  exact apart_numbered ..

end Emission

namespace Protection

variable {H : Host}

section Calls

/-- The value that a call gives. -/
def Exit.value : Exit → Value
  | .completes => .nil
  | .returns v => v
  | .raises v => v

/-- What a statement comes to when its finalizer has ended: all that counts of the finalizer is
what it raises. -/
def Exit.after (e : Exit) (result : Except Value (Option Value)) : Except Value (Option Value) :=
  match e with
  | .raises v => .error v
  | _ => result

/-- The results of a protected call. -/
def Exit.shielded : Exit → List Value
  | .completes => [.bool true]
  | .returns v => [.bool true, v]
  | .raises v => [.bool false, v]

theorem shield_call_apply (f : Value) (m : Machine H) :
    shield (call f []) m = (.ok (H.call f [] m.memory).1.shielded, (call f [] m).2) := by
  rw [shield, call_apply]
  cases (H.call f [] m.memory).1 <;> rfl

/-- From a machine the run makes these calls, and comes to this result. -/
def Makes (run : Run H (Option Value)) (m : Machine H) (calls : List Call)
    (result : Except Value (Option Value)) : Prop :=
  (run m).1 = result ∧ (run m).2.log = m.log ++ calls ∧ (run m).2.closures = m.closures

theorem Makes.bind_ok {α : Type} {x : Run H α} {k : α → Run H (Option Value)} {m m' : Machine H}
    {a : α} {before calls : List Call} {r : Except Value (Option Value)} (hx : x m = (.ok a, m'))
    (hlog : m'.log = m.log ++ before) (hclosures : m'.closures = m.closures)
    (hk : Makes (k a) m' calls r) : Makes (x >>= k) m (before ++ calls) r := by
  obtain ⟨hr, hl, hc⟩ := hk
  rw [Makes, Run.bind_apply, hx]
  exact ⟨hr, by rw [hl, hlog, List.append_assoc], hc.trans hclosures⟩

theorem Makes.bind_error {α : Type} {x : Run H α} {k : α → Run H (Option Value)}
    {m m' : Machine H} {v : Value} {before : List Call} (hx : x m = (.error v, m'))
    (hlog : m'.log = m.log ++ before) (hclosures : m'.closures = m.closures) :
    Makes (x >>= k) m before (.error v) := by
  rw [Makes, Run.bind_apply, hx]
  exact ⟨rfl, hlog, hclosures⟩

/-- What follows a call depends on how the call ended. -/
theorem Makes.bind_call (P : List Call → Except Value (Option Value) → Prop) (f : Value)
    (args : List Value) {k : List Value → Run H (Option Value)} {m : Machine H}
    (hraised : ∀ v, P [⟨f, args, .raises v⟩] (.error v))
    (hpassed : ∀ y : Exit, (∀ v, y ≠ .raises v) → ∀ results, first results = y.value →
      ∀ m', ∃ calls r, Makes (k results) m' calls r ∧ P (⟨f, args, y⟩ :: calls) r) :
    ∃ calls r, Makes (call f args >>= k) m calls r ∧ P calls r := by
  have hcall := call_apply f args m
  cases hexit : (H.call f args m.memory).1 with
  | raises v =>
    rw [hexit] at hcall
    exact ⟨_, _, .bind_error hcall rfl rfl, hraised v⟩
  | completes =>
    rw [hexit] at hcall
    obtain ⟨calls, r, hk, hp⟩ := hpassed .completes nofun [] rfl _
    exact ⟨_, _, .bind_ok hcall rfl rfl hk, hp⟩
  | returns v =>
    rw [hexit] at hcall
    obtain ⟨calls, r, hk, hp⟩ := hpassed (.returns v) nofun [v] rfl _
    exact ⟨_, _, .bind_ok hcall rfl rfl hk, hp⟩

theorem Exit.after_of_passed {y : Exit} (hy : ∀ v, y ≠ .raises v)
    (r : Except Value (Option Value)) : y.after r = r := by
  cases y with
  | raises v => exact absurd rfl (hy v)
  | completes => rfl
  | returns v => rfl

theorem makes_finish (F : Value) {k : Run H (Option Value)} {r : Except Value (Option Value)}
    (m : Machine H) (hk : ∀ m', k m' = (r, m')) :
    ∃ e : Exit, Makes (finish (some F) >>= fun _ => k) m [⟨F, [], e⟩] (e.after r) := by
  have hkm (m' : Machine H) : Makes (pure () >>= fun _ => k) m' [] r := by
    rw [pure_bind, Makes, hk]
    exact ⟨rfl, (List.append_nil _).symm, rfl⟩
  rw [finish, bind_assoc]
  obtain ⟨calls, r', hmakes, e, rfl, rfl⟩ := Makes.bind_call (H := H) (m := m)
    (fun calls r' => ∃ e : Exit, calls = [⟨F, [], e⟩] ∧ r' = e.after r) F []
    (fun v => ⟨.raises v, rfl, rfl⟩)
    (fun y hy _ _ m' => ⟨[], r, hkm m', y, rfl, (Exit.after_of_passed hy r).symm⟩)
  exact ⟨e, hmakes⟩

/-- The machine at the point where the body has been called and the closures are made. -/
def Machine.poised (m : Machine H) (body : List Stat)
    (closures : List (List String × List Stat)) : Machine H :=
  { memory := (H.call (.closure m.closures.length) [] m.memory).2
    closures := m.closures ++ ([], body) :: closures
    log := m.log ++ [⟨.closure m.closures.length, [],
      (H.call (.closure m.closures.length) [] m.memory).1⟩] }

theorem closureOf_apply (part : Option (List String × List Stat)) (m : Machine H) :
    closureOf part m = (.ok (part.map fun _ => .closure m.closures.length),
      { m with closures := m.closures ++ part.toList }) := by
  cases part with
  | none => simp [closureOf, Run.pure_apply]
  | some part => simp [closureOf, Run.bind_apply, Run.pure_apply, newClosure]

theorem trying_apply (body : List Stat) (finalizer : Option (List Stat))
    (handler : Option (List String × List Stat)) (m : Machine H) :
    trying body finalizer handler m =
      let x := (H.call (.closure m.closures.length) [] m.memory).1
      settle (first x.shielded) (first x.shielded.tail)
        (finalizer.map fun _ => .closure (m.closures.length + 1))
        (handler.map fun _ =>
          .closure (m.closures.length + 1 + (finalizer.map fun _ => ()).toList.length))
        (m.poised body ((finalizer.map fun code => ([], code)).toList ++ handler.toList)) := by
  rw [trying, Run.bind_apply, newClosure]
  simp only
  rw [Run.bind_apply, shield_call_apply]
  simp only
  rw [Run.bind_apply, closureOf_apply]
  simp only
  rw [Run.bind_apply, closureOf_apply]
  cases finalizer <;> cases handler <;> simp [Machine.poised, call_apply]

end Calls

/-- Running the code of a `try` statement is running its protocol. -/
theorem execList_tries (env : Env) (labels : List String) {body : Emit (List Stat)}
    {finalizer : Option (Emit (List Stat))}
    {handler : Option (Emit (List String × List Stat))} {code : List Stat}
    (h : Tries body finalizer handler code) :
    ∃ b f c, Yields body b ∧ Yields (optional finalizer) f ∧ Yields (optional handler) c ∧
      execList (H := H) env (nested labels code) = trying b f c := by
  obtain ⟨notes, names, b, f, c, rfl, hnotes, hn, hb, hf, hc⟩ := h
  refine ⟨b, f, c, hb, hf, hc, ?_⟩
  have hskip : execList (H := H) env (notes ++ [.doBlock (tryPhases names b f c)]) =
      execList env [.doBlock (tryPhases names b f c)] := by
    clear hf hc hb
    induction notes with
    | nil => rfl
    | cons s rest ih =>
      obtain ⟨⟨text, rfl⟩, hrest⟩ := List.forall_mem_cons.mp hnotes
      rw [List.cons_append, execList_note, ih hrest]
  rw [execList_nested, hskip, execList_doBlock, execList_tryPhases hn]

end Protection

/-- Running a `try` statement is running the protocol with the code of its parts. -/
theorem Stmt.execList_tryStmt (H : Protection.Host) (block : List Stmt)
    (handlers : List CatchClause) (finalizer : Option (List Stmt)) (span : Span) (place : Place)
    (s : State) (env : Protection.Env) :
    ∃ b f c, Yields (Stmt.emitList block) b ∧ Yields (optional (Stmt.emitBlock finalizer)) f ∧
      Yields (optional (CatchClause.emitFirst handlers)) c ∧
      Protection.execList (H := H) env
          ((Stmt.tryStmt block handlers finalizer span).emit place s).1 =
        Protection.trying b f c := by
  have htries := ((always_tries span (Stmt.emitList block) handlers.length
    (CatchClause.emitFirst handlers) (Stmt.emitBlock finalizer)).labeled place.labels) s trivial
  rw [Stmt.emit]
  exact Protection.execList_tries env place.labels htries.1

end EcmaLua
