import EcmaLua.Proofs.Emission.Settled
import EcmaLua.Proofs.Emission.WellFormed
import EcmaLua.Proofs.Lua.Marks

/-!
# Every jump has its target

The jumps and labels in the text of a program are those of its tree, in order, and in the tree
every jump has a target within its function. A loop has a landing behind its body exactly if a
bare `continue` belongs to it, and those `continue`s go there. The landing is printed beside the
labels of the loop, one of which can be spelled the same.
-/

namespace EcmaLua

open Emission
open Lua (Vocabulary Stat)

theorem Lua.Vocabulary.words_of_isName {text : String} (h : Lua.isName text = true) :
    Vocabulary.words.name text := by
  refine ⟨fun c hc => Lua.isNameChar_of_isName h hc, fun hk => ?_⟩
  unfold Lua.isName at h
  split at h
  · exact absurd h (by simp)
  · simp [hk] at h

/-- Generated code is made of words, whatever the identifiers of the program are. -/
theorem Emission.covers_words : Covers .words where
  spell := fun identifier =>
    ⟨fun _ hc => Lua.isNameChar_of_mem_spell identifier hc,
      Lua.not_mem_keywords (Lua.spell_not_mem_reserved identifier)⟩
  after := by
    intro label
    have hsuffix : "__After".toList.all Lua.isNameChar = true := by decide
    refine ⟨fun c hc => ?_, Lua.not_mem_keywords (Lua.afterLabel_not_mem_reserved label)⟩
    rw [afterLabel, String.toList_append, List.mem_append] at hc
    rcases hc with hc | hc
    · exact Lua.isNameChar_of_mem_spell label hc
    · exact List.all_eq_true.mp hsuffix c hc
  numbered := by
    intro stem hstem k
    have hall : stems.all (fun text => text.toList.head? == some '_' &&
        text.toList.tail.all Lua.isNameChar) = true := by decide
    have htext := List.all_eq_true.mp hall stem hstem
    simp only [Bool.and_eq_true, beq_iff_eq] at htext
    have hl : stem.toList = '_' :: stem.toList.tail := by
      cases hs : stem.toList with
      | nil => simp [hs] at htext
      | cons c cs =>
        rw [hs] at htext
        obtain rfl : c = '_' := by simpa using htext.1
        rfl
    exact Vocabulary.words_of_isName (Lua.isName_numbered hl htext.2 k)
  helper := fun h => Vocabulary.words_of_isName h.isName_name
  fixed := by
    intro text htext
    have hall : fixedNames.all Lua.isName = true := by decide
    exact Vocabulary.words_of_isName (List.all_eq_true.mp hall text htext)
  note := by
    intro text htext
    have hall : fixedNotes.all (fun text => !text.toList.contains '\n') = true := by decide
    have hline : '\n' ∉ text.toList := by simpa using List.all_eq_true.mp hall text htext
    exact hline

/-- The fragments of a program, at any depth. -/
def Program.fragments (p : Program) : List Fragment := (Fragment.stmt (.block p.body)).within true

/-- The chunk of a program is settled: every jump has a target in its function. -/
theorem Program.settled_emit {v : Vocabulary} (hv : Covers v) {p : Program}
    (h : p.Obeys (.noting v))
    (hloop : ∀ {s body}, .stmt s ∈ p.fragments → s.looped = some body → Runs v (body.emit .body) :=
      by exact fun _ _ _ _ _ _ => trivial) :
    Stat.SettledBlock v [] false p.emit.chunk.body := by
  have habides := (Fragment.obeys_iff_within (.stmt (.block p.body))).mp h
  have hadmits : Emission.Admits v (· ∈ p.fragments) :=
    ⟨fun hp _ hq => Fragment.mem_within_of_parts hp hq, habides _, habides _, hloop⟩
  have hbody := Settles.list fun s hs => hadmits.settles hv (.stmt s)
    (Fragment.mem_within_of_parts (Fragment.mem_within true _) (List.mem_map_of_mem hs))
  have hcode : Codes v (Stmt.bareContinuesList p.body)
      (fun name => Stmt.ObeysList (.avoiding name) p.body) (do
      let locals ← declareLocals (Declarations.ofBody p.body).funcs
      pure ([.marker "BEGIN"] ++ locals ++ (← Stmt.emitList p.body) ++ [.marker "END"])) := by
    have hbegin : Quiet v [.marker "BEGIN"] := hv.law.marker (by decide)
    have hend : Quiet v [.marker "END"] := hv.law.marker (by decide)
    refine (gives_declareLocals hv _).then fun locals hl => ?_
    refine hbody.recode (fun code => ?_) ?_
    · rw [Stat.ownMarksList_append, Stat.ownMarksList_append, (hbegin.append hl).1, hend.1,
        List.nil_append, List.append_nil]
    · intro code visible loop hc
      refine Stat.settledBlock_append.mpr ⟨(hbegin.append hl).settled_append ?_, hend.2 _ _⟩
      exact hc
  have hframes := (hcode.inFrame (rootFrame (Declarations.ofBody p.body))).inFrame
    (.object "program" Lua.globalObjects)
  exact (gives_detached hframes {}).2

/-- The body of a loop, made in a state: behind it come the labels of the loop, and then a landing
exactly if a bare `continue` belongs to the loop. The landing is a new name, and the `continue`s go
to it. As long as no identifier or label is spelled like it, nothing else in the body goes there,
and it is printed once. -/
def Stmt.Landed (labels : List String) (body : Stmt) (s : State) : Prop :=
  ∃ (code : List Stat) (landing : Option String),
    (loopBody labels (body.emit .body) s).1 =
      .doBlock code :: (labels.map Lua.spell).map .label ++ landing.toList.map .label ∧
    (landing = none ↔ body.bareContinues = 0) ∧
    ∀ name ∈ landing,
      (∃ k, s.supply.last < k ∧ k ≤ (loopBody labels (body.emit .body) s).2.supply.last ∧
        name = landingName k) ∧
      body.bareContinues ≤ (Stat.ownMarksList code).count (.goTo name) ∧
      (body.Obeys (.avoiding name) → name ∉ labels.map Lua.spell →
        (Stat.ownMarksList code).count (.goTo name) = body.bareContinues ∧
          (Stat.ownMarksList (loopBody labels (body.emit .body) s).1).count (.label name) = 1)

theorem count_landing {code : List Stat} {labels : List String} {name : String}
    (h : .label name ∉ Stat.ownMarksList code) (hl : name ∉ labels) :
    (Stat.ownMarksList (.doBlock code :: (labels ++ [name]).map .label)).count (.label name) =
      1 := by
  have hlabels : (labels.map Lua.Mark.label).count (.label name) = 0 :=
    List.count_eq_zero.mpr fun hm => hl (by simpa using hm)
  rw [Stat.ownMarksList, Stat.ownMarksList_map_label, Stat.ownMarks, List.count_append,
    List.count_eq_zero.mpr h, List.map_append, List.count_append, hlabels]
  simp

theorem Stmt.landed (labels : List String) (body : Stmt) (s : State) : body.Landed labels s := by
  have hin := body.codes_all .body
    { s with control := .loop labels none :: s.control }
  obtain ⟨landing, hcontrol, hnone, hsome, -⟩ := hin.looped covers_all
  have hcode := loopBody_eq hcontrol
  refine ⟨_, landing, hcode.trans (by rw [List.map_append, List.cons_append]),
    ⟨fun hl => ?_, hnone⟩, fun name hname => ?_⟩
  · refine Nat.eq_zero_of_not_pos fun hpos => ?_
    obtain ⟨k, -, -, heq⟩ := hsome hpos
    rw [hl] at heq
    exact absurd heq (by simp)
  · obtain rfl : landing = some name := hname
    have hpos : 0 < body.bareContinues :=
      Nat.pos_of_ne_zero fun hzero => absurd (hnone hzero) (by simp)
    have hlanding : Control.landing (body.emit .body
        { s with control := .loop labels none :: s.control }).2.control = some (some name) := by
      rw [hcontrol]
      rfl
    obtain ⟨k, hk, hk', heq⟩ := hsome hpos
    obtain rfl : name = landingName k := by simpa using heq
    refine ⟨⟨k, hk, hk', rfl⟩, hin.jumps _ hlanding, fun havoid hlabels => ?_⟩
    obtain ⟨hcount, hlabel⟩ := hin.others k (Or.inr (Or.inr ⟨rfl, hlanding⟩)) ⟨havoid, nofun⟩
    rw [if_pos hlanding] at hcount
    rw [hcode]
    exact ⟨hcount, count_landing hlabel hlabels⟩

/-- The words of generated code, and the bodies that the loops of a program get. -/
def Lua.Vocabulary.landing (p : Program) : Vocabulary where
  name := Vocabulary.words.name
  note := Vocabulary.words.note
  loop code := ∃ (loop body : Stmt) (labels : List String) (s : State),
    .stmt loop ∈ p.fragments ∧ loop.looped = some body ∧
      Amid (loopBody labels (body.emit .body) s).1 code ∧ body.Landed labels s

/-- In the text of a program, whatever the settings, the lines that are jumps or labels are those
of its tree. In the tree every `goto` has its label later in its own block or behind a block around
it, and every `break` is in a loop, each within the same function. The body of every loop in the
tree is that of a loop of the program, with a landing behind it exactly if bare `continue`s belong
to that loop, and these go there. -/
theorem Program.jumps_emit {p : Program} (h : p.Obeys (.noting .words)) (settings : Settings) :
    Lua.markLines (p.emit.chunk.render settings) = Lua.Stat.marksList p.emit.chunk.body ∧
      Lua.Stat.SettledBlock (.landing p) [] false p.emit.chunk.body :=
  ⟨Lua.Chunk.markLines_render settings p.emit.chunk (Program.settled_emit covers_words h),
    Program.settled_emit (v := .landing p) { covers_words with } h
      fun hloop hbody labels s _ hcode =>
        ⟨_, _, labels, s, hloop, hbody, hcode, Stmt.landed labels _ s⟩⟩

/-- A labeled loop with a function, a `switch` and a `try` statement in it, and jumps of each
kind. -/
def crowdedLoop : Program where
  body := [
    .labeled "outer" (.forStmt .none (some (.ident "a")) none (.block [
      .exprStmt (.func ⟨none, [], [.whileStmt .this (.continueStmt none .nowhere)]⟩),
      .switchStmt (.ident "b") [⟨none, [.continueStmt none .nowhere]⟩,
        ⟨some .this, [.breakStmt none .nowhere]⟩],
      .doWhileStmt (.ifStmt (.ident "c") (.continueStmt (some "outer") .nowhere)
        (some (.continueStmt none .nowhere))) .this,
      .tryStmt [.breakStmt (some "outer") .nowhere] [] none .nowhere,
      .unsupported ⟨"ClassDeclaration", .statement, .nowhere⟩,
      .breakStmt (some "outer") .nowhere]))]

theorem jumps_crowdedLoop :
    crowdedLoop.Obeys (.noting .words) ∧
      Lua.markLines (crowdedLoop.emit.chunk.render {}) =
        Lua.Stat.marksList crowdedLoop.emit.chunk.body ∧
      Lua.Stat.SettledBlock (.landing crowdedLoop) [] false crowdedLoop.emit.chunk.body := by
  have h : crowdedLoop.Obeys (.noting .words) := by
    simp only [Program.Obeys, crowdedLoop, Stmt.ObeysList, Stmt.Obeys, Expr.Obeys, Func.Obeys,
      ForInit.Obeys, Expr.ObeysOpt, SwitchCase.Obeys, CatchClause.Obeys, Stmt.ObeysOpt,
      Stmt.ObeysBlock, Rules.NameOpt, Rules.noting]
    simp [Vocabulary.words]
  exact ⟨h, Program.jumps_emit h {}⟩

/-- A loop with a label that is spelled like its landing has both printed. -/
theorem labeledLanding_twice :
    Lua.Stat.marksList (Program.emit ⟨[.labeled "__Continue1" (.whileStmt (.ident "x")
        (.block [.continueStmt none .nowhere]))]⟩).chunk.body =
      [.goTo "__Continue1", .label "__Continue1", .label "__Continue1",
        .label "__Continue1__After"] := by
  decide

end EcmaLua
