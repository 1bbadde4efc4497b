import EcmaLua.Proofs.Emission.Walk
import EcmaLua.Proofs.Emission.WellFormed

/-!
# Emission makes well-formed blocks

The constructs of statements, and the walk over a program. A statement in a list gets statements
that others can follow, unless it is a bare `return`; the body of a construct gets a block.
-/

namespace EcmaLua

open Lua (isName isRemark Helper spell Operand Variable Application Plain Stat Arm)

namespace Emission

section Constructs

variable {σ : Spelling} {w : Bool} {labels : List String} {test r : Rendition}
  {code body : Emit (List Stat)}

theorem plain_labels (f : String → String) (hf : ∀ l ∈ labels, σ.name (f l)) :
    Plain σ (labels.map fun l => .label (f l)) := by
  intro s hs
  obtain ⟨l, hl, rfl⟩ := List.mem_map.mp hs
  exact ⟨hf l hl, rfl⟩

theorem plain_nested (hl : ∀ l ∈ labels, σ.identifier l) {stats : List Stat}
    (h : Plain σ stats) : Plain σ (nested labels stats) := by
  induction labels with
  | nil => exact h
  | cons label rest ih =>
    obtain ⟨hlabel, hrest⟩ := List.forall_mem_cons.mp hl
    have hlast : Plain σ [.label (afterLabel label)] := .one (σ.after hlabel) rfl
    exact .one ((ih hrest).append hlast).block rfl

theorem makes_loopBody (hl : ∀ l ∈ labels, σ.identifier l)
    (h : Makes σ (Stat.WellFormedBlock σ none) body) :
    Makes σ (Plain σ) (loopBody labels body) := by
  refine (makes_enclosed (.loop labels none) trivial h).bind fun result hr => .pure ?_
  obtain ⟨stats, enclosure⟩ := result
  obtain ⟨hstats, hnamed⟩ := hr
  have hblock : Plain σ [.doBlock stats] := .one hstats rfl
  have hlabels : Plain σ (labels.map fun l => .label (spell l)) :=
    plain_labels spell fun l hm => σ.spell (hl l hm)
  refine (hblock.append hlabels).append ?_
  split
  · next heq =>
      rw [heq] at hnamed
      exact .one hnamed rfl
  · exact .nil

/-- The code at the start of a loop over keys: it stores the key, unless the loop does so itself. -/
def Storing (v : Lua.Vocabulary) (key : String) (code : List Stat) : Prop :=
  code = [] ∨ ∃ target, Variable v target ∧ code = [.store target key]

theorem Storing.prepend {key : String} {store rest : List Stat} (h : Storing σ key store)
    (hk : σ.name key) (hr : Stat.WellFormedBlock σ none rest) :
    Stat.WellFormedBlock σ (some key) (store ++ rest) := by
  rcases h with rfl | ⟨target, ht, rfl⟩
  · exact hr.first
  · exact ⟨⟨⟨ht.1, ht.2, hk⟩, rfl⟩, nofun, hr⟩

theorem makes_forInCode (ho : r.Sound σ w) {head : Emit (String × List Stat)}
    (hh : Makes σ (fun h => σ.name h.1 ∧ Storing σ h.1 h.2) head)
    (hb : Makes σ (Plain σ) (loopBody labels body)) :
    Makes σ (Plain σ) (forInCode labels r head body) := by
  refine ho.value.bind fun o he => (makes_fresh rfl rfl).bind fun ignored hi => ?_
  refine hh.bind fun result hr => hb.bind fun stats hs => .pure ?_
  have hiterate : (Helper.iterate.call [o]).WellFormed σ :=
    Helper.iterate.wellFormed_call ⟨he, trivial⟩
  exact .one ⟨hr.1, hi, hiterate, hr.2.prepend hr.1 hs.block⟩ rfl

theorem makes_withCode (span : Span) (ho : r.Sound σ w)
    (hb : Makes σ (Stat.WellFormedBlock σ none) body) :
    Makes σ (Plain σ) (withCode span r body) := by
  refine (makes_fresh rfl rfl).bind fun proxy hproxy => ho.value.bind fun o he => ?_
  refine (makes_inFrame (.object "with" proxy) (makes_capturing hb)).bind fun result hr => ?_
  refine (makes_report _).bind fun _ _ => .pure (.one ⟨hproxy, ?_, hr⟩ rfl)
  exact Helper.toObject.wellFormed_call ⟨he, trivial⟩

/-- A key that is stored right in its variable. -/
theorem makes_key {name : String} (h : σ.identifier name) :
    Makes σ (fun result : String × List Stat => σ.name result.1 ∧ Storing σ result.1 result.2)
      (pure (spell name, [])) := by
  have hname : σ.name (spell name) := σ.spell h
  refine .pure ?_
  dsimp only
  exact ⟨hname, Or.inl rfl⟩

theorem makes_functionCode {params : List String} (hp : ∀ p ∈ params, σ.identifier p)
    {names : Declarations} (hn : ∀ f ∈ names.funcs, σ.identifier f)
    (hb : Makes σ (Stat.WellFormedBlock σ none) body) :
    Makes σ (Application σ) (functionCode params names body) := by
  have hself : σ.name "self" := σ.word (by decide)
  have harguments : σ.name "arguments" := σ.word (by decide)
  have hspelled : ∀ p ∈ params.map spell, σ.name p := by
    intro p hm
    obtain ⟨q, hq, rfl⟩ := List.mem_map.mp hm
    exact σ.spell (hp q hq)
  refine (makes_detached (makes_inFrame _ ((makes_declareNew _).bind fun _ _ =>
    (makes_declareLocals hn).bind fun locals hlocals =>
      hb.bind fun stats hs => .pure (hlocals.prepend hs)))).bind fun stats hs => .pure ?_
  refine Helper.defineFunction.application_call ⟨?_, trivial⟩
  split
  · have hunpacked : Plain σ (if (params.map spell).isEmpty then []
        else [.define (params.map spell) .vararg]) := by
      split
      · exact .nil
      · next hne => exact .one ⟨⟨by simpa using hne, hspelled⟩, trivial⟩ rfl
    have hpack :
        Plain σ [.define ["arguments"] (.call (.field (.name "table") "pack") [.vararg])] :=
      σ.law.defineOne harguments
        ⟨rfl, ⟨rfl, (σ.word (by decide) : σ.name "table")⟩, trivial, trivial⟩
    have hlength : Plain σ [.assign (.field (.name "arguments") "__Length")
        (.field (.name "arguments") "n")] :=
      .one ⟨rfl, ⟨rfl, harguments⟩, rfl, harguments⟩ rfl
    exact ⟨by simpa using hself, (hunpacked.append (hpack.append hlength)).prepend hs⟩
  · exact ⟨List.forall_mem_cons.mpr ⟨hself, hspelled⟩, hs⟩

end Constructs

end Emission

/-- The programs that can be written in a spelling: identifiers are those that it spells, what is
written to is a place, and the kinds of constructs can stand in a comment. -/
def Rules.writing (σ : Spelling) : Rules where
  name := σ.identifier
  kind := σ.note
  place := fun e => e.isTarget = true

/-- The programs that can be written in Lua: names can be spelled, what is written to is a place,
and the kinds of constructs can stand in a comment. -/
def Rules.spellable : Rules where
  name := fun text => isIdentifier text = true
  kind := fun text => isRemark text = true
  place := fun e => e.isTarget = true

theorem Rules.NameOpt.mem {r : Rules} {name : Option String} (h : r.NameOpt name) :
    ∀ n ∈ name, r.name n := by
  cases name with
  | none => simp
  | some name =>
    rintro n ⟨⟩
    exact h

open Emission

/-- The functions that a body declares have names that can be spelled. -/
theorem Stmt.isIdentifier_funcs {σ : Spelling} {body : List Stmt}
    (h : Stmt.ObeysList (.writing σ) body) :
    ∀ f ∈ (Declarations.ofBody body).funcs, σ.identifier f :=
  fun _ hf => h.funcNames (Declarations.mem_funcs.mp hf)

variable {σ : Spelling}

/-- The forms of code reach through the programs that can be written. -/
theorem Spelling.reaches (σ : Spelling) : Judgement.Reaches (fun _ : Unit => .wellFormed σ)
    (Makes σ) (fun _ => σ.identifier) (fun _ => Lua.Tail.WellFormed σ)
    (fun _ h => σ.name h.1 ∧ Storing σ h.1 h.2) (fun _ p => p.Obeys (.writing σ)) where
  law _ := σ.law
  parts {_ p} h _ := (p.obeys_iff.mp h).2
  ready {_ p} h hf := by
    unfold Judgement.Ready
    split
    · exact ⟨.name (σ.spell h), rfl, σ.spell h⟩
    · next f =>
        have hname : (Rules.writing σ).NameOpt f.name := ((Fragment.func f).obeys_iff.mp h).1.1
        exact ⟨fun n hn => σ.spell (hname.mem n hn), hf f rfl⟩
    · exact .inr h.1
    · exact .inr h.1
    · exact ⟨⟨trivial, h⟩, .note h⟩
    · trivial
  function {_ f} h hs := by
    obtain ⟨name, params, body⟩ := f
    exact makes_functionCode h.2.1 (Stmt.isIdentifier_funcs h.2.2)
      (Judgement.Reaches.list (t := ()) σ.law fun s hmem =>
        (hs () s hmem).1 (Stmt.obeysList_iff.mp h.2.2 s hmem))
  labels h := h.1
  param h p hp := σ.spell (h.1.mem p hp)
  declared h := makes_declareLocals (h.elim Declarator.Obeys.names Declarator.Obeys.names)
  named h := .name (σ.spell h.1)
  declaration {_ f} h hf := by
    have hname : (Rules.writing σ).NameOpt f.name := ((Fragment.func f).obeys_iff.mp h).1.1
    exact σ.law.functionDeclaration (fun n hn => ⟨makes_declareLocals
      (List.forall_mem_singleton.mpr (hname.mem n hn)), .name (σ.spell (hname.mem n hn))⟩) hf
  breakCode h := makes_breakCode h.mem _
  continueCode h := makes_continueCode h.mem _
  note := .note
  key {_ head _ _} h he := by
    cases head with
    | var _ name => exact makes_key h.1
    | target e =>
      have htarget : Makes σ (Variable σ) e.emit.target := (he e rfl).target (.inr h.1.1)
      cases e
      case ident name => exact makes_key h.1.2
      all_goals
        refine (makes_fresh rfl rfl).bind fun _ hk => htarget.bind fun _ ht => .pure ⟨hk, ?_⟩
        exact Or.inr ⟨_, ht, rfl⟩
  labeled := makes_labeled
  nested hl := plain_nested hl
  loopBody := makes_loopBody
  whileLoop he h := .one ⟨he, h⟩ rfl
  repeatUntil h he := .one ⟨h, he⟩ rfl
  enclosed h := (makes_enclosed .switch trivial h).mono fun _ hr => hr.1
  walled := makes_walled
  forIn _ ho hh := makes_forInCode ho hh
  withCode _ := makes_withCode _
  arms := .append
  noTail := trivial
  otherwise := id
  elseif hc hb ht := ⟨hc, hb, ht⟩
  ifThen hc hb ht := .one ⟨hc, hb, ht⟩ rfl

/-- The chunk of a program that can be written in a spelling is well formed. -/
theorem Program.wellFormed_writing {p : Program} (h : p.Obeys (.writing σ)) :
    Stat.WellFormedBlock σ none p.emit.chunk.body := by
  have hlocals := makes_declareLocals (Stmt.isIdentifier_funcs h)
  have hcode := Judgement.Reaches.list (t := ()) σ.law fun s hs =>
    σ.reaches.holdsAt () (.stmt s) (Stmt.obeysList_iff.mp h s hs)
  have hall : Makes σ (Stat.WellFormedBlock σ none) (do
      let locals ← declareLocals (Declarations.ofBody p.body).funcs
      pure ([.marker "BEGIN"] ++ locals ++ (← Stmt.emitList p.body) ++ [.marker "END"])) := by
    refine hlocals.bind fun locals hl => hcode.bind fun code hc => .pure ?_
    have hbegin : Plain σ [.marker "BEGIN"] := σ.law.marker (by decide)
    have hremark : isRemark "END" = true := by decide
    exact ((hbegin.append hl).prepend hc).comment hremark (σ.remark hremark)
  have hframes := makes_inFrame (.object "program" Lua.globalObjects)
    (makes_inFrame (rootFrame (Declarations.ofBody p.body)) hall)
  exact (hframes {} (by simp [State.Named])).1

/-- The chunk of a program that can be written in Lua is well formed. -/
theorem Program.wellFormed_emit {p : Program} (h : p.Obeys .spellable) :
    Stat.WellFormedBlock .grammatical none p.emit.chunk.body :=
  Program.wellFormed_writing (σ := .grammatical) h

end EcmaLua
