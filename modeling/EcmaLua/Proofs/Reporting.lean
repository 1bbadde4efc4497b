import EcmaLua.Conversion
import EcmaLua.Proofs.Emission.Accounting
import EcmaLua.Proofs.Program.Nodes

/-!
# Nothing is dropped silently

The constructs that a report calls unsupported are those of the program that emission comes to, and
each of them has its comment in the text. A jump that emission comes to is a jump in the text and
not reported, or it is reported once and has a comment on a line of its own.
-/

namespace EcmaLua

open Emission
open Lua (Atom lineCount)

/-- The code of a report for an unsupported construct. -/
def Category.codeText : Category → String
  | .statement => "U001"
  | .expression => "U002"
  | .pattern => "U003"
  | .property => "U004"

/-- Whether a diagnostic is a remark about a statement that has code all the same. -/
def Diagnostic.isAside (d : Diagnostic) : Bool :=
  d.code == .multipleCatchClauses || d.code == .internalError || d.code == .partialWithScope

theorem Finding.isAside_diagnostic (f : Finding) : f.diagnostic.isAside = f.isAside := by
  cases f with
  | unsupported node =>
    obtain ⟨kind, category, span⟩ := node
    cases category <;> rfl
  | _ => rfl

section Messages

/-- The last characters of a text, backwards. -/
def ending (text : String) : List Char := text.toList.reverse.take 3

theorem ending_append (a : String) {b : String} (h : 3 ≤ b.toList.length) :
    ending (a ++ b) = ending b := by
  unfold ending
  rw [String.toList_append, List.reverse_append, List.take_append_of_le_length]
  rw [List.length_reverse]
  exact h

theorem ne_of_ending {text : String} (h : ending text ≠ ending " is not supported")
    (kind : String) : text ≠ kind ++ " is not supported" := by
  rintro rfl
  exact h (ending_append kind (by decide))

/-- The message about an unsupported construct is no message about a jump. -/
theorem JumpStatement.message_ne (j : JumpStatement) {f : Finding}
    (h : f = j.blocked ∨ f = j.stray) (kind : String) :
    f.message ≠ kind ++ " is not supported" := by
  apply ne_of_ending
  rcases h with rfl | rfl
  · unfold JumpStatement.blocked
    split <;> rw [Finding.message] <;> decide
  · unfold JumpStatement.stray
    split <;> rw [Finding.message] <;> decide

theorem Finding.message_ne_of_isAside {f : Finding} (h : f.isAside = true) (kind : String) :
    f.message ≠ kind ++ " is not supported" := by
  apply ne_of_ending
  cases f with
  | manyCatches count span =>
    rw [Finding.message, ending_append _ (by decide)]
    decide
  | namelessFunction | withScope names span =>
    rw [Finding.message]
    decide
  | _ => exact absurd h (by simp [Finding.isAside])

theorem Category.codeText_inj {a b : Category} (h : a.codeText = b.codeText) : a = b := by
  cases a <;> cases b <;> first | rfl | exact absurd h (by decide)

theorem Category.text_code (c : Category) : c.code.text = c.codeText := by
  cases c <;> rfl

end Messages

section Lines

/-- The atom that is a line with the given content, if there is one. -/
def Lua.Atom.ofLine (content : String) : Atom :=
  match content.toList with
  | '-' :: '-' :: '[' :: '[' :: rest => .note (String.ofList rest.dropLast.dropLast)
  | 'g' :: 'o' :: 't' :: 'o' :: ' ' :: label => .goTo (String.ofList label)
  | _ => .leave

theorem Lua.Atom.ofLine_of_line? {a : Atom} {content : String} (h : a.line? = some content) :
    Atom.ofLine content = a := by
  cases a with
  | note text =>
    obtain rfl : Lua.noteText text = content := Option.some.inj h
    have htext : (Lua.noteText text).toList =
        '-' :: '-' :: '[' :: '[' :: (text.toList ++ [']', ']']) := by simp [Lua.noteText]
    have hrest : (text.toList ++ [']', ']']).dropLast.dropLast = text.toList := by simp
    simp only [Atom.ofLine, htext, hrest, String.ofList_toList]
  | goTo label =>
    obtain rfl : "goto " ++ label = content := Option.some.inj h
    have htext : ("goto " ++ label).toList = 'g' :: 'o' :: 't' :: 'o' :: ' ' :: label.toList := by
      simp
    simp only [Atom.ofLine, htext, String.ofList_toList]
  | leave =>
    obtain rfl : "break" = content := Option.some.inj h
    rfl
  | bind name => nomatch h
  | noted text => nomatch h

/-- The lines with some content are as many as the atoms of the tree that have it. -/
theorem Lua.Chunk.countP_line_le (settings : Settings) (chunk : Lua.Chunk) {atoms : List Atom}
    (h : ∀ a, atoms.count a ≤ (Lua.Stat.atomsList chunk.body).count a) (content : String) :
    atoms.countP (fun a => a.line? = some content) ≤
      lineCount settings.newline content (chunk.render settings) := by
  by_cases hline : (Atom.ofLine content).line? = some content
  · have heq : atoms.countP (fun a => a.line? = some content) =
        atoms.count (Atom.ofLine content) := by
      refine List.countP_congr fun a _ => ?_
      rw [decide_eq_true_iff, beq_iff_eq]
      constructor
      · intro ha
        exact (Atom.ofLine_of_line? ha).symm
      · rintro rfl
        exact hline
    have hbind : ∀ name, Atom.ofLine content ≠ .bind name := by
      intro name hname
      rw [hname] at hline
      nomatch hline
    rw [heq, lineCount, ← Atom.begins_of_line? hline]
    exact (h _).trans (chunk.count_atoms_le settings hbind)
  · have hnone : atoms.countP (fun a => a.line? = some content) = 0 := by
      refine List.countP_eq_zero.mpr fun a _ ha => hline ?_
      rw [decide_eq_true_iff] at ha
      rwa [Atom.ofLine_of_line? ha]
    rw [hnone]
    exact Nat.zero_le _

end Lines

namespace Emission

/-- Code may bind any names, and say that it has only one of several clauses. -/
def ordinary : Allowance where
  allows
    | .bind _ => True
    | .note text => text = "MultipleCatchClauses"
    | _ => False
  generated _ := trivial
  self := trivial
  arguments := trivial
  clauses := rfl

/-- What a visit of a jump leaves: the line of a jump and no finding, or a finding about the jump
and its comment on a line. -/
def Visit.Settles (v : Visit) (j : JumpStatement) : Prop :=
  (v.finding = none ∧
    (v.atom.line? = some "break" ∨ ∃ label, v.atom.line? = some ("goto " ++ label))) ∨
  ∃ f, v.finding = some f ∧ f.span = j.span ∧ v.atom.line? = some (Lua.noteText j.kindName)

theorem Visit.settles {v : Visit} {j : JumpStatement} (h : v.issue = .jump j) : v.Settles j := by
  cases v with
  | unsupported node inline => nomatch h
  | jump statement spelling =>
    obtain rfl : statement = j := Issue.jump.inj h
    have hblocked : statement.blocked.span = statement.span := by
      unfold JumpStatement.blocked
      split <;> rfl
    have hstray : statement.stray.span = statement.span := by
      unfold JumpStatement.stray
      split <;> rfl
    cases spelling with
    | leave => exact Or.inl ⟨rfl, Or.inl rfl⟩
    | goTo label => exact Or.inl ⟨rfl, Or.inr ⟨label, rfl⟩⟩
    | blocked => exact Or.inr ⟨_, rfl, hblocked, rfl⟩
    | missing => exact Or.inr ⟨_, rfl, hstray, rfl⟩

theorem Visit.finding_eq_unsupported {v : Visit} {f : Finding} {kind : String}
    (hf : v.finding = some f) (h : f.message = kind ++ " is not supported") :
    ∃ node inline, v = .unsupported node inline ∧ f = .unsupported node := by
  cases v with
  | unsupported node inline => exact ⟨node, inline, rfl, (Option.some.inj hf).symm⟩
  | jump statement spelling =>
    cases spelling with
    | leave => nomatch hf
    | goTo label => nomatch hf
    | blocked =>
      exact absurd h (statement.message_ne (Or.inl (Option.some.inj hf).symm) kind)
    | missing =>
      exact absurd h (statement.message_ne (Or.inr (Option.some.inj hf).symm) kind)

end Emission

/-- The visits of a whole emission account for its findings and for the atoms of its code. -/
theorem Program.exists_visits (p : Program) : ∃ visits : List Visit,
    visits.map Visit.issue = p.issues ∧
    p.emit.findings.filter (!·.isAside) = visits.filterMap Visit.finding ∧
    ∀ a, (visits.map Visit.atom).count a ≤ (Lua.Stat.atomsList p.emit.chunk.body).count a := by
  obtain ⟨visits, hissues, hfindings, hfits⟩ :=
    p.accounts (Q := ordinary) (fun _ _ => trivial) {}
  exact ⟨visits, hissues, hfindings, hfits.kept⟩

theorem Program.report_convert (p : Program) (settings : Settings) :
    (p.convert settings).report = p.emit.findings.map Finding.diagnostic := rfl

/-- The report says of a construct that it is not supported, under the code of its category. -/
def Program.Reports (p : Program) (settings : Settings) (node : Unsupported) : Prop :=
  ∃ d ∈ (p.convert settings).report, d.message = node.kind ++ " is not supported" ∧
    d.code.text = node.category.codeText ∧ d.span = node.span

theorem Program.reports_iff_mem_issues (p : Program) (settings : Settings) (node : Unsupported) :
    p.Reports settings node ↔ .unsupported node ∈ p.issues := by
  obtain ⟨visits, hissues, hfindings, -⟩ := p.exists_visits
  rw [← hissues]
  constructor
  · rintro ⟨d, hd, hmessage, hcode, hspan⟩
    obtain ⟨f, hf, rfl⟩ := List.mem_map.mp hd
    have haside : f.isAside = false := by
      rw [Bool.eq_false_iff]
      intro h
      exact Finding.message_ne_of_isAside h node.kind hmessage
    have hmem : f ∈ visits.filterMap Visit.finding := by
      rw [← hfindings]
      exact List.mem_filter.mpr ⟨hf, by simp [haside]⟩
    obtain ⟨v, hv, hfinding⟩ := List.mem_filterMap.mp hmem
    obtain ⟨found, inline, rfl, rfl⟩ := Visit.finding_eq_unsupported hfinding hmessage
    have hkind : found.kind = node.kind := String.append_left_inj _ |>.mp hmessage
    have hcategory : found.category = node.category :=
      Category.codeText_inj ((Category.text_code _).symm.trans hcode)
    have hnode : found = node := by
      cases found
      cases node
      simp_all [Finding.diagnostic, Finding.span]
    exact List.mem_map.mpr ⟨_, hv, congrArg Issue.unsupported hnode⟩
  · intro h
    obtain ⟨v, hv, hissue⟩ := List.mem_map.mp h
    cases v with
    | jump statement spelling => nomatch hissue
    | unsupported found inline =>
      obtain rfl : found = node := Issue.unsupported.inj hissue
      have hmem : Finding.unsupported found ∈ p.emit.findings.filter (!·.isAside) := by
        rw [hfindings]
        exact List.mem_filterMap.mpr ⟨_, hv, rfl⟩
      refine ⟨(Finding.unsupported found).diagnostic, ?_, rfl, Category.text_code _, rfl⟩
      exact List.mem_map_of_mem (List.mem_filter.mp hmem).1

/-- What is reported as unsupported are the unsupported constructs that emission comes to, and the
text has a comment for each. Emission visits the issues of the program in their order, each as often
as it stands there. Beside remarks, the report has a diagnostic for every visit that was not spelled
and no other, and each visit of a break or continue has a line of its own: the line of a jump, or a
comment where the visit is reported. -/
theorem Program.nothing_dropped (p : Program) (settings : Settings) :
    (∀ node, p.Reports settings node ↔ .unsupported node ∈ p.issues) ∧
    (∀ node, .unsupported node ∈ p.issues →
      (Lua.withNewlines settings.newline (Lua.noteText node.kind)).toList <:+:
        (p.convert settings).lua.toList) ∧
    ∃ visits : List Visit,
      visits.map Visit.issue = p.issues ∧
      (p.convert settings).report.filter (!·.isAside) =
        (visits.filterMap Visit.finding).map Finding.diagnostic ∧
      (∀ v ∈ visits, ∀ j, v.issue = .jump j → v.Settles j) ∧
      ∀ content, visits.countP (fun v => v.atom.line? = some content) ≤
        lineCount settings.newline content (p.convert settings).lua := by
  obtain ⟨visits, hissues, hfindings, hatoms⟩ := p.exists_visits
  refine ⟨p.reports_iff_mem_issues settings, fun node hnode => ?_, visits, hissues, ?_,
    fun _ _ _ => Visit.settles, fun content => ?_⟩
  · obtain ⟨v, hv, hissue⟩ := List.mem_map.mp (hissues ▸ hnode)
    have hmem : v.atom ∈ Lua.Stat.atomsList p.emit.chunk.body := by
      have hcount := List.count_pos_iff.mpr (List.mem_map_of_mem (f := Visit.atom) hv)
      exact List.count_pos_iff.mp (Nat.lt_of_lt_of_le hcount (hatoms _))
    apply Lua.Chunk.infix_of_mem_atoms
    cases v with
    | jump statement spelling => nomatch hissue
    | unsupported found inline =>
      obtain rfl : found = node := Issue.unsupported.inj hissue
      cases inline with
      | true => exact Or.inr hmem
      | false => exact Or.inl hmem
  · have hreport : (p.convert settings).report.filter (!·.isAside) =
        (p.emit.findings.filter (!·.isAside)).map Finding.diagnostic := by
      rw [Program.report_convert, List.filter_map]
      congr 2
      funext f
      exact congrArg (! ·) f.isAside_diagnostic
    rw [hreport, hfindings]
  · have hlines := p.emit.chunk.countP_line_le settings hatoms content
    rwa [List.countP_map] at hlines

/-- A class, which is outside the subset. -/
def someClass : Unsupported := ⟨"ClassDeclaration", .statement, .nowhere⟩

/-- A template, which is outside the subset. -/
def someTemplate : Unsupported := ⟨"TemplateLiteral", .expression, .nowhere⟩

/-- Two jumps out of a loop, one of them out of a `try` as well, and two unsupported constructs,
one of them under `void`. -/
def partlySupported : Program :=
  ⟨[.whileStmt .this (.block [
      .tryStmt [.unsupported someClass, .breakStmt none .nowhere] [] none .nowhere,
      .breakStmt none .nowhere]),
    .exprStmt (.unary .void (.unsupported someTemplate))]⟩

/-- The construct under `void` is not reported, and the other one is and has its comment. -/
theorem partlySupported_reports :
    Issue.unsupported someClass ∈ partlySupported.issues ∧
    (Lua.withNewlines ({} : Settings).newline (Lua.noteText someClass.kind)).toList <:+:
      (partlySupported.convert {}).lua.toList ∧
    partlySupported.Reports {} someClass ∧ ¬ partlySupported.Reports {} someTemplate := by
  have hclass : Issue.unsupported someClass ∈ partlySupported.issues := by decide
  have htemplate : Issue.unsupported someTemplate ∉ partlySupported.issues := by decide
  obtain ⟨hreports, htext, -⟩ := partlySupported.nothing_dropped {}
  exact ⟨hclass, htext _ hclass, (hreports _).mpr hclass, fun h => htemplate ((hreports _).mp h)⟩

/-- A `break` out of a `try` statement, in a function whose call is in the target of `+=`. -/
def brokenTarget : Program :=
  ⟨[.exprStmt (.assign (some .add) (.member (.call (.func ⟨none, [],
      [.whileStmt (.ident "y") (.block [
        .tryStmt [.breakStmt none ⟨⟨0⟩, 33, 39⟩] [] (some [.exprStmt (.call (.ident "g") [])])
          .nowhere])]⟩) []) "p")
    (.ident "x"))]⟩

/-- The target has code for reading and for writing, so the one `break` has two diagnostics. -/
theorem brokenTarget_reported_twice :
    brokenTarget.spans.count ⟨⟨0⟩, 33, 39⟩ = 1 ∧
    ((brokenTarget.convert {}).report.filter (·.span = ⟨⟨0⟩, 33, 39⟩)).length = 2 := by
  constructor
  · rfl
  · have hfindings : brokenTarget.emit.findings =
        [.blockedBreak ⟨⟨0⟩, 33, 39⟩, .blockedBreak ⟨⟨0⟩, 33, 39⟩] := by decide +kernel
    rw [Program.report_convert, hfindings]
    decide

end EcmaLua
