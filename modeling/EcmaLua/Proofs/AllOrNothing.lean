import EcmaLua.CommandLine.FileTree
import EcmaLua.CommandLine.Run
import EcmaLua.Proofs.Emission.Closure
import EcmaLua.Proofs.Surface.Mildness

/-!
# A conversion gives all or nothing

A text that is no script is reported with one error. Any other is converted, and whatever is
reported about it is no error: the shapes of programs that emission has errors for do not come from
scripts. A run of the command that converts a file can therefore write the output first and look
for errors afterwards: it fails only when nothing was written.
-/

namespace EcmaLua

open CommandLine

/-- No error, and not about a shape of programs that scripts do not have. -/
def Diagnostic.IsMild (d : Diagnostic) : Prop :=
  d.severity ≠ .error ∧ d.code ≠ .internalError ∧ d.code ≠ .multipleCatchClauses

/-- What is reported about a script is mild. -/
theorem Surface.Script.mild_convert (settings : Settings) (numbering : Numbering)
    (script : Script) : ∀ d ∈ (script.convert settings numbering).report, d.IsMild := by
  obtain ⟨hprogram, hfindings⟩ := script.mild_toProgram numbering
  have hemit := (hprogram.hoist).findings
  intro d hd
  rcases List.mem_append.mp hd with hd | hd
  · obtain ⟨finding, hmem, rfl⟩ := List.mem_map.mp hd
    exact hfindings finding hmem
  · obtain ⟨finding, hmem, rfl⟩ := List.mem_map.mp hd
    exact hemit finding hmem

section Conversion

open Surface (Parsing)

/-- What a conversion makes of a parsed text: of an error at which the parser stopped that error and
nothing else, and of a script the Lua text of its hoisted program. The report on it has the errors
that the parser let pass, then what lowering and emission found, and all of that is mild. -/
def Converted (settings : Settings) (numbering : Numbering) :
    Parsing → Except Finding Conversion → Prop
  | .error (message, extent), .error finding =>
    finding.diagnostic = { code := .parseError, severity := .error, message,
                           span := numbering.span extent }
  | .ok (script, passed), .ok conversion =>
    let lowered := script.toProgram numbering
    let emitted := lowered.1.hoist.emit
    conversion.lua = emitted.chunk.render settings ∧
    conversion.report =
      passed.map (fun (message, extent) => { code := .parseError, severity := .warning, message,
                                             span := numbering.span extent })
        ++ (lowered.2 ++ emitted.findings).map Finding.diagnostic ∧
    ∀ d ∈ conversion.report, d.IsMild
  | _, _ => False

theorem converted_convertBy (parse : String → Parsing) (settings : Settings) (file : FileId)
    (text : String) :
    Converted settings ⟨file, 1⟩ (parse text) (convertBy parse settings file text) := by
  unfold convertBy
  match parse text with
  | .error (message, extent) => rfl
  | .ok (script, passed) =>
    refine ⟨rfl, ?_, fun d hd => ?_⟩
    · change _ ++ (_ ++ _) = _
      rw [List.map_map, List.map_append]
      rfl
    · rcases List.mem_append.mp hd with hd | hd
      · obtain ⟨finding, hmem, rfl⟩ := List.mem_map.mp hd
        obtain ⟨⟨message, extent⟩, -, rfl⟩ := List.mem_map.mp hmem
        exact ⟨nofun, nofun, nofun⟩
      · exact script.mild_convert settings ⟨file, 1⟩ d hd

/-- A conversion fails with one error, or what it reports is mild. -/
theorem convertText_cases (settings : Settings) (file : FileId) (text : String) :
    (∃ finding, convertText settings file text = .error finding ∧
      finding.diagnostic.severity = .error) ∨
    ∃ conversion, convertText settings file text = .ok conversion ∧
      ∀ d ∈ conversion.report, d.IsMild := by
  have h := converted_convertBy Surface.Script.parse settings file text
  unfold convertText
  generalize convertBy Surface.Script.parse settings file text = outcome at h ⊢
  generalize Surface.Script.parse text = parsing at h
  cases parsing with
  | error e =>
    cases outcome with
    | error finding => exact Or.inl ⟨finding, rfl, congrArg Diagnostic.severity h⟩
    | ok conversion => exact h.elim
  | ok parsed =>
    cases outcome with
    | error finding => exact h.elim
    | ok conversion => exact Or.inr ⟨conversion, rfl, h.2.2⟩

/-- Whether a conversion fails depends on the text alone. -/
theorem isOk_convertText (settings : Settings) (file : FileId) (text : String) :
    (convertText settings file text).isOk = (Surface.Script.parse text).isOk := by
  unfold convertText convertBy
  cases Surface.Script.parse text <;> rfl

end Conversion

namespace Report

theorem count_append (a b : Report) (s : Severity) : (a ++ b).count s = a.count s + b.count s := by
  simp [count, List.filter_append]

variable {r : Report} (h : ∀ d ∈ r, d.IsMild)

include h

theorem count_error_of_mild : r.count .error = 0 := by
  unfold count
  rw [List.length_eq_zero_iff, List.filter_eq_nil_iff]
  intro d hd
  simpa using (h d hd).1

theorem hasErrors_of_mild : r.hasErrors = false := by
  unfold hasErrors
  rw [List.any_eq_false]
  intro d hd
  simpa using (h d hd).1

end Report

namespace CommandLine

section Trees

variable {t t' : FileTree} {place other : Place} {path text : String}

theorem lookup_replace (files : List (Place × String)) :
    (files.map fun f => if f.1 == place then (place, text) else f).lookup other =
      if other = place then (files.lookup place).map fun _ => text else files.lookup other := by
  induction files with
  | nil => simp
  | cons f rest ih =>
    obtain ⟨here, old⟩ := f
    rw [List.map_cons, List.lookup_cons, List.lookup_cons, List.lookup_cons, ih]
    by_cases hhere : here = place
    · subst hhere
      by_cases hother : other = here
      · simp [hother]
      · simp [hother, beq_eq_false_iff_ne.mpr hother]
    · by_cases hother : other = place
      · subst hother
        simp [hhere, beq_eq_false_iff_ne.mpr (Ne.symm hhere)]
      · simp [hhere, hother]

/-- Putting a text at a place is seen at that place only. -/
theorem FileTree.file?_put : (t.put place text).file? other =
    if other = place then some text else t.file? other := by
  unfold FileTree.put
  split
  · next hsome =>
      obtain ⟨old, hold⟩ := Option.isSome_iff_exists.mp hsome
      change List.lookup other _ = _
      rw [lookup_replace]
      have hlookup : t.files.lookup place = some old := hold
      rw [hlookup]
      rfl
  · next hnone =>
      have hlookup : t.files.lookup place = none := Option.not_isSome_iff_eq_none.mp hnone
      change List.lookup other (t.files ++ _) = _
      rw [List.lookup_append]
      by_cases hother : other = place
      · subst hother
        simp [hlookup]
      · have hbeq : (other == place) = false := by simpa using hother
        simp [List.lookup_cons, hbeq, hother, FileTree.file?]

/-- Only the file at one place is different, and it has this text. -/
structure FileTree.ChangedAt (place : Place) (text : String) (t t' : FileTree) : Prop where
  root : t'.root = t.root
  directories : t'.directories = t.directories
  here : t'.file? place = some text
  elsewhere : ∀ other, other ≠ place → t'.file? other = t.file? other

/-- Writing a file changes the file at the path and nothing else. -/
theorem FileTree.changedAt_writeText (h : t.writeText path text = .ok t') :
    ∃ place, t.place (trimSlashes path).1 = .ok place ∧ ChangedAt place text t t' := by
  unfold FileTree.writeText at h
  simp only at h
  split at h
  · exact absurd h nofun
  · next place hplace =>
      split at h
      · exact absurd h nofun
      · obtain rfl : t.put place text = t' := Except.ok.inj h
        refine ⟨place, hplace, ?_, ?_, ?_, ?_⟩
        · unfold FileTree.put
          split <;> rfl
        · unfold FileTree.put
          split <;> rfl
        · simp [FileTree.file?_put]
        · intro other hother
          simp [FileTree.file?_put, hother]

/-- A write that is refused leaves the tree. -/
theorem writeText_refused {fault : FileFault} (h : t.writeText path text = .error fault) :
    FileTree.system.writeText path text t = (.error fault, t) := by
  simp only [FileTree.system, FileTree.attempt, h]

theorem writeText_done (h : t.writeText path text = .ok t') :
    FileTree.system.writeText path text t = (.ok (), t') := by
  simp only [FileTree.system, FileTree.attempt, h]

end Trees

/-- An action that only looks at the tree. -/
def Looks {α : Type} (act : StateM FileTree α) : Prop := ∀ t, (act t).2 = t

section Looks

variable {α β : Type} {x : StateM FileTree α} {f : α → StateM FileTree β}

theorem Looks.pure (a : α) : Looks (Pure.pure a : StateM FileTree α) := fun _ => rfl

theorem Looks.bind (hx : Looks x) (hf : ∀ a, Looks (f a)) : Looks (x >>= f) := by
  intro t
  calc ((x >>= f) t).2
      = (x t).2 := hf (x t).1 (x t).2
    _ = t := hx t

/-- What comes behind a look starts from the same tree. -/
theorem Looks.then (hx : Looks x) (t : FileTree) : (x >>= f) t = f (x t).1 t := by
  change f (x t).1 (x t).2 = _
  rw [hx t]

theorem then_of_eq {t t' : FileTree} {a : α} (h : x t = (a, t')) : (x >>= f) t = f a t' := by
  change f (x t).1 (x t).2 = _
  rw [h]

theorem looks_readText (path : String) : Looks (FileTree.system.readText path) := fun _ => rfl

theorem looks_loadSettings (path : String) : Looks (loadSettings FileTree.system path) := by
  refine (looks_readText path).bind fun result => ?_
  cases result with
  | error fault => exact .pure _
  | ok text =>
    dsimp only
    split <;> exact .pure _

theorem looks_findSettings (config : Option String) (input : String) :
    Looks (findSettings FileTree.system config input) := by
  cases config with
  | some path => exact looks_loadSettings path
  | none =>
    refine Looks.bind (x := FileTree.system.isDirectory input) (fun _ => rfl)
      fun isDirectory => ?_
    refine Looks.bind (x := FileTree.system.isFile _) (fun _ => rfl) fun isFile => ?_
    cases isFile with
    | true => exact looks_loadSettings _
    | false => exact .pure _

theorem looks_scriptsAt (path : String) : Looks (scriptsAt FileTree.system path) := by
  refine Looks.bind (x := FileTree.system.isFile path) (fun _ => rfl) fun isFile => ?_
  cases isFile with
  | true => exact .pure _
  | false =>
    exact Looks.bind (x := FileTree.system.filesBelow path) (fun _ => rfl) fun _ => .pure _

end Looks

section Convert

/-- The conversion that a run of the command comes to, in the tree from which it starts. -/
structure Comes (t : FileTree) (input : String) (refGuard : Bool) (config : Option String)
    (conversion : Conversion) : Prop where
  text : ∃ text found,
    t.readText input = .ok text ∧ (findSettings FileTree.system config input t).1 = .ok found
      ∧ convertText { found with refGuard := found.refGuard || refGuard }
          (Library.empty.add input text).1 text = .ok conversion

/-- How a run that converts a file can end: it fails and leaves the tree, it shows the output, or it
has written the output. -/
inductive ConvertEnds (t : FileTree) (input : String) (output : Option String) (refGuard : Bool)
    (config : Option String) : Outcome × FileTree → Prop
  | failed {o : Outcome} (status : o.status ≠ 0) : ConvertEnds t input output refGuard config (o, t)
  | shown {o : Outcome} {conversion : Conversion} (status : o.status = 0)
      (comes : Comes t input refGuard config conversion)
      (dash : Path.same (output.getD (Path.withExtension input "lua")) "-" = true) :
      ConvertEnds t input output refGuard config (o, t)
  | written {o : Outcome} {conversion : Conversion} {t' : FileTree} (status : o.status = 0)
      (comes : Comes t input refGuard config conversion)
      (path : ¬Path.same (output.getD (Path.withExtension input "lua")) "-" = true)
      (write : t.writeText (output.getD (Path.withExtension input "lua")) conversion.lua = .ok t') :
      ConvertEnds t input output refGuard config (o, t')

theorem convertEnds_runConvert (common : Common) (input : String) (output : Option String)
    (printTree refGuard : Bool) (config : Option String) (t : FileTree) :
    ConvertEnds t input output refGuard config
      (runConvert FileTree.system common input output printTree refGuard config t) := by
  unfold runConvert
  rw [(looks_readText input).then]
  cases hread : (FileTree.system.readText input t).1 with
  | error fault => exact .failed Nat.one_ne_zero
  | ok text =>
    dsimp only
    rw [(looks_findSettings config input).then]
    cases hfound : (findSettings FileTree.system config input t).1 with
    | error failure => exact .failed Nat.one_ne_zero
    | ok found =>
      dsimp only
      rcases convertText_cases { found with refGuard := found.refGuard || refGuard }
          (Library.empty.add input text).1 text with
        ⟨finding, hconvert, -⟩ | ⟨conversion, hconvert, hall⟩
      · rw [hconvert]
        exact .failed Nat.one_ne_zero
      · rw [hconvert]
        have hcomes : Comes t input refGuard config conversion :=
          ⟨text, found, hread, hfound, hconvert⟩
        simp only [Report.hasErrors_of_mild hall, Bool.false_eq_true, if_false]
        split
        · next hdash => exact .shown rfl hcomes hdash
        · next hpath =>
          cases hwrite : t.writeText (output.getD (Path.withExtension input "lua"))
              conversion.lua with
          | error fault =>
            rw [then_of_eq (writeText_refused hwrite)]
            exact .failed Nat.one_ne_zero
          | ok t' =>
            rw [then_of_eq (writeText_done hwrite)]
            exact .written rfl hcomes hpath hwrite

end Convert

section Check

/-- What a check finds at a path after the files that it has visited: the text there, unless it was
visited under another name or cannot be read, and the files visited then. -/
def FileTree.visit (t : FileTree) (visited : List String) (path : String) :
    List String × List String :=
  if visited.contains (t.absolutePath path) then ([], visited)
  else ((t.readText path).toOption.toList, visited ++ [t.absolutePath path])

/-- The texts that a check of paths comes to. -/
def FileTree.texts (t : FileTree) (visited : List String) : List String → List String
  | [] => []
  | path :: rest => (t.visit visited path).1 ++ t.texts (t.visit visited path).2 rest

/-- How many of the texts cannot be converted. -/
def failures (settings : Settings) (texts : List String) : Nat :=
  texts.countP fun text => !(convertText settings ⟨0⟩ text).isOk

theorem failures_append (settings : Settings) (a b : List String) :
    failures settings (a ++ b) = failures settings a + failures settings b :=
  List.countP_append

theorem failures_singleton (settings : Settings) (file : FileId) (text : String) :
    failures settings [text] = if (convertText settings file text).isOk then 0 else 1 := by
  rw [failures, List.countP_singleton, isOk_convertText, ← isOk_convertText settings file]
  cases (convertText settings file text).isOk <;> rfl

/-- From one state of a check to a later one, so many files were checked, and so many of them
failed: each is one error of the report. -/
structure Checking.Grows (c c' : Checking) (files faults : Nat) : Prop where
  checked : c'.checked = c.checked + files
  failed : c'.failed = c.failed + faults
  errors : c'.report.count .error = c.report.count .error + faults

theorem Checking.Grows.refl (c : Checking) : c.Grows c 0 0 := ⟨rfl, rfl, rfl⟩

theorem Checking.Grows.trans {c c' c'' : Checking} {files faults moreFiles moreFaults : Nat}
    (h : c.Grows c' files faults) (h' : c'.Grows c'' moreFiles moreFaults) :
    c.Grows c'' (files + moreFiles) (faults + moreFaults) where
  checked := by rw [h'.checked, h.checked, Nat.add_assoc]
  failed := by rw [h'.failed, h.failed, Nat.add_assoc]
  errors := by rw [h'.errors, h.errors, Nat.add_assoc]

theorem Checking.grows_add (c : Checking) (settings : Settings) (path text : String) :
    c.Grows (c.add settings path text) 1 (failures settings [text]) := by
  rw [failures_singleton settings (c.library.add path text).1]
  rcases convertText_cases settings (c.library.add path text).1 text with
    ⟨finding, hconvert, herror⟩ | ⟨conversion, hconvert, hmild⟩
  · unfold Checking.add
    simp only [hconvert]
    refine ⟨rfl, rfl, ?_⟩
    change Report.count (c.report ++ [finding.diagnostic]) .error = _
    rw [Report.count_append]
    simp [Report.count, herror, Except.isOk, Except.toBool]
  · unfold Checking.add
    simp only [hconvert]
    refine ⟨rfl, rfl, ?_⟩
    change Report.count (c.report ++ conversion.report) .error = _
    rw [Report.count_append, Report.count_error_of_mild hmild]
    rfl

variable (common : Common) (settings : Settings)

theorem looks_checkFile (c : Checking) (path : String) :
    Looks (checkFile FileTree.system common settings c path) := by
  refine Looks.bind (x := FileTree.system.absolutePath path) (fun _ => rfl) fun absolute => ?_
  split
  · exact .pure _
  · refine (looks_readText path).bind fun result => ?_
    cases result with
    | ok text => exact .pure _
    | error fault =>
      dsimp only
      split <;> exact .pure _

theorem looks_checkFiles (paths : List String) (c : Checking) :
    Looks (checkFiles FileTree.system common settings c paths) := by
  induction paths generalizing c with
  | nil => exact .pure _
  | cons path rest ih => exact (looks_checkFile common settings c path).bind fun c' => ih c'

/-- A check of one path has visited it, and checked the text that it finds. -/
theorem visits_checkFile (c : Checking) (path : String) (t : FileTree) :
    (checkFile FileTree.system common settings c path t).1.visited = (t.visit c.visited path).2 ∧
    c.Grows (checkFile FileTree.system common settings c path t).1
      (t.visit c.visited path).1.length (failures settings (t.visit c.visited path).1) := by
  have habsolute : (FileTree.system.absolutePath path t).1 = t.absolutePath path := rfl
  have hread : (FileTree.system.readText path t).1 = t.readText path := rfl
  unfold checkFile FileTree.visit
  rw [Looks.then (x := FileTree.system.absolutePath path) fun _ => rfl, habsolute]
  split
  · exact ⟨rfl, .refl c⟩
  · rw [(looks_readText path).then, hread]
    cases t.readText path with
    | error fault =>
      dsimp only
      split <;> exact ⟨rfl, rfl, rfl, rfl⟩
    | ok text =>
      have hadd := Checking.grows_add { c with visited := c.visited ++ [t.absolutePath path] }
        settings path text
      refine ⟨?_, hadd.checked, hadd.failed, hadd.errors⟩
      change (Checking.add { c with visited := _ } settings path text).visited = _
      unfold Checking.add
      dsimp only
      split <;> rfl

/-- A check of paths has checked the texts that it comes to. -/
theorem grows_checkFiles (paths : List String) (c : Checking) (t : FileTree) :
    c.Grows (checkFiles FileTree.system common settings c paths t).1
      (t.texts c.visited paths).length (failures settings (t.texts c.visited paths)) := by
  induction paths generalizing c with
  | nil => exact .refl c
  | cons path rest ih =>
    obtain ⟨hvisited, hgrows⟩ := visits_checkFile common settings c path t
    rw [checkFiles, (looks_checkFile common settings c path).then, FileTree.texts,
      List.length_append, failures_append, ← hvisited]
    exact hgrows.trans (ih _)

/-- How a run that checks files ends in a tree. Without settings or files there is nothing to tell.
Else it tells of as many errors as there are files that cannot be converted, and it fails if there
are any, or warnings where these count. -/
def CheckEnds (t : FileTree) (common : Common) (input : String) (all strict : Bool)
    (config : Option String) (o : Outcome) : Prop :=
  match (findSettings FileTree.system config input t).1 with
  | .error failure => o = failure.outcome
  | .ok settings =>
    let paths := (scriptsAt FileTree.system input t).1
    if paths = [] then o = showNothing common.format
    else
      let c := (checkFiles FileTree.system common settings {} paths t).1
      let failed := failures settings (t.texts [] paths)
      c.checked = (t.texts [] paths).length ∧ c.failed = failed ∧
        o.stdout = c.output common.format paths.length failed all strict ∧
        (o.status = 0 ↔ failed = 0 ∧ (strict = true → c.report.count .warning = 0))

theorem checkEnds_runCheck (input : String) (all strict : Bool) (config : Option String)
    (t : FileTree) :
    let run := runCheck FileTree.system common input all strict config t
    run.2 = t ∧ CheckEnds t common input all strict config run.1 := by
  intro run
  have hrun : run = runCheck FileTree.system common input all strict config t := rfl
  unfold runCheck at hrun
  rw [(looks_findSettings config input).then] at hrun
  unfold CheckEnds
  cases hfound : (findSettings FileTree.system config input t).1 with
  | error failure =>
    rw [hfound] at hrun
    rw [hrun]
    exact ⟨rfl, rfl⟩
  | ok settings =>
    rw [hfound] at hrun
    dsimp only at hrun
    rw [(looks_scriptsAt input).then] at hrun
    generalize (scriptsAt FileTree.system input t).1 = paths at hrun
    cases paths with
    | nil =>
      rw [hrun]
      exact ⟨rfl, rfl⟩
    | cons path rest =>
      rw [List.isEmpty_cons, if_neg Bool.false_ne_true,
        (looks_checkFiles common settings _ _).then] at hrun
      have hgrows := grows_checkFiles common settings (path :: rest) {} t
      dsimp only
      rw [if_neg (List.cons_ne_nil _ _)]
      generalize (checkFiles FileTree.system common settings {} (path :: rest) t).1 = c
        at hrun hgrows ⊢
      obtain ⟨hchecked, hfailed, herrors⟩ := hgrows
      have hnone : ({} : Checking).report.count .error = 0 := rfl
      rw [hnone, Nat.zero_add] at herrors
      rw [hrun]
      refine ⟨rfl, hchecked.trans (Nat.zero_add _), hfailed.trans (Nat.zero_add _), ?_, ?_⟩
      · rw [← herrors]
        change (if c.passes strict then _ else Outcome.failing _ _).stdout = _
        split <;> rfl
      · rw [← herrors]
        change (if c.passes strict then _ else Outcome.failing _ _).status = 0 ↔ _
        cases hpasses : c.passes strict <;> cases strict <;>
          simp_all [Checking.passes, showCheck, Outcome.failing]

end Check

end CommandLine

end EcmaLua
