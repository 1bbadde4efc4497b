import EcmaLua.CommandLine.Arguments
import EcmaLua.CommandLine.FileSystem
import EcmaLua.Conversion
import EcmaLua.Diagnostic.Explanation
import EcmaLua.Diagnostic.Render
import EcmaLua.Settings.Toml
import EcmaLua.Text.Uppercase

/-!
# Running commands

A run ends with a status and two texts, one for output and one for errors. Commands are written
over any file system, and touch it only through its questions.
-/

namespace EcmaLua.CommandLine

/-- How a run ends. -/
structure Outcome where
  status : Nat := 0
  stdout : String := ""
  stderr : String := ""
deriving DecidableEq, Repr

/-- Why a command fails. -/
inductive Failure where
  | unreadable (path : String) (fault : FileFault)
  | unwritable (path : String) (fault : FileFault)
  | unreadableSettings (path : String) (fault : FileFault)
  | malformedSettings (path : String) (error : Settings.FileError)
  | system (fault : FileFault)
  /-- the text is no script -/
  | noScript (message : String)
  | reportedErrors (path : String)
  | checkFailed
  | unknownCode (text : String)
deriving DecidableEq, Repr

namespace Failure

def message : Failure → String
  | .unreadable path _ => "could not read " ++ path
  | .unwritable path _ => "could not write " ++ path
  | .unreadableSettings path fault => "could not read " ++ path ++ ": " ++ fault.message
  | .malformedSettings path error => "malformed " ++ path ++ ": " ++ error.message
  | .system fault => fault.message
  | .noScript message => message
  | .reportedErrors path => "conversion of " ++ path ++ " reported errors"
  | .checkFailed => "Check failed with errors"
  | .unknownCode text => "Unknown diagnostic code: " ++ text

/-- What a failure goes back to. -/
def cause? : Failure → Option String
  | .unreadable _ fault | .unwritable _ fault | .unreadableSettings _ fault => some fault.message
  | .malformedSettings _ error => some error.message
  | _ => none

def text (f : Failure) : String :=
  "Error: " ++ f.message ++ "\n"
    ++ (f.cause?.elim "" fun cause => "\nCaused by:\n    " ++ cause ++ "\n")

end Failure

/-- The outcome with a failure at its end. -/
def Outcome.failing (o : Outcome) (failure : Failure) : Outcome :=
  { o with status := 1, stderr := o.stderr ++ failure.text }

/-- An outcome that is only a failure. -/
def Failure.outcome (failure : Failure) : Outcome := ({} : Outcome).failing failure

/-- The outcome followed by more text of both kinds. -/
def Outcome.andThen (o : Outcome) (stdout stderr : String) : Outcome :=
  { o with stdout := o.stdout ++ stdout, stderr := o.stderr ++ stderr }

section Commands

variable {m : Type → Type} [Monad m] (fs : FileSystem m)

/-- Read the settings in a file. -/
def loadSettings (path : String) : m (Except Failure Settings) := do
  match ← fs.readText path with
  | .error fault => return .error (.unreadableSettings path fault)
  | .ok text =>
    match Settings.ofText text with
    | .error error => return .error (.malformedSettings path error)
    | .ok settings => return .ok settings

/-- The settings for an input: those of the given file, or of the settings file in the input's
directory, or the defaults. -/
def findSettings (config : Option String) (input : String) : m (Except Failure Settings) := do
  match config with
  | some path => loadSettings fs path
  | none =>
    let directory := if ← fs.isDirectory input then input else (Path.splitLast input).1
    let candidate := Path.join directory Settings.fileName
    if ← fs.isFile candidate then loadSettings fs candidate else return .ok {}

/-- A report after one conversion. -/
def showReport (format : Format) (report : Report) (library : Library) : Outcome :=
  match format with
  | .text => { stderr := report.terminal false library ++ report.terminalSummary false }
  | .json => { stdout := report.jsonLines library }

/-- The line that says what was converted. -/
def conversionLine (common : Common) (input output : String) (report : Report) : String :=
  match common.format with
  | .text => if common.quiet then "" else "Converted " ++ input ++ " -> " ++ output ++ "\n"
  | .json =>
    (Json.object
      [("type", .str "summary"), ("success", .bool !report.hasErrors), ("input", .str input),
        ("output", .str output), ("errors", .nat (report.count .error)),
        ("warnings", .nat (report.count .warning)),
        ("hints", .nat (report.count .hint))]).compact ++ "\n"

/-- The kinds of a program's statements, a line each. -/
def outline (program : Program) : String :=
  String.join (program.body.map fun statement => statement.kindName ++ "\n")

/-- Convert one file. The output is next to the input unless it is named; a dash names the
standard output. -/
def runConvert (common : Common) (input : String) (output : Option String)
    (printTree refGuard : Bool) (config : Option String) : m Outcome := do
  match ← fs.readText input with
  | .error fault => return (Failure.unreadable input fault).outcome
  | .ok text =>
    match ← findSettings fs config input with
    | .error failure => return failure.outcome
    | .ok found =>
      let settings := { found with refGuard := found.refGuard || refGuard }
      let (file, library) := Library.empty.add input text
      match convertText settings file text with
      | .error finding =>
        return (showReport common.format [finding.diagnostic] library).failing
          (.noScript finding.message)
      | .ok conversion =>
        let tree := if printTree then outline conversion.program else ""
        let report := conversion.report
        let shown := showReport common.format report library
        let finish (o : Outcome) : Outcome :=
          if report.hasErrors then o.failing (.reportedErrors input) else o
        let target := output.getD (Path.withExtension input "lua")
        if Path.same target "-" then
          let o : Outcome := { stdout := conversion.lua, stderr := tree }
          return finish (o.andThen shown.stdout shown.stderr)
        else
          match ← fs.writeText target conversion.lua with
          | .error fault =>
            return ({ stderr := tree } : Outcome).failing (.unwritable target fault)
          | .ok _ =>
            let o : Outcome := { stderr := tree }
            return finish ((o.andThen shown.stdout shown.stderr).andThen
              (conversionLine common input target report) "")

/-- Whether a path names a script by its extension. -/
def isScriptPath (path : String) : Bool := Path.extension? path == some "js"

/-- Whether a path leads through installed packages. -/
def isInstalled (path : String) : Bool :=
  (Path.components path).any fun c => c == .normal "node_modules"

/-- The scripts that a path stands for, in the order of their paths. -/
def scriptsAt (path : String) : m (List String) := do
  if ← fs.isFile path then return if isScriptPath path then [path] else []
  else
    let found ← fs.filesBelow path
    return (found.filter fun p => isScriptPath p && !isInstalled p).mergeSort fun a b =>
      !Path.lt b a

/-- What was learnt from the files checked so far. -/
structure Checking where
  visited : List String := []
  library : Library := {}
  report : Report := []
  checked : Nat := 0
  failed : Nat := 0
  /-- about files that could not be read -/
  warnings : String := ""

/-- Take the text of one file into account. -/
def Checking.add (c : Checking) (settings : Settings) (path text : String) : Checking :=
  let (file, library) := c.library.add path text
  match convertText settings file text with
  | .error finding =>
    { c with
      library := library
      report := c.report ++ [finding.diagnostic]
      checked := c.checked + 1
      failed := c.failed + 1 }
  | .ok conversion =>
    { c with
      library := library
      report := c.report ++ conversion.report
      checked := c.checked + 1 }

/-- Check one file, unless it was checked under another name. -/
def checkFile (common : Common) (settings : Settings) (c : Checking) (path : String) :
    m Checking := do
  let absolute ← fs.absolutePath path
  if c.visited.contains absolute then return c
  else
    let c := { c with visited := c.visited ++ [absolute] }
    match ← fs.readText path with
    | .ok text => return c.add settings path text
    | .error fault =>
      if common.verbosity = 0 then return c
      else
        return { c with
          warnings :=
            c.warnings ++ "Warning: Could not read " ++ path ++ ": " ++ fault.message ++ "\n" }

def checkFiles (common : Common) (settings : Settings) (c : Checking) :
    List String → m Checking
  | [] => return c
  | path :: rest => do checkFiles common settings (← checkFile fs common settings c path) rest

/-- The line that says how a check of so many files went. -/
def verdict (errors warnings files : Nat) (strict : Bool) : String :=
  if errors > 0 then
    "Check failed: " ++ toString errors ++ " error(s), " ++ toString warnings ++ " warning(s)\n"
  else if warnings > 0 ∧ strict then
    "Check failed: " ++ toString warnings ++ " warning(s) (strict mode)\n"
  else if warnings > 0 then "Check passed: " ++ toString warnings ++ " warning(s)\n"
  else "All checks passed! - " ++ toString files ++ " file(s) checked\n"

/-- Whether a check passes: errors count against it, and warnings if it is strict. -/
def Checking.passes (c : Checking) (strict : Bool) : Bool :=
  c.report.count .error == 0 && (!strict || c.report.count .warning == 0)

/-- The diagnostics of a check that are shown: all, or all but the hints. -/
def Checking.shown (c : Checking) (all : Bool) : Report :=
  if all then c.report else c.report.filter fun d => d.severity != .hint

/-- The output of a check of so many files that has so many errors. -/
def Checking.output (c : Checking) (format : Format) (files errors : Nat) (all strict : Bool) :
    String :=
  let warnings := c.report.count .warning
  match format with
  | .text =>
    "Checking " ++ toString files ++ " file(s)...\n\n" ++ verdict errors warnings c.checked strict
  | .json =>
    let summary :=
      Json.object
        [("type", .str "summary"), ("success", .bool (c.passes strict)),
          ("files_checked", .nat c.checked), ("files_failed", .nat c.failed),
          ("errors", .nat errors), ("warnings", .nat warnings),
          ("hints", .nat (c.report.count .hint))]
    (c.shown all).jsonLines c.library ++ summary.compact ++ "\n"

/-- What is shown of a check of so many files. -/
def showCheck (format : Format) (files : Nat) (c : Checking) (all strict : Bool) : Outcome where
  stdout := c.output format files (c.report.count .error) all strict
  stderr :=
    match format with
    | .text => c.warnings ++ (c.shown all).terminal false c.library
    | .json => c.warnings

/-- What is shown when there is nothing to check. -/
def showNothing : Format → Outcome
  | .text => { stdout := "No JavaScript files found.\n" }
  | .json =>
    let summary :=
      Json.object
        [("success", .bool true), ("files", .nat 0), ("errors", .nat 0), ("warnings", .nat 0)]
    { stdout := summary.compact ++ "\n" }

/-- Convert every script under a path, write nothing, and report. -/
def runCheck (common : Common) (input : String) (all strict : Bool) (config : Option String) :
    m Outcome := do
  match ← findSettings fs config input with
  | .error failure => return failure.outcome
  | .ok settings =>
    let paths ← scriptsAt fs input
    if paths.isEmpty then return showNothing common.format
    else
      let c ← checkFiles fs common settings {} paths
      let o := showCheck common.format paths.length c all strict
      return if c.passes strict then o else o.failing .checkFailed

/-- What is shown after a settings file was asked for. -/
def showInit (format : Format) (created : Bool) (path : String) : Outcome :=
  match format with
  | .text =>
    if created then { stdout := "  Created " ++ path ++ "\n" }
    else { stdout := "  Skipped " ++ path ++ " (already exists)\n" }
  | .json =>
    let summary :=
      Json.object [("success", .bool true), ("created", .bool created), ("path", .str path)]
    { stdout := summary.compact ++ "\n" }

/-- Write a settings file with the defaults into a directory, unless there is one. -/
def runInit (common : Common) (directory : String) : m Outcome := do
  match ← fs.createDirectory directory with
  | .error fault => return (Failure.system fault).outcome
  | .ok _ =>
    let path := Path.join (← fs.absolutePath directory) Settings.fileName
    let place := Path.join directory Settings.fileName
    if (← fs.isFile place) || (← fs.isDirectory place) then
      return showInit common.format false path
    else
      match ← fs.writeText place Settings.defaultText with
      | .error fault => return (Failure.system fault).outcome
      | .ok _ => return showInit common.format true path

/-- Explain a code, in any case of its letter. -/
def runExplain (common : Common) (code : String) : Outcome :=
  let spelled := Text.uppercase code
  match Code.ofText? spelled with
  | none => (Failure.unknownCode spelled).outcome
  | some code =>
    match common.format with
    | .text => { stdout := code.explanationText }
    | .json => { stdout := code.explanationJson.pretty 0 ++ "\n" }

/-- Run a command. -/
def Command.run (common : Common) : Command → m Outcome
  | .convert input output printTree refGuard config =>
    runConvert fs common input output printTree refGuard config
  | .check input all strict config => runCheck fs common input all strict config
  | .init directory => runInit fs common directory
  | .explain code => return runExplain common code

/-- The program's name and version, for the program or for one of its commands. -/
def versionText (command : Option CommandName) : String :=
  "jslua" ++ (command.elim "" fun name => "-" ++ name.text) ++ " 0.1.0\n"

/-- The commands and the options of each. -/
def helpText : String :=
  "Translate JavaScript to Lua 5.2\n\nUsage: jslua [OPTIONS] [COMMAND]\n\nCommands:\n"
    ++ String.join (CommandName.all.map fun name =>
      "  " ++ name.text ++ " "
        ++ " ".intercalate (name.options.map fun option => "[--" ++ option.long ++ "]") ++ "\n")

/-- Do what the arguments ask for. -/
def Invocation.perform : Invocation → m Outcome
  | .run common command => command.run fs common
  | .help => return { stdout := helpText }
  | .version command => return { stdout := versionText command }
  | .usage error => return { status := 2, stderr := "error: " ++ error.message ++ "\n" }

/-- Run the program with these arguments. -/
def run (arguments : List String) : m Outcome :=
  (Invocation.ofArguments arguments).perform fs

end Commands

end EcmaLua.CommandLine
