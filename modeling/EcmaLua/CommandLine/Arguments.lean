/-!
# Command line arguments

Options stand before or after the command that they belong to; those common to all commands also
stand before the command's name. Arguments are read from left to right, and the first that asks
for help or for the version, or that cannot be used, decides.
-/

namespace EcmaLua.CommandLine

/-- The form of reports. -/
inductive Format where
  | text
  | json
deriving DecidableEq, Repr

inductive CommandName where
  | convert
  | check
  | init
  | explain
deriving DecidableEq, Repr

namespace CommandName

def all : List CommandName := [.convert, .check, .init, .explain]

def text : CommandName → String
  | .convert => "convert"
  | .check => "check"
  | .init => "init"
  | .explain => "explain"

def ofText? (s : String) : Option CommandName := all.find? fun name => name.text == s

end CommandName

inductive OptionName where
  | format
  | verbose
  | quiet
  | noColor
  | help
  | version
  | output
  | printTree
  | refGuard
  | config
  | all
  | strict
deriving DecidableEq, Repr

namespace OptionName

def long : OptionName → String
  | .format => "format"
  | .verbose => "verbose"
  | .quiet => "quiet"
  | .noColor => "no-color"
  | .help => "help"
  | .version => "version"
  | .output => "output"
  | .printTree => "print-ast"
  | .refGuard => "ref-guard"
  | .config => "config"
  | .all => "all"
  | .strict => "strict"

def short? : OptionName → Option Char
  | .verbose => some 'v'
  | .quiet => some 'q'
  | .help => some 'h'
  | .version => some 'V'
  | .output => some 'o'
  | _ => none

def takesValue : OptionName → Bool
  | .format | .output | .config => true
  | _ => false

/-- The options that every command has. -/
def common : List OptionName := [.format, .verbose, .quiet, .noColor, .help, .version]

/-- Whether the option can have this value. -/
def accepts : OptionName → String → Bool
  | .format, value => value == "text" || value == "json"
  | _, value => value != ""

end OptionName

namespace CommandName

def options : CommandName → List OptionName
  | .convert => [.output, .printTree, .refGuard, .config] ++ OptionName.common
  | .check => [.all, .strict, .config] ++ OptionName.common
  | .init | .explain => OptionName.common

/-- Whether the command takes this operand: a path is not empty. -/
def acceptsOperand : CommandName → String → Bool
  | .explain, _ => true
  | _, operand => operand != ""

end CommandName

/-- Why arguments cannot be used. -/
inductive UsageError where
  | unknownCommand (text : String)
  | unknownOption (text : String)
  | missingValue (name : OptionName)
  | badValue (name : OptionName) (value : String)
  | needlessValue (name : OptionName) (value : String)
  | repeated (name : OptionName)
  | badOperand (text : String)
  | extraOperand (text : String)
  | missingOperand (command : CommandName)
deriving DecidableEq, Repr

def UsageError.message : UsageError → String
  | .unknownCommand text => "unrecognized subcommand '" ++ text ++ "'"
  | .unknownOption text => "unexpected argument '" ++ text ++ "' found"
  | .missingValue name => "a value is required for '--" ++ name.long ++ "' but none was supplied"
  | .badValue name value => "invalid value '" ++ value ++ "' for '--" ++ name.long ++ "'"
  | .needlessValue name value =>
    "unexpected value '" ++ value ++ "' for '--" ++ name.long ++ "' found"
  | .repeated name => "the argument '--" ++ name.long ++ "' cannot be used multiple times"
  | .badOperand text => "invalid value '" ++ text ++ "'"
  | .extraOperand text => "unexpected argument '" ++ text ++ "' found"
  | .missingOperand command =>
    "the required arguments of '" ++ command.text ++ "' were not provided"

/-- What ends the reading of arguments early. -/
inductive Interruption where
  | help
  | version
  | usage (error : UsageError)
deriving DecidableEq, Repr

/-- What was given on one level: the options with their values, and the operands. -/
structure Given where
  options : List (OptionName × Option String) := []
  operands : List String := []
deriving DecidableEq, Repr

namespace Given

def has (g : Given) (name : OptionName) : Bool := g.options.any fun entry => entry.1 == name

def value? (g : Given) (name : OptionName) : Option String := (g.options.lookup name).join

def count (g : Given) (name : OptionName) : Nat :=
  (g.options.filter fun entry => entry.1 == name).length

/-- Note an option. Help and version act at once, and only verbosity can be raised again. -/
def note (g : Given) (name : OptionName) (value : Option String) : Except Interruption Given :=
  if name = .help then .error .help
  else if name = .version then .error .version
  else if name ≠ .verbose ∧ g.has name then .error (.usage (.repeated name))
  else
    match value with
    | none => .ok { g with options := g.options ++ [(name, none)] }
    | some v =>
      if name.accepts v then .ok { g with options := g.options ++ [(name, some v)] }
      else .error (.usage (.badValue name v))

end Given

/-- Whether an argument is written as an option; a dash alone is not. -/
def looksLikeOption (argument : String) : Bool :=
  match argument.toList with
  | '-' :: _ :: _ => true
  | _ => false

/-- What the arguments that were read leave open: nothing, or the value of an option, which is
the next argument. -/
structure Progress where
  given : Given
  open? : Option OptionName := none

/-- Note an option that may have its value in the next argument. -/
def noteOpen (given : Given) (name : OptionName) : Except Interruption Progress :=
  if name.takesValue then .ok ⟨given, some name⟩
  else (given.note name none).map fun g => ⟨g, none⟩

/-- Read letters behind one dash. The rest behind an option with a value is the value, and an
equals sign in front of it does not count. -/
def readLetters (allowed : List OptionName) (given : Given) :
    List Char → Except Interruption Progress
  | [] => .ok ⟨given, none⟩
  | c :: rest =>
    match allowed.find? fun name => name.short? == some c with
    | none => .error (.usage (.unknownOption ("-" ++ c.toString)))
    | some name =>
      if name.takesValue then
        match rest with
        | [] => .ok ⟨given, some name⟩
        | '=' :: value => (given.note name (some (String.ofList value))).map fun g => ⟨g, none⟩
        | value => (given.note name (some (String.ofList value))).map fun g => ⟨g, none⟩
      else
        match given.note name none with
        | .error e => .error e
        | .ok given' => readLetters allowed given' rest

/-- Read an option that is spelled out, with or without an equals sign and a value. -/
def readLong (allowed : List OptionName) (given : Given) (body : List Char) :
    Except Interruption Progress :=
  let word := String.ofList (body.takeWhile (· ≠ '='))
  match allowed.find? fun name => name.long == word with
  | none => .error (.usage (.unknownOption ("--" ++ word)))
  | some name =>
    match body.dropWhile (· ≠ '=') with
    | [] => noteOpen given name
    | _ :: value =>
      let value := String.ofList value
      if name.takesValue then (given.note name (some value)).map fun g => ⟨g, none⟩
      else .error (.usage (.needlessValue name value))

/-- Read an argument that is written as an option. -/
def readOption (allowed : List OptionName) (given : Given) (argument : String) :
    Except Interruption Progress :=
  match argument.toList with
  | '-' :: '-' :: body => readLong allowed given body
  | '-' :: letters => readLetters allowed given letters
  | _ => .ok ⟨given, none⟩

/-- The arguments in front of a command: what was given, and the command's name with what follows
it. Behind a double dash there is no command. -/
def readLeading (progress : Progress) : List String → Except Interruption (Given × List String)
  | [] =>
    match progress.open? with
    | some name => .error (.usage (.missingValue name))
    | none => .ok (progress.given, [])
  | argument :: rest =>
    match progress.open? with
    | some name =>
      if looksLikeOption argument then .error (.usage (.missingValue name))
      else
        match progress.given.note name (some argument) with
        | .error e => .error e
        | .ok given => readLeading ⟨given, none⟩ rest
    | none =>
      if argument = "--" then
        match rest with
        | [] => .ok (progress.given, [])
        | extra :: _ => .error (.usage (.extraOperand extra))
      else if looksLikeOption argument then
        match readOption OptionName.common progress.given argument with
        | .error e => .error e
        | .ok progress' => readLeading progress' rest
      else .ok (progress.given, argument :: rest)

/-- Note an operand; every command takes at most one. -/
def noteOperand (command : CommandName) (given : Given) (operand : String) :
    Except Interruption Given :=
  if !given.operands.isEmpty then .error (.usage (.extraOperand operand))
  else if command.acceptsOperand operand then
    .ok { given with operands := given.operands ++ [operand] }
  else .error (.usage (.badOperand operand))

/-- The arguments behind a command; behind a double dash there are only operands. -/
def readTrailing (command : CommandName) (operandsOnly : Bool) (progress : Progress) :
    List String → Except Interruption Given
  | [] =>
    match progress.open? with
    | some name => .error (.usage (.missingValue name))
    | none => .ok progress.given
  | argument :: rest =>
    match progress.open? with
    | some name =>
      if looksLikeOption argument then .error (.usage (.missingValue name))
      else
        match progress.given.note name (some argument) with
        | .error e => .error e
        | .ok given => readTrailing command operandsOnly ⟨given, none⟩ rest
    | none =>
      if !operandsOnly && argument == "--" then readTrailing command true progress rest
      else if !operandsOnly && looksLikeOption argument then
        match readOption command.options progress.given argument with
        | .error e => .error e
        | .ok progress' => readTrailing command operandsOnly progress' rest
      else
        match noteOperand command progress.given argument with
        | .error e => .error e
        | .ok given => readTrailing command operandsOnly ⟨given, none⟩ rest

/-- What holds for every command. -/
structure Common where
  format : Format := .text
  verbosity : Nat := 0
  quiet : Bool := false
deriving DecidableEq, Repr

/-- The common options of both levels; those behind the command win. -/
def Common.ofLevels (leading trailing : Given) : Common where
  format :=
    match trailing.value? .format <|> leading.value? .format with
    | some "json" => .json
    | _ => .text
  verbosity :=
    if trailing.count .verbose = 0 then leading.count .verbose else trailing.count .verbose
  quiet := leading.has .quiet || trailing.has .quiet

/-- A command with what it needs. -/
inductive Command where
  | convert (input : String) (output : Option String) (printTree refGuard : Bool)
      (config : Option String)
  | check (input : String) (all strict : Bool) (config : Option String)
  | init (directory : String)
  | explain (code : String)
deriving DecidableEq, Repr

/-- The command that was given, unless an operand is missing. -/
def Command.ofGiven (name : CommandName) (g : Given) : Except UsageError Command :=
  match name, g.operands.head? with
  | .convert, some input =>
    .ok (.convert input (g.value? .output) (g.has .printTree) (g.has .refGuard)
      (g.value? .config))
  | .check, input =>
    .ok (.check (input.getD ".") (g.has .all) (g.has .strict) (g.value? .config))
  | .init, directory => .ok (.init (directory.getD "."))
  | .explain, some code => .ok (.explain code)
  | name, none => .error (.missingOperand name)

/-- What a list of arguments asks for. -/
inductive Invocation where
  | run (common : Common) (command : Command)
  | help
  | version (command : Option CommandName)
  | usage (error : UsageError)
deriving DecidableEq, Repr

/-- What an interruption asks for, when it comes up in a command or in front of one. -/
def Interruption.invocation (command : Option CommandName) : Interruption → Invocation
  | .help => .help
  | .version => .version command
  | .usage error => .usage error

/-- What the names behind `help` ask for: at most one, of a command or of help itself. -/
def readHelp : List String → Invocation
  | [] => .help
  | [name] =>
    if name == "help" || (CommandName.ofText? name).isSome then .help
    else .usage (.unknownCommand name)
  | name :: extra :: _ =>
    if name == "help" || (CommandName.ofText? name).isSome then .usage (.unknownCommand extra)
    else .usage (.unknownCommand name)

/-- Whether the first argument that does not start with a dash is a JavaScript file: then the
command is left out. -/
def namesScript (arguments : List String) : Bool :=
  match arguments.find? fun argument => argument.toList.head? ≠ some '-' with
  | some argument => ".js".toList.isSuffixOf argument.toList
  | none => false

/-- Read arguments. -/
def Invocation.ofArguments (arguments : List String) : Invocation :=
  let arguments :=
    if namesScript arguments then CommandName.convert.text :: arguments else arguments
  match readLeading ⟨{}, none⟩ arguments with
  | .error e => e.invocation none
  | .ok (_, []) => .help
  | .ok (leading, word :: rest) =>
    match CommandName.ofText? word with
    | none => if word = "help" then readHelp rest else .usage (.unknownCommand word)
    | some name =>
      match readTrailing name false ⟨{}, none⟩ rest with
      | .error e => e.invocation (some name)
      | .ok trailing =>
        match Command.ofGiven name trailing with
        | .error e => .usage e
        | .ok command => .run (Common.ofLevels leading trailing) command

end EcmaLua.CommandLine
