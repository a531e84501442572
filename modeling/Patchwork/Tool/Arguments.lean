import Patchwork.Text.Basic

/-!
# Arguments

The commands of the tool and their options are described by data. `Request.parse?` reads the
arguments of the tool by this description, and `CommandSpec.page` writes it as a help page.

An option is written with two dashes and its name, or with one dash and its letter. Its value is the
next argument, or follows an equals sign, or follows the letter at once. After `--` nothing is an
option.
-/

namespace Patchwork

/-- The options. -/
inductive OptionKey where
  | noColor | mode | legacy | prettyCss | runtime | strictWarnings | config | output | category
  | listCategories | help | version
  deriving DecidableEq, Repr

/-- The value of an option, or an argument that is no option. -/
structure ValueSpec where
  name : Text
  isPath : Bool := false
  deriving DecidableEq, Repr

/-- The description of an option. -/
structure OptionSpec where
  key : OptionKey
  letter : Option Char := none
  name : Text
  value : Option ValueSpec := none
  repeatable : Bool := false
  about : Text
  deriving DecidableEq, Repr

/-- The description of a command. -/
structure CommandSpec where
  name : Text
  about : Text
  operand : Option (ValueSpec × Text) := none
  options : List OptionSpec
  deriving DecidableEq, Repr

/-! ## Description -/

namespace OptionSpec

/-- Diagnostics without colour, whatever the command. -/
def noColor : OptionSpec :=
  { key := .noColor, name := "no-color", about := "Disable colored error output" }

def help : OptionSpec :=
  { key := .help, letter := some 'h', name := "help", about := "Print help" }

/-- The version in place of the work. It stands before the command only. -/
def version : OptionSpec :=
  { key := .version, letter := some 'V', name := "version", about := "Print version" }

def compilation : List OptionSpec :=
  [{ key := .mode, letter := some 'm', name := "mode", value := some ⟨"MODE", false⟩
     about := "Mode of the top-level region" },
   { key := .legacy, name := "legacy"
     about := "Emit `function()\x7b\x7d` callbacks and string concatenation" },
   { key := .prettyCss, name := "pretty-css"
     about := "Render compile-time stylesheets one declaration per line" },
   { key := .runtime, name := "runtime", value := some ⟨"RUNTIME", false⟩
     about := "Name of the runtime object" },
   { key := .strictWarnings, name := "strict-warnings"
     about := "Warn about text kept literal by fallbacks" },
   { key := .config, name := "config", value := some ⟨"CONFIG", true⟩
     about := "Configuration file (defaults to loom.toml next to the source)" }]

/-- The file to write the code to. -/
def output : OptionSpec :=
  { key := .output, letter := some 'o', name := "output", value := some ⟨"OUTPUT", true⟩
    about := "Write the output here instead of stdout" }

/-- A category of fixtures to run. Several may be given. -/
def category : OptionSpec :=
  { key := .category, letter := some 'c', name := "category", value := some ⟨"CATEGORY", false⟩
    repeatable := true
    about := "Run only tests in these categories (subfolder names). Repeatable" }

def listCategories : OptionSpec :=
  { key := .listCategories, name := "list-categories"
    about := "List available categories and exit" }

end OptionSpec

namespace CommandSpec

open OptionSpec

def document : ValueSpec × Text :=
  (⟨"FILE", true⟩, "Template source file")

/-- Compile a document and write its code. -/
def build : CommandSpec :=
  { name := "build", about := "Compile a template to JavaScript", operand := some document
    options := noColor :: compilation ++ [output, help] }

/-- Compile a document for its diagnostics only. -/
def check : CommandSpec :=
  { name := "check", about := "Compile without writing output (exit 0 if valid)"
    operand := some document, options := noColor :: compilation ++ [help] }

def modes : CommandSpec :=
  { name := "modes", about := "List the registered modes", options := [noColor, help] }

/-- Run fixtures and report on each. -/
def test : CommandSpec :=
  { name := "test", about := "Run .test.loom fixture files"
    operand := some (⟨"PATH", false⟩, "Path to a .test.loom file or directory containing them")
    options := [noColor, category, listCategories, help] }

def all : List CommandSpec :=
  [build, check, modes, test]

def helpName : Text × Text :=
  ("help", "Print this message or the help of the given subcommand(s)")

def general : List OptionSpec :=
  [noColor, help, version]

end CommandSpec

/-! ## Help pages -/

def OptionSpec.usage (o : OptionSpec) : Text :=
  let letter : Text :=
    match o.letter with
    | some c => ['-', c, ',', ' ']
    | none => "    "
  let value : Text :=
    match o.value with
    | some v => " <" ++ v.name ++ ">"
    | none => []
  letter ++ "--" ++ o.name ++ value

/-- Lines of two columns, the second of which begins after the longest entry of the first. -/
def columns (rows : List (Text × Text)) : Text :=
  let width := (rows.map (·.1.length)).foldl max 0
  rows.flatMap fun (left, right) =>
    let fill := List.replicate (width + 2 - left.length) ' '
    ("  " ++ left ++ fill ++ right ++ "\n" : Text)

def optionRows (options : List OptionSpec) : Text :=
  "Options:\n" ++ columns (options.map fun o => (o.usage, o.about))

def CommandSpec.usage (c : CommandSpec) : Text :=
  let operand : Text :=
    match c.operand with
    | some (v, _) => " <" ++ v.name ++ ">"
    | none => []
  "Usage: loom " ++ c.name ++ " [OPTIONS]" ++ operand ++ "\n"

def CommandSpec.page (c : CommandSpec) : Text :=
  let operand : Text :=
    match c.operand with
    | some (v, about) => "Arguments:\n" ++ columns [('<' :: v.name ++ ">", about)] ++ "\n"
    | none => []
  c.about ++ "\n\n" ++ c.usage ++ "\n" ++ operand ++ optionRows c.options

/-- How the tool is called. -/
def generalUsage : Text :=
  "Usage: loom [OPTIONS] <COMMAND>\n"

def generalPage : Text :=
  "Mixed-syntax template compiler\n\n" ++ generalUsage ++ "\nCommands:\n" ++
    columns (CommandSpec.all.map (fun c => (c.name, c.about)) ++ [CommandSpec.helpName]) ++ "\n" ++
    optionRows CommandSpec.general

def helpPage : Text :=
  CommandSpec.helpName.2 ++ "\n\nUsage: loom help [COMMAND]...\n\nArguments:\n" ++
    columns [("[COMMAND]...", "Print help for the subcommand(s)")]

/-! ## Reading -/

/-- What ends the reading of arguments early. -/
inductive Interruption where
  /-- The arguments make no sense. -/
  | usage
  | help
  | version
  deriving DecidableEq, Repr

/-- The arguments of a command that have been read. -/
structure Given where
  options : List (OptionKey × Text) := []
  operands : List Text := []
  deriving DecidableEq, Repr

namespace Given

def has (g : Given) (key : OptionKey) : Bool :=
  g.options.any (·.1 == key)

def value? (g : Given) (key : OptionKey) : Option Text :=
  g.options.lookup key

def values (g : Given) (key : OptionKey) : List Text :=
  (g.options.filter (·.1 == key)).map Prod.snd

def addOption (g : Given) (o : OptionSpec) (value : Text) : Except Interruption Given :=
  if o.key == .help then .error .help
  else if o.key == .version then .error .version
  else if g.has o.key && !o.repeatable then .error .usage
  else if value.isEmpty && o.value.any ValueSpec.isPath then .error .usage
  else .ok { g with options := g.options ++ [(o.key, value)] }

def addOperand (g : Given) (spec : Option ValueSpec) (t : Text) : Except Interruption Given :=
  match spec with
  | some v =>
    if !g.operands.isEmpty || (v.isPath && t.isEmpty) then .error .usage
    else .ok { g with operands := [t] }
  | none => .error .usage

/-- Take in an option that is written with its name. It is left open when its value must follow. -/
def addNamed (g : Given) (options : List OptionSpec) (t : Text) :
    Except Interruption (Given × Option OptionSpec) :=
  let (name, attached) : Text × Option Text :=
    match Text.splitOnce? '=' t with
    | some (name, value) => (name, some value)
    | none => (t, none)
  match options.find? (·.name == name) with
  | none => .error .usage
  | some o =>
    match o.value, attached with
    | some _, some value => (g.addOption o value).map (·, none)
    | some _, none => .ok (g, some o)
    | none, some _ => .error .usage
    | none, none => (g.addOption o []).map (·, none)

def addLetters (g : Given) (options : List OptionSpec) :
    Text → Except Interruption (Given × Option OptionSpec)
  | [] => .ok (g, none)
  | c :: t =>
    match options.find? (·.letter == some c) with
    | none => .error .usage
    | some o =>
      match o.value with
      | none => do (← g.addOption o []).addLetters options t
      | some _ =>
        if t.isEmpty then .ok (g, some o)
        else (g.addOption o (if t.head? == some '=' then t.drop 1 else t)).map (·, none)

def isOption (t : Text) : Bool :=
  t.head? == some '-' && t != ['-']

def addWritten (g : Given) (options : List OptionSpec) (t : Text) :
    Except Interruption (Given × Option OptionSpec) :=
  match Text.after? "--" t with
  | some name => g.addNamed options name
  | none => g.addLetters options (t.drop 1)

/-- Read the arguments of a command. `waiting` is an option whose value comes next, and `literal`
says that nothing is an option any more. -/
def read (spec : CommandSpec) :
    Given → (waiting : Option OptionSpec) → (literal : Bool) → List Text →
      Except Interruption Given
  | g, none, _, [] => .ok g
  | _, some _, _, [] => .error .usage
  | g, waiting, literal, t :: ts =>
    if !literal && isOption t then
      if waiting.isSome then .error .usage
      else if t == "--" then read spec g none true ts
      else
        match g.addWritten spec.options t with
        | .ok (g, waiting) => read spec g waiting false ts
        | .error e => .error e
    else
      match waiting with
      | some o =>
        match g.addOption o t with
        | .ok g => read spec g none literal ts
        | .error e => .error e
      | none =>
        match g.addOperand (spec.operand.map Prod.fst) t with
        | .ok g => read spec g none literal ts
        | .error e => .error e

end Given

/-- The arguments of a compilation. -/
structure CompileArguments where
  file : Text
  mode : Option Text := none
  legacy : Bool := false
  prettyCss : Bool := false
  runtime : Option Text := none
  strictWarnings : Bool := false
  config : Option Text := none
  deriving DecidableEq, Repr

/-- What the tool shall do. -/
inductive Command where
  | build (a : CompileArguments) (output : Option Text)
  | check (a : CompileArguments)
  | modes
  | test (path : Text) (categories : List Text)
  | listCategories (path : Text)
  deriving DecidableEq, Repr

/-- What the tool is asked for. -/
inductive Request where
  | run (command : Command) (noColor : Bool)
  | print (page : Text)
  deriving DecidableEq, Repr

namespace Request

def compileArguments (g : Given) (file : Text) : CompileArguments :=
  { file
    mode := g.value? .mode
    legacy := g.has .legacy
    prettyCss := g.has .prettyCss
    runtime := g.value? .runtime
    strictWarnings := g.has .strictWarnings
    config := g.value? .config }

/-- The command that has been given. The only command without an operand is the list of modes. -/
def command? (spec : CommandSpec) (g : Given) : Option Command :=
  match g.operands with
  | [] => if spec.operand.isNone then some .modes else none
  | operand :: _ =>
    if spec == .build then some (.build (compileArguments g operand) (g.value? .output))
    else if spec == .check then some (.check (compileArguments g operand))
    else if g.has .listCategories then some (.listCategories operand)
    else some (.test operand (g.values .category))

def versionPage : Text :=
  "loom 0.1.0\n"

def ofCommand? (spec : CommandSpec) (noColor : Bool) (arguments : List Text) : Option Request :=
  match Given.read spec {} none false arguments with
  | .ok g => (command? spec g).map (.run · (noColor || g.has .noColor))
  | .error .help => some (.print spec.page)
  | .error .version | .error .usage => none

def helpFor? : List Text → Option Request
  | [] => some (.print generalPage)
  | [name] =>
    if name == CommandSpec.helpName.1 then some (.print helpPage)
    else (CommandSpec.all.find? (·.name == name)).map fun c => .print c.page
  | _ => none

/-- Read arguments that begin with the command, after options of which some have been read. -/
def ofArguments? (g : Given) : List Text → Option Request
  | [] => none
  | t :: ts =>
    if t == "--" then none
    else if Given.isOption t then
      match g.addWritten CommandSpec.general t with
      | .ok (g, _) => ofArguments? g ts
      | .error .help => some (.print generalPage)
      | .error .version => some (.print versionPage)
      | .error .usage => none
    else if t == CommandSpec.helpName.1 then helpFor? ts
    else
      match CommandSpec.all.find? (·.name == t) with
      | some spec => ofCommand? spec (g.has .noColor) ts
      | none => none

/-- Put in the command to build if the first argument that does not begin with a dash is no
command. -/
def withCommand (arguments : List Text) : List Text :=
  let front := arguments.takeWhile fun t => t.head? == some '-'
  match arguments.drop front.length with
  | [] => arguments
  | t :: ts =>
    if t == CommandSpec.helpName.1 || CommandSpec.all.any (·.name == t) then arguments
    else front ++ CommandSpec.build.name :: t :: ts

/-- Read the arguments of the tool. There is no answer when they make no sense. -/
def parse? (arguments : List Text) : Option Request :=
  ofArguments? {} (withCommand arguments)

end Request
end Patchwork
