import Patchwork.Tool.Arguments
import Patchwork.Tool.Suite

/-!
# The tool

`Tool.run` carries out what the arguments ask for: compile a document, check one, list the modes, or
try fixtures.
-/

namespace Patchwork.Tool

variable {m : Type → Type} [Monad m] [Files m]

def configName : Text :=
  "loom.toml"

/-- The configuration file of a document: the one that is asked for, or one that lies next to the
document. -/
def configPath? (a : CompileArguments) : m (Option Text) := do
  match a.config with
  | some path => return some path
  | none =>
    let path := Path.join (Path.parent a.file) configName
    if ← Files.isFile path then return some path else return none

def applyConfig (path content : Text) (s : Settings) : Except Text Settings :=
  match Config.parse? content with
  | none => .error ("invalid " ++ path ++ ": TOML parse error")
  | some config => (config.apply s).mapError ConfigError.message

def applyArguments (a : CompileArguments) (s : Settings) : Settings :=
  { s with
    rootMode := a.mode.getD s.rootMode
    dialect := if a.legacy then .legacy else s.dialect
    layout := if a.prettyCss then .indented else s.layout
    names := { s.names with runtime := a.runtime.getD s.names.runtime }
    warnFallbacks := a.strictWarnings || s.warnFallbacks }

/-- Said when a file cannot be read. -/
def unreadable (path : Text) (e : FileError) : Text :=
  "cannot read '" ++ path ++ "': " ++ e.message

def settings (a : CompileArguments) : m (Except Text Settings) := do
  match ← configPath? a with
  | none => return .ok (applyArguments a {})
  | some path =>
    match ← Files.read path with
    | .error e => return .error (unreadable path e)
    | .ok content => return (applyConfig path content {}).map (applyArguments a)

/-- A diagnostic as the tool shows it: its message, its place, and what is added to it. -/
def diagnosticLines (file source : Text) (d : Diagnostic) : List Text :=
  let severity : Text := if d.isWarning then "warning: " else "error: "
  let line := (Text.lineAt? d.fault.span.start source).getD 1
  let message := Text.lines d.fault.cause.message
  (severity ++ message.headD []) :: (message.drop 1).map ("  " ++ ·) ++
    ("  at " ++ file ++ ':' :: Text.ofNat line) :: d.fault.cause.notes.map ("  = " ++ ·)

def diagnosticText (file source : Text) (ds : List Diagnostic) : Text :=
  Text.unlines (ds.flatMap (diagnosticLines file source))

/-- The answer when something cannot be done. -/
def failed (message : Text) : Report :=
  { exit := 1, err := Text.unlines ["error: " ++ message] }

/-- Compile a document: the code and what is said about it, or the answer if there is no code. -/
def compileFile (a : CompileArguments) : m (Except Report (Text × Text)) := do
  match ← settings a with
  | .error message => return .error (failed message)
  | .ok settings =>
    match ← Files.read a.file with
    | .error e => return .error (failed (unreadable a.file e))
    | .ok source =>
      match compile settings 0 source with
      | .compiled code warnings => return .ok (code, diagnosticText a.file source warnings)
      | .rejected errors => return .error { exit := 1, err := diagnosticText a.file source errors }
      | .stopped => return .error Suite.stoppedReport

def build (a : CompileArguments) (output : Option Text) : m Report := do
  match ← compileFile a with
  | .error report => return report
  | .ok (code, err) =>
    match output with
    | none => return { exit := 0, out := Text.unlines [code], err }
    | some path =>
      match ← Files.write path code with
      | .ok _ => return { exit := 0, err }
      | .error e =>
        let message := "error: cannot write '" ++ path ++ "': " ++ e.message
        return { exit := 1, err := err ++ Text.unlines [message] }

/-- Compile a document and only say whether this is possible. -/
def check (a : CompileArguments) : m Report := do
  match ← compileFile a with
  | .error report => return report
  | .ok (_, err) =>
    return { exit := 0, err := err ++ Text.unlines ["ok: " ++ a.file ++ " compiled successfully"] }

def modeLines (r : Registry) (spec : ModeSpec) : List Text :=
  let mark : Text := if r.default == some spec then " (default)" else []
  let content : List Text :=
    match spec.tag with
    | some tag => ["    content of <" ++ tag ++ ">"]
    | none => []
  (Text.join ", " spec.aliases ++ mark) :: ("    " ++ spec.description) :: content

def modes (r : Registry) : Report :=
  { exit := 0, out := Text.unlines ((r.modes.filter (!·.hidden)).flatMap (modeLines r)) }

def runCommand (command : Command) (noColor : Bool) : m Report :=
  match command with
  | .build a output => build a output
  | .check a => check a
  | .modes => return modes .standard
  | .test path categories => Suite.run path noColor categories
  | .listCategories path => Suite.list path

/-- The answer to arguments that make no sense. -/
def usageReport : Report :=
  { exit := 2
    err := "error: the arguments cannot be understood\n\n" ++ generalUsage ++
      "\nFor more information, try '--help'.\n" }

def run (arguments : List Text) : m Report :=
  match Request.parse? arguments with
  | none => return usageReport
  | some (.print page) => return { exit := 0, out := page }
  | some (.run command noColor) => runCommand command noColor

end Patchwork.Tool
