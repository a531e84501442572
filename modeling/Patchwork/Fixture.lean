import Patchwork.Config
import Patchwork.Document
import Patchwork.Text.Lines

/-!
# Fixtures

A fixture is a file that holds a document and says what is expected of its compilation. It begins
with a header between two lines `---`, written like a configuration file; the document is the rest.
`Fixture.split` takes the two apart, `Fixture.parse` also reads the header, and `Fixture.verdict`
compiles the document and compares.
-/

namespace Patchwork

/-- A warning that is expected. -/
structure ExpectedWarning where
  /-- A part of its message. -/
  contains : Text
  line : Option Nat := none
  deriving DecidableEq, Repr

/-- What the header of a fixture says. -/
structure Expectation where
  description : Option Text := none
  mode : Option Text := none
  dialect : Option Text := none
  /-- The generated code, up to blanks around it. -/
  output : Option Text := none
  /-- Parts of the generated code. -/
  contains : List Text := []
  error : Option Text := none
  /-- The warnings. If this is missing they do not matter. -/
  warnings : Option (List ExpectedWarning) := none
  deriving DecidableEq, Repr

/-- A document with what is expected of it. -/
structure Fixture where
  expectation : Expectation
  source : Text
  deriving DecidableEq, Repr

/-- Why a file is no fixture. -/
inductive HeaderError where
  | openingMissing
  | closingMissing
  /-- The header cannot be read. -/
  | malformed
  deriving DecidableEq, Repr

def HeaderError.message : HeaderError → Text
  | openingMissing => "missing opening --- frontmatter delimiter"
  | closingMissing => "missing closing --- frontmatter delimiter"
  | malformed => "TOML parse error"

/-- Why a compilation is not what was expected. -/
inductive Mismatch where
  | dialect (e : ConfigError)
  /-- An error was expected and there was none. -/
  | errorMissing (part : Text)
  | errorOther (part : Text) (messages : List Text)
  | errorUnexpected (messages : List Text)
  | output (wanted actual : Text)
  | partMissing (part actual : Text)
  | warningCount (wanted : Nat) (messages : List Text)
  | warningMessage (index : Nat) (part message : Text)
  | warningLine (index wanted actual : Nat)
  deriving DecidableEq, Repr

def Mismatch.message : Mismatch → Text
  | dialect e => "frontmatter error: " ++ e.message
  | errorMissing part =>
    "expected error containing \"" ++ part ++ "\", but compilation succeeded"
  | errorOther part messages =>
    "expected error containing \"" ++ part ++ "\", got: " ++ Text.join "; " messages
  | errorUnexpected messages => "unexpected compile error: " ++ Text.join "; " messages
  | output wanted actual =>
    "output mismatch\n  expected: " ++ wanted ++ "\n  actual:   " ++ actual
  | partMissing part actual =>
    "output does not contain \"" ++ part ++ "\"\n  actual:   " ++ actual
  | warningCount wanted messages =>
    let listed : Text :=
      if messages.isEmpty then "    (none)" else Text.join "\n" (messages.map ("  - " ++ ·))
    "expected " ++ Text.ofNat wanted ++ " warning(s), got " ++ Text.ofNat messages.length ++
      "\n  actual warnings:\n" ++ listed
  | warningMessage index part message =>
    "warning[" ++ Text.ofNat index ++ "]: expected message containing \"" ++ part ++
      "\", got: " ++ message
  | warningLine index wanted actual =>
    "warning[" ++ Text.ofNat index ++ "]: expected on line " ++ Text.ofNat wanted ++
      ", but span is on line " ++ Text.ofNat actual

/-- How a fixture fares. -/
inductive Verdict where
  | pass
  | fail (m : Mismatch)
  /-- The compilation gave no answer. -/
  | stopped
  deriving DecidableEq, Repr

namespace Fixture

/-- How the trial of a file ends. -/
inductive Result where
  | passed
  | failed (reason : Text)
  /-- The compilation gave no answer. -/
  | stopped
  deriving DecidableEq, Repr

/-! ## Reading -/

def dropBreak (t : Text) : Text :=
  match t with
  | '\n' :: t => t
  | '\r' :: '\n' :: t => t
  | t => t

def dropFinalBreak (t : Text) : Text :=
  if Text.endsWithChar '\n' t then Text.dropReturn t.dropLast else t

def dropReturns (t : Text) : Text :=
  (t.reverse.dropWhile (· == '\r')).reverse

/-- The header of a file and the document after it. The line breaks that belong to the lines `---`,
and the one at the end of the file, belong to neither. -/
def split (content : Text) : Except HeaderError (Text × Text) :=
  match Text.after? "---" (content.dropWhile (· == '\ufeff')) with
  | none => .error .openingMissing
  | some rest =>
    let rest := dropBreak rest
    match Text.indexOf? "\n---" rest with
    | none => .error .closingMissing
    | some n => .ok (dropReturns (rest.take n), dropFinalBreak (dropBreak (rest.drop (n + 4))))

/-- An expected warning: a table with its message and its line, or a list of the two. -/
def warning? : Toml → Option ExpectedWarning
  | .table t => do
    if !Toml.onlyKeys t ["contains", "line"] then none
    return { contains := ← Toml.required? t "contains" Toml.text?
             line := ← Toml.optional? t "line" Toml.nat? }
  | .array [contains] => contains.text?.map fun contains => { contains }
  | .array (contains :: line :: _) => do
    return { contains := ← contains.text?, line := some (← line.nat?) }
  | _ => none

def keys : List Text :=
  ["description", "mode", "dialect", "expect_output", "expect_contains", "expect_error",
   "expect_warnings"]

/-- What a table says, if it has only known keys and each has a value of the right kind. -/
def expectation? (t : Toml.Table) : Option Expectation := do
  if !Toml.onlyKeys t keys then none
  return {
    description := ← Toml.optional? t "description" Toml.text?
    mode := ← Toml.optional? t "mode" Toml.text?
    dialect := ← Toml.optional? t "dialect" Toml.text?
    output := ← Toml.optional? t "expect_output" Toml.text?
    contains := (← Toml.optional? t "expect_contains" (Toml.list? Toml.text?)).getD []
    error := ← Toml.optional? t "expect_error" Toml.text?
    warnings := ← Toml.optional? t "expect_warnings" (Toml.list? warning?) }

def parse (content : Text) : Except HeaderError Fixture := do
  let (header, source) ← split content
  match (Toml.parse? header).bind expectation? with
  | some expectation => return { expectation, source }
  | none => throw .malformed

/-! ## Checking -/

def settings (e : Expectation) : Except ConfigError Settings :=
  Config.apply { mode := e.mode, dialect := e.dialect } {}

def message (d : Diagnostic) : Text :=
  d.fault.cause.message

/-- Compare warnings one by one, of which the first has an index. -/
def checkEach (source : Text) :
    (index : Nat) → List Diagnostic → List ExpectedWarning → Verdict
  | index, actual :: actuals, wanted :: wanteds =>
    if !Text.holds wanted.contains (message actual) then
      .fail (.warningMessage index wanted.contains (message actual))
    else
      match wanted.line with
      | none => checkEach source (index + 1) actuals wanteds
      | some wantedLine =>
        match Text.lineAt? actual.fault.span.start source with
        | none => .stopped
        | some line =>
          if line == wantedLine then checkEach source (index + 1) actuals wanteds
          else .fail (.warningLine index wantedLine line)
  | _, _, _ => .pass

def checkWarnings (source : Text) (actual : List Diagnostic) (wanted : List ExpectedWarning) :
    Verdict :=
  if actual.length != wanted.length then
    .fail (.warningCount wanted.length (actual.map message))
  else checkEach source 0 actual wanted

def checkCompiled (f : Fixture) (code : Text) (warnings : List Diagnostic) : Verdict :=
  let actual := Text.trim code
  match f.expectation.output.map Text.trim with
  | some wanted =>
    if actual != wanted then .fail (.output wanted actual) else parts actual
  | none => parts actual
where
  parts (actual : Text) : Verdict :=
    match f.expectation.contains.find? fun part => !Text.holds part code with
    | some part => .fail (.partMissing part actual)
    | none =>
      match f.expectation.warnings with
      | some wanted => checkWarnings f.source (warnings.filter Diagnostic.isWarning) wanted
      | none => .pass

/-- Compare what came of the document with what is expected. -/
def check (f : Fixture) : Outcome → Verdict
  | .stopped => .stopped
  | .rejected errors =>
    match f.expectation.error with
    | none => .fail (.errorUnexpected (errors.map message))
    | some part =>
      if errors.any fun d => Text.holds part (message d) then .pass
      else .fail (.errorOther part (errors.map message))
  | .compiled code warnings =>
    match f.expectation.error with
    | some part => .fail (.errorMissing part)
    | none => f.checkCompiled code warnings

/-- Compile the document and compare. -/
def verdict (f : Fixture) : Verdict :=
  match settings f.expectation with
  | .error e => .fail (.dialect e)
  | .ok settings => f.check (compile settings 0 f.source)

/-- What is found when a file is tried as a fixture. -/
structure Trial where
  description : Option Text := none
  source : Option Text := none
  result : Result
  deriving DecidableEq, Repr

def trial (content : Text) : Trial :=
  match parse content with
  | .error e => { result := .failed ("frontmatter error: " ++ e.message) }
  | .ok f =>
    { description := f.expectation.description
      source := some f.source
      result :=
        match f.verdict with
        | .pass => .passed
        | .fail m => .failed m.message
        | .stopped => .stopped }

end Fixture
end Patchwork
