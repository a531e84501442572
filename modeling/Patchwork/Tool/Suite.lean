import Patchwork.Fixture
import Patchwork.Tool.Files

/-!
# Test suites

A directory of fixtures is a suite. The fixtures in one of its subdirectories form a category, which
is named by the path from the suite to the subdirectory. The fixtures are tried category by
category, and a report says how each has fared.
-/

namespace Patchwork

/-- What the tool answers: an exit code and what it writes to its two outputs. -/
structure Report where
  exit : Nat
  out : Text := []
  err : Text := []
  deriving DecidableEq, Repr

/-- Lines with a line feed after each. -/
def Text.unlines (lines : List Text) : Text :=
  lines.flatMap (· ++ ['\n'])

namespace Suite

/-- A fixture of a suite. -/
structure Entry where
  /-- The subdirectories that lead to the fixture. -/
  directories : List Text
  name : Text
  deriving DecidableEq, Repr

/-- The name of the category. Backslashes in it count as slashes. -/
def Entry.category (e : Entry) : Text :=
  Text.replaceChar '\\' "/" (Text.join "/" e.directories)

/-- The fixture a file is, if its name says so. -/
def entry? (parts : List Text) : Option Entry :=
  match parts.getLast? with
  | some name =>
    if Text.endsWith ".test.loom" name then some ⟨parts.dropLast, name⟩ else none
  | none => none

/-- Does a text come before another in the order of code points? -/
def precedes : Text → Text → Bool
  | _, [] => false
  | [], _ :: _ => true
  | c :: t, d :: u => c.toNat < d.toNat || (c == d && precedes t u)

def listPrecedes : List Text → List Text → Bool
  | _, [] => false
  | [], _ :: _ => true
  | t :: ts, u :: us => precedes t u || (t == u && listPrecedes ts us)

/-- The fixtures of one category, in order. -/
structure Category where
  name : Text
  entries : List Entry
  deriving DecidableEq, Repr

/-- The categories of some fixtures, in the order of their names. -/
def categories (entries : List Entry) : List Category :=
  let names := ((entries.map Entry.category).eraseDups).mergeSort fun a b => !precedes b a
  names.map fun name =>
    { name
      entries := (entries.filter (·.category == name)).mergeSort fun a b =>
        !listPrecedes (b.directories ++ [b.name]) (a.directories ++ [a.name]) }

def shownName (name : Text) : Text :=
  if name.isEmpty then "(root)" else name

def trimSlashes (t : Text) : Text :=
  ((t.dropWhile (· == '/')).reverse.dropWhile (· == '/')).reverse

/-- Does a name that is asked for stand for a category? It does also for those below it. -/
def asksFor (asked name : Text) : Bool :=
  name == asked || Text.startsWith (asked ++ ['/']) name

def select (all : List Category) (asked : List Text) : List Category :=
  if asked.isEmpty then all
  else all.filter fun c => asked.any fun name => asksFor (trimSlashes name) c.name

def unknownNames (all : List Category) (asked : List Text) : List Text :=
  (asked.map trimSlashes).filterMap fun name =>
    if all.any (fun c => asksFor name c.name) then none
    else some ("warning: category '" ++ name ++ "' not found (available: " ++
      Text.join ", " (all.map fun c => shownName c.name) ++ ")")

/-! ## Reports -/

/-- A fixture that has been tried. -/
structure Trial where
  path : Text
  description : Option Text
  result : Fixture.Result
  deriving DecidableEq, Repr

def Trial.label (t : Trial) : Text :=
  t.description.getD (Path.stem t.path)

def Trial.passed (t : Trial) : Bool :=
  t.result == .passed

def styled (noColor : Bool) (style : Text) (t : Text) : Text :=
  if noColor then t else "\x1b[" ++ style ++ "m" ++ t ++ "\x1b[0m"

def good (noColor : Bool) (t : Text) : Text :=
  styled noColor "32" t

def bad (noColor : Bool) (t : Text) : Text :=
  styled noColor "31" t

def Trial.line (noColor : Bool) (t : Trial) : Text :=
  let mark := if t.passed then good noColor "PASS" else bad noColor "FAIL"
  "  " ++ mark ++ "  " ++ t.label

/-- What is said of a failure at the end. -/
def Trial.details (t : Trial) : List Text :=
  match t.result with
  | .failed reason =>
    ("  --- " ++ t.path ++ " ---" : Text) :: (Text.lines reason).map ("  " ++ ·)
  | .passed | .stopped => []

def summary (noColor : Bool) (trials : List Trial) : Text :=
  let passed := trials.countP Trial.passed
  let failed := trials.length - passed
  if failed == 0 then
    "test result: " ++ good noColor "ok" ++ ". " ++ Text.ofNat passed ++ " passed, 0 failed"
  else
    "test result: " ++ bad noColor "FAILED" ++ ". " ++ Text.ofNat passed ++ " passed, " ++
      Text.ofNat failed ++ " failed (of " ++ Text.ofNat trials.length ++ ")"

/-- The report on a fixture that was tried alone. -/
def soloReport (noColor : Bool) (t : Trial) : Report :=
  let details : List Text :=
    if t.passed then [] else ("failures:" : Text) :: [] :: t.details ++ [[]]
  { exit := if t.passed then 0 else 1
    err := Text.unlines ([t.line noColor, []] ++ details ++ [summary noColor [t]]) }

def categoryLines (noColor : Bool) (name : Text) (trials : List Trial) : List Text :=
  [[], styled noColor "1" (shownName name)] ++ trials.map (Trial.line noColor)

def suiteReport (noColor : Bool) (warnings : List Text) (groups : List (Text × List Trial)) :
    Report :=
  let trials := groups.flatMap Prod.snd
  let failures := trials.filter (!·.passed)
  let details : List Text :=
    if failures.isEmpty then []
    else [] :: ("failures:" : Text) :: failures.flatMap fun t => [] :: t.details
  { exit := if failures.isEmpty then 0 else 1
    err := Text.unlines (warnings ++ groups.flatMap (fun (name, ts) => categoryLines noColor name ts)
      ++ details ++ [[], summary noColor trials]) }

/-! ## Running -/

variable {m : Type → Type} [Monad m] [Files m]

def tryFile (path : Text) : m Trial := do
  match ← Files.read path with
  | .error e => return ⟨path, none, .failed ("cannot read file: " ++ e.message)⟩
  | .ok content =>
    let trial := Fixture.trial content
    return ⟨path, trial.description, trial.result⟩

def find (path : Text) : m (List Category) := do
  return categories ((← Files.below path).filterMap entry?)

/-- Said when there is no fixture. -/
def noneFound (path : Text) : Text :=
  "no .test.loom files found in " ++ path

/-- The categories of a suite, with the number of their fixtures. -/
def list (path : Text) : m Report := do
  if ← Files.isFile path then
    return { exit := 0, err := Text.unlines ["(single file, no categories)"] }
  else
    let all ← find path
    if all.isEmpty then return { exit := 0, err := Text.unlines [noneFound path] }
    else
      let lines := all.map fun c : Category =>
        ("  " ++ shownName c.name ++ " (" ++ Text.ofNat c.entries.length ++ " tests)" : Text)
      return { exit := 0, err := Text.unlines ("available categories:" :: lines) }

/-- Answer that a compilation gave no answer. -/
def stoppedReport : Report :=
  { exit := 101, err := "the compiler stopped\n" }

def run (path : Text) (noColor : Bool) (asked : List Text) : m Report := do
  if ← Files.isFile path then
    let trial ← tryFile path
    if trial.result == .stopped then return stoppedReport else return soloReport noColor trial
  else
    let all ← find path
    if all.isEmpty then return { exit := 1, err := Text.unlines [noneFound path] }
    else
      let warnings := unknownNames all asked
      let selected := select all asked
      if selected.isEmpty then
        let nothing : Text := "no matching categories found"
        return { exit := 1, err := Text.unlines (warnings ++ [nothing]) }
      else
        let groups ← selected.mapM fun c : Category => do
          let trials ← c.entries.mapM fun e : Entry =>
            tryFile (Path.join path (Text.join "/" (e.directories ++ [e.name])))
          return (c.name, trials)
        if groups.any fun (_, trials) => trials.any (·.result == .stopped) then
          return stoppedReport
        else return suiteReport noColor warnings groups

end Suite
end Patchwork
