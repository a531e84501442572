import Patchwork.Output
import Patchwork.Tag

/-!
# Session

The state that all regions of one compilation share: the cursor in the document, the output, and
the warnings. `Compile` is the monad of steps on it.
-/

namespace Patchwork

/-- The state of a compilation. -/
structure Session where
  cursor : Cursor
  output : Output
  settings : Settings
  /-- What has been found that does not stand in the way of a result, in order. -/
  warnings : List Fault
  deriving DecidableEq, Repr

def Session.start (settings : Settings) (source : Text) : Session :=
  { cursor := .ofText source 0, output := .empty settings, settings, warnings := [] }

/-- Steps of a compilation. -/
abbrev Compile := StateT Session (Except Halt)

namespace Compile

def scan {α : Type} (step : Scan α) : Compile α := fun s =>
  match step s.cursor with
  | .ok a cursor => .ok (a, { s with cursor })
  | .error halt _ => .error halt

def cursor : Compile Cursor := do
  return (← get).cursor

/-- Where the cursor stands. -/
def position : Compile Nat := do
  return (← get).cursor.position

def output : Compile Output := do
  return (← get).output

def onOutput {α : Type} (step : Output → Output × α) : Compile α := fun s =>
  let (output, a) := step s.output
  .ok (a, { s with output })

def modifyOutput (step : Output → Output) : Compile Unit :=
  modify fun s => { s with output := step s.output }

def emit (t : Text) : Compile Unit :=
  modifyOutput (·.add t)

def fail {α : Type} (cause : Cause) (start stop : Nat) : Compile α :=
  throw (.fault ⟨cause, ⟨start, stop⟩⟩)

/-- Report something that does not stand in the way of a result. -/
def warn (cause : Cause) (span : Span) : Compile Unit :=
  modify fun s => { s with warnings := s.warnings ++ [⟨cause, span⟩] }

end Compile

/-- How the edits that regions ask for are carried out. -/
class Editor where
  edit : Edit → Compile Unit

/-- Edits go straight to the output, which takes no notice of one that finds no open slot. -/
instance Editor.direct : Editor where
  edit e := Compile.modifyOutput (·.edit e)

/-- What a step in a region came to. -/
inductive Step where
  | next
  /-- A tag or comment begins, and the cursor is just past the `<`. -/
  | child
  /-- The region ends: the cursor is just past the `<` of the closing tag, or past the region's own
  terminator. -/
  | close
  /-- The document ends. -/
  | eof
  deriving DecidableEq, Repr

end Patchwork
