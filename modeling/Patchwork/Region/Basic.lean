import Patchwork.Region.Comment
import Patchwork.Region.Markup
import Patchwork.Region.Script
import Patchwork.Region.Stylesheet

/-!
# Regions

A region is a part of a document with a grammar of its own. The grammars are the modes; a `Registry`
knows them by their names and by the elements whose content they read. This module brings the
regions of all modes together in one type.
-/

namespace Patchwork

open Lexeme (ScanOptions)

/-- The grammars. -/
inductive Mode where
  | code | html | script | css | stylesheet | comment
  deriving DecidableEq, Repr

/-- What is known of a mode before a region of it is read. -/
structure ModeSpec where
  mode : Mode
  /-- The names of the mode, its own name first. -/
  aliases : List Text
  /-- What a search in the region passes over. -/
  options : ScanOptions
  /-- The element whose content the mode reads. -/
  tag : Option Text
  description : Text
  deriving DecidableEq, Repr

def ModeSpec.name (spec : ModeSpec) : Text :=
  spec.aliases.headD []

def ModeSpec.hidden (spec : ModeSpec) : Bool :=
  Text.startsWith "__" spec.name

/-- The modes that can be used. -/
structure Registry where
  modes : List ModeSpec := []
  default : Option ModeSpec := none
  deriving DecidableEq, Repr

namespace Registry

def register (r : Registry) (spec : ModeSpec) (isDefault : Bool) : Registry :=
  { modes := r.modes ++ [spec]
    default := if isDefault || r.default.isNone then some spec else r.default }

def lookup? (r : Registry) (name : Text) : Option ModeSpec :=
  r.modes.find? (·.aliases.contains name)

/-- The mode that reads the content of an element. The case of ASCII letters does not count. -/
def forTag? (r : Registry) (tag : Text) : Option ModeSpec :=
  r.modes.find? fun spec => spec.tag.any fun t => t.map Char.toLower == tag.map Char.toLower

/-- The names of the modes that are offered. -/
def known (r : Registry) : List Text :=
  (r.modes.filter (!·.hidden)).flatMap ModeSpec.aliases

def standardModes : List ModeSpec :=
  [{ mode := .code
     aliases := ["code", "javascript", "js"]
     options := .inCode
     tag := none
     description := "inline code with reactive shorthands" },
   { mode := .html
     aliases := ["html"]
     options := .inText
     tag := none
     description := "element content: text, markers and child elements" },
   { mode := .script
     aliases := ["script"]
     options := .inText
     tag := some "script"
     description := "script element content, kept as text" },
   { mode := .css
     aliases := ["css"]
     options := { comments := true, strings := true }
     tag := none
     description := "raw stylesheet text with markers" },
   { mode := .stylesheet
     aliases := ["ssb", "style"]
     options := .inText
     tag := some "style"
     description := "stylesheet builder with nested selectors and unit arithmetic" },
   { mode := .comment
     aliases := ["__comment"]
     options := .inText
     tag := none
     description := "markup comment content" }]

/-- All modes, with code for the default. -/
def standard : Registry :=
  standardModes.foldl (fun r spec => r.register spec (spec.mode == .code)) {}

end Registry

/-- A region of some mode. -/
inductive Region where
  | code (r : Code)
  | markup (r : Markup)
  | script (r : Script)
  | stylesheet (r : Stylesheet)
  | comment (r : Comment)
  deriving DecidableEq, Repr

namespace Region

open Compile

/-- A region of a mode at the cursor. From here on searches pass over what the mode says. -/
def create (spec : ModeSpec) (attributes : Attributes) : Compile Region := do
  modify fun s => { s with cursor := { s.cursor with options := spec.options } }
  match spec.mode with
  | .code => return .code {}
  | .html => return .markup (← Markup.create true attributes)
  | .css => return .markup (← Markup.create false attributes)
  | .script => return .script (← Script.create attributes)
  | .stylesheet => return .stylesheet (← Stylesheet.create attributes)
  | .comment => return .comment Comment.create

def name : Region → Text
  | code _ => "code"
  | markup r => if r.children then "html" else "css"
  | script _ => "script"
  | stylesheet _ => "ssb"
  | comment _ => "__comment"

def start : Region → Compile Region
  | stylesheet r => return stylesheet (← r.start)
  | script r => return script r.start
  | r => return r

variable [Expansion] [Editor]

/-- Go to the next character that needs a look, and deal with it. -/
def step : Region → Compile (Region × Step)
  | code r => do
    let (r, step) ← r.step Expansion.expand
    return (code r, step)
  | markup r => do
    let (r, step) ← r.step
    return (markup r, step)
  | script r => do
    let (r, step) ← r.step
    return (script r, step)
  | stylesheet r => do
    let (r, step) ← r.step
    return (stylesheet r, step)
  | comment r => do
    let (r, step) ← r.step
    return (comment r, step)

def finish : Region → Compile Unit
  | code r => discard r.commit
  | markup r => r.finish
  | script r => r.finish
  | stylesheet r => r.finish
  | comment _ => pure ()

def after? (o : Output) : Region → Option Text
  | stylesheet r => r.after? o
  | _ => none

def usedAttributes : Region → List AttributeKey
  | markup _ => [.logic, .trimmed]
  | script _ => [.ownScope]
  | stylesheet _ => [.scope, .ownScope]
  | code _ | comment _ => []

def elementAttributes : Region → List (Text × Text)
  | script r => r.elementAttributes
  | _ => []

def link? (o : Output) : Region → Option Link
  | comment r => some (r.link o)
  | _ => none

def accept (l : Link) : Region → Compile Region
  | markup r => return markup { r with chain := r.chain.pushLink (← output) l }
  | r => do
    emit (Link.render (← output) [l])
    return r

def elementTerminator : Region → Text
  | code _ => []
  | _ => ";"

end Region
end Patchwork
