import Patchwork.Statement.Tracker

/-!
# Text regions

The content of elements: text with markers and, in `html` regions, with child elements, character
references and comments. In `css` regions the text is kept as it is. Statements are recognized where
the region's attributes say so.
-/

namespace Patchwork

/-- A text region. -/
structure Markup where
  chain : Chain
  statements : Option Tracker
  /-- Do tags begin child elements? -/
  children : Bool
  deriving DecidableEq, Repr

namespace Markup

open Compile

/-- The characters that need a look in text, those of statements aside. -/
def breakpoints : List Char :=
  ['<', '$', '#', '%', '@']

/-- A region at the cursor. Character references count where there are child elements. -/
def create (children : Bool) (attributes : Attributes) : Compile Markup := do
  let regionStart ← position
  return { chain := { trimmed := attributes.trimmed, decode := children }
           statements := if attributes.logic then some { regionStart, wraps := true } else none
           children }

variable [Expansion] [Editor]

def trackStatement (r : Markup) (statements : Tracker) (c : Char) : Compile Markup := do
  let at_ ← position
  let (statements, chain, closed) ← statements.dispatch r.chain c
  if closed == some .stray then
    if (← get).settings.warnFallbacks then warn (.strayBrace true) ⟨at_, at_ + 1⟩
  return { r with chain, statements := some statements }

def character (r : Markup) (c : Char) : Compile (Markup × Step) := do
  discard <| scan Scan.read
  if c != '<' then return ({ r with chain := ← r.chain.textMarker c true }, .next)
  match TagStart.ofText (← cursor).rest, r.children with
  | .element, true => return ({ r with chain := ← r.chain.flush }, .child)
  | .comment, true => return ({ r with chain := r.chain.addCurrent (← output) }, .child)
  | .closing, _ => return (r, .close)
  | _, _ => return ({ r with chain := r.chain.pushText ['<'] }, .next)

/-- Go to the next character that needs a look, and deal with it. -/
def step (r : Markup) : Compile (Markup × Step) := do
  let extra := (r.statements.map Tracker.breakpoints).getD []
  let found ← scan (Scan.find (breakpoints ++ extra) false false)
  let r := { r with chain := r.chain.pushText found.before }
  match found.matched, r.statements with
  | none, _ => return (r, .eof)
  | some c, some statements =>
    if statements.handles c then return (← r.trackStatement statements c, .next) else r.character c
  | some c, none => r.character c

/-- End the region. -/
def finish (r : Markup) : Compile Unit := do
  let _ ← r.chain.flush
  match r.statements with
  | some statements => discard statements.finish
  | none => pure ()

end Markup
end Patchwork
