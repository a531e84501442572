import Patchwork.Chain

/-!
# Script regions

The content of a script element is kept as text. Markers are expanded without the tracker. A script
with a scope of its own runs with its parent element as `this`, which it finds by a class that its
element is given.
-/

namespace Patchwork

/-- A script region. -/
structure Script where
  chain : Chain
  scopeClass : Option Text
  deriving DecidableEq, Repr

namespace Script

open Compile

def breakpoints : List Char :=
  ['<', '$', '%', '@']

/-- A region at the cursor. -/
def create (attributes : Attributes) : Compile Script := do
  let scopeClass ←
    if attributes.ownScope then
      pure (some ("script" ++ Text.ofNat (← onOutput Output.freshId)))
    else pure none
  return { chain := { trimmed := false, decode := false }, scopeClass }

/-- Write the front of the region. -/
def start (r : Script) : Script :=
  if r.scopeClass.isSome then { r with chain := r.chain.pushText "!function()\x7b" } else r

/-- Go to the next character that needs a look, and deal with it. -/
def step [Expansion] (r : Script) : Compile (Script × Step) := do
  let found ← scan (Scan.find breakpoints false true)
  let chain := r.chain.pushText found.before
  match found.matched with
  | none => return ({ r with chain }, .eof)
  | some '<' =>
    if TagStart.ofText (← cursor).rest == .closing then return ({ r with chain }, .close)
    else return ({ r with chain := chain.pushText ['<'] }, .next)
  | some marker => return ({ r with chain := ← chain.textMarker marker false }, .next)

/-- End the region. -/
def finish (r : Script) : Compile Unit := do
  let chain :=
    match r.scopeClass with
    | some name =>
      r.chain.pushText ("\x7d.call(document.querySelector(\"." ++ name ++ "\").parentNode)")
    | none => r.chain
  discard chain.flush

def elementAttributes (r : Script) : List (Text × Text) :=
  match r.scopeClass with
  | some name => [("class", '\x22' :: name ++ ['\x22'])]
  | none => []

end Script
end Patchwork
