import Patchwork.Chain

/-!
# Comments of markup

The content of a comment is not written by the region itself: it becomes a link of the chain around
it.
-/

namespace Patchwork

/-- A comment region. -/
structure Comment where
  chain : Chain
  deriving DecidableEq, Repr

namespace Comment

open Compile

def breakpoints : List Char :=
  ['$', '-']

/-- A region at the cursor. -/
def create : Comment :=
  { chain := { trimmed := false, decode := false } }

/-- Go to the next character that needs a look, and deal with it. -/
def step [Expansion] (r : Comment) : Compile (Comment × Step) := do
  let found ← scan (Scan.find breakpoints false true)
  let chain := r.chain.pushText found.before
  match found.matched with
  | none => return (⟨chain⟩, .eof)
  | some '-' =>
    if ← scan (Scan.readText "->") then return (⟨chain⟩, .close)
    else return (⟨chain.pushText ['-']⟩, .next)
  | some marker => return (⟨← chain.textMarker marker true⟩, .next)

def link (r : Comment) (o : Output) : Link :=
  .grouped .comment ((r.chain.takeValue o).2.getD (Text.quote []))

end Comment
end Patchwork
