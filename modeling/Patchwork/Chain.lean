import Patchwork.Code
import Patchwork.Text.Entity
import Patchwork.Text.Literal

/-!
# Chains

The content of a text region becomes one call of the runtime that lists texts, markup and comments:
a chain. Pieces are buffered, joined into one string expression, and committed as a `Link`; at the
end the links are put into one call, with the blanks before and after it left outside.

The module also reads the markers of text: `${e}` inserts an expression, `#{e}` markup, `%{e}` a
value as a string and `@{e}` a value in quotes. A backslash before a marker keeps it as text.
-/

namespace Patchwork

/-- What a link of a chain adds to the document. -/
inductive LinkKind where
  | text | html | comment
  deriving DecidableEq, Repr

def LinkKind.name : LinkKind → Text
  | text => "text"
  | html => "html"
  | comment => "comment"

/-- A part of a chain. -/
inductive Link where
  | blank (t : Text)
  | grouped (kind : LinkKind) (source : Text)
  deriving DecidableEq, Repr

def Link.isBlank : Link → Bool
  | blank _ => true
  | grouped .. => false

namespace Piece

/-- Does the piece contribute to a joined text? -/
def counts : Piece → Bool
  | text t => !t.isEmpty
  | expr _ => true
  | comment _ => false

def template (decode : Text → Text) : Piece → Text
  | text t => Text.escapeTemplate (decode t)
  | expr e => "$\x7b" ++ e.source ++ "\x7d"
  | comment _ => []

def term (decode : Text → Text) : Piece → Text
  | text t => Text.quote (decode t)
  | expr e => '(' :: e.source ++ [')']
  | comment _ => []

/-- Pieces as one string expression of a dialect. There is none when nothing remains of them. -/
def join? (dialect : Dialect) (decode : Bool) (pieces : List Piece) : Option Text :=
  let decode := if decode then Text.decodeEntities else id
  match pieces.filter counts with
  | [] => none
  | pieces =>
    match dialect with
    | .modern => some ('\x60' :: pieces.flatMap (template decode) ++ "`")
    | .legacy => some (Text.join " + " ("\"\"" :: pieces.map (term decode)))

/-- Pieces as one string expression, computed again when a reactive value among them changes. -/
def joinedValue? (o : Output) (decode : Bool) (pieces : List Piece) : Option Text :=
  (join? o.dialect decode pieces).map fun joined =>
    if pieces.any isReactive then o.wrapReactive joined else joined

end Piece

namespace Link

def source (o : Output) : Link → Text
  | blank t => t
  | grouped kind source => ", [" ++ o.feature kind.name ++ ", " ++ source ++ "]"

def blankText : Link → Text
  | blank t => t
  | grouped .. => []

/-- The links from the first that is grouped up to the last. -/
def body (links : List Link) : List Link :=
  ((links.dropWhile isBlank).reverse.dropWhile isBlank).reverse

/-- Links as code: one call with the blanks before and after it outside. -/
def render (o : Output) (links : List Link) : Text :=
  match body links with
  | [] => links.flatMap blankText
  | inside =>
    (links.takeWhile isBlank).flatMap blankText ++
      o.feature "chain" ++ '(' :: o.context ++ inside.flatMap (source o) ++ ");" ++
      (links.reverse.takeWhile isBlank).reverse.flatMap blankText

end Link

/-- The content of a text region that is not in the output yet. -/
structure Chain where
  /-- Is text made of blanks alone kept out of the call? -/
  trimmed : Bool
  /-- Does text have character references? -/
  decode : Bool
  current : Buffer := []
  links : List Link := []
  deriving DecidableEq, Repr

namespace Chain

open Compile

def pushText (chain : Chain) (t : Text) : Chain :=
  { chain with current := chain.current.pushText t }

def pushExpr (chain : Chain) (e : Expr) : Chain :=
  { chain with current := .expr e :: chain.current }

def currentLink? (chain : Chain) (o : Output) : Option Link :=
  match chain.current with
  | [.text t] =>
    if chain.trimmed && Text.allBlank t then some (.blank t)
    else (Piece.joinedValue? o chain.decode [.text t]).map (.grouped .text)
  | current => (Piece.joinedValue? o chain.decode current.pieces).map (.grouped .text)

/-- Make a link of the pieces since the last link. -/
def addCurrent (chain : Chain) (o : Output) : Chain :=
  { chain with current := [], links := chain.links ++ (chain.currentLink? o).toList }

def pushLink (chain : Chain) (o : Output) (link : Link) : Chain :=
  let chain := chain.addCurrent o
  { chain with links := chain.links ++ [link] }

/-- Move everything to the output. -/
def flush (chain : Chain) : Compile Chain := do
  let o ← output
  let chain := chain.addCurrent o
  emit (Link.render o chain.links)
  return { chain with links := [] }

/-- Take the pieces since the last link as one string expression. -/
def takeValue (chain : Chain) (o : Output) : Chain × Option Text :=
  ({ chain with current := [] }, Piece.joinedValue? o chain.decode chain.current.pieces)

end Chain

open Compile

def readMarker [Expansion] (marker : Char) (tracked : Bool) : Compile Expr := do
  let start ← position
  let inner ← scan Scan.readEnclosed
  let e ← Expansion.expand .marker inner (start + 1) tracked
  let o ← output
  if marker == '%' then return { e with source := o.feature "stringify" ++ '(' :: e.source ++ [')'] }
  else if marker == '@' then return { e with source := o.feature "quote" ++ '(' :: e.source ++ [')'] }
  else return e

def Chain.textMarker [Expansion] (chain : Chain) (marker : Char) (tracked : Bool) :
    Compile Chain := do
  if (← cursor).peek? != some '{' then return chain.pushText [marker]
  else if chain.current.endsWith '\\' then
    return { chain with current := chain.current.unescape.pushText [marker] }
  else
    let e ← readMarker marker tracked
    if marker == '#' then
      let o ← output
      let source := if e.reactive then o.wrapReactive e.source else e.source
      return chain.pushLink o (.grouped .html source)
    else return chain.pushExpr e

end Patchwork
