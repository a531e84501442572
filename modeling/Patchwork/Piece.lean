import Patchwork.Text.Basic

/-!
# Pieces of a region

The content of a text region is read as pieces: text, expressions, and comments that are carried
through to the output. A `Buffer` holds the pieces read so far, the latest first, and keeps
adjacent texts together in one piece.
-/

namespace Patchwork

/-- Generated code for an expression. -/
structure Expr where
  source : Text
  /-- Does it read a reactive value through the tracker? -/
  reactive : Bool
  deriving DecidableEq, Repr

/-- A piece of a region's content. -/
inductive Piece where
  | text (t : Text)
  | expr (e : Expr)
  | comment (t : Text)
  deriving DecidableEq, Repr

namespace Piece

def isReactive : Piece → Bool
  | expr e => e.reactive
  | _ => false

def isBlank : Piece → Bool
  | text t => Text.allBlank t
  | expr _ => false
  | comment _ => true

def staticText? : List Piece → Option Text
  | [] => some []
  | text t :: ps => (staticText? ps).map (t ++ ·)
  | expr _ :: _ => none
  | comment _ :: ps => staticText? ps

end Piece

/-- The pieces read so far, the latest first. -/
abbrev Buffer := List Piece

namespace Buffer

def pushText (buffer : Buffer) (t : Text) : Buffer :=
  if t.isEmpty then buffer
  else
    match buffer with
    | .text last :: ps => .text (last ++ t) :: ps
    | ps => .text t :: ps

/-- Is the last piece a text that ends in `c`? -/
def endsWith (buffer : Buffer) (c : Char) : Bool :=
  match buffer with
  | .text last :: _ => Text.endsWithChar c last
  | _ => false

def blankEnd : Buffer → Text
  | .text last :: _ => Text.blankEnd last
  | _ => []

/-- Without the blanks at the end of the last piece. -/
def trimEnd : Buffer → Buffer
  | .text last :: ps => .text (Text.trimEnd last) :: ps
  | ps => ps

/-- Without a backslash at the end of the last piece. -/
def unescape (buffer : Buffer) : Buffer :=
  match buffer with
  | .text last :: ps =>
    if Text.endsWithChar '\\' last then .text last.dropLast :: ps else .text last :: ps
  | ps => ps

/-- The pieces in the order they were read. -/
def pieces (buffer : Buffer) : List Piece :=
  buffer.reverse

end Buffer
end Patchwork
