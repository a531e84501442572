import Patchwork.Text.Class

/-!
# Text

Documents, fragments and generated code are lists of characters. Places in a document are counted
in the bytes of its UTF-8 form, so `bytes` measures a text and `cut?` divides one at a byte offset;
`cut?` has no answer for an offset that falls inside a character.

The other operations are the ones the grammars are written with: trimming, searching, splitting,
and looking at the word a text ends in.
-/

namespace Patchwork

/-- A document, a fragment of one, or generated code. -/
abbrev Text := List Char

instance : Coe String Text := ⟨String.toList⟩

namespace Text

/-- The length of the UTF-8 form. -/
def bytes : Text → Nat
  | [] => 0
  | c :: t => c.utf8Size + bytes t

/-- Divide a text at a byte offset. There is no answer inside a character or past the end. -/
def cut? : Nat → Text → Option (Text × Text)
  | 0, t => some ([], t)
  | _ + 1, [] => none
  | n + 1, c :: t =>
    if c.utf8Size ≤ n + 1 then
      (cut? (n + 1 - c.utf8Size) t).map fun p => (c :: p.1, p.2)
    else none

/-- The text before a byte offset; an offset past the end stands for the end. -/
def before? (n : Nat) (t : Text) : Option Text :=
  (cut? (min n (bytes t)) t).map Prod.fst

/-- The text between two byte offsets, each past the end standing for the end. There is no answer
when an offset falls inside a character or the first lies beyond the second. -/
def slice? (a b : Nat) (t : Text) : Option Text := do
  let (front, _) ← cut? (min b (bytes t)) t
  let (_, middle) ← cut? (min a (bytes t)) front
  return middle

/-- Without the blanks at the front. -/
def trimStart (t : Text) : Text :=
  t.dropWhile isBlank

def trimEnd (t : Text) : Text :=
  (t.reverse.dropWhile isBlank).reverse

def blankEnd (t : Text) : Text :=
  (t.reverse.takeWhile isBlank).reverse

/-- Without the blanks at both ends. -/
def trim (t : Text) : Text :=
  trimEnd (trimStart t)

def allBlank (t : Text) : Bool :=
  t.all isBlank

/-- Does the text begin with `p`? -/
def startsWith (p t : Text) : Bool :=
  p.isPrefixOf t

/-- Does the text end with `p`? -/
def endsWith (p t : Text) : Bool :=
  p.isSuffixOf t

/-- Is the text's last character `c`? -/
def endsWithChar (c : Char) (t : Text) : Bool :=
  t.getLast? == some c

/-- What follows `p` at the front of a text. -/
def after? (p t : Text) : Option Text :=
  if startsWith p t then some (t.drop p.length) else none

/-- Does the text begin with the whole word `w`, not followed by a word character? -/
def startsWithWord (w t : Text) : Bool :=
  startsWith w t && !(t.drop w.length).head?.any isWordChar

/-- How many characters stand before the first occurrence of `p`. -/
def indexOf? (p : Text) : Text → Option Nat
  | [] => if p.isEmpty then some 0 else none
  | c :: t => if startsWith p (c :: t) then some 0 else (indexOf? p t).map (· + 1)

/-- Does `p` occur in the text? -/
def holds (p t : Text) : Bool :=
  (indexOf? p t).isSome

/-- The parts between the occurrences of a separator; there is always at least one. -/
def splitOn (sep : Char) : Text → List Text
  | [] => [[]]
  | c :: t =>
    if c == sep then [] :: splitOn sep t
    else
      match splitOn sep t with
      | [] => [[c]]
      | l :: ls => (c :: l) :: ls

/-- The parts around the first occurrence of a separator. -/
def splitOnce? (sep : Char) (t : Text) : Option (Text × Text) :=
  if t.contains sep then
    some (t.takeWhile (· != sep), (t.dropWhile (· != sep)).drop 1)
  else none

/-- The parts put together with a separator between them. -/
def join (sep : Text) (parts : List Text) : Text :=
  List.intercalate sep parts

/-- Every `c` replaced by a text. -/
def replaceChar (c : Char) (by_ : Text) (t : Text) : Text :=
  t.flatMap fun d => if d == c then by_ else [d]

def lastLine (t : Text) : Text :=
  (t.reverse.takeWhile (· != '\n')).reverse

def lastWord (t : Text) : Text :=
  (t.reverse.takeWhile isWordChar).reverse

/-- Without the run of word characters at the end. -/
def dropLastWord (t : Text) : Text :=
  (t.reverse.dropWhile isWordChar).reverse

/-- Without the bracket or quote at either end, which is one byte. There is no answer when there are
not two of them. -/
def inner? (t : Text) : Option Text :=
  if bytes t < 2 then none else slice? 1 (bytes t - 1) t

def ofNat (n : Nat) : Text :=
  Nat.toDigits 10 n

end Text
end Patchwork
