import Patchwork.Diagnostic

/-!
# Lexemes

A `Reader` measures something at the front of a text: given the text and its position in the
document it says how many characters belong to it. What is read is then that many characters of
the text, so a reader cannot change, drop or add anything. A reader that cannot go on answers with
a `Slip`, which also says how far it had come.

This module measures the lexemes without nesting: comments, regular expressions and blanks. It also
has the rule that tells where an expression may begin.
-/

namespace Patchwork.Lexeme

/-- Why a reader stopped, and how many characters it had passed by then. -/
structure Slip where
  halt : Halt
  passed : Nat
  deriving DecidableEq, Repr

def Slip.after (n : Nat) (s : Slip) : Slip :=
  { s with passed := n + s.passed }

abbrev Reader := (position : Nat) → Text → Except Slip Nat

/-- A reader that was started after some characters. -/
def shift (n : Nat) (r : Except Slip Nat) : Except Slip Nat :=
  (r.map (n + ·)).mapError (Slip.after n)

/-- Does the character begin a string literal or a template? -/
def isQuote (c : Char) : Bool :=
  c == '\x22' || c == '\x27' || c == '\x60'

/-- The comment at the front; zero if there is none. A line comment ends before the line break. -/
def comment : Reader
  | _, '/' :: '/' :: t => .ok (2 + (t.takeWhile (· != '\n')).length)
  | position, '/' :: '*' :: t =>
    match Text.indexOf? "*/" t with
    | some n => .ok (n + 4)
    | none => .error ⟨.fault ⟨.commentOpen, ⟨position, position + 2⟩⟩, 0⟩
  | _, _ => .ok 0

/-- The rest of a regular expression, of which `n` characters have been read. -/
def regexFrom (inClass : Bool) (n : Nat) : Text → Option Nat
  | [] => none
  | '\n' :: _ => none
  | ['\\'] => none
  | '\\' :: _ :: t => regexFrom inClass (n + 2) t
  | '[' :: t => regexFrom true (n + 1) t
  | ']' :: t => regexFrom false (n + 1) t
  | c :: t =>
    if c == '/' && !inClass then some (n + 1 + (t.takeWhile Char.isAlpha).length)
    else regexFrom inClass (n + 1) t

/-- The regular expression with its flags that begins with the slash at the front, unless the line
ends before it does. -/
def regex? (t : Text) : Option Nat :=
  regexFrom false 1 (t.drop 1)

/-- The blanks at the front, and the comments among them if they count, after skipping some
characters. `n` characters have been read. -/
def blanksFrom (comments : Bool) : (position skip n : Nat) → Text → Except Slip Nat
  | _, _, n, [] => .ok n
  | position, skip + 1, n, c :: t => blanksFrom comments (position + c.utf8Size) skip (n + 1) t
  | position, 0, n, c :: t =>
    if Text.isBlank c then blanksFrom comments (position + c.utf8Size) 0 (n + 1) t
    else if comments then
      match comment position (c :: t) with
      | .error s => .error (s.after n)
      | .ok 0 => .ok n
      | .ok (k + 1) => blanksFrom comments (position + c.utf8Size) k (n + 1) t
    else .ok n

def blanks (comments : Bool) : Reader := fun position t =>
  blanksFrom comments position 0 0 t

/-- The words after which an expression may begin. -/
def expressionKeywords : List Text :=
  ["return", "typeof", "instanceof", "in", "of", "new", "delete", "void", "throw", "case", "do",
    "else", "await", "yield"]

/-- May an expression begin after a text, given backwards? Not after an operand, which ends in a
word other than those above, a closing bracket, a point or a quote. -/
def canStartExpression (past : Text) : Bool :=
  match past.dropWhile Text.isBlank with
  | [] => true
  | c :: t =>
    if Text.isWordChar c then
      expressionKeywords.contains ((c :: t).takeWhile Text.isWordChar).reverse
    else !(c == ')' || c == ']' || c == '.' || isQuote c)

def wordBefore? (past : Text) : Option Text :=
  match (past.dropWhile Text.isBlank).takeWhile Text.isWordChar with
  | [] => none
  | w => some w.reverse

end Patchwork.Lexeme
