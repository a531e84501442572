import Patchwork.Lexeme.Basic

/-!
# Strings and bracketed groups

Strings, templates and bracketed groups nest in each other: a group may hold strings and comments,
and a template may hold groups. `nested` follows all of them at once. It keeps a stack of layers,
one for each construct that is open, and takes one or two characters at a time until the stack is
empty. `string` and `group` start it at a quote and at a bracket.
-/

namespace Patchwork.Lexeme

/-- A construct that is open, with the position of its first character. -/
inductive Layer where
  | bracket (opened : Char) (position : Nat)
  | quoted (quote : Char) (position : Nat)
  | lineComment
  | blockComment (position : Nat) (before : Nat)
  deriving DecidableEq, Repr

def Layer.isBracket : Layer → Bool
  | bracket .. => true
  | _ => false

def isOpening (c : Char) : Bool :=
  c == '(' || c == '[' || c == '{'

def opening? (c : Char) : Option Char :=
  if c == ')' then some '('
  else if c == ']' then some '['
  else if c == '}' then some '{'
  else none

/-- A group that the text ends in is reported by the first of its brackets. -/
def groupOpen (layers : List Layer) : Fault :=
  match (layers.takeWhile Layer.isBracket).getLast? with
  | some (.bracket c position) => ⟨.bracketOpen c, ⟨position, position + 1⟩⟩
  | _ => ⟨.bracketOpen '(', ⟨0, 1⟩⟩

/-- What is wrong when the text ends with layers open, of which `n` characters have been read. -/
def endOpen (n : Nat) : List Layer → Slip
  | .quoted _ position :: _ => ⟨.fault ⟨.stringOpen, ⟨position, position + 1⟩⟩, n⟩
  | .blockComment position before :: _ => ⟨.fault ⟨.commentOpen, ⟨position, position + 2⟩⟩, before⟩
  | .lineComment :: layers => ⟨.fault (groupOpen layers), n⟩
  | layers => ⟨.fault (groupOpen layers), n⟩

/-- Read until no layer is open any more; `n` characters have been read. In a string a backslash
takes the next character with it, and a line break ends nothing but a template survives it. -/
def nested : (layers : List Layer) → (position n : Nat) → Text → Except Slip Nat
  | [], _, n, _ => .ok n
  | layers, _, n, [] => .error (endOpen n layers)
  | .quoted q start :: layers, position, n, c :: t =>
    if c == '\\' then
      match t with
      | [] => nested (.quoted q start :: layers) (position + 1) (n + 1) []
      | d :: t => nested (.quoted q start :: layers) (position + 1 + d.utf8Size) (n + 2) t
    else if c == '\n' && q != '\x60' then
      .error ⟨.fault ⟨.stringOpen, ⟨start, position + 1⟩⟩, n + 1⟩
    else if c == '$' && q == '\x60' then
      match t with
      | '{' :: t =>
        nested (.bracket '{' (position + 1) :: .quoted q start :: layers) (position + 2) (n + 2) t
      | t => nested (.quoted q start :: layers) (position + 1) (n + 1) t
    else if c == q then nested layers (position + c.utf8Size) (n + 1) t
    else nested (.quoted q start :: layers) (position + c.utf8Size) (n + 1) t
  | .bracket b start :: layers, position, n, c :: t =>
    if isOpening c then
      nested (.bracket c position :: .bracket b start :: layers) (position + 1) (n + 1) t
    else
      match opening? c with
      | some o =>
        if o == b then nested layers (position + 1) (n + 1) t
        else .error ⟨.fault ⟨.bracketUnexpected c, ⟨position, position + 1⟩⟩, n⟩
      | none =>
        if isQuote c then
          nested (.quoted c position :: .bracket b start :: layers) (position + 1) (n + 1) t
        else if c == '/' then
          match t with
          | '/' :: t =>
            nested (.lineComment :: .bracket b start :: layers) (position + 2) (n + 2) t
          | '*' :: t =>
            nested (.blockComment position n :: .bracket b start :: layers) (position + 2) (n + 2) t
          | t => nested (.bracket b start :: layers) (position + 1) (n + 1) t
        else nested (.bracket b start :: layers) (position + c.utf8Size) (n + 1) t
  | .lineComment :: layers, position, n, c :: t =>
    if c == '\n' then nested layers (position + 1) (n + 1) t
    else nested (.lineComment :: layers) (position + c.utf8Size) (n + 1) t
  | .blockComment start before :: layers, position, n, c :: t =>
    if c == '*' then
      match t with
      | '/' :: t => nested layers (position + 2) (n + 2) t
      | t => nested (.blockComment start before :: layers) (position + 1) (n + 1) t
    else nested (.blockComment start before :: layers) (position + c.utf8Size) (n + 1) t

/-- The string or template at the front. Its first character is its quote, whatever it is. -/
def string : Reader
  | _, [] => .ok 0
  | position, c :: t => nested [.quoted c position] (position + c.utf8Size) 1 t

/-- The bracketed group at the front. Where there is no bracket it is one string, comment or
character. -/
def group : Reader
  | position, [] => .error ⟨.fault ⟨.bracketOpen '(', ⟨position, position + 1⟩⟩, 0⟩
  | position, c :: t =>
    if isOpening c then nested [.bracket c position] (position + 1) 1 t
    else if (opening? c).isSome then
      .error ⟨.fault ⟨.bracketUnexpected c, ⟨position, position + 1⟩⟩, 0⟩
    else if isQuote c then string position (c :: t)
    else
      match comment position (c :: t) with
      | .ok 0 => .ok 1
      | r => r

end Patchwork.Lexeme
