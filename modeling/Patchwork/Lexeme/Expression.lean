import Patchwork.Lexeme.Nesting

/-!
# Operands and expressions

`operand` measures one operand at the front of a text, with the member accesses, subscripts and
calls that follow it if they count. `expression` measures a whole expression. An expression ends
before a semicolon, a comma or a closing bracket, at a line break after a complete operand, and
before an operand that merely follows another one: `0 to 10` ends after `0`.
-/

namespace Patchwork.Lexeme

def memberName : Reader := fun position t =>
  if t.head?.any Text.isWordStart then .ok (t.takeWhile Text.isWordChar).length
  else if t.head? == some '[' then group position t
  else .ok 0

/-- The member access, subscript or call at the front; zero if there is none. -/
def link : Reader
  | position, '?' :: '.' :: t => shift 2 (memberName (position + 2) t)
  | position, '.' :: t => shift 1 (memberName (position + 1) t)
  | position, c :: t => if c == '[' || c == '(' then group position (c :: t) else .ok 0
  | _, [] => .ok 0

/-- The member accesses, subscripts and calls at the front, after skipping some characters. `n`
characters have been read. -/
def linksFrom : (position skip n : Nat) → Text → Except Slip Nat
  | _, _, n, [] => .ok n
  | position, skip + 1, n, c :: t => linksFrom (position + c.utf8Size) skip (n + 1) t
  | position, 0, n, c :: t =>
    match link position (c :: t) with
    | .error s => .error (s.after n)
    | .ok 0 => .ok n
    | .ok (k + 1) => linksFrom (position + c.utf8Size) k (n + 1) t

/-- The name, literal or group at the front. Points count as part of a name. -/
def primary : Reader := fun position t =>
  match t with
  | [] => .ok 0
  | c :: _ =>
    if isOpening c then group position t
    else if isQuote c then string position t
    else .ok (t.takeWhile fun c => Text.isWordChar c || c == '.').length

def operand (chained : Bool) : Reader := fun position t => do
  let n ← primary position t
  if chained then
    shift n (linksFrom (position + Text.bytes (t.take n)) 0 0 (t.drop n))
  else return n

def operatorWords : List Text :=
  ["in", "instanceof", "typeof", "new", "delete", "void", "await", "yield", "function", "async"]

/-- The word or number at the front, which begins with a word character. A number is made of ASCII
letters and digits, points and underscores; a word character of another kind that begins no word is
cut after its first byte, and that is inside it. -/
def word (t : Text) : Except Slip Nat :=
  if t.head?.any Text.isWordStart then .ok (t.takeWhile Text.isWordChar).length
  else
    match (t.takeWhile fun c => c.isAlphanum || c == '.' || c == '_').length with
    | 0 => .error ⟨.split, 0⟩
    | n => .ok n

/-- How far an expression has been read. -/
structure Progress where
  /-- The end of the last item that belongs to the expression. -/
  stop : Nat := 0
  afterOperand : Bool := false
  /-- Has there been a line break since then? -/
  newline : Bool := false
  deriving DecidableEq, Repr

/-- Where an expression ends, and where reading it ends: the blanks and comments in between may be
passed over. -/
structure Extent where
  stop : Nat
  passed : Nat
  deriving DecidableEq, Repr

/-- The item at the front of the rest of an expression, and whether it ends an operand. -/
def item (afterOperand : Bool) (position : Nat) (t : Text) : Except Slip (Nat × Bool) :=
  match t with
  | [] => .ok (0, afterOperand)
  | c :: next =>
    if isOpening c then (group position t).map (·, true)
    else if isQuote c then (string position t).map (·, true)
    else if c == '/' && !afterOperand then
      match regex? t with
      | some n => .ok (n, true)
      | none => .ok (1, false)
    else if Text.isWordChar c then
      (word t).map fun n => (n, !operatorWords.contains (t.take n))
    else if (c == '+' || c == '-') && afterOperand && next.head? == some c then .ok (2, true)
    else if c == '=' && next.head? == some '>' then .ok (2, false)
    else .ok (1, false)

/-- Does the character end every expression? -/
def isTerminator (c : Char) : Bool :=
  c == ';' || c == ',' || (opening? c).isSome

/-- Read on in an expression, after skipping some characters. `n` characters have been read. -/
def expressionFrom (p : Progress) : (position skip n : Nat) → Text → Except Slip Extent
  | _, _, n, [] => .ok ⟨p.stop, n⟩
  | position, skip + 1, n, c :: t => expressionFrom p (position + c.utf8Size) skip (n + 1) t
  | position, 0, n, c :: t =>
    if Text.isBlank c then
      expressionFrom { p with newline := p.newline || c == '\n' } (position + c.utf8Size) 0 (n + 1) t
    else
      match comment position (c :: t) with
      | .error s => .error (s.after n)
      | .ok (k + 1) =>
        let newline := p.newline || ((c :: t).take (k + 1)).contains '\n'
        expressionFrom { p with newline } (position + c.utf8Size) k (n + 1) t
      | .ok 0 =>
        if p.afterOperand && p.newline && c != '.' && c != '?' then .ok ⟨p.stop, p.stop⟩
        else if isTerminator c then .ok ⟨p.stop, n⟩
        else
          match item p.afterOperand position (c :: t) with
          | .error s => .error (s.after n)
          | .ok (k, operand) =>
            if Text.isWordChar c && p.afterOperand && p.stop < n && operand then .ok ⟨p.stop, n⟩
            else
              expressionFrom ⟨n + k, operand, false⟩ (position + c.utf8Size) (k - 1) (n + 1) t

def expression (position : Nat) (t : Text) : Except Slip Extent :=
  expressionFrom {} position 0 0 t

end Patchwork.Lexeme
