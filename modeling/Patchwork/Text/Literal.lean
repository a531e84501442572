import Patchwork.Text.Basic

/-!
# Literals of the generated code

The two ways a text is written into generated JavaScript: `quote` as a double-quoted string
literal, and `escapeTemplate` as the literal part of a template.
-/

namespace Patchwork.Text

def hexDigit (n : Nat) : Char :=
  if n < 10 then Char.ofNat (48 + n) else Char.ofNat (87 + n)

/-- The low sixteen bits of a number as four hexadecimal digits. -/
def hex4 (n : Nat) : Text :=
  [hexDigit (n / 4096 % 16), hexDigit (n / 256 % 16), hexDigit (n / 16 % 16), hexDigit (n % 16)]

/-- A character inside a double-quoted literal: quotes, backslashes, line terminators and control
characters are escaped. -/
def quoteChar (c : Char) : Text :=
  if c == '\x22' then ['\\', '\x22']
  else if c == '\\' then ['\\', '\\']
  else if c == '\n' then ['\\', 'n']
  else if c == '\r' then ['\\', 'r']
  else if c == '\t' then ['\\', 't']
  else if c == '\u2028' || c == '\u2029' || isControl c then '\\' :: 'u' :: hex4 c.toNat
  else [c]

def quote (t : Text) : Text :=
  '\x22' :: (t.flatMap quoteChar ++ ['\x22'])

/-- A text as the literal part of a template: what would end the template, open a substitution or
start an escape gets a backslash. -/
def escapeTemplate (t : Text) : Text :=
  t.flatMap fun c => if c == '\x60' || c == '$' || c == '\\' then ['\\', c] else [c]

end Patchwork.Text
