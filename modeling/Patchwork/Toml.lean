import Patchwork.Text.Digits

/-!
# TOML

`Toml.parse?` reads the part of TOML that settings are written in: lines `key = value` whose values
are strings in all four forms, truth values, whole numbers, arrays and inline tables. There is no
answer for a text that is not of this form; sections, dotted keys, fractions and dates are left out.

The readers of this module take a text and give what they have read with the rest of the text.
-/

namespace Patchwork

/-- A value of a TOML document. -/
inductive Toml where
  | string (t : Text)
  | boolean (b : Bool)
  | integer (n : Int)
  | array (values : List Toml)
  | table (entries : List (Text × Toml))
  deriving Repr

namespace Toml

/-- Keys and their values, in the order they are written. No key stands twice. -/
abbrev Table := List (Text × Toml)

/-- Add an entry, unless its key is there already. -/
def insert? (table : Table) (key : Text) (value : Toml) : Option Table :=
  if table.any (·.1 == key) then none else some (table ++ [(key, value)])

/-- May the character stand in a comment and, unless it is a quote, in a string? These are all
characters but controls; the tab is no control here. -/
def isPlain (c : Char) : Bool :=
  c == '\t' || (32 ≤ c.toNat && c.toNat != 127)

def isSpace (c : Char) : Bool :=
  c == ' ' || c == '\t'

/-- Without blanks at the front. -/
def skipSpace (t : Text) : Text :=
  t.dropWhile isSpace

/-- What follows a line break. -/
def newline? : Text → Option Text
  | '\n' :: t => some t
  | '\r' :: '\n' :: t => some t
  | _ => none

/-- Without blanks, line breaks and comments at the front. -/
def skipLines : (inComment : Bool) → Text → Text
  | _, [] => []
  | inComment, c :: t =>
    if c == '\n' then skipLines false t
    else if c == '\r' && t.head? == some '\n' then skipLines inComment t
    else if inComment && isPlain c then skipLines true t
    else if inComment then c :: t
    else if isSpace c then skipLines false t
    else if c == '#' then skipLines true t
    else c :: t

def endLine? (t : Text) : Option Text :=
  let t := skipSpace t
  let t := if t.head? == some '#' then t.dropWhile isPlain else t
  if t.isEmpty then some [] else newline? t

def scalar? (digits : Text) : Option Char := do
  let n ← Text.numeral? 16 digits
  if n < 0xd800 || (0xdfff < n && n ≤ 0x10ffff) then some (Char.ofNat n) else none

/-- The character that an escape stands for, and how many characters the escape has after its
backslash. -/
def escape? : Text → Option (Char × Nat)
  | 'b' :: _ => some ('\x08', 1)
  | 't' :: _ => some ('\t', 1)
  | 'n' :: _ => some ('\n', 1)
  | 'f' :: _ => some ('\x0c', 1)
  | 'r' :: _ => some ('\r', 1)
  | '\x22' :: _ => some ('\x22', 1)
  | '\\' :: _ => some ('\\', 1)
  | 'u' :: t => if t.length < 4 then none else (scalar? (t.take 4)).map (·, 5)
  | 'U' :: t => if t.length < 8 then none else (scalar? (t.take 8)).map (·, 9)
  | _ => none

/-- How many blanks and line breaks stand at the front. -/
def blankLines : Text → Nat
  | [] => 0
  | c :: t =>
    if isSpace c || c == '\n' || (c == '\r' && t.head? == some '\n') then blankLines t + 1 else 0

/-- How many characters a backslash at the end of a line takes out: the rest of the line and all
blanks that follow. -/
def continuation? (t : Text) : Option Nat :=
  if (newline? (skipSpace t)).isSome then some (blankLines t) else none

/-- Read a string up to its closing quote, after skipping some characters. A string of several lines
ends with three quotes, and may have two more before them. Only in double quotes there are
escapes. -/
def quoted? (quote : Char) (multiline : Bool) (read : Text) :
    (skip : Nat) → Text → Option (Text × Text)
  | _, [] => none
  | skip + 1, _ :: t => quoted? quote multiline read skip t
  | 0, c :: t =>
    if c == quote then
      if multiline then
        let quotes := (t.takeWhile (· == quote)).length + 1
        if quotes < 3 then quoted? quote multiline (quote :: read) 0 t
        else
          let quotes := min quotes 5
          some (read.reverse ++ List.replicate (quotes - 3) quote, t.drop (quotes - 1))
      else some (read.reverse, t)
    else if c == '\\' && quote == '\x22' then
      match if multiline then continuation? t else none with
      | some n => quoted? quote multiline read n t
      | none =>
        match escape? t with
        | some (d, n) => quoted? quote multiline (d :: read) n t
        | none => none
    else if isPlain c || (multiline && c == '\n') then quoted? quote multiline (c :: read) 0 t
    else if multiline && c == '\r' && t.head? == some '\n' then quoted? quote multiline read 0 t
    else none

/-- Read a string. A line break right after three quotes does not belong to it. -/
def string? : Text → Option (Text × Text)
  | '\x22' :: '\x22' :: '\x22' :: t => quoted? '\x22' true [] 0 ((newline? t).getD t)
  | '\x27' :: '\x27' :: '\x27' :: t => quoted? '\x27' true [] 0 ((newline? t).getD t)
  | '\x22' :: t => quoted? '\x22' false [] 0 t
  | '\x27' :: t => quoted? '\x27' false [] 0 t
  | _ => none

def isKeyChar (c : Char) : Bool :=
  c.isAlphanum || c == '_' || c == '-'

def key? : Text → Option (Text × Text)
  | '\x22' :: t => quoted? '\x22' false [] 0 t
  | '\x27' :: t => quoted? '\x27' false [] 0 t
  | t =>
    let key := t.takeWhile isKeyChar
    if key.isEmpty then none else some (key, t.drop key.length)

/-- Read the equals sign between a key and its value. -/
def equals? (t : Text) : Option Text :=
  match skipSpace t with
  | '=' :: t => some (skipSpace t)
  | _ => none

def digits? (base : Nat) (t : Text) : Option Nat :=
  let groups := Text.splitOn '_' t
  if groups.any List.isEmpty then none else Text.numeral? base groups.flatten

/-- The whole number a word writes. A number in decimal may have a sign and has no needless zero in
front. -/
def integerOf? : Text → Option Int
  | '0' :: 'x' :: t => (digits? 16 t).map Int.ofNat
  | '0' :: 'o' :: t => (digits? 8 t).map Int.ofNat
  | '0' :: 'b' :: t => (digits? 2 t).map Int.ofNat
  | t =>
    let sign := t.takeWhile fun c => c == '+' || c == '-'
    let body := t.drop sign.length
    if 1 < sign.length || (body.head? == some '0' && body != ['0']) then none
    else (digits? 10 body).map fun n => if sign == ['-'] then -Int.ofNat n else Int.ofNat n

/-- A truth value, or a whole number that fits into 64 bits. -/
def word? (word : Text) : Option Toml :=
  if word == "true" then some (.boolean true)
  else if word == "false" then some (.boolean false)
  else
    match integerOf? word with
    | some n =>
      if -9223372036854775808 ≤ n && n ≤ 9223372036854775807 then some (.integer n) else none
    | none => none

/-- May the character stand in a number or a truth value? -/
def isWordChar (c : Char) : Bool :=
  isKeyChar c || c == '+' || c == '.' || c == ':'

/-- Read a value that holds no other values. -/
def atom? (t : Text) : Option (Toml × Text) :=
  match string? t with
  | some (s, t) => some (.string s, t)
  | none =>
    let word := t.takeWhile isWordChar
    (word? word).map (·, t.drop word.length)

mutual

/-- Read a value. Fuel is taken for every value and every entry, so the length of the text is
enough. -/
def value? : (fuel : Nat) → Text → Option (Toml × Text)
  | 0, _ => none
  | fuel + 1, t =>
    match t with
    | '[' :: t => elements? fuel [] (skipLines false t)
    | '{' :: t =>
      match skipSpace t with
      | '}' :: t => some (.table [], t)
      | t => entries? fuel [] t
    | t => atom? t

/-- Read the rest of an array, of which some values have been read. A comma may stand after the
last. -/
def elements? : (fuel : Nat) → List Toml → Text → Option (Toml × Text)
  | 0, _, _ => none
  | fuel + 1, read, t =>
    match t with
    | ']' :: t => some (.array read, t)
    | t => do
      let (value, t) ← value? fuel t
      match skipLines false t with
      | ',' :: t => elements? fuel (read ++ [value]) (skipLines false t)
      | ']' :: t => some (.array (read ++ [value]), t)
      | _ => none

def entries? : (fuel : Nat) → Table → Text → Option (Toml × Text)
  | 0, _, _ => none
  | fuel + 1, read, t => do
    let (key, t) ← key? t
    let (value, t) ← value? fuel (← equals? t)
    let read ← insert? read key value
    match skipSpace t with
    | ',' :: t => entries? fuel read (skipSpace t)
    | '}' :: t => some (.table read, t)
    | _ => none

end

/-- Read lines, of which some have been read. -/
def lines? : (fuel : Nat) → Table → Text → Option Table
  | 0, _, _ => none
  | fuel + 1, read, t =>
    match skipLines false t with
    | [] => some read
    | t => do
      let (key, t) ← key? t
      let t ← equals? t
      let (value, t) ← value? (t.length + 1) t
      lines? fuel (← insert? read key value) (← endLine? t)

/-- Read a document. A byte order mark at its front does not count. -/
def parse? (t : Text) : Option Table :=
  let t := (Text.after? ['\ufeff'] t).getD t
  lines? (t.length + 1) [] t

/-! ## Access -/

def text? : Toml → Option Text
  | string t => some t
  | _ => none

/-- The truth value. -/
def bool? : Toml → Option Bool
  | boolean b => some b
  | _ => none

def nat? : Toml → Option Nat
  | integer n => if n < 0 then none else some n.toNat
  | _ => none

/-- The values of an array, each read in the same way. -/
def list? {α : Type} (item : Toml → Option α) : Toml → Option (List α)
  | array values => values.mapM item
  | _ => none

def onlyKeys (table : Table) (keys : List Text) : Bool :=
  table.all fun (key, _) => keys.contains key

/-- An entry that may be missing. There is no answer if it is there and cannot be read. -/
def optional? {α : Type} (table : Table) (key : Text) (item : Toml → Option α) :
    Option (Option α) :=
  match table.lookup key with
  | some value => (item value).map some
  | none => some none

/-- An entry that must be there. -/
def required? {α : Type} (table : Table) (key : Text) (item : Toml → Option α) : Option α :=
  (table.lookup key).bind item

end Toml
end Patchwork
