import Patchwork.Proofs.ValueReading

/-!
# Rendered arithmetic

The body of a callback that computes a value is script code, and a script is divided into lexemes by
the rule that the longest one counts: `--` is one operator and not two signs. `ScriptLexer.lex` reads
code by this rule, as far as names, numbers, strings, comments and punctuators go. The source of a
running operand stands in the code as it is given and is not looked into.

`Calc.render` puts texts together without looking at what they begin and end with. A binary operator
has blanks around it, but a sign has none. So the code of a calculation has the lexemes of its tree
exactly if no sign is written directly before a minus (`rendered_lexemes_iff`). A minus comes first in
the text of another sign and in the text of a negative number without a unit.
-/

namespace Patchwork

open List hiding lex

namespace ScriptLexer

/-! ## Lexemes -/

/-- A character of code, or code that is given and not looked into. -/
inductive Glyph where
  | char (c : Char)
  | given (code : Text)
  deriving DecidableEq, Repr

def Glyph.text : Glyph → Text
  | char c => [c]
  | given code => code

def chars (t : Text) : List Glyph :=
  t.map .char

/-- The characters before the next code that is given. -/
def ahead : List Glyph → Text
  | .char c :: gs => c :: ahead gs
  | _ => []

/-- A lexeme, with its text. -/
inductive Lexeme where
  | word (t : Text)
  | numeral (t : Text)
  | literal (t : Text)
  | punctuator (t : Text)
  | comment (t : Text)
  | given (code : Text)
  deriving DecidableEq, Repr

namespace Lexeme

def text : Lexeme → Text
  | word t | numeral t | literal t | punctuator t | comment t | given t => t

/-- Does an operand end after the lexeme? `after` says whether one ends before it. -/
def endsOperand (after : Bool) : Lexeme → Bool
  | word _ | numeral _ | literal _ | given _ => true
  | punctuator t => t == [')'] || t == [']'] || t == ['}']
  | comment _ => after

end Lexeme

/-- May the character stand in a name? Beyond ASCII every character may that is no blank. -/
def isNameChar (c : Char) : Bool :=
  c.isAlphanum || c == '_' || c == '$' || (128 ≤ c.toNat && !Text.isBlank c)

def isNameStart (c : Char) : Bool :=
  isNameChar c && !c.isDigit

def isName (t : Text) : Bool :=
  t.head?.any isNameStart && t.all isNameChar

def punctuators : List Text :=
  [">>>=", "...", "===", "!==", "**=", "<<=", ">>=", ">>>", "&&=", "||=", "??=", "=>", "==", "!=",
    "<=", ">=", "&&", "||", "??", "?.", "++", "--", "+=", "-=", "*=", "/=", "%=", "&=", "|=", "^=",
    "<<", ">>", "**", "\x7b", "\x7d", "(", ")", "[", "]", ";", ",", "<", ">", "+", "-", "*", "/", "%", "&",
    "|", "^", "!", "~", "?", ":", "=", "."].map String.toList

/-- Does the text begin with the punctuator? A digit after `?.` makes it a question mark. -/
def begins (t p : Text) : Bool :=
  Text.startsWith p t && !(p == ['?', '.'] && (t.drop 2).head?.any Char.isDigit)

def punctuator? (t : Text) : Option Text :=
  punctuators.find? (begins t)

variable {t : Text} {c : Char}

def numeralText (t : Text) : Text :=
  match t.dropWhile Char.isDigit with
  | '.' :: u => t.takeWhile Char.isDigit ++ '.' :: u.takeWhile Char.isDigit
  | _ => t.takeWhile Char.isDigit

/-- The decimal number at the front of a text, if no name begins directly after it. -/
def numeral? (t : Text) : Option Text :=
  if (t.drop (numeralText t).length).head?.any isNameChar then none else some (numeralText t)

/-- The rest of a string literal up to its quote. -/
def literal? (q : Char) : Text → Option Text
  | [] => none
  | '\\' :: c :: t => (literal? q t).map fun u => '\\' :: c :: u
  | c :: t =>
    if c == q then some [c] else if c == '\n' then none else (literal? q t).map (c :: ·)

/-- The lexeme at the front of a text. A slash divides only after an operand. There is no answer for
regular expressions, templates and anything that begins no lexeme. -/
def lexeme? (after : Bool) : Text → Option Lexeme
  | [] => none
  | c :: t =>
    if isNameStart c then some (.word (c :: t.takeWhile isNameChar))
    else if c.isDigit || c == '.' && t.head?.any Char.isDigit then (numeral? (c :: t)).map .numeral
    else if c == '\x22' || c == '\x27' then (literal? c t).map fun u => .literal (c :: u)
    else if Text.startsWith "//" (c :: t) then some (.comment ((c :: t).takeWhile (· != '\n')))
    else if Text.startsWith "/*" (c :: t) then
      (Text.indexOf? "*/" (t.drop 1)).map fun n => .comment ((c :: t).take (n + 4))
    else if c == '/' && !after then none
    else (punctuator? (c :: t)).map .punctuator

def lexFrom (after : Bool) : (skip : Nat) → List Glyph → Option (List Lexeme)
  | _, [] => some []
  | skip + 1, _ :: gs => lexFrom after skip gs
  | 0, .given code :: gs => (lexFrom true 0 gs).map (.given code :: ·)
  | 0, .char c :: gs =>
    if Text.isBlank c then lexFrom after 0 gs
    else (lexeme? after (c :: ahead gs)).bind fun l =>
      (lexFrom (l.endsOperand after) (l.text.length - 1) gs).map (l :: ·)

def lex (gs : List Glyph) : Option (List Lexeme) :=
  lexFrom false 0 gs

/-! ## Reading one lexeme -/

variable {after : Bool} {gs : List Glyph}

theorem ahead_chars (t : Text) (gs : List Glyph) : ahead (chars t ++ gs) = t ++ ahead gs := by
  induction t with
  | nil => rfl
  | cons c t ih => exact congrArg (c :: ·) ih

theorem lexFrom_skip (after : Bool) (t : Text) (gs : List Glyph) :
    lexFrom after t.length (chars t ++ gs) = lexFrom after 0 gs := by
  induction t with
  | nil => rfl
  | cons c t ih => exact ih

theorem lexFrom_blank (hc : Text.isBlank c = true) :
    lexFrom after 0 (.char c :: gs) = lexFrom after 0 gs := by
  rw [lexFrom, if_pos hc]

theorem lexFrom_lexeme {l : Lexeme} (hl : l.text = c :: t) (hc : Text.isBlank c = false)
    (hread : lexeme? after (c :: (t ++ ahead gs)) = some l) :
    lexFrom after 0 (chars (c :: t) ++ gs) =
      (lexFrom (l.endsOperand after) 0 gs).map (l :: ·) := by
  show lexFrom after 0 (.char c :: (chars t ++ gs)) = _
  rw [lexFrom, if_neg (Bool.eq_false_iff.mp hc), ahead_chars, hread, Option.bind_some, hl,
    length_cons, Nat.add_sub_cancel, lexFrom_skip]

/-- The text that follows does not go on a name or a number: a blank or a parenthesis comes first. -/
def Ends (t : Text) : Prop :=
  ∀ c ∈ t.head?, c = ' ' ∨ c = ')'

theorem ends_nil : Ends [] := nofun

theorem ends_blank (gs : List Glyph) : Ends (ahead (.char ' ' :: gs)) := by
  rintro c ⟨⟩
  exact .inl rfl

theorem Ends.any_eq_false (h : Ends t) {p : Char → Bool} (hblank : p ' ' = false)
    (hclose : p ')' = false) : t.head?.any p = false := by
  cases t with
  | nil => rfl
  | cons c t =>
    rcases h c rfl with rfl | rfl
    · exact hblank
    · exact hclose

theorem takeWhile_append_of_head {p : Char → Bool} {u : Text} (ht : t.all p = true)
    (hu : u.head?.any p = false) : (t ++ u).takeWhile p = t := by
  rw [takeWhile_append_of_pos (all_eq_true.mp ht)]
  cases u with
  | nil => exact append_nil t
  | cons c u =>
    have hc : ¬ p c = true := Bool.eq_false_iff.mp hu
    rw [takeWhile_cons_of_neg hc, append_nil]

theorem isBlank_of_isNameChar (h : isNameChar c = true) : Text.isBlank c = false := by
  rcases Bool.or_eq_true_iff.mp h with h | h
  · rcases Bool.or_eq_true_iff.mp h with h | h
    · rcases Bool.or_eq_true_iff.mp h with h | h
      · exact Style.isBlank_of_isWordPart (Bool.or_eq_true_iff.mpr (.inl h))
      · rw [eq_of_beq h]
        decide
    · rw [eq_of_beq h]
      decide
  · exact (Bool.not_eq_true' _).mp (Bool.and_eq_true_iff.mp h).2

theorem lexFrom_name (ht : isName t = true) (hgs : (ahead gs).head?.any isNameChar = false) :
    lexFrom after 0 (chars t ++ gs) = (lexFrom true 0 gs).map (.word t :: ·) := by
  cases t with
  | nil => cases ht
  | cons c t =>
    obtain ⟨hstart, hall⟩ := Bool.and_eq_true_iff.mp ht
    obtain ⟨hc, ht⟩ := Bool.and_eq_true_iff.mp hall
    have hstart : isNameStart c = true := hstart
    refine lexFrom_lexeme rfl (isBlank_of_isNameChar hc) ?_
    rw [lexeme?, if_pos hstart, takeWhile_append_of_head ht hgs]

/-- A decimal number: digits, or digits around a point. -/
inductive IsDecimal : Text → Prop where
  | whole {ds : Text} : ds ≠ [] → ds.all Char.isDigit = true → IsDecimal ds
  | point {ds es : Text} : ds ≠ [] → ds.all Char.isDigit = true → es.all Char.isDigit = true →
    IsDecimal (ds ++ '.' :: es)

theorem numeralText_append {u : Text} (ht : IsDecimal t) (hu : Ends u) :
    numeralText (t ++ u) = t := by
  have hdigit : u.head?.any Char.isDigit = false := hu.any_eq_false rfl rfl
  cases ht with
  | whole _ hall =>
    have hpoint : ∀ v, u ≠ '.' :: v := by
      rintro v rfl
      rcases hu '.' rfl with h | h <;> cases h
    have hdrop : (t ++ u).dropWhile Char.isDigit = u := by
      rw [dropWhile_append_of_pos (all_eq_true.mp hall)]
      cases u with
      | nil => rfl
      | cons c u =>
        have hc : ¬ c.isDigit = true := Bool.eq_false_iff.mp hdigit
        rw [dropWhile_cons_of_neg hc]
    rw [numeralText, hdrop, takeWhile_append_of_head hall hdigit]
    split
    next v => exact absurd rfl (hpoint v)
    · rfl
  | @point ds es _ hds hes =>
    have htake : (ds ++ '.' :: (es ++ u)).takeWhile Char.isDigit = ds :=
      takeWhile_append_of_head hds rfl
    have hdrop : (ds ++ '.' :: (es ++ u)).dropWhile Char.isDigit = '.' :: (es ++ u) := by
      rw [dropWhile_append_of_pos (all_eq_true.mp hds)]
      rfl
    rw [append_assoc, cons_append, numeralText, hdrop, htake]
    exact congrArg (ds ++ '.' :: ·) (takeWhile_append_of_head hes hdigit)

theorem IsDecimal.exists_cons (h : IsDecimal t) : ∃ c u, t = c :: u ∧ c.isDigit = true := by
  cases h with
  | whole hne hall =>
    cases t with
    | nil => exact absurd rfl hne
    | cons c u => exact ⟨c, u, rfl, (Bool.and_eq_true_iff.mp hall).1⟩
  | @point ds es hne hall _ =>
    cases ds with
    | nil => exact absurd rfl hne
    | cons c u => exact ⟨c, u ++ '.' :: es, rfl, (Bool.and_eq_true_iff.mp hall).1⟩

theorem lexFrom_decimal (ht : IsDecimal t) (hgs : Ends (ahead gs)) :
    lexFrom after 0 (chars t ++ gs) = (lexFrom true 0 gs).map (.numeral t :: ·) := by
  have htext := numeralText_append ht hgs
  obtain ⟨c, u, rfl, hc⟩ := ht.exists_cons
  refine lexFrom_lexeme rfl (Text.isBlank_of_isDigit hc) ?_
  have hstart : ¬ isNameStart c = true := by
    rw [isNameStart, hc, Bool.not_true, Bool.and_false]
    exact Bool.false_ne_true
  have hfree : ¬ (((c :: u) ++ ahead gs).drop (c :: u).length).head?.any isNameChar = true := by
    rw [drop_left, hgs.any_eq_false (by decide) (by decide)]
    exact Bool.false_ne_true
  rw [lexeme?, if_neg hstart, hc, Bool.true_or, if_pos rfl, ← cons_append, numeral?, htext,
    if_neg hfree]
  rfl

theorem literal?_append (ht : ∀ c ∈ t, c ≠ '\x22' ∧ c ≠ '\\' ∧ c ≠ '\n') (u : Text) :
    literal? '\x22' (t ++ '\x22' :: u) = some (t ++ ['\x22']) := by
  induction t with
  | nil =>
    rw [nil_append, literal?]
    · rfl
    · rintro c v ⟨⟩
  | cons c t ih =>
    obtain ⟨⟨hquote, hescape, hbreak⟩, ht⟩ := forall_mem_cons.mp ht
    rw [cons_append, literal?, if_neg (by simpa using hquote), if_neg (by simpa using hbreak),
      ih ht]
    · rfl
    · exact fun _ _ heq _ => hescape heq

theorem lexFrom_literal (ht : ∀ c ∈ t, c ≠ '\x22' ∧ c ≠ '\\' ∧ c ≠ '\n') :
    lexFrom after 0 (chars ('\x22' :: (t ++ ['\x22'])) ++ gs) =
      (lexFrom true 0 gs).map (.literal ('\x22' :: (t ++ ['\x22'])) :: ·) := by
  refine lexFrom_lexeme rfl (by decide) ?_
  show (literal? '\x22' ((t ++ ['\x22']) ++ ahead gs)).map _ = _
  rw [append_assoc, singleton_append, literal?_append ht]
  rfl

theorem lexFrom_open : lexFrom after 0 (.char '(' :: gs) =
    (lexFrom false 0 gs).map (.punctuator ['('] :: ·) :=
  lexFrom_lexeme (l := .punctuator ['(']) rfl (by decide) rfl

theorem lexFrom_close : lexFrom after 0 (.char ')' :: gs) =
    (lexFrom true 0 gs).map (.punctuator [')'] :: ·) :=
  lexFrom_lexeme (l := .punctuator [')']) rfl (by decide) rfl

/-- A minus is an operator of its own before anything but another minus and an equals sign. -/
theorem lexFrom_minus {d : Char} (hminus : d ≠ '-') (hequals : d ≠ '=') :
    lexFrom after 0 (.char '-' :: .char d :: gs) =
      (lexFrom false 0 (.char d :: gs)).map (.punctuator ['-'] :: ·) := by
  refine lexFrom_lexeme (l := .punctuator ['-']) rfl (by decide) ?_
  have hread : punctuator? ('-' :: d :: ahead gs) = some ['-'] := by
    have hminus : ('-' == d) = false := beq_eq_false_iff_ne.mpr (Ne.symm hminus)
    have hequals : ('=' == d) = false := beq_eq_false_iff_ne.mpr (Ne.symm hequals)
    simp [punctuator?, punctuators, begins, Text.startsWith, isPrefixOf, hminus, hequals]
  show (punctuator? ('-' :: d :: ahead gs)).map _ = _
  rw [hread]
  rfl

end ScriptLexer

open ScriptLexer

/-! ## Numbers -/

namespace Decimal.Shortest

theorem all_isDigit_ofNat (n : Nat) : (Text.ofNat n).all Char.isDigit = true :=
  all_eq_true.mpr (Text.isDigit_of_mem_ofNat n)

theorem all_isDigit_replicate (n : Nat) : (replicate n '0').all Char.isDigit = true :=
  all_eq_true.mpr fun c hc => by rw [eq_of_mem_replicate hc]; rfl

theorem positional_isDecimal (n : Nat) (k : Int) : IsDecimal (positional n k) := by
  have hdigits := all_isDigit_ofNat n
  unfold positional
  extract_lets digits places
  split
  · refine .whole (fun h => Nat.toDigits_ne_nil (append_eq_nil_iff.mp h).1) ?_
    rw [all_append, hdigits, all_isDigit_replicate]
    rfl
  split
  next hlt =>
    refine .point ?_ ?_ ?_
    · refine ne_nil_of_length_pos ?_
      rw [length_take]
      omega
    · exact all_eq_true.mpr fun c hc => all_eq_true.mp hdigits c (mem_of_mem_take hc)
    · exact all_eq_true.mpr fun c hc => all_eq_true.mp hdigits c (mem_of_mem_drop hc)
  · have hzeros : (replicate (places - digits.length) '0' ++ digits).all Char.isDigit = true := by
      rw [all_append, all_isDigit_replicate, hdigits]
      rfl
    exact .point (cons_ne_nil '0' []) rfl hzeros

end Decimal.Shortest

/-- A number without its sign: a decimal, or the name of what is no finite number. -/
def IsUnsigned (t : Text) : Prop :=
  IsDecimal t ∨ t = "NaN" ∨ t = "inf"

theorem Style.Quantity.renderNumber_cases (x : Float) :
    ∃ t, IsUnsigned t ∧ (renderNumber x = t ∨ renderNumber x = '-' :: t) := by
  unfold renderNumber Decimal.Shortest.render
  split
  next d _ =>
    extract_lets sign
    have hsign : sign = [] ∨ sign = ['-'] := by
      unfold sign
      split
      · exact .inr rfl
      · exact .inl rfl
    have hsigned {t : Text} (ht : IsDecimal t) :
        ∃ u, IsUnsigned u ∧ (sign ++ t = u ∨ sign ++ t = '-' :: u) := by
      refine ⟨t, .inl ht, ?_⟩
      rcases hsign with h | h
      · exact .inl (congrArg (· ++ t) h)
      · exact .inr (congrArg (· ++ t) h)
    split
    · exact hsigned (.whole (cons_ne_nil _ _) rfl)
    · exact hsigned (Decimal.Shortest.positional_isDecimal _ _)
  · split
    · exact ⟨_, .inr (.inl rfl), .inl rfl⟩
    · split
      · exact ⟨_, .inr (.inr rfl), .inr rfl⟩
      · exact ⟨_, .inr (.inr rfl), .inl rfl⟩

theorem isNameChar_of_isDigit {c : Char} (h : c.isDigit = true) : isNameChar c = true := by
  have halphanum : c.isAlphanum = true := Bool.or_eq_true_iff.mpr (.inr h)
  rw [isNameChar, halphanum]
  rfl

theorem IsUnsigned.isNameChar_or {t : Text} (h : IsUnsigned t) {c : Char} (hc : c ∈ t) :
    isNameChar c = true ∨ c = '.' := by
  have hdigits {ds : Text} (hds : ds.all Char.isDigit = true) (hc : c ∈ ds) :
      isNameChar c = true ∨ c = '.' :=
    .inl (isNameChar_of_isDigit (all_eq_true.mp hds c hc))
  have hname {t : Text} (ht : t.all isNameChar = true) (hc : c ∈ t) :
      isNameChar c = true ∨ c = '.' :=
    .inl (all_eq_true.mp ht c hc)
  rcases h with h | rfl | rfl
  · cases h with
    | whole _ hds => exact hdigits hds hc
    | point _ hds hes =>
      rcases mem_append.mp hc with hc | hc
      · exact hdigits hds hc
      · rcases mem_cons.mp hc with rfl | hc
        · exact .inr rfl
        · exact hdigits hes hc
  · exact hname (by decide) hc
  · exact hname (by decide) hc

theorem IsUnsigned.exists_cons {t : Text} (h : IsUnsigned t) :
    ∃ c u, t = c :: u ∧ c ≠ '-' ∧ c ≠ '=' := by
  rcases h with h | rfl | rfl
  · obtain ⟨c, u, rfl, hc⟩ := h.exists_cons
    refine ⟨c, u, rfl, ?_, ?_⟩ <;> rintro rfl <;> cases hc
  · exact ⟨'N', _, rfl, by decide, by decide⟩
  · exact ⟨'i', _, rfl, by decide, by decide⟩

namespace Style

theorem Measure.isNameChar_or (u : Measure) {c : Char} (hc : c ∈ u.text) :
    isNameChar c = true ∨ c = '%' := by
  have hall : u.text.all (fun c => isNameChar c || c == '%') = true := by
    cases u <;> decide
  rcases Bool.or_eq_true_iff.mp (all_eq_true.mp hall c hc) with h | h
  · exact .inl h
  · exact .inr (eq_of_beq h)

/-- What a unit and its number are written with can stand in a string as it is. -/
theorem Quantity.render_unescaped (q : Quantity) :
    ∀ c ∈ q.render, c ≠ '\x22' ∧ c ≠ '\\' ∧ c ≠ '\n' := by
  intro c hc
  have hclass : isNameChar c = true ∨ c = '.' ∨ c = '%' ∨ c = '-' := by
    rcases mem_append.mp hc with hc | hc
    · obtain ⟨t, ht, hrender⟩ := renderNumber_cases q.value
      rcases hrender with hrender | hrender <;> rw [hrender] at hc
      · exact (ht.isNameChar_or hc).imp_right .inl
      · rcases mem_cons.mp hc with rfl | hc
        · exact .inr (.inr (.inr rfl))
        · exact (ht.isNameChar_or hc).imp_right .inl
    · cases hunit : q.unit with
      | none =>
        rw [hunit] at hc
        cases hc
      | some u =>
        rw [hunit] at hc
        exact (u.isNameChar_or hc).imp_right fun h => .inr (.inl h)
  rcases hclass with h | rfl | rfl | rfl
  · refine ⟨?_, ?_, ?_⟩ <;> rintro rfl <;> exact absurd h (by decide)
  all_goals decide

end Style

def unsignedLexeme (t : Text) : Lexeme :=
  if t.head?.any Char.isDigit then .numeral t else .word t

def numberLexemes (t : Text) : List Lexeme :=
  if t.head? == some '-' then [.punctuator ['-'], unsignedLexeme t.tail] else [unsignedLexeme t]

namespace ScriptLexer

variable {after : Bool} {gs : List Glyph}

theorem lexFrom_unsigned {t : Text} (ht : IsUnsigned t) (hgs : Ends (ahead gs)) :
    lexFrom after 0 (chars t ++ gs) = (lexFrom true 0 gs).map (unsignedLexeme t :: ·) := by
  have hname := hgs.any_eq_false (p := isNameChar) (by decide) (by decide)
  rcases ht with ht | rfl | rfl
  · have hlexeme : unsignedLexeme t = .numeral t := by
      obtain ⟨c, u, rfl, hc⟩ := ht.exists_cons
      exact if_pos hc
    rw [lexFrom_decimal ht hgs, hlexeme]
  · exact lexFrom_name (by decide) hname
  · exact lexFrom_name (by decide) hname

theorem lexFrom_number (x : Float) (hgs : Ends (ahead gs)) :
    lexFrom after 0 (chars (Style.Quantity.renderNumber x) ++ gs) =
      (lexFrom true 0 gs).map (numberLexemes (Style.Quantity.renderNumber x) ++ ·) := by
  obtain ⟨t, ht, hrender⟩ := Style.Quantity.renderNumber_cases x
  obtain ⟨c, u, hcons, hminus, hequals⟩ := ht.exists_cons
  rcases hrender with hrender | hrender
  · have hlexemes : numberLexemes t = [unsignedLexeme t] := by
      rw [hcons]
      exact if_neg (by simpa using hminus)
    rw [hrender, lexFrom_unsigned ht hgs, hlexemes]
    rfl
  · rw [hrender]
    show lexFrom after 0 (.char '-' :: (chars t ++ gs)) = _
    have hread : lexFrom false 0 (chars t ++ gs) = _ := lexFrom_unsigned ht hgs
    have hminus : lexFrom after 0 (.char '-' :: (chars t ++ gs)) =
        (lexFrom false 0 (chars t ++ gs)).map (.punctuator ['-'] :: ·) := by
      rw [hcons]
      exact lexFrom_minus hminus hequals
    rw [hminus, hread, Option.map_map]
    rfl

end ScriptLexer

/-! ## Calculations -/

namespace Style.Calc

/-- The code of a calculation, in which the sources of running operands are given. -/
def glyphs (strip : Text) : Calc → List Glyph
  | literal q =>
    if q.unit.isSome then chars strip ++ chars ('(' :: '\x22' :: (q.render ++ ['\x22', ')']))
    else chars (Quantity.renderNumber q.value)
  | running source => chars strip ++ [.char '(', .given source, .char ')']
  | negate e => .char '-' :: e.glyphs strip
  | group e => .char '(' :: (e.glyphs strip ++ [.char ')'])
  | binary op l r =>
    l.glyphs strip ++ .char ' ' :: .char op.symbol :: .char ' ' :: r.glyphs strip

/-- The lexemes of the tree: a punctuator for every sign, parenthesis and operator, and in between
the operands. A negative number has a sign of its own. -/
def lexemes (strip : Text) : Calc → List Lexeme
  | literal q =>
    if q.unit.isSome then
      [.word strip, .punctuator ['('], .literal ('\x22' :: (q.render ++ ['\x22'])),
        .punctuator [')']]
    else numberLexemes (Quantity.renderNumber q.value)
  | running source => [.word strip, .punctuator ['('], .given source, .punctuator [')']]
  | negate e => .punctuator ['-'] :: e.lexemes strip
  | group e => .punctuator ['('] :: (e.lexemes strip ++ [.punctuator [')']])
  | binary op l r => l.lexemes strip ++ .punctuator [op.symbol] :: r.lexemes strip

def startsMinus : Calc → Bool
  | literal q => q.unit.isNone && (Quantity.renderNumber q.value).head? == some '-'
  | running _ | group _ => false
  | negate _ => true
  | binary _ l _ => l.startsMinus

/-- Is a sign written directly before a minus? -/
def doublesMinus : Calc → Bool
  | literal _ | running _ => false
  | negate e => e.startsMinus || e.doublesMinus
  | group e => e.doublesMinus
  | binary _ l r => l.doublesMinus || r.doublesMinus

theorem glyphs_measured (strip : Text) (value : Float) (u : Measure) :
    (literal ⟨value, some u⟩).glyphs strip = chars strip ++ .char '(' ::
      (chars ('\x22' :: ((Quantity.mk value (some u)).render ++ ['\x22'])) ++ [.char ')']) := by
  simp [glyphs, chars]

theorem flatMap_text_chars (t : Text) : (chars t).flatMap Glyph.text = t := by
  induction t with
  | nil => rfl
  | cons c t ih => exact congrArg (c :: ·) ih

theorem flatMap_glyphs (strip : Text) (e : Calc) :
    (e.glyphs strip).flatMap Glyph.text = e.render strip := by
  induction e with
  | literal q =>
    obtain ⟨value, unit⟩ := q
    cases unit with
    | none =>
      refine (flatMap_text_chars _).trans ?_
      exact (append_nil _).symm
    | some u =>
      rw [glyphs_measured, flatMap_append, flatMap_text_chars, flatMap_cons,
        flatMap_append, flatMap_text_chars]
      simp [render, Glyph.text]
  | running source =>
    rw [glyphs, flatMap_append, flatMap_text_chars]
    simp [render, Glyph.text]
  | negate e ih => exact congrArg ('-' :: ·) ih
  | group e ih =>
    rw [glyphs, flatMap_cons, flatMap_append, ih]
    rfl
  | binary op l r ihl ihr =>
    rw [glyphs, flatMap_append, ihl, render, append_assoc]
    exact congrArg (fun t => l.render strip ++ ' ' :: op.symbol :: ' ' :: t) ihr

variable {strip : Text}

theorem exists_glyphs_cons (hstrip : isName strip = true) (e : Calc) :
    ∃ d gs, e.glyphs strip = .char d :: gs ∧ d ≠ '=' ∧ (d = '-' ↔ e.startsMinus = true) := by
  -- a name begins with neither of the two characters
  have hname : ∃ d t, strip = d :: t ∧ d ≠ '=' ∧ d ≠ '-' := by
    cases strip with
    | nil => cases hstrip
    | cons d t =>
      have hd : isNameStart d = true := (Bool.and_eq_true_iff.mp hstrip).1
      refine ⟨d, t, rfl, ?_, ?_⟩ <;> rintro rfl <;> exact absurd hd (by decide)
  induction e with
  | literal q =>
    obtain ⟨value, unit⟩ := q
    cases unit with
    | none =>
      obtain ⟨t, ht, hrender⟩ := Quantity.renderNumber_cases value
      obtain ⟨c, u, hcons, hminus, hequals⟩ := ht.exists_cons
      rw [glyphs, startsMinus]
      rcases hrender with hrender | hrender <;> rw [hrender]
      · rw [hcons]
        exact ⟨c, chars u, rfl, hequals, by simp⟩
      · exact ⟨'-', chars t, rfl, by decide, by simp⟩
    | some u =>
      obtain ⟨d, t, rfl, hequals, hminus⟩ := hname
      exact ⟨d, _, rfl, hequals, iff_of_false hminus Bool.false_ne_true⟩
  | running source =>
    obtain ⟨d, t, rfl, hequals, hminus⟩ := hname
    exact ⟨d, _, rfl, hequals, iff_of_false hminus Bool.false_ne_true⟩
  | negate e _ => exact ⟨'-', _, rfl, by decide, iff_of_true rfl rfl⟩
  | group e _ => exact ⟨'(', _, rfl, by decide, iff_of_false (by decide) Bool.false_ne_true⟩
  | binary op l r ihl _ =>
    obtain ⟨d, gs, hgs, hequals, hminus⟩ := ihl
    exact ⟨d, _, by rw [glyphs, hgs]; rfl, hequals, hminus⟩

theorem lexFrom_operator (op : Operator) (gs : List Glyph) :
    lexFrom true 0 (.char ' ' :: .char op.symbol :: .char ' ' :: gs) =
      (lexFrom false 0 gs).map (.punctuator [op.symbol] :: ·) := by
  refine (lexFrom_lexeme (l := .punctuator [op.symbol]) rfl ?_ ?_).trans ?_
  · cases op <;> decide
  · cases op <;> rfl
  · rw [lexFrom_blank (by decide)]
    cases op <;> rfl

theorem map_append_eq_some {a more : List Lexeme} {x : Option (List Lexeme)} :
    x.map (a ++ ·) = some (a ++ more) ↔ x = some more :=
  (Option.map_injective (append_right_injective a)).eq_iff (b := some more)

theorem map_cons_eq_some {l : Lexeme} {more : List Lexeme} {x : Option (List Lexeme)} :
    x.map (l :: ·) = some (l :: more) ↔ x = some more :=
  map_append_eq_some (a := [l])

/-- A calculation is read as its own lexemes unless a sign stands before a minus. -/
theorem lexFrom_glyphs_iff (hstrip : isName strip = true) (e : Calc) {after : Bool}
    {gs : List Glyph} {more : List Lexeme} (hgs : Ends (ahead gs)) :
    lexFrom after 0 (e.glyphs strip ++ gs) = some (e.lexemes strip ++ more) ↔
      e.doublesMinus = false ∧ lexFrom true 0 gs = some more := by
  induction e generalizing after gs more with
  | literal q =>
    refine Iff.trans ?_ ((map_append_eq_some (a := (literal q).lexemes strip)).trans
      (and_iff_right rfl).symm)
    obtain ⟨value, unit⟩ := q
    cases unit with
    | none => exact iff_of_eq (congrArg (· = _) (lexFrom_number value hgs))
    | some u =>
      have hunescaped := (Quantity.mk value (some u)).render_unescaped
      rw [glyphs_measured, append_assoc, lexFrom_name hstrip rfl, cons_append, lexFrom_open,
        append_assoc, lexFrom_literal hunescaped, singleton_append, lexFrom_close]
      simp only [Option.map_map]
      rfl
  | running source =>
    refine Iff.trans ?_ ((map_append_eq_some (a := (running source).lexemes strip)).trans
      (and_iff_right rfl).symm)
    rw [glyphs, append_assoc, lexFrom_name hstrip rfl]
    show ((lexFrom true 0 (.char '(' :: .given source :: .char ')' :: gs)).map _) = _ ↔ _
    rw [lexFrom_open, lexFrom, lexFrom_close]
    simp only [Option.map_map]
    rfl
  | negate e ih =>
    obtain ⟨d, rest, hcons, hequals, hminus⟩ := exists_glyphs_cons hstrip e
    rw [doublesMinus, Bool.or_eq_false_iff, and_assoc, ← Bool.not_eq_true, ← hminus, ← ih hgs]
    show lexFrom after 0 (.char '-' :: (e.glyphs strip ++ gs)) = _ ↔ _
    rw [hcons]
    by_cases hd : d = '-'
    · -- the two are one operator
      refine iff_of_false (fun hread => ?_) fun h => h.1 hd
      rw [hd] at hread
      obtain ⟨ls, -, heq⟩ := Option.map_eq_some_iff.mp hread
      cases heq
    · rw [cons_append, lexFrom_minus hd hequals, and_iff_right hd]
      exact map_cons_eq_some
  | group e ih =>
    have hclose : Ends (ahead (.char ')' :: gs)) := by
      rintro c ⟨⟩
      exact .inr rfl
    show lexFrom after 0 (.char '(' :: ((e.glyphs strip ++ [.char ')']) ++ gs)) =
      some (.punctuator ['('] :: ((e.lexemes strip ++ [.punctuator [')']]) ++ more)) ↔ _
    rw [append_assoc, append_assoc, lexFrom_open, map_cons_eq_some, singleton_append,
      singleton_append, ih hclose, lexFrom_close, map_cons_eq_some]
    rfl
  | binary op l r ihl ihr =>
    rw [glyphs, lexemes, append_assoc, append_assoc, doublesMinus, Bool.or_eq_false_iff, and_assoc,
      ← ihr hgs]
    simp only [cons_append]
    rw [ihl (ends_blank _), lexFrom_operator, map_cons_eq_some]

end Style.Calc

/-! ## Operators that would be read as one -/

namespace ScriptLexer

/-- Are the two glyphs the characters of `--` or `++`, or the front of a comment? -/
def fused (x y : Glyph) : Bool :=
  [("--" : Text), "++", "//", "/*"].any fun t => chars t == [x, y]

def mayFuse (x : Glyph) : Bool :=
  (chars "-+/*").contains x

theorem fused_eq_false {x y : Glyph} (h : mayFuse x = false ∨ mayFuse y = false) :
    fused x y = false := by
  refine Bool.eq_false_iff.mpr fun hfused => ?_
  have hboth : mayFuse x = true ∧ mayFuse y = true := by
    simp only [fused, any_cons, any_nil, Bool.or_false, Bool.or_eq_true, beq_iff_eq] at hfused
    rcases hfused with h | h | h | h <;> cases h <;> decide
  rcases h with h | h
  · exact absurd hboth.1 (Bool.eq_false_iff.mp h)
  · exact absurd hboth.2 (Bool.eq_false_iff.mp h)

theorem fused_minus_iff {d : Char} : fused (.char '-') (.char d) = false ↔ d ≠ '-' := by
  simp only [fused, chars]
  simp [@eq_comm _ d]

theorem mayFuse_of_isNameChar {c : Char} (h : isNameChar c = true) : mayFuse (.char c) = false := by
  refine Bool.eq_false_iff.mpr fun hmay => ?_
  obtain ⟨d, hd, heq⟩ := mem_map.mp (contains_iff_mem.mp hmay)
  have hall : ("-+/*" : Text).all (fun c => !isNameChar c) = true := by decide
  have hnot := all_eq_true.mp hall d hd
  rw [Glyph.char.inj heq, h] at hnot
  cases hnot

def Unfused (gs : List Glyph) : Prop :=
  gs.IsChain fun x y => fused x y = false

theorem unfused_cons {x : Glyph} (hx : mayFuse x = false) (gs : List Glyph) :
    Unfused (x :: gs) ↔ Unfused gs := by
  rw [Unfused, isChain_cons]
  exact and_iff_right fun y _ => fused_eq_false (.inl hx)

theorem unfused_chars {t : Text} (ht : ∀ c ∈ t, mayFuse (.char c) = false) (gs : List Glyph) :
    Unfused (chars t ++ gs) ↔ Unfused gs := by
  induction t with
  | nil => rfl
  | cons c t ih =>
    obtain ⟨hc, ht⟩ := forall_mem_cons.mp ht
    exact (unfused_cons hc _).trans (ih ht)

theorem unfused_cons_cons {x y : Glyph} (h : fused x y = false) (gs : List Glyph) :
    Unfused (x :: y :: gs) ↔ Unfused (y :: gs) := by
  rw [Unfused, isChain_cons_cons]
  exact and_iff_right h

theorem unfused_unsigned {t : Text} (ht : IsUnsigned t) (gs : List Glyph) :
    Unfused (chars t ++ gs) ↔ Unfused gs := by
  refine unfused_chars (fun c hc => ?_) gs
  rcases ht.isNameChar_or hc with h | rfl
  · exact mayFuse_of_isNameChar h
  · decide

theorem unfused_number (x : Float) (gs : List Glyph) :
    Unfused (chars (Style.Quantity.renderNumber x) ++ gs) ↔ Unfused gs := by
  obtain ⟨t, ht, hrender⟩ := Style.Quantity.renderNumber_cases x
  rcases hrender with hrender | hrender <;> rw [hrender]
  · exact unfused_unsigned ht gs
  · refine Iff.trans ?_ (unfused_unsigned ht gs)
    obtain ⟨c, u, rfl, hminus, -⟩ := ht.exists_cons
    exact unfused_cons_cons (fused_minus_iff.mpr hminus) _

end ScriptLexer

namespace Style

/-- A sign binds its minus to what follows it, so two of them in a row are fused and nothing else. -/
theorem Calc.unfused_glyphs {strip : Text} (hstrip : isName strip = true) (e : Calc) :
    ∀ gs, Unfused (e.glyphs strip ++ gs) ↔ e.doublesMinus = false ∧ Unfused gs := by
  have hname : ∀ c ∈ strip, mayFuse (.char c) = false := fun c hc =>
    mayFuse_of_isNameChar (all_eq_true.mp (Bool.and_eq_true_iff.mp hstrip).2 c hc)
  induction e with
  | literal q =>
    intro gs
    refine Iff.trans ?_ (and_iff_right rfl).symm
    obtain ⟨value, unit⟩ := q
    cases unit with
    | none => exact unfused_number value gs
    | some u =>
      have hunit : ∀ c ∈ u.text ++ ['\x22'], mayFuse (.char c) = false := by
        intro c hc
        rcases mem_append.mp hc with hc | hc
        · rcases u.isNameChar_or hc with h | rfl
          · exact mayFuse_of_isNameChar h
          · decide
        · rw [mem_singleton.mp hc]
          decide
      have hgs : (literal ⟨value, some u⟩).glyphs strip ++ gs = chars strip ++ (.char '(' ::
          .char '\x22' :: (chars (Quantity.renderNumber value) ++
            (chars (u.text ++ ['\x22']) ++ .char ')' :: gs))) := by
        simp [glyphs_measured, chars, Quantity.render]
      rw [hgs, unfused_chars hname, unfused_cons (by decide), unfused_cons (by decide),
        unfused_number, unfused_chars hunit, unfused_cons (by decide)]
  | running source =>
    intro gs
    refine Iff.trans ?_ (and_iff_right rfl).symm
    rw [glyphs, append_assoc, unfused_chars hname]
    show Unfused (.char '(' :: .given source :: .char ')' :: gs) ↔ _
    have hgiven : mayFuse (.given source) = false := by simp [mayFuse, chars]
    rw [unfused_cons (by decide), unfused_cons hgiven, unfused_cons (by decide)]
  | negate e ih =>
    intro gs
    obtain ⟨d, rest, hcons, -, hminus⟩ := exists_glyphs_cons hstrip e
    have hstart : fused (.char '-') (.char d) = false ↔ e.startsMinus = false := by
      rw [fused_minus_iff, Ne, hminus, Bool.not_eq_true]
    rw [doublesMinus, Bool.or_eq_false_iff, and_assoc, ← ih gs, ← hstart]
    show Unfused (.char '-' :: (e.glyphs strip ++ gs)) ↔ _
    rw [hcons]
    exact isChain_cons_cons
  | group e ih =>
    intro gs
    show Unfused (.char '(' :: ((e.glyphs strip ++ [.char ')']) ++ gs)) ↔ _
    rw [unfused_cons (by decide), append_assoc, ih, singleton_append, unfused_cons (by decide)]
    rfl
  | binary op l r ihl ihr =>
    intro gs
    rw [doublesMinus, Bool.or_eq_false_iff, and_assoc, ← ihr gs, glyphs, append_assoc, ihl]
    simp only [cons_append]
    rw [unfused_cons (by decide), unfused_cons_cons (fused_eq_false (.inr (by decide))),
      unfused_cons (by decide)]

/-! ## The tokens of a value -/

def Token.isMinus : Token → Bool
  | number q => q.unit.isNone && (Quantity.renderNumber q.value).head? == some '-'
  | op o => o == .sub
  | running _ | openParen | closeParen => false

/-- Is there a sign with a minus as the next token? `after` says whether an operand ends before the
tokens, where a minus is no sign. -/
def Formula.signsMinus (after : Bool) : List Token → Bool
  | [] => false
  | t :: ts =>
    !after && t == .op .sub && ts.head?.any Token.isMinus || signsMinus t.endsOperand ts

theorem Calc.exists_tokens_cons (e : Calc) :
    ∃ t ts, e.tokens = t :: ts ∧ t.isMinus = e.startsMinus := by
  induction e with
  | literal | running => exact ⟨_, [], rfl, rfl⟩
  | negate e _ | group e _ => exact ⟨_, _, rfl, rfl⟩
  | binary op l r ihl _ =>
    obtain ⟨t, ts, htokens, hminus⟩ := ihl
    exact ⟨t, _, by rw [tokens, htokens]; rfl, hminus⟩

theorem Calc.signsMinus_tokens (e : Calc) : ∀ rest,
    Formula.signsMinus false (e.tokens ++ rest) =
      (e.doublesMinus || Formula.signsMinus true rest) := by
  induction e with
  | literal | running => exact fun _ => rfl
  | negate e ih =>
    intro rest
    obtain ⟨t, ts, htokens, hminus⟩ := e.exists_tokens_cons
    have hhead : (e.tokens ++ rest).head?.any Token.isMinus = e.startsMinus := by
      rw [htokens]
      exact hminus
    show (_ && (e.tokens ++ rest).head?.any Token.isMinus ||
      Formula.signsMinus false (e.tokens ++ rest)) = _
    rw [hhead, ih, doublesMinus, Bool.or_assoc]
    rfl
  | group e ih =>
    intro rest
    show Formula.signsMinus false ((e.tokens ++ [.closeParen]) ++ rest) = _
    rw [append_assoc, ih]
    rfl
  | binary op l r ihl ihr =>
    intro rest
    rw [tokens, append_assoc, ihl, doublesMinus, Bool.or_assoc, ← ihr]
    rfl

/-- The code of a value that is computed has the lexemes of its tree, and two characters in it make
one operator or begin a comment nowhere, exactly if no sign of the value stands before a minus. -/
theorem rendered_lexemes_iff {ps : List Piece} {e : Calc} {strip : Text}
    (hparse : Formula.parse? ps = some e) (hstrip : isName strip = true) :
    ∃ ts, Formula.tokens? ps = some ts ∧
      (e.glyphs strip).flatMap Glyph.text = e.render strip ∧
      (lex (e.glyphs strip) = some (e.lexemes strip) ↔ Formula.signsMinus false ts = false) ∧
      (Unfused (e.glyphs strip) ↔ Formula.signsMinus false ts = false) := by
  obtain ⟨ts, hts, hread⟩ := Option.bind_eq_some_iff.mp hparse
  -- the tokens of the value are those of the tree
  have hdoubles : Formula.signsMinus false ts = e.doublesMinus := by
    have htokens := e.signsMinus_tokens []
    rw [List.append_nil, Formula.tokens_of_ofTokens? hread] at htokens
    exact htokens.trans (Bool.or_false _)
  refine ⟨ts, hts, e.flatMap_glyphs strip, ?_⟩
  rw [hdoubles]
  refine ⟨?_, ?_⟩
  · have hlex : lexFrom false 0 (e.glyphs strip ++ []) = some (e.lexemes strip ++ []) ↔ _ :=
      Calc.lexFrom_glyphs_iff hstrip e ends_nil
    rw [List.append_nil, List.append_nil] at hlex
    exact hlex.trans (and_iff_left rfl)
  · have hunfused := Calc.unfused_glyphs hstrip e []
    rw [List.append_nil] at hunfused
    exact hunfused.trans (and_iff_left .nil)

/-- A sign before a group, and a minus before a negative number. -/
theorem rendered_lexemes_iff_difference :
    ∃ ps e, ps = [.text "-(2px - -5) * ", .expr ⟨"a", false⟩] ∧ Formula.parse? ps = some e ∧
      e.render "v" = "-(v(\"2px\") - -5) * v(a)" ∧
      lex (e.glyphs "v") = some (e.lexemes "v") ∧ Unfused (e.glyphs "v") := by
  let ps : List Piece := [.text "-(2px - -5) * ", .expr ⟨"a", false⟩]
  let ts : List Token := [.op .sub, .openParen, .number ⟨2.0, some .px⟩, .op .sub,
    .number ⟨-5.0, none⟩, .closeParen, .op .mul, .running "a"]
  let e : Calc := .binary .mul (.negate (.group (.binary .sub (.literal ⟨2.0, some .px⟩)
    (.literal ⟨-5.0, none⟩)))) (.running "a")
  have htokens : Formula.tokens? ps = some ts := by decide +kernel
  have hparse : Formula.parse? ps = some e := by decide +kernel
  have hname : isName "v" = true := by decide
  obtain ⟨ts', hts', -, hlex, hunfused⟩ := rendered_lexemes_iff hparse hname
  have hsigns : Formula.signsMinus false ts' = false := by
    rw [← Option.some.inj (htokens.symm.trans hts')]
    decide +kernel
  exact ⟨ps, e, rfl, hparse, by decide +kernel, hlex.mpr hsigns, hunfused.mpr hsigns⟩

theorem sign_before_sign_fuses :
    ∃ ps e, ps = [.text "- -", .expr ⟨"a", false⟩] ∧ Formula.parse? ps = some e ∧
      e = .negate (.negate (.running "a")) ∧ e.render "v" = "--v(a)" ∧
      (lex (e.glyphs "v")).map List.head? = some (some (.punctuator "--")) ∧
      lex (e.glyphs "v") ≠ some (e.lexemes "v") ∧ ¬ Unfused (e.glyphs "v") := by
  refine ⟨_, _, rfl, by decide +kernel, rfl, by decide +kernel, by decide +kernel,
    by decide +kernel, fun hunfused => ?_⟩
  exact absurd (List.isChain_cons_cons.mp hunfused).1 (by decide)

end Style

end Patchwork
