import Mathlib.Tactic.SplitIfs
import Patchwork.Chain

/-!
# What literals denote

The pieces of a text are one string expression in the generated code: a template in one dialect, a
sum of quoted literals in the other. This module says what such an expression denotes. `value?` reads
an expression made of quoted literals, templates and plus signs by the rules of JavaScript, one
character at a time, and gives the code units of the string that it evaluates to.

`read_quote` and `read_template` say what the two ways of writing a text give back. A quoted literal
denotes its text, whatever the characters are. A template denotes its text with every line ended by a
line feed: a carriage return stands in it as it is, and JavaScript reads a carriage return in a
template, with or without a line feed after it, as a line feed. So the dialects agree about a text
exactly if it holds no carriage return.
-/

namespace Patchwork

open List

abbrev Units := List Nat

namespace Text

/-- A code point in code units: beyond the basic plane it takes two. -/
def pointUnits (n : Nat) : Units :=
  if n < 0x10000 then [n] else [0xd800 + (n - 0x10000) / 0x400, 0xdc00 + (n - 0x10000) % 0x400]

def units (t : Text) : Units :=
  t.flatMap fun c => pointUnits c.toNat

def dropLineFeed : Text → Text
  | '\n' :: t => t
  | t => t

/-- The text with every line ended by a line feed: a carriage return becomes one, together with a
line feed after it. -/
def lineFeeds : Text → Text
  | [] => []
  | '\r' :: '\n' :: t => '\n' :: lineFeeds t
  | '\r' :: t => '\n' :: lineFeeds t
  | c :: t => c :: lineFeeds t

theorem pointUnits_of_lt {n : Nat} (h : n < 0x10000) : pointUnits n = [n] := if_pos h

@[simp] theorem units_cons (c : Char) (t : Text) : units (c :: t) = pointUnits c.toNat ++ units t :=
  rfl

@[simp] theorem units_append (t u : Text) : units (t ++ u) = units t ++ units u := flatMap_append

theorem lineFeeds_carriage (t : Text) :
    lineFeeds ('\r' :: t) = '\n' :: lineFeeds (dropLineFeed t) := by
  cases t with
  | nil => rfl
  | cons c t =>
    by_cases h : c = '\n'
    · subst h
      rfl
    · simp [lineFeeds, dropLineFeed, h]

theorem lineFeeds_cons {c : Char} (h : c ≠ '\r') (t : Text) :
    lineFeeds (c :: t) = c :: lineFeeds t := by
  simp [lineFeeds, h]

theorem carriage_notMem_lineFeeds (t : Text) : '\r' ∉ lineFeeds t := by
  fun_induction lineFeeds t with
  | case1 => exact not_mem_nil
  | case2 t ih | case3 t _ ih => simpa using ih
  | case4 c t _ hc ih =>
    rw [mem_cons]
    rintro (rfl | h)
    · exact hc rfl
    · exact ih h

theorem lineFeeds_eq_self {t : Text} (h : '\r' ∉ t) : lineFeeds t = t := by
  induction t with
  | nil => rfl
  | cons c t ih =>
    rw [mem_cons, not_or] at h
    rw [lineFeeds_cons (Ne.symm h.1), ih h.2]

theorem carriage_mem_units (t : Text) : 13 ∈ units t ↔ '\r' ∈ t := by
  have hpoint (c : Char) : 13 ∈ pointUnits c.toNat ↔ '\r' = c := by
    rw [pointUnits]
    split
    · rw [mem_singleton]
      exact ⟨fun h => Char.ext (UInt32.toNat_inj.1 h), fun h => h ▸ rfl⟩
    simp only [mem_cons, not_mem_nil, or_false]
    refine ⟨fun h => by omega, fun h => absurd (h ▸ rfl : c.toNat = 13) (by omega)⟩
  simp [units, hpoint]

theorem escapeTemplate_cons (c : Char) (t : Text) :
    escapeTemplate (c :: t) = escapeTemplate [c] ++ escapeTemplate t := by
  simp [escapeTemplate]

theorem escapeTemplate_cases (c : Char) : escapeTemplate [c] = ['\\', c] ∨
    (c ≠ '\x60' ∧ c ≠ '$' ∧ c ≠ '\\') ∧ escapeTemplate [c] = [c] := by
  rw [escapeTemplate, flatMap_singleton]
  split
  · exact .inl rfl
  next hc =>
    simp only [Bool.or_eq_true, not_or, beq_iff_eq] at hc
    exact .inr ⟨⟨hc.1.1, hc.1.2, hc.2⟩, rfl⟩

/-- May the character stand for itself in a quoted literal? -/
def isUnescaped (c : Char) : Bool :=
  !isControl c && c != '\u2028' && c != '\u2029' && c != '\\' && c != '\x22'

theorem quoteChar_cases (c : Char) :
    (∃ d ds, quoteChar c = '\\' :: d :: ds ∧ (isControl d = false ∧ d ≠ '\u2028' ∧ d ≠ '\u2029') ∧
      ds.all isUnescaped = true) ∨ quoteChar c = [c] ∧ isUnescaped c = true := by
  have hdigit : ∀ n < 16, isUnescaped (hexDigit n) = true := by decide
  unfold quoteChar
  split_ifs with hquote hslash hfeed hcarriage htab hcode
  · exact .inl ⟨'\x22', [], rfl, by decide, rfl⟩
  · exact .inl ⟨'\\', [], rfl, by decide, rfl⟩
  · exact .inl ⟨'n', [], rfl, by decide, rfl⟩
  · exact .inl ⟨'r', [], rfl, by decide, rfl⟩
  · exact .inl ⟨'t', [], rfl, by decide, rfl⟩
  · exact .inl ⟨'u', hex4 c.toNat, rfl, by decide, by simp [hex4, hdigit, Nat.mod_lt]⟩
  · refine .inr ⟨rfl, ?_⟩
    simp only [Bool.or_eq_true, not_or, beq_iff_eq] at hcode
    simp_all [isUnescaped]

theorem join_cons (sep x : Text) (xs : List Text) :
    Text.join sep (x :: xs) = x ++ xs.flatMap (sep ++ ·) := by
  induction xs generalizing x with
  | nil => simp [Text.join]
  | cons y ys ih =>
    have h := ih y
    simp only [Text.join] at h
    rw [Text.join, intercalate_cons_cons, h, flatMap_cons, append_assoc, append_assoc]

end Text

namespace Literal

open Text

/-- The literals of strings. -/
inductive Kind where
  | quoted | template
  deriving DecidableEq, Repr

def Kind.delimiter : Kind → Char
  | quoted => '\x22'
  | template => '\x60'

/-- How far a literal has been read. -/
inductive Reading where
  | text
  /-- After a carriage return, which takes a line feed after it along. -/
  | carriage
  /-- After a dollar sign, which must not open a substitution. -/
  | dollar
  | escape
  /-- After an escaped zero, which no digit may follow. -/
  | zero
  | unicode
  /-- In an escape with a fixed number of digits, `left` of them after the next. -/
  | digits (left value : Nat)
  /-- In an escape with braces. -/
  | point (value : Option Nat)
  deriving DecidableEq, Repr

/-- How far an expression has been read. -/
inductive State where
  | operand
  | inside (kind : Kind) (reading : Reading)
  | operator
  deriving DecidableEq, Repr

def letterEscapes : List (Char × Nat) :=
  [('b', 8), ('t', 9), ('n', 10), ('v', 11), ('f', 12), ('r', 13)]

def plain (kind : Kind) (c : Char) : Option (Units × State) :=
  if c = kind.delimiter then some ([], .operator)
  else if c = '\\' then some ([], .inside kind .escape)
  else
    match kind with
    | .quoted =>
      if c = '\n' ∨ c = '\r' then none else some (pointUnits c.toNat, .inside kind .text)
    | .template =>
      if c = '\r' then some ([10], .inside kind .carriage)
      else if c = '$' then some (pointUnits c.toNat, .inside kind .dollar)
      else some (pointUnits c.toNat, .inside kind .text)

def escaped (kind : Kind) (c : Char) : Option (Units × State) :=
  match letterEscapes.lookup c with
  | some unit => some ([unit], .inside kind .text)
  | none =>
    if c = '0' then some ([0], .inside kind .zero)
    else if c.isDigit then none
    else if c = 'x' then some ([], .inside kind (.digits 1 0))
    else if c = 'u' then some ([], .inside kind .unicode)
    else if c = '\r' then some ([], .inside kind .carriage)
    else if c = '\n' ∨ c = '\u2028' ∨ c = '\u2029' then some ([], .inside kind .text)
    else some (pointUnits c.toNat, .inside kind .text)

def digit (kind : Kind) (left value : Nat) (c : Char) : Option (Units × State) :=
  let value := value * 16 + digitValue c
  if digitValue c = 16 then none
  else
    match left with
    | 0 => some ([value], .inside kind .text)
    | left + 1 => some ([], .inside kind (.digits left value))

def point (kind : Kind) (value : Option Nat) (c : Char) : Option (Units × State) :=
  if c = '\x7d' then
    match value with
    | some n => if n ≤ 0x10ffff then some (pointUnits n, .inside kind .text) else none
    | none => none
  else if digitValue c = 16 then none
  else some ([], .inside kind (.point (some (value.getD 0 * 16 + digitValue c))))

/-- A character of a literal: the code units it adds and how far the literal is read then. -/
def inside (kind : Kind) (c : Char) : Reading → Option (Units × State)
  | .text => plain kind c
  | .carriage => if c = '\n' then some ([], .inside kind .text) else plain kind c
  | .dollar => if c = '\x7b' then none else plain kind c
  | .escape => escaped kind c
  | .zero => if c.isDigit then none else plain kind c
  | .unicode =>
    if c = '\x7b' then some ([], .inside kind (.point none)) else digit kind 3 0 c
  | .digits left value => digit kind left value c
  | .point value => point kind value c

def step (c : Char) : State → Option (Units × State)
  | .operand =>
    if c = ' ' then some ([], .operand)
    else if c = Kind.quoted.delimiter then some ([], .inside .quoted .text)
    else if c = Kind.template.delimiter then some ([], .inside .template .text)
    else none
  | .inside kind reading => inside kind c reading
  | .operator =>
    if c = ' ' then some ([], .operator) else if c = '+' then some ([], .operand) else none

/-- The code units that the rest of an expression adds. -/
def read (state : State) : Text → Option Units
  | [] => if state = .operator then some [] else none
  | c :: t => (step c state).bind fun p => (read p.2 t).map (p.1 ++ ·)

/-- The string that an expression made of literals and plus signs denotes. -/
def value? (code : Text) : Option Units :=
  read .operand code

example : value? "\"\" + \"a\\u00e9\\x41\\\n\" + `\r\n\\u\x7b1F600\x7d`".toList
    = some [97, 233, 65, 10, 0xd83d, 0xde00] := by decide

variable {c : Char} {n : Nat} (texts : List Text)

theorem read_of_step {state state' : State} {us : Units} (t : Text)
    (h : step c state = some (us, state')) :
    read state (c :: t) = (read state' t).map (us ++ ·) := by
  rw [read, h]
  rfl

/-- A character that adds nothing. -/
theorem read_of_silent {state state' : State} (t : Text) (h : step c state = some ([], state')) :
    read state (c :: t) = read state' t := by
  rw [read_of_step t h]
  simp

/-! ## Quoted literals -/

theorem digitValue_hexDigit : ∀ n < 16, digitValue (hexDigit n) = n := by
  decide

theorem step_hexDigit_next (kind : Kind) (left value : Nat) (h : n < 16) :
    step (hexDigit n) (.inside kind (.digits (left + 1) value))
      = some ([], .inside kind (.digits left (value * 16 + n))) := by
  simp [step, inside, digit, digitValue_hexDigit n h, Nat.ne_of_lt h]

theorem step_hexDigit_last (kind : Kind) (value : Nat) (h : n < 16) :
    step (hexDigit n) (.inside kind (.digits 0 value))
      = some ([value * 16 + n], .inside kind .text) := by
  simp [step, inside, digit, digitValue_hexDigit n h, Nat.ne_of_lt h]

theorem step_hexDigit_first (kind : Kind) (h : n < 16) :
    step (hexDigit n) (.inside kind .unicode) = some ([], .inside kind (.digits 2 n)) := by
  have hbrace : hexDigit n ≠ '\x7b' := by
    intro heq
    have hvalue := digitValue_hexDigit n h
    rw [heq] at hvalue
    have : digitValue '\x7b' = 16 := by decide
    omega
  have hdigit := step_hexDigit_next kind 2 0 h
  rw [Nat.zero_add] at hdigit
  exact (if_neg hbrace).trans hdigit

/-- An escape with four digits gives the number that they write. -/
theorem read_hex4 (kind : Kind) (hn : n < 0x10000) (t : Text) :
    read (.inside kind .unicode) (hex4 n ++ t) = (read (.inside kind .text) t).map ([n] ++ ·) := by
  have hsum : ((n / 4096 % 16 * 16 + n / 256 % 16) * 16 + n / 16 % 16) * 16 + n % 16 = n := by
    omega
  have hlt (m : Nat) : m % 16 < 16 := Nat.mod_lt m (by decide)
  simp only [hex4, cons_append]
  rw [read_of_silent _ (step_hexDigit_first kind (hlt _)),
    read_of_silent _ (step_hexDigit_next kind 1 _ (hlt _)),
    read_of_silent _ (step_hexDigit_next kind 0 _ (hlt _)),
    read_of_step _ (step_hexDigit_last kind _ (hlt _)), hsum]
  rfl

/-- The characters written as escapes with digits are in the basic plane. -/
theorem toNat_lt_of_isControl (h : isControl c = true) : c.toNat < 0x10000 := by
  simp only [isControl, Bool.or_eq_true, Bool.and_eq_true, decide_eq_true_eq] at h
  omega

theorem read_quoteChar (c : Char) (t : Text) :
    read (.inside .quoted .text) (quoteChar c ++ t)
      = (read (.inside .quoted .text) t).map (pointUnits c.toNat ++ ·) := by
  simp only [quoteChar, beq_iff_eq, Bool.or_eq_true]
  split_ifs with hquote hslash hfeed hcarriage htab hcode
  · subst hquote
    exact (read_of_silent _ rfl).trans (read_of_step _ rfl)
  · subst hslash
    exact (read_of_silent _ rfl).trans (read_of_step _ rfl)
  · subst hfeed
    exact (read_of_silent _ rfl).trans (read_of_step _ rfl)
  · subst hcarriage
    exact (read_of_silent _ rfl).trans (read_of_step _ rfl)
  · subst htab
    exact (read_of_silent _ rfl).trans (read_of_step _ rfl)
  · have hlt : c.toNat < 0x10000 := by
      rcases hcode with (rfl | rfl) | hcontrol
      · decide
      · decide
      · exact toNat_lt_of_isControl hcontrol
    rw [cons_append, cons_append, read_of_silent _ rfl, read_of_silent _ rfl,
      read_hex4 _ hlt, pointUnits_of_lt hlt]
  · have hplain : plain .quoted c = some (pointUnits c.toNat, .inside .quoted .text) := by
      simp [plain, Kind.delimiter, hquote, hslash, hfeed, hcarriage]
    exact read_of_step _ hplain

theorem read_quote (t more : Text) :
    read .operand (quote t ++ more) = (read .operator more).map (units t ++ ·) := by
  have body : read (.inside .quoted .text) (t.flatMap quoteChar ++ '\x22' :: more)
      = (read .operator more).map (units t ++ ·) := by
    induction t with
    | nil => exact read_of_step more rfl
    | cons c t ih =>
      rw [flatMap_cons, append_assoc, read_quoteChar, ih]
      simp [Function.comp_def]
  rw [quote, cons_append, append_assoc, singleton_append, read_of_silent _ rfl, body]

/-! ## Templates -/

theorem read_templateChar {reading : Reading} (hcarriage : c ≠ '\r')
    (hreading : reading = .text ∨ reading = .carriage ∧ c ≠ '\n') (t : Text) :
    read (.inside .template reading) (escapeTemplate [c] ++ t)
      = (read (.inside .template .text) t).map (pointUnits c.toNat ++ ·) := by
  have hinside (d : Char) (h : d ≠ '\n' ∨ reading = .text) :
      step d (.inside .template reading) = plain .template d := by
    rcases hreading with rfl | ⟨rfl, -⟩
    · rfl
    · simp_all [step, inside]
  simp only [escapeTemplate, flatMap_singleton, Bool.or_eq_true, beq_iff_eq]
  split_ifs with hmarked
  · have hescape : step c (.inside .template .escape)
        = some (pointUnits c.toNat, .inside .template .text) := by
      rcases hmarked with (rfl | rfl) | rfl <;> rfl
    have hslash : step '\\' (.inside .template reading) = some ([], .inside .template .escape) :=
      (hinside '\\' (.inl (by decide))).trans rfl
    rw [cons_append, read_of_silent _ hslash]
    exact read_of_step t hescape
  · have hplain : step c (.inside .template reading)
        = some (pointUnits c.toNat, .inside .template .text) := by
      rw [hinside c (hreading.symm.imp_left And.right)]
      simp_all [plain, Kind.delimiter]
    exact read_of_step t hplain

theorem read_template (t more : Text) :
    read (.inside .template .text) (escapeTemplate t ++ '\x60' :: more)
      = (read .operator more).map (units (lineFeeds t) ++ ·) := by
  -- After a carriage return a line feed of the text is passed over, so that state comes along.
  suffices both : _ ∧ read (.inside .template .carriage) (escapeTemplate t ++ '\x60' :: more)
      = (read .operator more).map (units (lineFeeds (dropLineFeed t)) ++ ·) from both.1
  induction t with
  | nil => exact ⟨read_of_step more rfl, read_of_step more rfl⟩
  | cons c t ih =>
    rw [escapeTemplate_cons, append_assoc]
    by_cases hcarriage : c = '\r'
    · subst hcarriage
      have hread (reading : Reading) (h : reading = .text ∨ reading = .carriage) :
          read (.inside .template reading) ('\r' :: (escapeTemplate t ++ '\x60' :: more))
            = (read .operator more).map (units (lineFeeds ('\r' :: t)) ++ ·) := by
        have hstep : step '\r' (.inside .template reading)
            = some ([10], .inside .template .carriage) := by
          rcases h with rfl | rfl <;> rfl
        rw [read_of_step _ hstep, ih.2, Option.map_map, lineFeeds_carriage]
        rfl
      exact ⟨hread .text (.inl rfl), hread .carriage (.inr rfl)⟩
    · have hnext :
          ((read .operator more).map (units (lineFeeds t) ++ ·)).map (pointUnits c.toNat ++ ·)
            = (read .operator more).map (units (lineFeeds (c :: t)) ++ ·) := by
        rw [lineFeeds_cons hcarriage]
        simp [Function.comp_def]
      refine ⟨?_, ?_⟩
      · rw [read_templateChar hcarriage (.inl rfl), ih.1]
        exact hnext
      · by_cases hfeed : c = '\n'
        · subst hfeed
          exact (read_of_silent _ rfl).trans ih.1
        · have hkept : dropLineFeed (c :: t) = c :: t := by
            simp [dropLineFeed, hfeed]
          rw [read_templateChar hcarriage (.inr ⟨rfl, hfeed⟩), ih.1, hkept]
          exact hnext

/-! ## Joined texts -/

theorem read_terms :
    read .operator ((texts.map quote).flatMap ((" + " : Text) ++ ·)) = some (units texts.flatten) := by
  induction texts with
  | nil => rfl
  | cons t texts ih =>
    have hplus (more : Text) : read .operator ((" + " : Text) ++ more) = read .operand more :=
      (read_of_silent _ rfl).trans ((read_of_silent _ rfl).trans (read_of_silent _ rfl))
    rw [map_cons, flatMap_cons, append_assoc, hplus, read_quote, ih]
    simp

theorem value_sum :
    value? (Text.join " + " ("\"\"" :: texts.map quote)) = some (units texts.flatten) := by
  rw [join_cons]
  exact (read_quote [] _).trans (by rw [read_terms]; rfl)

/-- A template denotes its texts one after another, with every line ended by a line feed. -/
theorem value_template :
    value? ('\x60' :: texts.flatMap escapeTemplate ++ "`") =
      some (units (lineFeeds texts.flatten)) := by
  have hflat : texts.flatMap escapeTemplate = escapeTemplate texts.flatten := by
    induction texts with
    | nil => rfl
    | cons t texts ih =>
      rw [flatMap_cons, ih]
      exact flatMap_append.symm
  rw [hflat]
  refine (read_of_silent _ rfl).trans ((read_template _ []).trans ?_)
  simp [read]

def partsOf (decode : Bool) (texts : List Text) : List Text :=
  (texts.filter (!·.isEmpty)).map (if decode then decodeEntities else id)

theorem flatten_partsOf (decode : Bool) (texts : List Text) :
    (partsOf decode texts).flatten = texts.flatMap (if decode then decodeEntities else id) := by
  induction texts with
  | nil => rfl
  | cons t texts ih =>
    cases t with
    | nil =>
      have hnil : (if decode then decodeEntities else id) ([] : Text) = [] := by
        cases decode <;> rfl
      rw [flatMap_cons, hnil]
      exact ih
    | cons c t => exact congrArg (_ ++ ·) ih

theorem partsOf_eq_nil (decode : Bool) (texts : List Text) :
    partsOf decode texts = [] ↔ texts.all List.isEmpty = true := by
  simp [partsOf]

/-- Texts as one string expression are their parts as a template or as a sum. -/
theorem join?_texts (dialect : Dialect) (decode : Bool) (texts : List Text) :
    Piece.join? dialect decode (texts.map .text)
      = if partsOf decode texts = [] then none
        else
          match dialect with
          | .modern => some ('\x60' :: (partsOf decode texts).flatMap escapeTemplate ++ "`")
          | .legacy => some (Text.join " + " ("\"\"" :: (partsOf decode texts).map quote)) := by
  have hfilter : (texts.map Piece.text).filter Piece.counts
      = (texts.filter (!·.isEmpty)).map .text := by
    rw [filter_map]
    rfl
  rw [Piece.join?, hfilter, partsOf]
  cases texts.filter (!·.isEmpty) with
  | nil => rfl
  | cons t ts =>
    cases dialect with
    | modern => simp [Piece.template, flatMap_map]
    | legacy => simp [Piece.term, Function.comp_def]

/-- Texts as one string expression: a sum of quoted literals denotes them as they are, a template
with every line ended by a line feed, so the two agree exactly without a carriage return. -/
theorem value_join_eq_iff (decode : Bool) (texts : List Text) :
    let whole := texts.flatMap (if decode then decodeEntities else id)
    let value (dialect : Dialect) := (Piece.join? dialect decode (texts.map .text)).map value?
    let noText := texts.all List.isEmpty
    value .legacy = (if noText then none else some (some (units whole))) ∧
      value .modern = (if noText then none else some (some (units (lineFeeds whole)))) ∧
      (value .modern = value .legacy ↔ '\r' ∉ whole) := by
  intro whole value noText
  have hlegacy : value .legacy = if noText then none else some (some (units whole)) := by
    simp only [value, join?_texts, partsOf_eq_nil]
    split_ifs
    · rfl
    · rw [Option.map_some, value_sum, flatten_partsOf]
  have hmodern : value .modern = if noText then none else some (some (units (lineFeeds whole))) := by
    simp only [value, join?_texts, partsOf_eq_nil]
    split_ifs
    · rfl
    · rw [Option.map_some, value_template, flatten_partsOf]
  refine ⟨hlegacy, hmodern, ?_⟩
  rw [hmodern, hlegacy]
  split_ifs with hnone
  · have hwhole : whole = [] := by
      have hparts := flatten_partsOf decode texts
      rw [(partsOf_eq_nil decode texts).2 hnone] at hparts
      exact hparts.symm
    simp [hwhole]
  · simp only [Option.some.injEq]
    refine ⟨fun h => ?_, fun h => by rw [lineFeeds_eq_self h]⟩
    rw [← carriage_mem_units, ← h, carriage_mem_units]
    exact carriage_notMem_lineFeeds whole

/-- A carriage return is a line feed in one dialect and itself in the other. -/
theorem value_join_carriage :
    (Piece.join? .modern false [.text "a\rb"]).map value? = some (some [97, 10, 98]) ∧
      (Piece.join? .legacy false [.text "a\rb"]).map value? = some (some [97, 13, 98]) := by
  decide

end Literal
end Patchwork
