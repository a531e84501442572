import Patchwork.Proofs.ValueReading

/-!
# Values that are lists

A list is a value made of components with blanks between them (`IsList`). A component is a
number or an expression, with a sign in front and the letters of a unit or a percent sign behind it.

Reading a list gives the tokens of its components one after the other (`readAtoms_list`), and each
component has at most one way to be read (`Component.tokens?`). A number after an operand ends the
reading, and so does an expression without a sign. So a list is read to its end only if an operator
stands between each two components: `IsArithmetic` says so, and `IsList.isSome_parse?` that this is
all that is needed.
-/

namespace Patchwork.Style

open List Bool Option

open Decimal (Numeral.isSign)

/-! ## Lists -/

/-- A sign. -/
inductive Sign where
  | plus | minus
  deriving DecidableEq, Repr

namespace Sign

def char : Sign → Char
  | plus => '+'
  | minus => '-'

def text : Option Sign → Text
  | none => []
  | some s => [s.char]

end Sign

/-- May the text go on a number with its unit, after a character? There a sign stands only in an
exponent. -/
def continuesNumber (before : Char) : Text → Bool
  | [] => true
  | c :: t =>
    (isWordPart c || Numeral.isSign c && (before == 'e' || before == 'E')) && continuesNumber c t

def isNumberText : Text → Bool
  | [] => false
  | c :: t => (c.isDigit || c == '.') && continuesNumber c t

/-- What a component of a list is made of, without its sign and without a percent sign. -/
inductive Body where
  | number (t : Text)
  | interpolation (e : Expr) (letters : Text)
  deriving DecidableEq, Repr

namespace Body

def atoms : Body → List Atom
  | number t => t.map .char
  | interpolation e letters => .expr e :: letters.map .char

def isFormed : Body → Bool
  | number t => isNumberText t
  | interpolation _ letters => letters.all isWordPart

end Body

/-- A component of a list. -/
structure Component where
  /-- The blanks before it. -/
  gap : Text
  sign : Option Sign
  body : Body
  percent : Bool
  deriving DecidableEq, Repr

namespace Component

def atoms (c : Component) : List Atom :=
  (c.gap ++ Sign.text c.sign).map .char ++
    (c.body.atoms ++ if c.percent then [.char '%'] else [])

def isFormed (c : Component) : Bool :=
  c.gap.all Text.isBlank && c.body.isFormed

end Component

/-- The value is a list: its components with blanks between them. -/
structure IsList (cs : List Component) (value : List Piece) : Prop where
  spelled : atoms value = cs.flatMap Component.atoms
  formed : ∀ c ∈ cs, c.isFormed = true
  apart : ∀ c ∈ cs.tail, c.gap ≠ []

/-! ## The tokens of a list -/

namespace Component

/-- The tokens of a sign before an expression. Without a sign no expression follows an operand. -/
def signTokens? (after : Bool) : Option Sign → Option (List Token)
  | none => if after then none else some []
  | some .plus => some (if after then [.op .add] else [])
  | some .minus => some [.op .sub]

def percentTokens (c : Component) : List Token :=
  if c.percent then [.op .rem] else []

/-- The tokens of a component, after an operand or not. There are none when the value is not
arithmetic. -/
def tokens? (after : Bool) (c : Component) : Option (List Token) :=
  match c.body with
  | .number t =>
    if after then none
    else (Quantity.parse? (Sign.text c.sign ++ t)).map fun q => .number q :: c.percentTokens
  | .interpolation e letters =>
    if letters.isEmpty then
      (signTokens? after c.sign).map fun ts => ts ++ .running e.source :: c.percentTokens
    else none

end Component

def listTokens? (after : Bool) : List Component → Option (List Token)
  | [] => some []
  | c :: cs => (c.tokens? after).bind fun ts => (listTokens? (!c.percent) cs).map (ts ++ ·)

namespace Formula

def Reading.pushAll (r : Reading) (ts : List Token) : Reading :=
  ⟨ts.reverse ++ r.tokens, false⟩

variable {r : Reading} {as : List Atom} {t : Text}

theorem readAtoms_blanks {gap : Text} (h : gap.all Text.isBlank = true) (r : Reading) :
    readAtoms r 0 (gap.map .char ++ as) =
      readAtoms { r with space := r.space || !gap.isEmpty } 0 as := by
  induction gap generalizing r with
  | nil => simp
  | cons c gap ih =>
    obtain ⟨hc, hgap⟩ := Bool.and_eq_true_iff.mp (all_cons ▸ h)
    rw [map_cons, cons_append, readAtoms, readChar_blank hc]
    show readAtoms { r with space := true } 0 _ = _
    rw [ih hgap]
    simp

theorem readAtoms_skip (t : Text) : readAtoms r t.length (t.map .char ++ as) = readAtoms r 0 as := by
  induction t with
  | nil => rfl
  | cons c t ih => exact ih

theorem readAtoms_percent {t : Token} (ht : t.endsOperand = true) (c : Component) :
    readAtoms (r.push t) 0 ((if c.percent then [.char '%'] else []) ++ as) =
      readAtoms (r.pushAll (t :: c.percentTokens)) 0 as := by
  unfold Component.percentTokens
  split
  · have hafter : (r.push t).afterOperand = true := ht
    rw [singleton_append, readAtoms, readChar_percent hafter]
    rfl
  · rfl

variable {before : Char}

/-- The rest of a number is made of word characters, or it breaks off at the sign of an exponent. -/
theorem continuesNumber_cases (h : continuesNumber before t = true) :
    t.all isWordPart = true ∨ ∃ front sign back, t = front ++ sign :: back ∧
      front.all isWordPart = true ∧ Numeral.isSign sign = true ∧
        ∃ e, (before :: front).getLast? = some e ∧ (e = 'e' ∨ e = 'E') := by
  induction t generalizing before with
  | nil => exact .inl rfl
  | cons c t ih =>
    obtain ⟨hc, ht⟩ := Bool.and_eq_true_iff.mp h
    rcases or_eq_true_iff.mp hc with hpart | hsign
    · rcases ih ht with hall | ⟨front, sign, back, rfl, hfront, hsign, e, he, hexp⟩
      · exact .inl (by rw [all_cons, hpart, hall, Bool.and_self])
      · refine .inr ⟨c :: front, sign, back, rfl, ?_, hsign, e, ?_, hexp⟩
        · rw [all_cons, hpart, hfront, Bool.and_self]
        · rw [getLast?_cons_cons, he]
    · obtain ⟨hsign, hexp⟩ := Bool.and_eq_true_iff.mp hsign
      refine .inr ⟨[], c, t, rfl, rfl, hsign, before, rfl, ?_⟩
      simpa using hexp

theorem isWordPart_or_isSign (h : continuesNumber before t = true) :
    ∀ c ∈ t, isWordPart c = true ∨ Numeral.isSign c = true := by
  induction t generalizing before with
  | nil => exact nofun
  | cons c t ih =>
    obtain ⟨hc, ht⟩ := Bool.and_eq_true_iff.mp h
    intro d hd
    rcases mem_cons.mp hd with rfl | hd
    · exact (or_eq_true_iff.mp hc).imp id fun h => (Bool.and_eq_true_iff.mp h).1
    · exact ih ht d hd

theorem not_blank_of_startsNumber {c : Char} (hc : startsNumber c t = true)
    (ht : continuesNumber c t = true) : ∀ d ∈ c :: t, Text.isBlank d = false := by
  have hsigns : ∀ d, Numeral.isSign d = true → Text.isBlank d = false := by
    intro d hd
    rcases eq_of_isSign hd with rfl | rfl <;> decide
  intro d hd
  rcases mem_cons.mp hd with rfl | hd
  · rcases or_eq_true_iff.mp hc with hdigit | hsign
    · exact isBlank_of_isWordPart (isWordPart_of_startsDigit hdigit)
    · exact hsigns d (Bool.and_eq_true_iff.mp hsign).1
  · exact (isWordPart_or_isSign ht d hd).elim isBlank_of_isWordPart (hsigns d)

theorem not_percent_of_continuesNumber (h : continuesNumber before t = true) :
    '%' ∉ t := fun hmem => by
  rcases isWordPart_or_isSign h '%' hmem with hpart | hsign
  · exact absurd hpart (by decide)
  · exact absurd hsign (by decide)

theorem startsNumber_append {c : Char} (h : startsNumber c t = true) (more : Text) :
    startsNumber c (t ++ more) = true := by
  cases t with
  | nil =>
    rcases or_eq_true_iff.mp h with hdigit | hsign
    · exact or_eq_true_iff.mpr (.inl hdigit)
    · exact absurd (Bool.and_eq_true_iff.mp hsign).2 (by decide)
  | cons d t => exact h

theorem parse?_before_exponent {c e : Char} {front : Text} (hc : startsNumber c t = true)
    (hblank : ∀ d ∈ c :: front, Text.isBlank d = false) (he : (c :: front).getLast? = some e)
    (hexp : e = 'e' ∨ e = 'E') : Quantity.parse? (c :: front) = none := by
  rcases eq_nil_or_concat' front with rfl | ⟨front, d, rfl⟩
  · -- a number does not begin with the letter
    obtain rfl : c = e := Option.some.inj he
    rcases hexp with rfl | rfl <;> cases hc
  · obtain rfl : d = e := by
      rw [← cons_append, getLast?_concat] at he
      exact Option.some.inj he
    exact Quantity.parse?_of_exponent hblank hexp

theorem readAtoms_number {c : Char} (hc : startsNumber c t = true) (ht : continuesNumber c t = true)
    (hafter : r.afterOperand = false) (has : (ahead as).takeWhile inNumeral = []) :
    readAtoms r 0 ((c :: t).map .char ++ as) =
      (Quantity.parse? (c :: t)).bind fun q => readAtoms (r.push (.number q)) 0 as := by
  have hblank := not_blank_of_startsNumber hc ht
  rw [map_cons, cons_append, readAtoms, ahead_append (not_percent_of_continuesNumber ht),
    readChar_number (startsNumber_append hc _) hafter]
  rcases continuesNumber_cases ht with hall | ⟨front, sign, back, rfl, hfront, hsign, e, he, hexp⟩
  · have htake : (t ++ ahead as).takeWhile inNumeral = t := by
      rw [takeWhile_append_of_pos fun d hd =>
        inNumeral_of_isWordPart (all_eq_true.mp hall d hd), has, append_nil]
    rw [htake]
    cases Quantity.parse? (c :: t) with
    | none => rfl
    | some q => exact readAtoms_skip t
  · have hstop : inNumeral sign = false := by
      rcases eq_of_isSign hsign with rfl | rfl <;> decide
    have htake : (front ++ sign :: back ++ ahead as).takeWhile inNumeral = front := by
      rw [append_assoc, takeWhile_append_of_pos fun d hd =>
        inNumeral_of_isWordPart (all_eq_true.mp hfront d hd), cons_append,
        takeWhile_cons_of_neg (by rw [hstop]; exact false_ne_true), append_nil]
    have hwhole : Quantity.parse? (c :: (front ++ sign :: back)) = none :=
      Quantity.parse?_of_sign_mem hblank hsign (mem_append_right _ mem_cons_self)
    have hfirst : Quantity.parse? (c :: front) = none :=
      parse?_before_exponent hc
        (fun d hd => hblank d (cons_append ▸ mem_append_left _ hd)) he hexp
    rw [htake, hwhole, hfirst]
    rfl

theorem readAtoms_number_after (ht : isNumberText t = true) (hafter : r.afterOperand = true)
    (hspace : r.space = true) (sign : Option Sign) :
    readAtoms r 0 ((Sign.text sign ++ t).map .char ++ as) = none := by
  obtain _ | ⟨c, t⟩ := t
  · cases ht
  obtain ⟨hc, ht⟩ := Bool.and_eq_true_iff.mp ht
  have hpart := isWordPart_of_startsDigit hc
  cases sign with
  | none =>
    rw [Sign.text, nil_append, map_cons, cons_append, readAtoms,
      readChar_wordPart_after hpart hafter]
    rfl
  | some sign =>
    have hsign : Numeral.isSign sign.char = true := by cases sign <;> rfl
    have hpercent : (c == '%') = false := beq_eq_false_of_isWordPart hpart (by decide)
    have hspaced : spaced (ahead ((c :: t).map .char ++ as)) = false := by
      rw [map_cons, cons_append, ahead, hpercent]
      exact isBlank_of_isWordPart hpart
    rw [Sign.text, singleton_append, map_cons, cons_append, readAtoms,
      readChar_sign_after hsign hafter hspace hspaced]
    rfl

theorem readAtoms_signed_number (ht : isNumberText t = true)
    (hspace : r.afterOperand = true → r.space = true) (sign : Option Sign)
    (has : (ahead as).takeWhile inNumeral = []) :
    readAtoms r 0 ((Sign.text sign ++ t).map .char ++ as) =
      if r.afterOperand then none
      else (Quantity.parse? (Sign.text sign ++ t)).bind fun q =>
        readAtoms (r.push (.number q)) 0 as := by
  split
  next hafter => exact readAtoms_number_after ht hafter (hspace hafter) sign
  next hafter =>
    have hafter : r.afterOperand = false := eq_false_iff.mpr hafter
    obtain _ | ⟨c, t⟩ := t
    · cases ht
    obtain ⟨hc, ht⟩ := Bool.and_eq_true_iff.mp ht
    cases sign with
    | none =>
      have hstarts : startsNumber c t = true := or_eq_true_iff.mpr (.inl hc)
      exact readAtoms_number hstarts ht hafter has
    | some sign =>
      have hstarts : startsNumber sign.char (c :: t) = true := by
        have hsign : Numeral.isSign sign.char = true := by cases sign <;> rfl
        simp [startsNumber, startsNumeral, hsign, hc]
      have hgoes : continuesNumber sign.char (c :: t) = true := by
        rw [continuesNumber, isWordPart_of_startsDigit hc, ht]
        rfl
      exact readAtoms_number hstarts hgoes hafter has

theorem readChar_sign_end (r : Reading) (sign : Sign) :
    readChar r sign.char [] =
      (Component.signTokens? r.afterOperand (some sign)).map fun ts => (r.pushAll ts, 0) := by
  cases sign <;> cases hafter : r.afterOperand <;>
    simp [Sign.char, readChar, Text.isBlank, Numeral.isSign, spaced, startsNumeral,
      Component.signTokens?, Reading.pushAll, Reading.push, hafter]

theorem afterOperand_pushAll_sign {sign : Option Sign} {ts : List Token}
    (h : Component.signTokens? r.afterOperand sign = some ts) :
    (r.pushAll ts).afterOperand = false := by
  rcases sign with _ | _ | _ <;> cases hafter : r.afterOperand <;>
    simp only [hafter] at h <;> cases h <;> first | exact hafter | rfl

theorem readAtoms_expression (r : Reading) (sign : Option Sign) (e : Expr) :
    readAtoms r 0 ((Sign.text sign).map .char ++ .expr e :: as) =
      (Component.signTokens? r.afterOperand sign).bind fun ts =>
        readAtoms ((r.pushAll ts).push (.running e.source)) 0 as := by
  cases sign with
  | none =>
    rw [Sign.text, map_nil, nil_append, readAtoms, Component.signTokens?]
    split <;> rfl
  | some sign =>
    have hahead : ahead (.expr e :: as) = [] := rfl
    rw [Sign.text, map_singleton, singleton_append, readAtoms, hahead, readChar_sign_end]
    cases hsign : Component.signTokens? r.afterOperand (some sign) with
    | none => rfl
    | some ts =>
      show readAtoms (r.pushAll ts) 0 (.expr e :: as) = _
      rw [readAtoms, if_neg (eq_false_iff.mp (afterOperand_pushAll_sign hsign))]
      rfl

/-- The letters of a unit do not follow an expression. -/
theorem readAtoms_letters {letters : Text} (h : letters.all isWordPart = true)
    (hafter : r.afterOperand = true) :
    readAtoms r 0 (letters.map .char ++ as) =
      if letters.isEmpty then readAtoms r 0 as else none := by
  cases letters with
  | nil => rfl
  | cons c letters =>
    obtain ⟨hc, -⟩ := Bool.and_eq_true_iff.mp (all_cons ▸ h)
    rw [map_cons, cons_append, readAtoms, readChar_wordPart_after hc hafter]
    rfl

/-- A component is read as its tokens, if a blank comes before it after an operand, and a blank or
nothing after it. -/
theorem readAtoms_component {c : Component} (hc : c.isFormed = true)
    (hgap : r.afterOperand = true → c.gap ≠ []) (has : (ahead as).takeWhile inNumeral = []) :
    readAtoms r 0 (c.atoms ++ as) =
      (c.tokens? r.afterOperand).bind fun ts => readAtoms (r.pushAll ts) 0 as := by
  obtain ⟨hblank, hbody⟩ := Bool.and_eq_true_iff.mp hc
  obtain ⟨gap, sign, body, percent⟩ := c
  let spaced : Reading := { r with space := r.space || !gap.isEmpty }
  have hspace : spaced.afterOperand = true → spaced.space = true := by
    intro hafter
    simp [spaced, hgap hafter]
  rw [Component.atoms, map_append, append_assoc, append_assoc, readAtoms_blanks hblank]
  cases body with
  | number t =>
    -- the percent sign is read apart from the number before it
    have hpercent : (ahead ((if percent then [.char '%'] else []) ++ as)).takeWhile inNumeral = [] := by
      split
      · rfl
      · exact has
    rw [Body.atoms, append_assoc, ← append_assoc, ← map_append,
      readAtoms_signed_number hbody hspace sign hpercent]
    show (if r.afterOperand then none else _) = _
    dsimp only [Component.tokens?]
    split
    · rfl
    cases Quantity.parse? (Sign.text sign ++ t) with
    | none => rfl
    | some q =>
      have hends : (Token.number q).endsOperand = true := rfl
      exact readAtoms_percent hends ⟨gap, sign, .number t, percent⟩
  | interpolation e letters =>
    rw [Body.atoms, cons_append, cons_append, append_assoc, readAtoms_expression]
    show (Component.signTokens? r.afterOperand sign).bind _ = _
    dsimp only [Component.tokens?]
    cases Component.signTokens? r.afterOperand sign with
    | none => cases letters <;> rfl
    | some ts =>
      have hends : (Token.running e.source).endsOperand = true := rfl
      have hafter : ((r.pushAll ts).push (.running e.source)).afterOperand = true := rfl
      show readAtoms ((r.pushAll ts).push (.running e.source)) 0 _ = _
      rw [readAtoms_letters hbody hafter]
      split
      · rw [readAtoms_percent hends ⟨gap, sign, .interpolation e letters, percent⟩]
        simp [Reading.pushAll]
      · rfl

end Formula

/-! ## The operands of a list -/

namespace Component

open Formula (Operand Joined)

/-- What comes before the operand of a component: an operator if it follows an operand. -/
inductive Lead : (after : Bool) → List Token → Prop where
  | none : Lead false []
  | op (o : Operator) : Lead true [.op o]

theorem tokens?_cases {c : Component} {after : Bool} {ts : List Token}
    (h : c.tokens? after = some ts) :
    ∃ lead x, Lead after lead ∧ Operand x ∧ ts = lead ++ (x ++ c.percentTokens) := by
  obtain ⟨gap, sign, body, percent⟩ := c
  cases body with
  | number t =>
    dsimp only [tokens?] at h
    split at h
    · cases h
    next hafter =>
      obtain ⟨q, -, rfl⟩ := map_eq_some_iff.mp h
      obtain rfl : after = false := eq_false_iff.mpr hafter
      exact ⟨[], [.number q], .none, .number q, rfl⟩
  | interpolation e letters =>
    dsimp only [tokens?] at h
    split at h
    · obtain ⟨signs, hsign, rfl⟩ := map_eq_some_iff.mp h
      rcases sign with _ | _ | _ <;> cases after <;> cases hsign
      · exact ⟨[], _, .none, .running e.source, rfl⟩
      · exact ⟨[], _, .none, .running e.source, rfl⟩
      · exact ⟨_, _, .op .add, .running e.source, rfl⟩
      · exact ⟨[], _, .none, .negated e.source, rfl⟩
      · exact ⟨_, _, .op .sub, .running e.source, rfl⟩
    · cases h

theorem afterOperand_pushAll {c : Component} {after : Bool} {ts : List Token}
    (h : c.tokens? after = some ts) (r : Formula.Reading) :
    (r.pushAll ts).afterOperand = !c.percent := by
  obtain ⟨lead, x, -, hx, rfl⟩ := tokens?_cases h
  have hends : ∃ front t, x = front ++ [t] ∧ t.endsOperand = true := by
    cases hx with
    | number | running => exact ⟨[], _, rfl, rfl⟩
    | negated source => exact ⟨[.op .sub], _, rfl, rfl⟩
  obtain ⟨front, t, rfl, ht⟩ := hends
  cases hp : c.percent with
  | true => simp [Formula.Reading.pushAll, Formula.Reading.afterOperand, percentTokens, hp,
      Token.endsOperand]
  | false => simp [Formula.Reading.pushAll, Formula.Reading.afterOperand, percentTokens, hp, ht]

end Component

variable {cs : List Component} {after : Bool} {ts : List Token}

theorem Formula.readAtoms_list {r : Reading} (hformed : ∀ c ∈ cs, c.isFormed = true)
    (hapart : ∀ c ∈ cs.tail, c.gap ≠ [])
    (hfirst : r.afterOperand = true → ∀ c ∈ cs.head?, c.gap ≠ []) :
    (readAtoms r 0 (cs.flatMap Component.atoms)).map (·.tokens.reverse) =
      (listTokens? r.afterOperand cs).map (r.tokens.reverse ++ ·) := by
  induction cs generalizing r with
  | nil => simp [readAtoms, listTokens?]
  | cons c cs ih =>
    -- the next component begins with a blank
    have hahead : (ahead (cs.flatMap Component.atoms)).takeWhile inNumeral = [] := by
      cases cs with
      | nil => rfl
      | cons d cs =>
        obtain ⟨hblank, -⟩ := Bool.and_eq_true_iff.mp (hformed d (mem_cons_of_mem c mem_cons_self))
        obtain ⟨b, gap, hgap⟩ := exists_cons_of_ne_nil (hapart d mem_cons_self)
        rw [hgap] at hblank
        have hb := (Bool.and_eq_true_iff.mp hblank).1
        have hpercent : (b == '%') = false := by
          refine beq_eq_false_iff_ne.mpr fun heq => ?_
          rw [heq] at hb
          cases hb
        rw [flatMap_cons, Component.atoms, hgap]
        simp only [cons_append, map_cons, ahead, hpercent]
        exact takeWhile_cons_of_neg (by rw [inNumeral_of_isBlank hb]; exact false_ne_true)
    rw [flatMap_cons, readAtoms_component (hformed c mem_cons_self)
      (fun h => hfirst h c rfl) hahead, listTokens?]
    cases htokens : c.tokens? r.afterOperand with
    | none => rfl
    | some ts =>
      have hnext := ih (r := r.pushAll ts) (fun d hd => hformed d (mem_cons_of_mem c hd))
        (fun d hd => hapart d (mem_of_mem_tail hd))
        (fun _ d hd => hapart d (mem_of_mem_head? hd))
      rw [Component.afterOperand_pushAll htokens] at hnext
      show (readAtoms (r.pushAll ts) 0 _).map _ = _
      rw [hnext]
      simp [Reading.pushAll, Function.comp_def]

open Formula (Joined)

/-- The tokens of a list that does not end in a percent sign are operands joined by operators. -/
theorem listTokens?_joined (hcs : cs ≠ []) (hends : ∀ c ∈ cs.getLast?, c.percent = false)
    (h : listTokens? after cs = some ts) :
    ∃ lead rest, Component.Lead after lead ∧ Joined rest ∧ ts = lead ++ rest := by
  induction cs generalizing after ts with
  | nil => exact absurd rfl hcs
  | cons c cs ih =>
    obtain ⟨own, hown, h⟩ := Option.bind_eq_some_iff.mp h
    obtain ⟨more, hmore, rfl⟩ := map_eq_some_iff.mp h
    obtain ⟨lead, x, hlead, hx, rfl⟩ := Component.tokens?_cases hown
    cases cs with
    | nil =>
      have hp : c.percent = false := hends c rfl
      cases hmore
      refine ⟨lead, x, hlead, .single hx, ?_⟩
      simp [Component.percentTokens, hp]
    | cons d cs =>
      obtain ⟨next, rest, hnext, hrest, rfl⟩ :=
        ih (cons_ne_nil d cs) (getLast?_cons_cons ▸ hends) hmore
      -- the operator between them is the percent sign, or comes before the next operand
      cases hp : c.percent with
      | true =>
        rw [hp] at hnext
        cases hnext
        refine ⟨lead, _, hlead, .more .rem hx hrest, ?_⟩
        simp [Component.percentTokens, hp]
      | false =>
        rw [hp] at hnext
        cases hnext with
        | op o =>
          refine ⟨lead, _, hlead, .more o hx hrest, ?_⟩
          simp [Component.percentTokens, hp]

theorem listTokens?_concat {c : Component} (hp : c.percent = true)
    (h : listTokens? after (cs ++ [c]) = some ts) :
    ∃ front, ts = front ++ [.op .rem] := by
  induction cs generalizing after ts with
  | nil =>
    obtain ⟨own, hown, h⟩ := Option.bind_eq_some_iff.mp h
    obtain ⟨more, hmore, rfl⟩ := map_eq_some_iff.mp h
    obtain ⟨lead, x, -, -, rfl⟩ := Component.tokens?_cases hown
    cases hmore
    exact ⟨lead ++ x, by simp [Component.percentTokens, hp]⟩
  | cons d cs ih =>
    obtain ⟨own, hown, h⟩ := Option.bind_eq_some_iff.mp h
    obtain ⟨more, hmore, rfl⟩ := map_eq_some_iff.mp h
    obtain ⟨front, rfl⟩ := ih hmore
    exact ⟨own ++ front, (append_assoc ..).symm⟩

/-! ## Lists that are arithmetic -/

namespace Component

def isOperand (c : Component) : Bool :=
  match c.body with
  | .number t => (Quantity.parse? (Sign.text c.sign ++ t)).isSome
  | .interpolation _ letters => letters.isEmpty

/-- Is the component an expression with a sign, which reads as an operator after an operand? -/
def isSignedExpression (c : Component) : Bool :=
  match c.body with
  | .number _ => false
  | .interpolation _ _ => c.sign.isSome

def isMeasured (c : Component) : Bool :=
  match c.body with
  | .number t => (Quantity.parse? (Sign.text c.sign ++ t)).any (·.unit.isSome)
  | .interpolation _ _ => true

theorem isSome_tokens? (c : Component) (after : Bool) :
    (c.tokens? after).isSome = (c.isOperand && (!after || c.isSignedExpression)) := by
  obtain ⟨gap, sign, body, percent⟩ := c
  cases body with
  | number t => cases after <;> simp [tokens?, isOperand, isSignedExpression]
  | interpolation e letters =>
    cases hempty : letters.isEmpty with
    | false => simp [tokens?, isOperand, hempty]
    | true =>
      rcases sign with _ | _ | _ <;> cases after <;>
        simp [tokens?, isOperand, isSignedExpression, signTokens?, hempty]

/-- Operators aside, the tokens of a component have an expression or a unit if it is measured. -/
theorem any_tokens? {c : Component} {after : Bool} {ts : List Token}
    (h : c.tokens? after = some ts) :
    (ts.any Token.isRunning || ts.any Token.hasUnit) = c.isMeasured := by
  obtain ⟨gap, sign, body, percent⟩ := c
  cases body with
  | number t =>
    dsimp only [tokens?] at h
    split at h
    · cases h
    obtain ⟨q, hq, rfl⟩ := map_eq_some_iff.mp h
    cases percent <;> simp [isMeasured, hq, percentTokens, Token.isRunning, Token.hasUnit]
  | interpolation e letters =>
    dsimp only [tokens?] at h
    split at h
    · obtain ⟨signs, -, rfl⟩ := map_eq_some_iff.mp h
      simp [isMeasured, Token.isRunning]
    · cases h

end Component

theorem any_listTokens? (h : listTokens? after cs = some ts) :
    (ts.any Token.isRunning || ts.any Token.hasUnit) = cs.any Component.isMeasured := by
  induction cs generalizing after ts with
  | nil =>
    cases h
    rfl
  | cons c cs ih =>
    obtain ⟨own, hown, h⟩ := Option.bind_eq_some_iff.mp h
    obtain ⟨more, hmore, rfl⟩ := map_eq_some_iff.mp h
    rw [any_append, any_append, any_cons, ← Component.any_tokens? hown, ← ih hmore]
    ac_rfl

theorem exists_op_of_listTokens? {c d : Component} (h : listTokens? after (c :: d :: cs) = some ts) : ∃ o, .op o ∈ ts := by
  obtain ⟨own, hown, h⟩ := Option.bind_eq_some_iff.mp h
  obtain ⟨more, hmore, rfl⟩ := map_eq_some_iff.mp h
  obtain ⟨next, hnext, hmore⟩ := Option.bind_eq_some_iff.mp hmore
  obtain ⟨rest, -, rfl⟩ := map_eq_some_iff.mp hmore
  obtain ⟨lead, x, -, -, rfl⟩ := Component.tokens?_cases hown
  obtain ⟨lead', y, hlead', -, rfl⟩ := Component.tokens?_cases hnext
  cases hp : c.percent with
  | true => exact ⟨.rem, by simp [Component.percentTokens, hp]⟩
  | false =>
    rw [hp] at hlead'
    cases hlead' with
    | op o => exact ⟨o, by simp⟩

/-- Does an operator come between the components when they are read as arithmetic? It is the percent
sign of the first or the sign of the second. -/
def Component.Joins (c d : Component) : Prop :=
  c.percent = true ∨ d.isSignedExpression = true

theorem isSome_listTokens? :
    (listTokens? after cs).isSome = true ↔
      (∀ c ∈ cs, c.isOperand = true) ∧ cs.IsChain Component.Joins ∧
        (after = true → ∀ c ∈ cs.head?, c.isSignedExpression = true) := by
  induction cs generalizing after with
  | nil => simp [listTokens?]
  | cons c cs ih =>
    have hiff : (listTokens? after (c :: cs)).isSome = true ↔
        (c.tokens? after).isSome = true ∧ (listTokens? (!c.percent) cs).isSome = true := by
      rw [listTokens?]
      cases c.tokens? after <;> simp
    rw [hiff, ih, Component.isSome_tokens?, isChain_cons]
    simp only [Component.Joins, and_eq_true, or_eq_true, not_eq_true']
    cases after <;> cases c.percent <;> simp <;> grind

/-- The list reads as arithmetic: its components are operands, an operator comes between each two of
them, and it does not end in one. -/
structure IsArithmetic (cs : List Component) : Prop where
  operands : ∀ c ∈ cs, c.isOperand = true
  joined : cs.IsChain Component.Joins
  ends : ∀ c ∈ cs.getLast?, c.percent = false

namespace IsList

open Formula

variable {cs : List Component} {value : List Piece}

theorem tokens?_eq (h : IsList cs value) (hcut : PercentFirst value) :
    tokens? value = listTokens? false cs := by
  have hread := readAtoms_list (r := {}) h.formed h.apart nofun
  rw [tokens?, readPieces_eq hcut, h.spelled, hread]
  exact map_id'

theorem isSome_parse? (h : IsList cs value) (hcut : PercentFirst value) (hcs : cs ≠ []) :
    (parse? value).isSome = true ↔ IsArithmetic cs := by
  rw [parse?, h.tokens?_eq hcut]
  constructor
  · intro hsome
    obtain ⟨e, he⟩ := isSome_iff_exists.mp hsome
    obtain ⟨ts, hts, he⟩ := Option.bind_eq_some_iff.mp he
    obtain ⟨hoperands, hjoined, -⟩ := isSome_listTokens?.mp (isSome_of_mem hts)
    refine ⟨hoperands, hjoined, fun c hc => eq_false_iff.mpr fun hp => ?_⟩
    obtain ⟨front, rfl⟩ := getLast?_eq_some_iff.mp hc
    obtain ⟨tokens, rfl⟩ := listTokens?_concat hp hts
    rw [ofTokens?_concat_op] at he
    cases he
  · rintro ⟨hoperands, hjoined, hends⟩
    have hsome : (listTokens? false cs).isSome = true :=
      isSome_listTokens?.mpr ⟨hoperands, hjoined, nofun⟩
    obtain ⟨ts, hts⟩ := isSome_iff_exists.mp hsome
    obtain ⟨lead, rest, hlead, hrest, rfl⟩ := listTokens?_joined hcs hends hts
    cases hlead
    rw [hts]
    exact ofTokens?_isSome hrest

theorem needsArithmetic_eq (h : IsList cs value) (hcut : PercentFirst value)
    (htwo : 2 ≤ cs.length) {e : Calc} (he : parse? value = some e) :
    e.needsArithmetic = cs.any Component.isMeasured := by
  rw [parse?, h.tokens?_eq hcut] at he
  obtain ⟨ts, hts, hof⟩ := Option.bind_eq_some_iff.mp he
  have hop : ∃ o, .op o ∈ ts := by
    rcases cs with _ | ⟨c, _ | ⟨d, rest⟩⟩
    · cases htwo
    · simp at htwo
    · exact exists_op_of_listTokens? hts
  have hpos : 0 < e.operators := by
    obtain ⟨o, ho⟩ := hop
    rw [e.operators_eq, tokens_of_ofTokens? hof]
    exact countP_pos_iff.mpr ⟨_, ho, rfl⟩
  rw [Calc.needsArithmetic, decide_eq_true hpos, Bool.true_and, e.hasRunning_eq, e.hasUnit_eq,
    tokens_of_ofTokens? hof, any_listTokens? hts]

end IsList

end Patchwork.Style
