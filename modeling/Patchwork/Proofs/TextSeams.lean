import Mathlib.Data.List.TakeWhile
import Patchwork.Proofs.ListValues

/-!
# Where a text is cut

Two texts in a row among the pieces of a value say the same as one text. The reader of pieces looks
no further than the end of a text, so it can take them for something else. `splits` tells where: the
cut is in a number with its unit, after the minus of a number, or after an operator that touches
what follows it. `merge_texts_iff` says that everywhere else the two texts are read like the one,
and that there they are read alike only if neither of them is arithmetic.

A number at the end of a text is read without the rest of its unit. That the two readings then
differ in their tokens rests on what the characters of a number can be
(`Quantity.parse?_percent_ne`), and on the fact that the reader goes on from its last token and a
blank only (`readOn_alike`).
-/

namespace Patchwork.Style

open List Text Bool Option

open Decimal (Numeral.isSign Numeral.isNumeral Numeral.read? Numeral.Written Numeral.Digits)

/-! ## Quantities with a sign or a percent sign -/

namespace Quantity

variable {t : Text}

theorem digits_of_plus (h : Numeral.Written ('+' :: t)) : Numeral.Digits t := by
  obtain ⟨sign, digits, heq, rfl | rfl | rfl, hdigits⟩ := h
  · cases heq
    exact absurd (hdigits.all '+' mem_cons_self) (by decide)
  · cases heq
    exact hdigits
  · cases heq

theorem read?_plus (h : Numeral.Digits t) : Numeral.read? ('+' :: t) = Numeral.read? t := by
  have hnumeral : Numeral.isNumeral ('+' :: t) = Numeral.isNumeral t := by
    rw [Numeral.isNumeral, Numeral.isNumeral, h.unsigned]
    rfl
  have hminus : (t.head? == some '-') = false := by
    refine beq_eq_false_iff_ne.mpr fun heq => ?_
    exact absurd (h.all '-' (mem_of_mem_head? heq)) (by decide)
  rw [Numeral.read?, Numeral.read?, hnumeral, hminus, h.unsigned]
  rfl

/-- A plus sign in front of a number says nothing. -/
theorem parse?_plus (h : t.head?.any Numeral.isSign = false)
    (hblank : ∀ c ∈ t, Text.isBlank c = false) : parse? ('+' :: t) = parse? t := by
  have hblank' : ∀ c ∈ '+' :: t, Text.isBlank c = false := forall_mem_cons.mpr ⟨by decide, hblank⟩
  refine Option.ext fun q => ?_
  rw [parse?_eq_some_iff_of_not_blank hblank, parse?_eq_some_iff_of_not_blank hblank']
  constructor
  · rintro ⟨number, hreads, hvalue⟩
    obtain ⟨tail, rfl, rfl⟩ := hreads.of_cons
    have hdigits := digits_of_plus hreads.written
    exact ⟨tail, ⟨rfl, [], tail, rfl, .inl rfl, hdigits⟩, (read?_plus hdigits).symm.trans hvalue⟩
  · rintro ⟨number, ⟨rfl, sign, digits, rfl, rfl | rfl | rfl, hdigits⟩, hvalue⟩
    · exact ⟨'+' :: digits, ⟨rfl, ['+'], digits, rfl, .inr (.inl rfl), hdigits⟩,
        (read?_plus hdigits).trans hvalue⟩
    · cases h
    · cases h

/-- A number before a percent sign is another quantity than with the percent sign. -/
theorem parse?_percent_ne {c : Char} {more : Text} {q : Quantity}
    (hblank : ∀ a ∈ c :: (t ++ '%' :: more), Text.isBlank a = false)
    (h : parse? (c :: (t ++ '%' :: more)) = some q) : parse? (c :: t) ≠ some q := by
  intro h'
  have hblank' : ∀ a ∈ c :: t, Text.isBlank a = false := fun a ha =>
    hblank a (mem_append_left ('%' :: more) ha)
  obtain ⟨_, hreads, -⟩ := (parse?_eq_some_iff_of_not_blank hblank).mp h
  obtain ⟨_, hreads', -⟩ := (parse?_eq_some_iff_of_not_blank hblank').mp h'
  obtain ⟨tail, rfl, htail⟩ := hreads.of_cons
  obtain ⟨tail', -, htail'⟩ := hreads'.of_cons
  -- no number has a percent sign and no unit has two, so both texts would have only one
  have hnot : '%' ∉ tail := fun hmem => absurd (hreads.written.of_mem_tail hmem) (by decide)
  have hunit : ∀ unit, (Measure.suffix unit).count '%' ≤ 1 := by
    rintro (_ | u)
    · decide
    · cases u <;> decide
  have hone := hunit q.unit
  have hcount := congrArg (count '%') htail
  have hcount' := congrArg (count '%') htail'
  rw [count_append, count_append, count_cons_self, count_eq_zero.mpr hnot] at hcount
  rw [count_append] at hcount'
  omega

end Quantity

namespace Formula

variable {r s : Reading} {c d : Char} {t : Text} {ps : List Piece}

/-! ## Reading on -/

/-- Read on in a text, after skipping some characters, and then the pieces after it. -/
def readOn (r : Reading) (skip : Nat) (t : Text) (ps : List Piece) : Option Reading :=
  (readText r skip t).bind (readPieces · ps)

theorem readPieces_text (r : Reading) (t : Text) (ps : List Piece) :
    readPieces r (.text t :: ps) = readOn r 0 t ps :=
  rfl

@[simp] theorem readOn_nil (r : Reading) (skip : Nat) (ps : List Piece) :
    readOn r skip [] ps = readPieces r ps := by
  cases skip <;> rfl

theorem readOn_cons (r : Reading) (c : Char) (t : Text) (ps : List Piece) :
    readOn r 0 (c :: t) ps = (readChar r c t).bind fun read => readOn read.1 read.2 t ps := by
  rw [readOn, readText, bind_assoc]
  rfl

theorem readOn_length (r : Reading) (t : Text) (ps : List Piece) :
    readOn r t.length t ps = readPieces r ps := by
  induction t with
  | nil => rfl
  | cons c t ih => exact ih

theorem readPieces_append (r : Reading) (front ps : List Piece) :
    readPieces r (front ++ ps) = (readPieces r front).bind (readPieces · ps) := by
  induction front generalizing r with
  | nil => rfl
  | cons p front ih =>
    cases p with
    | comment t => exact ih r
    | expr e =>
      rw [cons_append, readPieces, readPieces, ih]
      split <;> rfl
    | text t =>
      rw [cons_append, readPieces, readPieces, bind_assoc]
      exact congrArg _ (funext ih)

/-! ## Readings that go on alike -/

/-- The readings end alike: what follows cannot tell them apart. -/
structure Reading.Like (r s : Reading) : Prop where
  afterOperand : r.afterOperand = s.afterOperand
  space : r.space = s.space

theorem Reading.Like.refl (r : Reading) : r.Like r := ⟨rfl, rfl⟩

/-- What is read on: tokens, the latest first, and whether a blank follows them. -/
structure Growth where
  tokens : List Token
  space : Bool

def Reading.grow (r : Reading) (g : Growth) : Reading :=
  ⟨g.tokens ++ r.tokens, g.space⟩

theorem Reading.Like.grow (h : r.Like s) (g : Growth) : (r.grow g).Like (s.grow g) where
  afterOperand := by
    obtain ⟨tokens, space⟩ := g
    cases tokens with
    | nil => exact h.afterOperand
    | cons t ts => rfl
  space := rfl

theorem Reading.grow_grow (r : Reading) (g g' : Growth) :
    (r.grow g).grow g' = r.grow ⟨g'.tokens ++ g.tokens, g'.space⟩ := by
  simp [Reading.grow]

/-- Neither of two readings goes on with a character, or both by the same. -/
def Alike (r s : Reading) (x y : Option (Reading × Nat)) : Prop :=
  ∃ step : Option (Growth × Nat), x = step.map (fun g => (r.grow g.1, g.2)) ∧
    y = step.map (fun g => (s.grow g.1, g.2))

theorem Alike.ite {p : Prop} [Decidable p] {x y x' y' : Option (Reading × Nat)}
    (h : Alike r s x y) (h' : Alike r s x' y') :
    Alike r s (if p then x else x') (if p then y else y') := by
  split
  · exact h
  · exact h'

theorem readChar_alike (h : r.Like s) (c : Char) (t : Text) :
    Alike r s (readChar r c t) (readChar s c t) := by
  have hnone : Alike r s none none := ⟨none, rfl, rfl⟩
  have hspace : ∀ space, Alike r s (some ({ r with space }, 0)) (some ({ s with space }, 0)) :=
    fun space => ⟨some (⟨[], space⟩, 0), rfl, rfl⟩
  have hpush : ∀ tok n, Alike r s (some (r.push tok, n)) (some (s.push tok, n)) := fun tok n =>
    ⟨some (⟨[tok], false⟩, n), rfl, rfl⟩
  have hsign : Alike r s
      (some (if c == '-' then r.push (.op .sub) else { r with space := false }, 0))
      (some (if c == '-' then s.push (.op .sub) else { s with space := false }, 0)) := by
    split
    · exact hpush _ _
    · exact hspace _
  have hnumber : ∀ (q? : Option Quantity) n, Alike r s
      (q?.map fun q => (r.push (.number q), n)) (q?.map fun q => (s.push (.number q), n)) := by
    intro q? n
    cases q? with
    | none => exact hnone
    | some q => exact hpush _ _
  unfold readChar
  rw [← h.afterOperand, ← h.space]
  repeat' apply Alike.ite
  all_goals first
    | exact hnone
    | exact hspace _
    | exact hpush _ _
    | exact hsign
    | exact hnumber _ _

theorem grow_alike (g : Growth) {x y : Option Reading} (h : ∃ step : Option Growth,
    x = step.map (r.grow g).grow ∧ y = step.map (s.grow g).grow) :
    ∃ step : Option Growth, x = step.map r.grow ∧ y = step.map s.grow := by
  obtain ⟨step, rfl, rfl⟩ := h
  refine ⟨step.map fun g' => ⟨g'.tokens ++ g.tokens, g'.space⟩, ?_, ?_⟩
  · rw [Option.map_map]
    exact congrArg (Option.map · step) (funext (r.grow_grow g))
  · rw [Option.map_map]
    exact congrArg (Option.map · step) (funext (s.grow_grow g))

theorem readText_alike (h : r.Like s) (skip : Nat) (t : Text) : ∃ step : Option Growth,
    readText r skip t = step.map r.grow ∧ readText s skip t = step.map s.grow := by
  induction t generalizing r s skip with
  | nil =>
    have hs : s.grow ⟨[], r.space⟩ = s := by
      rw [h.space]
      rfl
    refine ⟨some ⟨[], r.space⟩, by cases skip <;> rfl, ?_⟩
    rw [map_some, hs]
    cases skip <;> rfl
  | cons c t ih =>
    cases skip with
    | succ skip => exact ih h skip
    | zero =>
      obtain ⟨step, hr, hs⟩ := readChar_alike h c t
      rw [readText, readText, hr, hs]
      cases step with
      | none => exact ⟨none, rfl, rfl⟩
      | some g => exact grow_alike g.1 (ih (h.grow g.1) g.2)

theorem readPieces_alike (h : r.Like s) (ps : List Piece) : ∃ step : Option Growth,
    readPieces r ps = step.map r.grow ∧ readPieces s ps = step.map s.grow := by
  induction ps generalizing r s with
  | nil => exact readText_alike h 0 []
  | cons p ps ih =>
    cases p with
    | comment t => exact ih h
    | expr e =>
      rw [readPieces, readPieces, ← h.afterOperand]
      by_cases hafter : r.afterOperand = true
      · rw [if_pos hafter, if_pos hafter]
        exact ⟨none, rfl, rfl⟩
      · rw [if_neg hafter, if_neg hafter]
        exact grow_alike _ (ih (h.grow ⟨[.running e.source], false⟩))
    | text t =>
      obtain ⟨step, hr, hs⟩ := readText_alike h 0 t
      rw [readPieces, readPieces, hr, hs]
      cases step with
      | none => exact ⟨none, rfl, rfl⟩
      | some g => exact grow_alike g (ih (h.grow g))

theorem readOn_alike (h : r.Like s) (skip : Nat) (t : Text) (ps : List Piece) :
    ∃ step : Option Growth, readOn r skip t ps = step.map r.grow ∧
      readOn s skip t ps = step.map s.grow := by
  obtain ⟨step, hr, hs⟩ := readText_alike h skip t
  rw [readOn, readOn, hr, hs]
  cases step with
  | none => exact ⟨none, rfl, rfl⟩
  | some g => exact grow_alike g (readPieces_alike (h.grow g) ps)

variable {skip : Nat} {more : Text}

theorem exists_tokens_of_readOn {r' : Reading} (h : readOn r skip t ps = some r') :
    ∃ ts, r'.tokens = ts ++ r.tokens := by
  obtain ⟨step, hstep, -⟩ := readOn_alike (.refl r) skip t ps
  obtain ⟨g, -, rfl⟩ := map_eq_some_iff.mp (hstep.symm.trans h)
  exact ⟨g.tokens, rfl⟩

/-! ## Cuts -/

/-- Does a cut before a character divide what is read with the character `c` at the end of a text?
After an operand that is an operator which has a blank before it and none after it. Elsewhere it is
a number, or the minus of one. -/
def splitsToken (d : Char) (r : Reading) (c : Char) (t : Text) : Bool :=
  if r.afterOperand then
    r.space && t.isEmpty && !Text.isBlank d && (Numeral.isSign c || c == '/')
  else
    startsNumber c t && t.all inNumeral && inNumeral d ||
      c == '-' && t.isEmpty && startsNumeral [d]

def splits (d : Char) (r : Reading) : (skip : Nat) → Text → Bool
  | _, [] => false
  | skip + 1, _ :: t => splits d r skip t
  | 0, c :: t => splitsToken d r c t ||
      (readChar r c t).any fun read => splits d read.1 read.2 t

theorem readChar_congr_afterOperand {t' : Text} (h : r.afterOperand = true)
    (ht : (r.space && (Numeral.isSign c || c == '/')) = true → spaced t = spaced t') :
    readChar r c t = readChar r c t' := by
  cases hop : r.space && (Numeral.isSign c || c == '/') with
  | true => simp only [readChar, h, ht hop, reduceIte]
  | false =>
    rcases and_eq_false_iff.mp hop with hspace | hchar
    · simp only [readChar, h, hspace, Bool.false_and, Bool.and_false, reduceIte]
    · obtain ⟨hsign, hslash⟩ := Bool.or_eq_false_iff.mp hchar
      simp only [readChar, h, hsign, hslash, Bool.false_and, Bool.false_eq_true, reduceIte]

theorem readChar_congr_of_not_startsNumber {t' : Text} (h : r.afterOperand = false)
    (ht : startsNumber c t = false) (ht' : startsNumber c t' = false) :
    readChar r c t = readChar r c t' := by
  obtain ⟨hdigit, hsign⟩ := Bool.or_eq_false_iff.mp ht
  obtain ⟨-, hsign'⟩ := Bool.or_eq_false_iff.mp ht'
  cases hc : Numeral.isSign c with
  | true =>
    rw [hc, Bool.true_and] at hsign hsign'
    simp only [readChar, h, hc, hsign, hsign', Bool.not_false, Bool.and_false, Bool.false_and,
      Bool.and_self, Bool.false_eq_true, reduceIte]
  | false => simp only [readChar, h, hc, hdigit, Bool.false_and, Bool.or_false, Bool.false_eq_true,
      reduceIte]

theorem takeWhile_append_of_not_all (h : (t.all inNumeral && inNumeral d) = false) :
    (t ++ d :: more).takeWhile inNumeral = t.takeWhile inNumeral := by
  induction t with
  | nil => exact takeWhile_cons_of_neg (by simpa using h)
  | cons c t ih =>
    rw [cons_append, takeWhile_cons, takeWhile_cons]
    split
    next hc =>
      rw [all_cons, hc] at h
      rw [ih h]
    · rfl

def endsInPlus (r : Reading) (c : Char) (t more : Text) : Prop :=
  r.afterOperand = false ∧ c = '+' ∧ t = [] ∧ startsNumeral more = true

/-- What is not divided is read in the text before the cut as in the whole. A plus sign before a
number is read by itself, or as a part of the number. -/
theorem readChar_append (h : splitsToken d r c t = false) (more : Text) :
    readChar r c (t ++ d :: more) = readChar r c t ∨ endsInPlus r c t (d :: more) := by
  cases hafter : r.afterOperand with
  | true =>
    left
    refine readChar_congr_afterOperand hafter fun hop => ?_
    cases t with
    | nil =>
      obtain ⟨hspace, hchar⟩ := and_eq_true_iff.mp hop
      have hd : Text.isBlank d = true := by
        simpa [splitsToken, hafter, hspace, hchar] using h
      simp [spaced, hd]
    | cons => rfl
  | false =>
    rw [splitsToken, hafter, if_neg Bool.false_ne_true, Bool.or_eq_false_iff] at h
    obtain ⟨hwhole, hminus⟩ := h
    cases hnumber : startsNumber c t with
    | true =>
      left
      rw [hnumber] at hwhole
      rw [readChar_number hnumber hafter, readChar_number (startsNumber_append hnumber _) hafter,
        takeWhile_append_of_not_all hwhole]
    | false =>
      cases hnumber' : startsNumber c (t ++ d :: more) with
      | false => exact .inl (readChar_congr_of_not_startsNumber hafter hnumber' hnumber)
      | true =>
        cases t with
        | nil =>
          -- only a sign begins a number before the cut and not without what follows
          obtain ⟨hdigit, -⟩ := Bool.or_eq_false_iff.mp hnumber
          rw [startsNumber, hdigit, Bool.false_or, and_eq_true] at hnumber'
          obtain ⟨hsign, hstarts⟩ := hnumber'
          rcases eq_of_isSign hsign with rfl | rfl
          · exact .inr ⟨hafter, rfl, rfl, hstarts⟩
          · cases hminus.symm.trans hstarts
        | cons => cases hnumber.symm.trans hnumber'

theorem isBlank_of_mem_number (hc : startsNumber c t = true) :
    ∀ a ∈ c :: t.takeWhile inNumeral, Text.isBlank a = false := by
  refine forall_mem_cons.mpr ⟨?_, fun a ha => ?_⟩
  · rcases or_eq_true_iff.mp hc with hdigit | hsign
    · exact isBlank_of_isWordPart (isWordPart_of_startsDigit hdigit)
    · rcases eq_of_isSign (and_eq_true_iff.mp hsign).1 with rfl | rfl <;> rfl
  · have hin := all_eq_true.mp all_takeWhile a ha
    cases hblank : Text.isBlank a with
    | false => rfl
    | true => cases (inNumeral_of_isBlank hblank).symm.trans hin

theorem startsNumber_of_startsNumeral (h : startsNumeral (d :: more) = true) :
    startsNumber d more = true := by
  have hdigit : (d.isDigit || d == '.') = true := h
  rw [startsNumber, hdigit, Bool.true_or]

theorem readChar_signed (hc : Numeral.isSign c = true) (hstarts : startsNumeral (d :: more) = true)
    (hafter : r.afterOperand = false) :
    readChar r c (d :: more) = (Quantity.parse? (c :: d :: more.takeWhile inNumeral)).map fun q =>
      (r.push (.number q), (more.takeWhile inNumeral).length + 1) := by
  have htake : (d :: more).takeWhile inNumeral = d :: more.takeWhile inNumeral :=
    takeWhile_cons_of_pos (inNumeral_of_isWordPart (isWordPart_of_startsDigit hstarts))
  have hnumber : startsNumber c (d :: more) = true := by
    rw [startsNumber, hc, hstarts, Bool.and_self, Bool.or_true]
  rw [readChar_number hnumber hafter, htake]
  rfl

theorem readOn_plus (hafter : r.afterOperand = false) (hstarts : startsNumeral more = true) :
    readOn r 0 ('+' :: more) ps = readOn r 0 ['+'] (.text more :: ps) := by
  cases more with
  | nil => cases hstarts
  | cons d more =>
    have hnumber := startsNumber_of_startsNumeral hstarts
    have hplus : Quantity.parse? ('+' :: d :: more.takeWhile inNumeral) =
        Quantity.parse? (d :: more.takeWhile inNumeral) :=
      Quantity.parse?_plus (isSign_of_isWordPart (isWordPart_of_startsDigit hstarts))
        (isBlank_of_mem_number hnumber)
    have halone : readChar r '+' [] = some ({ r with space := false }, 0) := by
      simp [readChar, Text.isBlank, Numeral.isSign, hafter, startsNumeral]
    have hafter' : ({ r with space := false } : Reading).afterOperand = false := hafter
    rw [readOn_cons, readChar_signed rfl hstarts hafter, hplus, readOn_cons, halone,
      bind_some, readOn_nil, readPieces_text, readOn_cons, readChar_number hnumber hafter']
    cases Quantity.parse? (d :: more.takeWhile inNumeral) with
    | none | some => rfl

/-- A text that is cut where nothing is divided is read as the whole. -/
theorem readOn_append_of_not_splits (hskip : skip ≤ t.length) (h : splits d r skip t = false) :
    readOn r skip (t ++ d :: more) ps = readOn r skip t (.text (d :: more) :: ps) := by
  induction t generalizing r skip with
  | nil =>
    obtain rfl := Nat.le_zero.mp hskip
    rfl
  | cons c t ih =>
    cases skip with
    | succ skip => exact ih (Nat.le_of_succ_le_succ hskip) h
    | zero =>
      rw [splits, Bool.or_eq_false_iff] at h
      rw [cons_append]
      rcases readChar_append h.1 more with hread | ⟨hafter, rfl, rfl, hstarts⟩
      · rw [readOn_cons, readOn_cons, hread]
        cases hchar : readChar r c t with
        | none => rfl
        | some read =>
          rw [hchar] at h
          exact ih (snd_readChar_le hchar) h.2
      · exact readOn_plus hafter hstarts

/-- Two readings do not come to the same tokens. -/
def Differ (x y : Option Reading) : Prop :=
  ∀ r s, x = some r → y = some s → r.tokens ≠ s.tokens

theorem Differ.of_left {x y : Option Reading} (h : x = none) : Differ x y := by
  rintro r s rfl
  cases h

theorem Differ.of_right {x y : Option Reading} (h : y = none) : Differ x y := by
  rintro r s - rfl
  cases h

theorem differ_of_operator (hafter : r.afterOperand = true) (hspace : r.space = true)
    (hd : Text.isBlank d = false) (hc : (Numeral.isSign c || c == '/') = true) (x : Option Reading) :
    Differ x (readOn r 0 (c :: d :: more) ps) := by
  have hspaced : spaced (d :: more) = false := hd
  have hread : readChar r c (d :: more) = none := by
    rcases or_eq_true_iff.mp hc with hsign | hslash
    · exact readChar_sign_after hsign hafter hspace hspaced
    · rw [eq_of_beq hslash]
      simp [readChar, Text.isBlank, Numeral.isSign, hspaced]
  refine .of_right ?_
  rw [readOn_cons, hread]
  rfl

/-- Before the rest of its unit a number is no operand for what follows, and before a percent sign
it is another number. -/
theorem differ_of_number (hafter : r.afterOperand = false) (hc : startsNumber c t = true)
    (ht : t.all inNumeral = true) (hd : inNumeral d = true) :
    Differ (readOn r 0 (c :: t) (.text (d :: more) :: ps))
      (readOn r 0 (c :: t ++ d :: more) ps) := by
  have hall := all_eq_true.mp ht
  have htake : t.takeWhile inNumeral = t := takeWhile_eq_self_iff.mpr hall
  have hcut : ∀ q, Quantity.parse? (c :: t) = some q →
      readOn r 0 (c :: t) (.text (d :: more) :: ps) =
        readOn (r.push (.number q)) 0 (d :: more) ps := by
    intro q hq
    rw [readOn_cons, readChar_number hc hafter, htake, hq]
    exact readOn_length _ t _
  cases hq : Quantity.parse? (c :: t) with
  | none =>
    refine .of_left ?_
    rw [readOn_cons, readChar_number hc hafter, htake, hq]
    rfl
  | some q =>
    rw [hcut q hq]
    rcases or_eq_true_iff.mp hd with hpart | hpercent
    · refine .of_left ?_
      rw [readOn_cons, readChar_wordPart_after hpart rfl]
      rfl
    · obtain rfl := eq_of_beq hpercent
      have htake' : (t ++ '%' :: more).takeWhile inNumeral =
          t ++ '%' :: more.takeWhile inNumeral := by
        rw [takeWhile_append_of_pos hall, takeWhile_cons_of_pos hd]
      have hc' := startsNumber_append hc ('%' :: more)
      rw [readOn_cons, readChar_percent rfl, bind_some, cons_append, readOn_cons,
        readChar_number hc' hafter, htake']
      cases hq' : Quantity.parse? (c :: (t ++ '%' :: more.takeWhile inNumeral)) with
      | none => exact .of_right rfl
      | some q' =>
        -- the first token that is read is the number, without the percent sign or with it
        intro r1 r2 h1 h2 heq
        obtain ⟨ts, hts⟩ := exists_tokens_of_readOn h1
        obtain ⟨ts', hts'⟩ := exists_tokens_of_readOn h2
        have hlast : ((ts ++ [.op .rem]) ++ [.number q]) ++ r.tokens =
            (ts' ++ [.number q']) ++ r.tokens := by
          simpa [Reading.push] using hts.symm.trans (heq.trans hts')
        have hsame := append_inj_right' (append_cancel_right hlast) rfl
        cases hsame
        exact Quantity.parse?_percent_ne (htake' ▸ isBlank_of_mem_number hc') hq' hq

/-- A minus sign that is cut off from its number is another token. -/
theorem differ_of_minus (hafter : r.afterOperand = false) (hd : startsNumeral [d] = true) :
    Differ (readOn r 0 ['-'] (.text (d :: more) :: ps)) (readOn r 0 ('-' :: d :: more) ps) := by
  have hstarts : startsNumeral (d :: more) = true := hd
  have halone : readChar r '-' [] = some (r.push (.op .sub), 0) := by
    simp [readChar, Text.isBlank, Numeral.isSign, hafter, startsNumeral]
  rw [readOn_cons, halone, bind_some, readOn_nil, readPieces_text, readOn_cons,
    readChar_number (startsNumber_of_startsNumeral hstarts) rfl, readOn_cons,
    readChar_signed rfl hstarts hafter]
  cases Quantity.parse? (d :: more.takeWhile inNumeral) with
  | none => exact .of_left rfl
  | some q =>
    cases Quantity.parse? ('-' :: d :: more.takeWhile inNumeral) with
    | none => exact .of_right rfl
    | some q' =>
      -- both go on alike after the number, and one has the sign as a token before it
      intro r1 r2 h1 h2 heq
      obtain ⟨step, hstep1, hstep2⟩ := readOn_alike
        (r := (r.push (.op .sub)).push (.number q)) (s := r.push (.number q')) ⟨rfl, rfl⟩
        (more.takeWhile inNumeral).length more ps
      obtain ⟨g, rfl, rfl⟩ := map_eq_some_iff.mp (hstep1.symm.trans h1)
      obtain rfl := Option.some.inj (hstep2.symm.trans h2)
      have hlength := congrArg length heq
      simp [Reading.grow, Reading.push] at hlength

/-- A text that is cut where something is divided is not read as the whole. -/
theorem differ_of_splitsToken (h : splitsToken d r c t = true) :
    Differ (readOn r 0 (c :: t) (.text (d :: more) :: ps))
      (readOn r 0 (c :: t ++ d :: more) ps) := by
  unfold splitsToken at h
  split at h
  next hafter =>
    simp only [and_eq_true, not_eq_true', List.isEmpty_iff] at h
    obtain ⟨⟨⟨hspace, rfl⟩, hd⟩, hc⟩ := h
    exact differ_of_operator hafter hspace hd hc _
  next hafter =>
    rw [not_eq_true] at hafter
    rcases or_eq_true_iff.mp h with h | h
    · simp only [and_eq_true] at h
      obtain ⟨⟨hc, ht⟩, hd⟩ := h
      exact differ_of_number hafter hc ht hd
    · simp only [and_eq_true, beq_iff_eq, List.isEmpty_iff] at h
      obtain ⟨⟨rfl, rfl⟩, hd⟩ := h
      exact differ_of_minus hafter hd

theorem differ_of_splits (h : splits d r skip t = true) :
    Differ (readOn r skip t (.text (d :: more) :: ps)) (readOn r skip (t ++ d :: more) ps) := by
  induction t generalizing r skip with
  | nil => cases skip <;> cases h
  | cons c t ih =>
    cases skip with
    | succ skip => exact ih h
    | zero =>
      cases htoken : splitsToken d r c t with
      | true => exact differ_of_splitsToken htoken
      | false =>
        rw [splits, htoken] at h
        obtain ⟨read, hchar, hlater⟩ := (Option.any_eq_true _ _).mp h
        rcases readChar_append htoken more with hread | ⟨-, -, rfl, -⟩
        · rw [cons_append, readOn_cons, readOn_cons, hread, hchar]
          exact ih hlater
        · cases hskip : read.2 <;> rw [hskip] at hlater <;> cases hlater

/-! ## Merging texts -/

theorem parse?_eq (ps : List Piece) :
    parse? ps = (readPieces {} ps).bind fun r => ofTokens? r.tokens.reverse := by
  rw [parse?, tokens?, bind_map]
  rfl

/-- Arithmetic has its tokens, so readings of other tokens give it only if both give none. -/
theorem Differ.bind_eq_iff {x y : Option Reading} (h : Differ x y) :
    (x.bind fun r => ofTokens? r.tokens.reverse) = (y.bind fun r => ofTokens? r.tokens.reverse) ↔
      (x.bind fun r => ofTokens? r.tokens.reverse) = none ∧
        (y.bind fun r => ofTokens? r.tokens.reverse) = none := by
  refine ⟨fun heq => ?_, fun hnone => hnone.1.trans hnone.2.symm⟩
  cases hx : x.bind fun r => ofTokens? r.tokens.reverse with
  | none => exact ⟨rfl, heq.symm.trans hx⟩
  | some e =>
    obtain ⟨r1, h1, hr⟩ := bind_eq_some_iff.mp hx
    obtain ⟨r2, h2, hs⟩ := bind_eq_some_iff.mp (heq.symm.trans hx)
    have hreverse := (tokens_of_ofTokens? hr).symm.trans (tokens_of_ofTokens? hs)
    exact absurd (reverse_inj.mp hreverse) (h r1 r2 h1 h2)

/-- Two texts in a row are read as the one text they make, unless the cut between them divides
something. If it does, they are read alike only if neither the two texts nor the one is arithmetic.
-/
theorem merge_texts_iff (front back : List Piece) (a b : Text) :
    parse? (front ++ .text a :: .text b :: back) = parse? (front ++ .text (a ++ b) :: back) ↔
      ((readPieces {} front).any fun r => b.head?.any fun d => splits d r 0 a) = false ∨
      parse? (front ++ .text a :: .text b :: back) = none ∧
        parse? (front ++ .text (a ++ b) :: back) = none := by
  rw [parse?_eq, parse?_eq, readPieces_append, readPieces_append]
  cases readPieces {} front with
  | none => simp
  | some r =>
    rw [Option.bind_some, Option.bind_some, readPieces_text, readPieces_text, Option.any_some]
    cases b with
    | nil =>
      rw [List.append_nil]
      exact iff_of_true rfl (.inl rfl)
    | cons d b =>
      rw [List.head?_cons, Option.any_some]
      cases hsplits : splits d r 0 a with
      | false =>
        rw [readOn_append_of_not_splits (Nat.zero_le _) hsplits]
        exact iff_of_true rfl (.inl rfl)
      | true =>
        rw [(differ_of_splits hsplits).bind_eq_iff]
        exact (or_iff_right Bool.false_ne_true.symm).symm

theorem percent_cut_off :
    (parse? [.text "5", .text "% 10px"]).isSome = true ∧ parse? [.text "5% 10px"] = none := by
  decide +kernel

end Formula
end Patchwork.Style
