import Patchwork.Proofs.Quantities

/-!
# Reading a value without its pieces

The value of a declaration is cut into pieces before it is known what it is. A reader of pieces
looks no further than the end of a piece, so where the cuts are can matter. `readAtoms` reads a
value as a list of characters and expressions, and takes only a percent sign and an expression for
the begin of another piece. For pieces that are cut there and nowhere else (`PercentFirst`) it gives
the same tokens (`readPieces_eq`).

Before that come the characters that numbers, units and signs are made of, what the reader does with
each of them, and texts with a sign or an exponent inside, which are no quantities.
-/

namespace Patchwork.Style

open List Bool

open Decimal (Numeral.isSign)

/-! ## Characters of a value -/

/-- May the character stand in a number or in the letters of a unit? -/
def isWordPart (c : Char) : Bool :=
  c.isAlphanum || c == '.'

variable {c : Char}

theorem beq_eq_false_of_isWordPart {d : Char} (h : isWordPart c = true) (hd : isWordPart d = false) : (c == d) = false := by
  refine beq_eq_false_iff_ne.mpr fun heq => ?_
  rw [heq, hd] at h
  cases h

theorem isBlank_of_isWordPart (h : isWordPart c = true) : Text.isBlank c = false :=
  Text.isBlank_eq_false (by decide) h

theorem isSign_of_isWordPart (h : isWordPart c = true) : Numeral.isSign c = false := by
  simp [Numeral.isSign, beq_eq_false_of_isWordPart h (d := '+') (by decide),
    beq_eq_false_of_isWordPart h (d := '-') (by decide)]

theorem inNumeral_of_isWordPart (h : isWordPart c = true) : Formula.inNumeral c = true := by
  rw [Formula.inNumeral, isWordPart] at *
  simp [h]

theorem isWordPart_of_startsDigit (h : (c.isDigit || c == '.') = true) : isWordPart c = true := by
  rcases or_eq_true_iff.mp h with hc | hc
  · simp [isWordPart, Char.isAlphanum, hc]
  · simp [isWordPart, hc]

theorem eq_of_isSign (h : Numeral.isSign c = true) : c = '+' ∨ c = '-' := by
  simpa [Numeral.isSign] using h

/-! ## Texts that are no quantities -/

namespace Quantity

variable {c d : Char} {t number : Text} {unit : Option Measure}

theorem parse?_eq_some_iff_of_not_blank {q : Quantity} (hblank : ∀ c ∈ t, Text.isBlank c = false) :
    parse? t = some q ↔
      ∃ number, Reads t number q.unit ∧ Decimal.Numeral.read? number = some q.value := by
  rw [parse?_eq_some_iff, Text.trim_eq_self hblank]

/-- The first character of a text is the first one of its number. -/
theorem Reads.of_cons (h : Reads (c :: t) number unit) :
    ∃ tail, number = c :: tail ∧ t = tail ++ Measure.suffix unit := by
  obtain ⟨htext, hwritten⟩ := h
  cases number with
  | nil =>
    obtain ⟨_, hc, -⟩ := hwritten.getLast?_mem
    cases hc
  | cons _ tail =>
    obtain ⟨rfl, rfl⟩ := List.cons.inj htext
    exact ⟨tail, rfl, rfl⟩

theorem parse?_of_sign_mem (hblank : ∀ a ∈ c :: t, Text.isBlank a = false)
    (hd : Numeral.isSign d = true) (hmem : d ∈ t) : parse? (c :: t) = none := by
  refine Option.eq_none_iff_forall_ne_some.mpr fun q hq => ?_
  obtain ⟨number, hreads, -⟩ := (parse?_eq_some_iff_of_not_blank hblank).mp hq
  obtain ⟨tail, rfl, rfl⟩ := hreads.of_cons
  rcases mem_append.mp hmem with hmem | hmem
  · have hdigit := hreads.written.of_mem_tail hmem
    rcases eq_of_isSign hd with rfl | rfl <;> exact absurd hdigit (by decide)
  · -- no unit is written with a sign
    have hunit := Measure.of_mem_suffix (p := fun c => !Numeral.isSign c) (by decide) q.unit d hmem
    rw [hd] at hunit
    cases hunit

theorem parse?_of_exponent (hblank : ∀ a ∈ c :: (t ++ [d]), Text.isBlank a = false)
    (hd : d = 'e' ∨ d = 'E') :
    parse? (c :: (t ++ [d])) = none := by
  refine Option.eq_none_iff_forall_ne_some.mpr fun q hq => ?_
  obtain ⟨number, hreads, -⟩ := (parse?_eq_some_iff_of_not_blank hblank).mp hq
  have hlast : (Measure.suffix q.unit).getLast?.or number.getLast? = some d := by
    rw [← getLast?_append, ← hreads.text, ← cons_append, getLast?_concat]
  -- neither a number nor a unit ends in the letter of an exponent
  obtain ⟨e, he, hdigit⟩ := hreads.written.getLast?_mem
  cases hunit : q.unit with
  | none =>
    rw [hunit, he] at hlast
    cases hlast
    rcases hd with rfl | rfl <;> exact absurd hdigit (by decide)
  | some u =>
    rw [hunit] at hlast
    rcases hd with rfl | rfl <;> cases u <;> cases hlast

end Quantity

theorem inNumeral_of_isBlank (h : Text.isBlank c = true) : Formula.inNumeral c = false := by
  refine eq_false_iff.mpr fun hin => ?_
  rcases or_eq_true_iff.mp hin with hpart | hpercent
  · rw [isBlank_of_isWordPart hpart] at h
    cases h
  · rw [eq_of_beq hpercent] at h
    cases h

namespace Formula

variable {r : Reading} {c : Char} {t : Text}

theorem readChar_blank (h : Text.isBlank c = true) :
    readChar r c t = some ({ r with space := true }, 0) := by
  rw [readChar, if_pos h]

theorem readChar_percent (h : r.afterOperand = true) :
    readChar r '%' t = some (r.push (.op .rem), 0) := by
  simp [readChar, h, Text.isBlank, Numeral.isSign]

theorem readChar_wordPart (hc : isWordPart c = true) :
    readChar r c t = if !r.afterOperand && (c.isDigit || c == '.') then
      (Quantity.parse? (c :: t.takeWhile inNumeral)).map fun q =>
        (r.push (.number q), (t.takeWhile inNumeral).length) else none := by
  have hne : ∀ d, isWordPart d = false → (c == d) = false := fun d =>
    beq_eq_false_of_isWordPart hc
  simp only [readChar, isBlank_of_isWordPart hc, isSign_of_isWordPart hc, hne '(' (by decide),
    hne ')' (by decide), hne '/' (by decide), hne '*' (by decide), hne '%' (by decide)]
  cases r.afterOperand <;> simp

theorem readChar_wordPart_after (hc : isWordPart c = true) (h : r.afterOperand = true) :
    readChar r c t = none := by
  rw [readChar_wordPart hc, h]
  rfl

def startsNumber (c : Char) (t : Text) : Bool :=
  c.isDigit || c == '.' || Numeral.isSign c && startsNumeral t

theorem readChar_number (hc : startsNumber c t = true) (h : r.afterOperand = false) :
    readChar r c t = (Quantity.parse? (c :: t.takeWhile inNumeral)).map fun q =>
      (r.push (.number q), (t.takeWhile inNumeral).length) := by
  rcases or_eq_true_iff.mp hc with hdigit | hsign
  · rw [readChar_wordPart (isWordPart_of_startsDigit hdigit), hdigit, h]
    rfl
  · obtain ⟨hsign, hstarts⟩ := and_eq_true_iff.mp hsign
    rcases eq_of_isSign hsign with rfl | rfl <;>
      simp [readChar, Text.isBlank, Numeral.isSign, h, hstarts]

theorem readChar_sign_after (hc : Numeral.isSign c = true) (h : r.afterOperand = true)
    (hspace : r.space = true) (ht : spaced t = false) : readChar r c t = none := by
  rcases eq_of_isSign hc with rfl | rfl <;>
    simp [readChar, Text.isBlank, h, hspace, ht]

theorem snd_readChar_le {read : Reading × Nat} (h : readChar r c t = some read) :
    read.2 ≤ t.length := by
  unfold readChar at h
  have hzero : ∀ {r' : Reading}, some (r', 0) = some read → read.2 ≤ t.length := by
    rintro r' ⟨⟩
    exact Nat.zero_le _
  rcases ite_eq_iff.mp h with ⟨-, h⟩ | ⟨-, h⟩
  · exact hzero h
  rcases ite_eq_iff.mp h with ⟨-, h⟩ | ⟨-, h⟩
  · rcases ite_eq_iff.mp h with ⟨-, h⟩ | ⟨-, h⟩
    · cases h
    · exact hzero h
  rcases ite_eq_iff.mp h with ⟨-, h⟩ | ⟨-, h⟩
  · exact hzero h
  rcases ite_eq_iff.mp h with ⟨-, h⟩ | ⟨-, h⟩
  · rcases ite_eq_iff.mp h with ⟨-, h⟩ | ⟨-, h⟩
    · cases h
    · exact hzero h
  rcases ite_eq_iff.mp h with ⟨-, h⟩ | ⟨-, h⟩
  · rcases ite_eq_iff.mp h with ⟨-, h⟩ | ⟨-, h⟩
    · exact hzero h
    · cases h
  rcases ite_eq_iff.mp h with ⟨-, h⟩ | ⟨-, h⟩
  · rcases ite_eq_iff.mp h with ⟨-, h⟩ | ⟨-, h⟩
    · exact hzero h
    · cases h
  rcases ite_eq_iff.mp h with ⟨-, h⟩ | ⟨-, h⟩
  · rcases ite_eq_iff.mp h with ⟨-, h⟩ | ⟨-, h⟩
    · cases h
    rcases ite_eq_iff.mp h with ⟨-, h⟩ | ⟨-, h⟩
    · exact hzero h
    -- only a number takes more than its first character
    · obtain ⟨q, -, rfl⟩ := Option.map_eq_some_iff.mp h
      exact (takeWhile_sublist _).length_le
  · cases h

end Formula

/-! ## Values without their pieces -/

/-- A part of a value: a character, or an expression. -/
inductive Atom where
  | char (c : Char)
  | expr (e : Expr)
  deriving DecidableEq, Repr

def atoms : List Piece → List Atom
  | [] => []
  | .text t :: ps => t.map .char ++ atoms ps
  | .expr e :: ps => .expr e :: atoms ps
  | .comment _ :: ps => atoms ps

namespace Formula

/-- The text at the front, up to the next expression or percent sign. -/
def ahead : List Atom → Text
  | .char c :: as => if c == '%' then [] else c :: ahead as
  | _ => []

/-- Cut a value into tokens, after skipping some characters. -/
def readAtoms (r : Reading) : (skip : Nat) → List Atom → Option Reading
  | _, [] => some r
  | skip + 1, _ :: as => readAtoms r skip as
  | 0, .char c :: as => (readChar r c (ahead as)).bind fun read => readAtoms read.1 read.2 as
  | 0, .expr e :: as =>
    if r.afterOperand then none else readAtoms (r.push (.running e.source)) 0 as

variable {t : Text} {ps : List Piece}

theorem ahead_append (ht : '%' ∉ t) (as : List Atom) :
    ahead (t.map .char ++ as) = t ++ ahead as := by
  induction t with
  | nil => rfl
  | cons c t ih =>
    have hc : (c == '%') = false := beq_eq_false_iff_ne.mpr (ne_of_not_mem_cons ht).symm
    rw [map_cons, cons_append, ahead, hc, ih (not_mem_of_not_mem_cons ht)]
    rfl

theorem readAtoms_text {as : List Atom} (has : ahead as = []) :
    ∀ {skip : Nat} {r : Reading}, '%' ∉ t.tail → skip ≤ t.length →
      (readText r skip t).bind (readAtoms · 0 as) = readAtoms r skip (t.map .char ++ as) := by
  induction t with
  | nil =>
    intro skip r _ hskip
    obtain rfl := Nat.le_zero.mp hskip
    rfl
  | cons c t ih =>
    intro skip r ht hskip
    have htail : '%' ∉ t.tail := fun hmem => ht (mem_of_mem_tail hmem)
    cases skip with
    | succ skip => exact ih htail (Nat.le_of_succ_le_succ hskip)
    | zero =>
      rw [readText, map_cons, cons_append, readAtoms, ahead_append (t := t) ht, has, append_nil]
      cases hread : readChar r c t with
      | none => rfl
      | some read => exact ih htail (snd_readChar_le hread)

/-- Pieces of a value in which a text holds a percent sign only as its first character, and begins
with one if it follows a text. -/
structure PercentFirst (ps : List Piece) : Prop where
  tail : ∀ t, .text t ∈ ps → '%' ∉ t.tail
  follows : ps.IsChain fun p q => ∀ t u, p = .text t → q = .text u → u.head? = some '%'
  comment : ∀ t, .comment t ∉ ps

theorem PercentFirst.of_cons {p : Piece} (h : PercentFirst (p :: ps)) : PercentFirst ps where
  tail t ht := h.tail t (mem_cons_of_mem p ht)
  follows := h.follows.of_cons
  comment t ht := h.comment t (mem_cons_of_mem p ht)

theorem PercentFirst.ahead_eq_nil (h : PercentFirst (.text t :: ps)) : ahead (atoms ps) = [] := by
  cases ps with
  | nil => rfl
  | cons p ps =>
    cases p with
    | text u =>
      have hu : u.head? = some '%' := (isChain_cons_cons.mp h.follows).1 t u rfl rfl
      obtain ⟨v, rfl⟩ := head?_eq_some_iff.mp hu
      rfl
    | expr e => rfl
    | comment u => exact absurd (mem_cons_of_mem _ mem_cons_self) (h.comment u)

theorem readPieces_eq (h : PercentFirst ps) (r : Reading) :
    readPieces r ps = readAtoms r 0 (atoms ps) := by
  induction ps generalizing r with
  | nil => rfl
  | cons p ps ih =>
    have hps := h.of_cons
    cases p with
    | text t =>
      have ht : '%' ∉ t.tail := h.tail t mem_cons_self
      rw [atoms, ← readAtoms_text h.ahead_eq_nil ht (Nat.zero_le _)]
      exact congrArg _ (funext fun r => ih hps r)
    | expr e =>
      rw [readPieces, atoms, readAtoms]
      split
      · rfl
      · exact ih hps _
    | comment t => exact absurd mem_cons_self (h.comment t)

end Formula

end Patchwork.Style
