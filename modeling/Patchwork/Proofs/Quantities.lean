import Mathlib.Data.List.Chain
import Patchwork.Proofs.Conditional
import Patchwork.Proofs.FormulaTokens

/-!
# Reading quantities

A quantity is written as a number with nothing behind it, or with one unit. The reader looks for the
units that a text ends with, and of those that leave a number it takes the longest. Some units end in
another one (`vmin` and `in`, `rem` and `em`), so there could be more than one reading. There is not: a
number ends in a digit or a point, and no unit has one of these in it, so the text itself tells where
its number ends (`Quantity.Reads.unique`). The reader finds this reading, and so does any other that
chooses among the units in its own way (`one_reading`).
-/

namespace Patchwork

open List

namespace Decimal.Numeral

/-- Digits with at most one point among them, and at least one digit. -/
structure Digits (t : Text) : Prop where
  all : ∀ c ∈ t, c.isDigit = true ∨ c = '.'
  point : t.count '.' ≤ 1
  digit : ∃ c ∈ t, c.isDigit = true

/-- A number as it is written, with a sign or without. -/
def Written (t : Text) : Prop :=
  ∃ sign digits : Text, t = sign ++ digits ∧ (sign = [] ∨ sign = ['+'] ∨ sign = ['-']) ∧ Digits digits

variable {t : Text}

theorem isUnsigned_iff : isUnsigned t = true ↔ Digits t := by
  simp only [isUnsigned, Bool.and_eq_true, any_eq_true, all_eq_true, decide_eq_true_eq,
    Bool.or_eq_true, beq_iff_eq]
  exact ⟨fun ⟨⟨hdigit, hall⟩, hpoint⟩ => ⟨hall, hpoint, hdigit⟩,
    fun h => ⟨⟨h.digit, h.all⟩, h.point⟩⟩

theorem Digits.unsigned (h : Digits t) : unsigned t = t := by
  cases t with
  | nil => rfl
  | cons c t =>
    have hsign : isSign c = false := by
      rcases h.all c mem_cons_self with hdigit | rfl
      · refine Bool.eq_false_iff.mpr fun hsign => ?_
        rcases (by simpa [isSign] using hsign : c = '+' ∨ c = '-') with rfl | rfl <;> cases hdigit
      · rfl
    rw [Numeral.unsigned, head?_cons, Option.any_some, hsign]
    rfl

theorem isNumeral_iff : isNumeral t = true ↔ Written t := by
  rw [isNumeral, isUnsigned_iff]
  constructor
  · intro h
    unfold unsigned at h
    split at h
    next hsign =>
      cases t with
      | nil => cases hsign
      | cons c t =>
        refine ⟨[c], t, rfl, .inr ?_, h⟩
        simpa [isSign] using hsign
    · exact ⟨[], t, rfl, .inl rfl, h⟩
  · rintro ⟨sign, digits, rfl, rfl | rfl | rfl, h⟩
    · rw [nil_append, h.unsigned]
      exact h
    · exact h
    · exact h

theorem Written.of_mem_tail (h : Written t) {c : Char} (hc : c ∈ t.tail) :
    c.isDigit = true ∨ c = '.' := by
  obtain ⟨sign, digits, rfl, rfl | rfl | rfl, h⟩ := h
  · exact h.all c (mem_of_mem_tail hc)
  · exact h.all c hc
  · exact h.all c hc

theorem Written.getLast?_mem (h : Written t) : ∃ c ∈ t.getLast?, c.isDigit = true ∨ c = '.' := by
  obtain ⟨sign, digits, rfl, -, h⟩ := h
  obtain ⟨d, hd, -⟩ := h.digit
  have hne := ne_nil_of_mem hd
  refine ⟨digits.getLast hne, ?_, h.all _ (getLast_mem hne)⟩
  rw [getLast?_append, getLast?_eq_some_getLast hne]
  rfl

theorem written_of_read? {value : Float} (h : read? t = some value) : Written t := by
  unfold read? at h
  split at h
  next hnumeral => exact isNumeral_iff.mp hnumeral
  · cases h

theorem exists_read? (h : Written t) : ∃ value, read? t = some value := by
  rw [read?, if_pos (isNumeral_iff.mpr h)]
  exact ⟨_, rfl⟩

end Decimal.Numeral

namespace Style

open Decimal (Numeral.Written Numeral.isNumeral_iff Numeral.read? Numeral.written_of_read?
  Numeral.exists_read?)

namespace Measure

/-- What a unit, or none, adds to a number. -/
def suffix (unit : Option Measure) : Text :=
  (unit.map text).getD []

theorem mem_all (u : Measure) : u ∈ all := by
  cases u <;> decide

theorem suffix_injective : Function.Injective suffix := by
  have hinverse : Function.LeftInverse (fun t => all.find? (·.text == t)) suffix := by
    intro unit
    cases unit with
    | none => rfl
    | some u => cases u <;> rfl
  exact hinverse.injective

theorem of_mem_suffix {p : Char → Bool} (h : all.all (fun u => u.text.all p) = true)
    (unit : Option Measure) : ∀ c ∈ suffix unit, p c = true := by
  cases unit with
  | none => exact nofun
  | some u => exact all_eq_true.mp (all_eq_true.mp h u u.mem_all)

theorem suffix_not_digit (unit : Option Measure) {c : Char} (hc : c ∈ suffix unit) :
    ¬(c.isDigit = true ∨ c = '.') := by
  simpa using of_mem_suffix (p := fun c => !(c.isDigit || c == '.')) (by decide) unit c hc

end Measure

namespace Quantity

open Measure (suffix)

/-- A text is a number with a unit behind it, or with none. -/
structure Reads (t number : Text) (unit : Option Measure) : Prop where
  text : t = number ++ suffix unit
  written : Numeral.Written number

variable {t number number' : Text} {unit unit' : Option Measure}

/-- A number does not go on into a unit. -/
theorem eq_of_append_eq {more : Text} (h : Numeral.Written number) (hnumber : number = number' ++ more)
    (unit : Option Measure) (hmore : ∀ c ∈ more, c ∈ suffix unit) : number = number' := by
  rcases eq_nil_or_concat' more with rfl | ⟨more, d, rfl⟩
  · rw [hnumber, append_nil]
  · obtain ⟨c, hc, hdigit⟩ := h.getLast?_mem
    rw [hnumber, ← append_assoc, getLast?_concat] at hc
    cases hc
    exact absurd hdigit (Measure.suffix_not_digit unit (hmore d (by simp)))

theorem Reads.unique (h : Reads t number unit) (h' : Reads t number' unit') :
    number = number' ∧ unit = unit' := by
  have heq := h.text.symm.trans h'.text
  have hnumber : number = number' := by
    rcases append_eq_append_iff.mp heq with ⟨more, hnumber, hunit⟩ | ⟨more, hnumber, hunit⟩
    · refine (eq_of_append_eq h'.written hnumber unit fun c hc => ?_).symm
      exact hunit ▸ mem_append_left _ hc
    · refine eq_of_append_eq h.written hnumber unit' fun c hc => ?_
      exact hunit ▸ mem_append_left _ hc
  subst hnumber
  exact ⟨rfl, Measure.suffix_injective (append_cancel_left heq)⟩

theorem withoutUnit?_eq_some_iff {u : Measure} :
    withoutUnit? t u = some number ↔ Reads t number (some u) := by
  constructor
  · intro h
    unfold withoutUnit? at h
    split at h
    next hends =>
      obtain ⟨front, rfl⟩ := isSuffixOf_iff_suffix.mp hends
      rw [length_append, Nat.add_sub_cancel, take_left] at h
      obtain ⟨hnumeral, heq⟩ := Option.ite_none_right_eq_some.mp h
      cases heq
      exact ⟨rfl, Numeral.isNumeral_iff.mp hnumeral⟩
    · cases h
  · rintro ⟨rfl, hnumber⟩
    have hends : Text.endsWith u.text (number ++ u.text) = true :=
      isSuffixOf_iff_suffix.mpr (suffix_append _ _)
    show withoutUnit? (number ++ u.text) u = some number
    rw [withoutUnit?, if_pos hends]
    dsimp only
    rw [length_append, Nat.add_sub_cancel, take_left, if_pos (Numeral.isNumeral_iff.mpr hnumber)]

/-- A way to choose one of the units that are possible. -/
structure Chooses (pick : List Measure → Option Measure) : Prop where
  mem : ∀ {us u}, pick us = some u → u ∈ us
  some : ∀ {us}, us ≠ [] → (pick us).isSome = true

/-- Read a quantity with other units, or in another order, and another choice among those that leave a
number. -/
def parseWith (units : List Measure) (pick : List Measure → Option Measure) (t : Text) :
    Option Quantity :=
  let t := Text.trim t
  match Numeral.read? t with
  | some value => some ⟨value, none⟩
  | none => do
    let unit ← pick (units.filter fun u => (withoutUnit? t u).isSome)
    let value ← (withoutUnit? t unit).bind Numeral.read?
    return ⟨value, some unit⟩

def longest (us : List Measure) : Option Measure :=
  us.foldl (fun best u =>
    if best.all (fun b => b.text.length < u.text.length) then some u else best) none

theorem parse?_eq (t : Text) : parse? t = parseWith Measure.all longest t := by
  have hlongest : ∀ t, longestUnit? t =
      longest (Measure.all.filter fun u => (withoutUnit? t u).isSome) := by
    intro t
    rw [longest, foldl_filter, longestUnit?]
    congr 1
    funext best u
    cases (withoutUnit? t u).isSome <;> simp
  unfold parse? parseWith
  dsimp only
  cases Numeral.read? (Text.trim t) with
  | some value => rfl
  | none => rw [hlongest]

theorem longest_concat (us : List Measure) (u : Measure) : longest (us ++ [u]) =
    if (longest us).all (fun b => b.text.length < u.text.length) then some u else longest us :=
  foldl_concat ..

theorem longest_chooses : Chooses longest where
  mem {us} := by
    induction us using reverseRecOn with
    | nil => exact nofun
    | append_singleton us u ih =>
      intro v hv
      rw [longest_concat] at hv
      split at hv
      · cases hv
        exact mem_append_right _ mem_cons_self
      · exact mem_append_left _ (ih hv)
  some {us} hne := by
    induction us using reverseRecOn with
    | nil => exact absurd rfl hne
    | append_singleton us u ih =>
      rw [longest_concat]
      split
      · rfl
      next hall => cases hbest : longest us with
        | none => exact absurd (by rw [hbest]; rfl) hall
        | some b => rfl

/-- Whatever is chosen, the quantity is the one reading of the text. -/
theorem parseWith_eq_some_iff {units : List Measure} {pick : List Measure → Option Measure}
    {q : Quantity} (hunits : ∀ u, u ∈ units) (hpick : Chooses pick) :
    parseWith units pick t = some q ↔
      ∃ number, Reads (Text.trim t) number q.unit ∧ Numeral.read? number = some q.value := by
  generalize ht : Text.trim t = text
  rw [parseWith, ht]
  split
  next value hread =>
    have hwhole : Reads text text none := ⟨(append_nil _).symm, Numeral.written_of_read? hread⟩
    constructor
    · rintro ⟨⟩
      exact ⟨text, hwhole, hread⟩
    · rintro ⟨number, hreads, hvalue⟩
      obtain ⟨rfl, hunit⟩ := hwhole.unique hreads
      rw [Option.some.inj (hread.symm.trans hvalue), hunit]
  next hread =>
    constructor
    · intro h
      obtain ⟨u, -, h⟩ := Option.bind_eq_some_iff.mp h
      obtain ⟨value, hvalue, h⟩ := Option.bind_eq_some_iff.mp h
      obtain ⟨number, hnumber, hread⟩ := Option.bind_eq_some_iff.mp hvalue
      cases h
      exact ⟨number, withoutUnit?_eq_some_iff.mp hnumber, hread⟩
    · rintro ⟨number, hreads, hvalue⟩
      obtain ⟨value, unit⟩ := q
      cases unit with
      | none =>
        -- without a unit the whole text would be a number
        obtain rfl : text = number := hreads.text.trans (append_nil _)
        rw [hread] at hvalue
        cases hvalue
      | some u =>
        have hu : withoutUnit? text u = some number := withoutUnit?_eq_some_iff.mpr hreads
        have hmem : u ∈ units.filter fun u => (withoutUnit? text u).isSome :=
          mem_filter.mpr ⟨hunits u, by rw [hu]; rfl⟩
        obtain ⟨v, hv⟩ := Option.isSome_iff_exists.mp (hpick.some (ne_nil_of_mem hmem))
        -- the unit that is chosen leaves a number too, so it is the same one
        obtain ⟨number', hnumber'⟩ := Option.isSome_iff_exists.mp (mem_filter.mp (hpick.mem hv)).2
        obtain ⟨-, hsame⟩ := hreads.unique (withoutUnit?_eq_some_iff.mp hnumber')
        cases hsame
        refine Option.bind_eq_some_iff.mpr ⟨u, hv, Option.bind_eq_some_iff.mpr ⟨value, ?_, rfl⟩⟩
        rw [hu]
        exact hvalue

theorem parse?_eq_some_iff {q : Quantity} : parse? t = some q ↔
    ∃ number, Reads (Text.trim t) number q.unit ∧ Numeral.read? number = some q.value := by
  rw [parse?_eq]
  exact parseWith_eq_some_iff Measure.mem_all longest_chooses

/-- A text is read as a quantity exactly if, blanks around it apart, it is a number with nothing or with
one unit behind it; the quantity has this unit, and the value of this number. There is at most one way
to divide the text so. The order of the units, and which of them is taken if several fit, do not
matter. -/
theorem one_reading (t : Text) :
    (∀ q, parse? t = some q ↔
      ∃ number, Reads (Text.trim t) number q.unit ∧ Numeral.read? number = some q.value) ∧
    ((parse? t).isSome = true ↔ ∃ number unit, Reads (Text.trim t) number unit) ∧
    (∀ number number' unit unit', Reads (Text.trim t) number unit →
      Reads (Text.trim t) number' unit' → number = number' ∧ unit = unit') ∧
    ∀ units pick, (∀ u, u ∈ units) → Chooses pick → parseWith units pick t = parse? t := by
  refine ⟨fun q => parse?_eq_some_iff, ?_, fun _ _ _ _ => Reads.unique, fun units pick hunits hpick => ?_⟩
  · rw [Option.isSome_iff_exists]
    constructor
    · rintro ⟨q, hq⟩
      obtain ⟨number, hreads, -⟩ := parse?_eq_some_iff.mp hq
      exact ⟨number, q.unit, hreads⟩
    · rintro ⟨number, unit, hreads⟩
      obtain ⟨value, hvalue⟩ := Numeral.exists_read? hreads.written
      exact ⟨⟨value, unit⟩, parse?_eq_some_iff.mpr ⟨number, hreads, hvalue⟩⟩
  · refine Option.ext fun q => ?_
    rw [parse?_eq_some_iff]
    exact parseWith_eq_some_iff hunits hpick

/-- Both `vmin` and `in` end the text, and the unit is found from either end of the list. -/
theorem one_reading_vmin :
    (∀ u : Measure, u ∈ Measure.all.reverse) ∧ Chooses head? ∧
      parseWith Measure.all.reverse head? " -.5vmin " = parse? " -.5vmin " ∧
      (parse? " -.5vmin ").isSome = true ∧ (parse? "10ms").isSome = false := by
  have hunits : ∀ u : Measure, u ∈ Measure.all.reverse := fun u => mem_reverse.mpr u.mem_all
  have hpick : Chooses head? := ⟨mem_of_mem_head?, fun h => by simpa using h⟩
  refine ⟨hunits, hpick, (one_reading _).2.2.2 _ _ hunits hpick, ?_, by decide +kernel⟩
  exact (one_reading _).2.1.mpr ⟨"-.5", some .vmin, by decide +kernel,
    ['-'], ".5", rfl, .inr (.inr rfl), Decimal.Numeral.isUnsigned_iff.mp (by decide)⟩

end Quantity
end Style
end Patchwork
