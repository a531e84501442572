import Patchwork.Proofs.Moving
import Patchwork.Proofs.Searching

/-!
# Where readers halt

A reader that cannot go on has found a fault in the text that it was given, and the span of the fault
lies in that text. It never has to cut a character in two where every character is ASCII or a letter.
`Halt.In` says so of a halt, and there is one lemma for each reader.
-/

namespace Patchwork

open List Text Bool

namespace Text

def isAsciiOrLetter (c : Char) : Bool :=
  c.toNat < 128 || isLetter c

theorem utf8Size_of_toNat_lt {c : Char} (h : c.toNat < 128) : c.utf8Size = 1 :=
  Char.utf8Size_eq_one_iff.mpr (UInt32.le_iff_toNat_le.mpr (Nat.le_of_lt_succ h))

end Text

open Text (isAsciiOrLetter)

/-- The span of a fault lies between two positions. -/
structure Fault.Between (start stop : Nat) (f : Fault) : Prop where
  start : start ≤ f.span.start
  ordered : f.span.start ≤ f.span.stop
  stop : f.span.stop ≤ stop

theorem Fault.Between.mono {f : Fault} {start stop start' stop' : Nat} (h : f.Between start stop)
    (hstart : start' ≤ start) (hstop : stop ≤ stop') : f.Between start' stop' :=
  ⟨Nat.le_trans hstart h.start, h.ordered, Nat.le_trans h.stop hstop⟩

namespace Halt

/-- A halt that a text at a position accounts for: by a fault in it, or by a character that would
have to be cut. -/
def In (position : Nat) (t : Text) : Halt → Prop
  | fault f => f.Between position (position + bytes t)
  | split => ∃ c ∈ t, isAsciiOrLetter c = false
  | spent => False

variable {h : Halt} {position : Nat} {t : Text}

theorem In.inside (u v : Text) (hin : h.In (position + bytes u) t) :
    h.In position (u ++ (t ++ v)) := by
  cases h with
  | fault f =>
    refine hin.mono (Nat.le_add_right ..) ?_
    rw [bytes_append, bytes_append]
    omega
  | split =>
    obtain ⟨c, hc, hbad⟩ := hin
    exact ⟨c, mem_append_right _ (mem_append_left _ hc), hbad⟩
  | spent => exact hin

theorem In.cons {c : Char} (hin : h.In (position + c.utf8Size) t) : h.In position (c :: t) := by
  have hinside : h.In position ([c] ++ (t ++ [])) := In.inside [c] [] hin
  rwa [append_nil] at hinside

theorem In.drop (n : Nat) (hin : h.In (position + bytes (t.take n)) (t.drop n)) :
    h.In position t := by
  have hinside := In.inside (t.take n) [] hin
  rwa [append_nil, take_append_drop] at hinside

end Halt

namespace Lexeme

variable {position n : Nat} {t : Text} {s : Slip}

/-! ## Comments and blanks -/

theorem comment_halts (h : comment position t = .error s) : s.halt.In position t := by
  unfold comment at h
  split at h
  · cases h
  next t =>
    split at h
    · cases h
    cases h
    refine ⟨Nat.le_refl _, Nat.le_add_right .., ?_⟩
    have hbytes : bytes ('/' :: '*' :: t) = 1 + (1 + bytes t) := rfl
    show position + 2 ≤ position + bytes ('/' :: '*' :: t)
    omega
  · cases h

theorem blanksFrom_halts {comments : Bool} {position skip n : Nat}
    (h : blanksFrom comments position skip n t = .error s) : s.halt.In position t := by
  fun_induction blanksFrom comments position skip n t with
  | case1 | case5 | case7 => cases h
  | case2 _ _ _ _ _ ih | case3 _ _ _ _ _ ih | case6 _ _ _ _ _ _ _ _ ih => exact (ih h).cons
  | case4 _ _ _ _ _ _ _ hcomment =>
    have hin := comment_halts hcomment
    cases h
    exact hin

/-! ## Strings and groups -/

variable {c : Char}

theorem utf8Size_of_beq {d : Char} (h : (c == d) = true) (hd : d.utf8Size = 1) :
    c.utf8Size = 1 := by
  rw [eq_of_beq h, hd]

theorem utf8Size_of_isOpening (h : isOpening c = true) : c.utf8Size = 1 := by
  simp only [isOpening, or_eq_true] at h
  rcases h with (h | h) | h <;> exact utf8Size_of_beq h rfl

theorem utf8Size_of_isQuote (h : isQuote c = true) : c.utf8Size = 1 := by
  simp only [isQuote, or_eq_true] at h
  rcases h with (h | h) | h <;> exact utf8Size_of_beq h rfl

theorem utf8Size_of_opening? {o : Char} (h : opening? c = some o) : c.utf8Size = 1 := by
  unfold opening? at h
  split at h
  next hc => exact utf8Size_of_beq hc rfl
  split at h
  next hc => exact utf8Size_of_beq hc rfl
  split at h
  next hc => exact utf8Size_of_beq hc rfl
  · cases h

def Layer.Between (start position : Nat) : Layer → Prop
  | bracket _ p | quoted _ p => start ≤ p ∧ p + 1 ≤ position
  | lineComment => True
  | blockComment p _ => start ≤ p ∧ p + 2 ≤ position

theorem Layer.Between.mono {layer : Layer} {start position position' : Nat}
    (h : layer.Between start position) (hle : position ≤ position') :
    layer.Between start position' := by
  cases layer with
  | bracket | quoted => exact ⟨h.1, Nat.le_trans h.2 hle⟩
  | lineComment => trivial
  | blockComment p before => exact ⟨h.1, Nat.le_trans h.2 hle⟩

/-- Layers that have been opened between two positions, line comments inside of brackets. -/
def Opened (start position : Nat) : List Layer → Prop
  | [] => True
  | layer :: layers =>
    layer.Between start position ∧ (layer = .lineComment → layers.head?.any Layer.isBracket = true) ∧
      Opened start position layers

namespace Opened

variable {start position' : Nat} {layers : List Layer}

variable (h : Opened start position layers)
include h

theorem mono (hle : position ≤ position') : Opened start position' layers := by
  induction layers with
  | nil => trivial
  | cons layer layers ih => exact ⟨h.1.mono hle, h.2.1, ih h.2.2⟩

theorem of_mem : ∀ layer ∈ layers, layer.Between start position := by
  induction layers with
  | nil => exact nofun
  | cons layer layers ih => exact forall_mem_cons.mpr ⟨h.1, ih h.2.2⟩

theorem groupOpen (hhead : layers.head?.any Layer.isBracket = true) :
    (groupOpen layers).Between start position := by
  obtain ⟨layer, hlayer, hbracket⟩ := (Option.any_eq_true _ _).mp hhead
  obtain ⟨rest, rfl⟩ := head?_eq_some_iff.mp hlayer
  unfold Lexeme.groupOpen
  split
  next c p hlast =>
    have hmem := mem_of_getLast? hlast
    have hp := h.of_mem _ ((takeWhile_sublist _).subset hmem)
    exact ⟨hp.1, Nat.le_add_right .., hp.2⟩
  next hnone =>
    -- the outermost of the brackets is a bracket
    have hne : (layer :: rest).takeWhile Layer.isBracket ≠ [] := by
      rw [takeWhile_cons_of_pos hbracket]
      exact cons_ne_nil _ _
    have hlast := getLast?_eq_some_getLast hne
    have hisBracket := all_eq_true.mp all_takeWhile _ (getLast_mem hne)
    cases hlayer : ((layer :: rest).takeWhile Layer.isBracket).getLast hne with
    | bracket c p => exact absurd (hlast.trans (congrArg some hlayer)) (hnone c p)
    | quoted | lineComment | blockComment =>
      rw [hlayer] at hisBracket
      cases hisBracket

theorem endOpen (hne : layers ≠ []) :
    ∃ f, (endOpen n layers).halt = .fault f ∧ f.Between start position := by
  cases layers with
  | nil => exact absurd rfl hne
  | cons layer layers =>
    cases layer with
    | bracket c p => exact ⟨_, rfl, h.groupOpen rfl⟩
    | quoted q p => exact ⟨_, rfl, h.1.1, Nat.le_add_right .., h.1.2⟩
    | lineComment => exact ⟨_, rfl, groupOpen h.2.2 (h.2.1 rfl)⟩
    | blockComment p before => exact ⟨_, rfl, h.1.1, Nat.le_add_right .., h.1.2⟩

end Opened

theorem nested_halts {layers : List Layer} {start stop : Nat}
    (h : nested layers position n t = .error s) (hopened : Opened start position layers)
    (hstart : start ≤ position) (hstop : position + bytes t ≤ stop) :
    ∃ f, s.halt = .fault f ∧ f.Between start stop := by
  fun_induction nested layers position n t
  case case1 => cases h
  all_goals simp only [bytes] at hstop
  case case2 hne =>
    cases h
    obtain ⟨f, hf, hbetween⟩ := hopened.endOpen hne
    exact ⟨f, hf, hbetween.mono (Nat.le_refl _) hstop⟩
  -- in a string
  case case3 hc ih =>
    have hsize := utf8Size_of_beq hc rfl
    exact ih h (hopened.mono (by omega)) (by omega) (by simp only [bytes]; omega)
  case case5 hc =>
    have hsize := utf8Size_of_beq (and_eq_true_iff.mp hc).1 rfl
    cases h
    refine ⟨_, rfl, hopened.1.1, ?_, ?_⟩
    · exact Nat.le_trans (Nat.le_of_lt hopened.1.2) (Nat.le_succ _)
    · show _ + 1 ≤ stop
      omega
  case case6 hc _ ih =>
    have hsize := utf8Size_of_beq (and_eq_true_iff.mp hc).1 rfl
    have hbrace : '{'.utf8Size = 1 := rfl
    refine ih h ⟨⟨by omega, by omega⟩, by rintro ⟨⟩, hopened.mono (by omega)⟩ (by omega)
      (by omega)
  case case7 hc _ _ ih =>
    have hsize := utf8Size_of_beq (and_eq_true_iff.mp hc).1 rfl
    exact ih h (hopened.mono (by omega)) (by omega) (by omega)
  case case8 ih => exact ih h (hopened.2.2.mono (by omega)) (by omega) (by omega)
  -- in brackets
  case case10 hc ih =>
    have hsize := utf8Size_of_isOpening hc
    exact ih h ⟨⟨by omega, by omega⟩, by rintro ⟨⟩, hopened.mono (by omega)⟩ (by omega)
      (by omega)
  case case11 hc _ ih =>
    have hsize := utf8Size_of_opening? hc
    exact ih h (hopened.2.2.mono (by omega)) (by omega) (by omega)
  case case12 hc _ =>
    have hsize := utf8Size_of_opening? hc
    cases h
    refine ⟨_, rfl, hstart, Nat.le_succ _, ?_⟩
    show _ + 1 ≤ stop
    omega
  case case13 hc ih =>
    have hsize := utf8Size_of_isQuote hc
    exact ih h ⟨⟨by omega, by omega⟩, by rintro ⟨⟩, hopened.mono (by omega)⟩ (by omega)
      (by omega)
  case case14 hc _ ih =>
    have hsize := utf8Size_of_beq hc rfl
    have hslash : '/'.utf8Size = 1 := rfl
    exact ih h ⟨trivial, fun _ => rfl, hopened.mono (by omega)⟩ (by omega) (by omega)
  case case15 hc _ ih =>
    have hsize := utf8Size_of_beq hc rfl
    have hstar : '*'.utf8Size = 1 := rfl
    exact ih h ⟨⟨by omega, by omega⟩, by rintro ⟨⟩, hopened.mono (by omega)⟩ (by omega)
      (by omega)
  -- in a comment
  case case18 hc ih =>
    have hsize := utf8Size_of_beq hc rfl
    exact ih h (hopened.2.2.mono (by omega)) (by omega) (by omega)
  case case20 hc _ ih =>
    have hsize := utf8Size_of_beq hc rfl
    have hslash : '/'.utf8Size = 1 := rfl
    exact ih h (hopened.2.2.mono (by omega)) (by omega) (by omega)
  -- any other character leaves open what is open
  case case4 hc _ _ ih | case16 hc _ _ _ ih | case21 hc _ _ ih =>
    have hsize := utf8Size_of_beq hc rfl
    exact ih h (hopened.mono (by omega)) (by omega) (by omega)
  case case9 ih | case17 ih | case19 ih | case22 ih =>
    exact ih h (hopened.mono (by omega)) (by omega) (by omega)

theorem string_halts (h : string position t = .error s) : s.halt.In position t := by
  cases t with
  | nil => cases h
  | cons c t =>
    have hopened : Opened position (position + c.utf8Size) [.quoted c position] :=
      ⟨⟨Nat.le_refl _, Nat.add_le_add_left c.utf8Size_pos _⟩, nofun, trivial⟩
    obtain ⟨f, hf, hbetween⟩ := nested_halts h hopened (Nat.le_add_right ..) (Nat.le_refl _)
    rw [hf]
    exact hbetween.mono (Nat.le_refl _) (Nat.le_of_eq (Nat.add_assoc ..))

theorem group_halts (hc : isOpening c = true) (h : group position (c :: t) = .error s) :
    s.halt.In position (c :: t) := by
  have hsize := utf8Size_of_isOpening hc
  rw [group, if_pos hc] at h
  have hopened : Opened position (position + 1) [.bracket c position] :=
    ⟨⟨Nat.le_refl _, Nat.le_refl _⟩, nofun, trivial⟩
  obtain ⟨f, hf, hbetween⟩ := nested_halts h hopened (Nat.le_add_right ..) (Nat.le_refl _)
  rw [hf]
  refine hbetween.mono (Nat.le_refl _) ?_
  rw [bytes]
  omega

/-! ## Operands -/

theorem shift_error {r : Except Slip Nat} (h : shift n r = .error s) :
    ∃ s', r = .error s' ∧ s.halt = s'.halt := by
  cases r with
  | error s' =>
    cases h
    exact ⟨s', rfl, rfl⟩
  | ok m => cases h

theorem memberName_halts (h : memberName position t = .error s) : s.halt.In position t := by
  unfold memberName at h
  split at h
  · cases h
  split at h
  next hbracket =>
    obtain ⟨u, rfl⟩ := head?_eq_some_iff.mp (eq_of_beq hbracket)
    exact group_halts rfl h
  · cases h

theorem link_halts (h : link position t = .error s) : s.halt.In position t := by
  unfold link at h
  split at h
  · obtain ⟨s', hs', hhalt⟩ := shift_error h
    rw [hhalt]
    have hin : s'.halt.In (position + 1 + 1) _ := memberName_halts hs'
    exact hin.cons.cons
  · obtain ⟨s', hs', hhalt⟩ := shift_error h
    rw [hhalt]
    exact (memberName_halts hs').cons
  · split at h
    next hc =>
      refine group_halts ?_ h
      rcases or_eq_true_iff.mp hc with hc | hc <;> rw [eq_of_beq hc] <;> rfl
    · cases h
  · cases h

theorem linksFrom_halts {position skip n : Nat} (h : linksFrom position skip n t = .error s) :
    s.halt.In position t := by
  fun_induction linksFrom position skip n t with
  | case1 | case4 => cases h
  | case2 _ _ _ _ _ ih | case5 _ _ _ _ _ _ ih => exact (ih h).cons
  | case3 _ _ _ _ _ hlink =>
    have hin := link_halts hlink
    cases h
    exact hin

theorem primary_halts (h : primary position t = .error s) : s.halt.In position t := by
  unfold primary at h
  split at h
  · cases h
  split at h
  next hc => exact group_halts hc h
  split at h
  · exact string_halts h
  · cases h

theorem operand_halts {chained : Bool} (h : operand chained position t = .error s) :
    s.halt.In position t := by
  unfold operand at h
  cases hprimary : primary position t with
  | error s' =>
    rw [hprimary] at h
    cases h
    exact primary_halts hprimary
  | ok n =>
    rw [hprimary] at h
    cases chained with
    | false => cases h
    | true =>
      obtain ⟨s', hs', hhalt⟩ := shift_error h
      rw [hhalt]
      exact (linksFrom_halts hs').drop n

/-! ## Expressions -/

theorem isLetterOrNumber_of_isLetter (h : isLetter c = true) :
    isLetterOrNumber c = true := by
  unfold isLetter at h
  unfold isLetterOrNumber
  split at h
  next hascii =>
    rw [if_pos hascii, Char.isAlphanum, h]
    rfl
  next hascii => rw [if_neg hascii, h, Bool.true_or]

/-- Only a number of a script other than ASCII is cut. -/
theorem word_halts (hc : Text.isWordChar c = true) (h : word (c :: t) = .error s) :
    s.halt.In position (c :: t) := by
  unfold word at h
  split at h
  · cases h
  next hstart =>
    split at h
    next hlength =>
      cases h
      refine ⟨c, mem_cons_self, ?_⟩
      have hnotStart : isWordStart c = false := eq_false_iff.mpr hstart
      simp only [isWordStart, or_eq_false_iff] at hnotStart
      obtain ⟨⟨hletter, hunderscore⟩, hdollar⟩ := hnotStart
      have hnumber : ¬(c.isAlphanum || c == '.' || c == '_') = true := by
        intro hnumber
        rw [takeWhile_cons, if_pos hnumber] at hlength
        cases hlength
      have hwide : ¬c.toNat < 128 := by
        intro hascii
        simp only [Text.isWordChar, isLetterOrNumber, if_pos hascii, hunderscore, hdollar,
          Bool.or_false] at hc
        rw [hc] at hnumber
        exact hnumber rfl
      rw [isAsciiOrLetter, hletter, Bool.or_false, decide_eq_false hwide]
    · cases h

theorem map_error {r : Except Slip Nat} {f : Nat → Nat × Bool} (h : r.map f = .error s) :
    r = .error s := by
  cases r with
  | error s' =>
    cases h
    rfl
  | ok n => cases h

theorem item_halts {afterOperand : Bool} (h : item afterOperand position t = .error s) :
    s.halt.In position t := by
  unfold item at h
  split at h
  · cases h
  next c next =>
    split at h
    next hc => exact group_halts hc (map_error h)
    split at h
    · exact string_halts (map_error h)
    split at h
    · split at h <;> cases h
    split at h
    next hc => exact word_halts hc (map_error h)
    split at h
    · cases h
    · split at h <;> cases h

theorem expressionFrom_halts {p : Progress} {position skip n : Nat}
    (h : expressionFrom p position skip n t = .error s) : s.halt.In position t := by
  fun_induction expressionFrom p position skip n t with
  | case1 | case6 | case7 | case9 => cases h
  | case2 _ _ _ _ _ _ ih | case3 _ _ _ _ _ _ ih | case5 _ _ _ _ _ _ _ _ _ ih
  | case10 _ _ _ _ _ _ _ _ _ _ _ _ _ ih => exact (ih h).cons
  | case4 _ _ _ _ _ _ _ hcomment =>
    have hin := comment_halts hcomment
    cases h
    exact hin
  | case8 _ _ _ _ _ _ _ _ _ _ hitem =>
    have hin := item_halts hitem
    cases h
    exact hin

/-! ## Searches -/

theorem unit_halts {o : ScanOptions} {past : Text} (h : unit o past position t = .error s) :
    s.halt.In position t := by
  unfold unit at h
  split at h
  · cases h
  next c u =>
    split at h
    · exact string_halts h
    split at h
    · extract_lets finish at h
      have hfinish : ∀ n, finish n ≠ .error s := by
        intro n hn
        dsimp only [finish] at hn
        split at hn
        · split at hn <;> cases hn
        · cases hn
      split at h
      · cases hcomment : comment position (c :: u) with
        | error s' =>
          rw [hcomment] at h
          cases h
          exact comment_halts hcomment
        | ok n =>
          rw [hcomment] at h
          exact absurd h (hfinish n)
      · exact absurd h (hfinish 0)
    · cases h

theorem searchFrom_halts {o : ScanOptions} {chars : List Char} {past : Text} {position skip n : Nat}
    (h : searchFrom o chars past position skip n t = .error s) : s.halt.In position t := by
  fun_induction searchFrom o chars past position skip n t with
  | case1 | case3 => cases h
  | case2 _ _ _ _ _ _ ih | case5 _ _ _ _ _ _ _ _ ih => exact (ih h).cons
  | case4 _ _ _ _ _ _ _ hunit =>
    have hin := unit_halts hunit
    cases h
    exact hin

end Lexeme
end Patchwork
