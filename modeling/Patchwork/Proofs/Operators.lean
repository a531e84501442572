import Patchwork.Proofs.Conditional
import Patchwork.Proofs.TagTexts

/-!
# Operators after operands

`*`, `&` and `<` are operators between two operands, and otherwise begin a reactive read, a computed
value or a tag. Which of the two they are is seen from the character in front of them, blanks aside.

An operand that ends in a word, a bracket, a point or a quote (`EndsOperand`) is recognized by it, and
the operator stays as it is, whatever follows (`operator_after_operand`). One that ends otherwise is
not: behind a postfix operator, a regular expression or a comment the next `*` is taken for a read.
-/

namespace Patchwork

open Compile List Scan Text

/-- A text, given backwards, ends in an operand and blanks. The operand ends in a word that is no
keyword, or in the last character of a group, a subscript, a number or a string. -/
inductive EndsOperand (keywords : List Text) : Text → Prop
  | word (w back : Text) (some : w ≠ []) (chars : ∀ c ∈ w, isWordChar c = true)
      (apart : back.head?.all (!isWordChar ·)) (other : w.reverse ∉ keywords) :
      EndsOperand keywords (w ++ back)
  | mark {c : Char} {back : Text} (mark : c ∈ [')', ']', '.'] ∨ Lexeme.isQuote c = true) :
      EndsOperand keywords (c :: back)
  | blank {c : Char} {back : Text} (blank : isBlank c = true) (operand : EndsOperand keywords back) :
      EndsOperand keywords (c :: back)

def wordsBefore (d : Char) : List Text :=
  if d == '&' then "async" :: "defer" :: Lexeme.expressionKeywords else Lexeme.expressionKeywords

variable {keywords : List Text} {past : Text}

/-- What stands behind the blanks is a word that is no keyword, or one of the marks. -/
theorem EndsOperand.behind (h : EndsOperand keywords past) :
    ∃ c back, past.dropWhile isBlank = c :: back ∧
      if isWordChar c then ((c :: back).takeWhile isWordChar).reverse ∉ keywords
      else c ∈ [')', ']', '.'] ∨ Lexeme.isQuote c = true := by
  induction h with
  | word w back some chars apart other =>
    obtain ⟨c, w, rfl⟩ := exists_cons_of_ne_nil some
    have hc : isWordChar c = true := chars c mem_cons_self
    refine ⟨c, w ++ back, dropWhile_cons_of_neg ?_, ?_⟩
    · rw [isBlank_eq_false (by decide +kernel) hc]
      exact Bool.false_ne_true
    · have hback : back.takeWhile isWordChar = [] := by
        cases back with
        | nil => rfl
        | cons d back => exact takeWhile_cons_of_neg (by simpa using apart)
      rw [if_pos hc, ← cons_append, takeWhile_append_of_pos chars, hback, append_nil]
      exact other
  | @mark c back mark =>
    have hc : isBlank c = false ∧ isWordChar c = false := by
      simp only [mem_cons, not_mem_nil, or_false, Lexeme.isQuote, Bool.or_eq_true, beq_iff_eq] at mark
      rcases mark with (rfl | rfl | rfl) | (rfl | rfl) | rfl <;> decide
    refine ⟨c, back, dropWhile_cons_of_neg ?_, ?_⟩
    · rw [hc.1]
      exact Bool.false_ne_true
    · rw [if_neg (by rw [hc.2]; exact Bool.false_ne_true)]
      exact mark
  | blank hblank _ ih => rwa [dropWhile_cons_of_pos hblank]

theorem EndsOperand.no_start (h : EndsOperand keywords past)
    (hkeywords : Lexeme.expressionKeywords ⊆ keywords) :
    Lexeme.canStartExpression past = false := by
  obtain ⟨c, back, hpast, hc⟩ := h.behind
  unfold Lexeme.canStartExpression
  rw [hpast]
  dsimp only
  split at hc
  next hword =>
    rw [if_pos hword]
    exact Bool.eq_false_iff.mpr fun h => hc (hkeywords (contains_iff_mem.mp h))
  next hword =>
    rw [if_neg hword]
    simp only [mem_cons, not_mem_nil, or_false] at hc
    rcases hc with (rfl | rfl | rfl) | hquote
    · rfl
    · rfl
    · rfl
    · rw [hquote, Bool.or_true]
      rfl

theorem EndsOperand.word_ne (h : EndsOperand keywords past) {w : Text} (hw : w ∈ keywords) :
    (Lexeme.wordBefore? past == some w) = false := by
  obtain ⟨c, back, hpast, hc⟩ := h.behind
  rw [beq_eq_false_iff_ne, Lexeme.wordBefore?, hpast]
  split at hc
  next hword =>
    rw [takeWhile_cons_of_pos hword] at hc ⊢
    rintro ⟨⟩
    exact hc hw
  next hword =>
    rw [takeWhile_cons_of_neg hword]
    rintro ⟨⟩

namespace Code

/-- A character that has been read is left as it is, with one more like it perhaps. -/
def Leaves (code : Code) (d : Char) (s : Session) (code' : Code) (s' : Session) : Prop :=
  ∃ t, code' = code.push (d :: t) ∧ s.cursor.rest = t ++ s'.cursor.rest ∧ s'.output = s.output

theorem readIf_leaves (code : Code) (d : Char) (s : Session) : ∃ found s',
    scan (readIf d) s = .ok (found, s') ∧
      code.Leaves d s (code.push (if found then [d, d] else [d])) s' := by
  by_cases hpeek : (s.cursor.peek? == some d) = true
  · obtain ⟨back, hback⟩ := head?_eq_some_iff.mp (eq_of_beq hpeek)
    refine ⟨true, { s with cursor := s.cursor.advance 1 }, ?_, [d], rfl, ?_, rfl⟩
    · exact scan_eq_ok.mpr ⟨_, if_pos hpeek, rfl⟩
    · rw [hback, Cursor.advance, hback]
      rfl
  · exact ⟨false, s, scan_eq_ok.mpr ⟨_, if_neg hpeek, rfl⟩, [], rfl, rfl, rfl⟩

theorem computed_leaves (inner : Purpose → Expander) (code : Code) (s : Session)
    (h : EndsOperand (wordsBefore '&') (s.cursor.past.drop 1)) :
    ∃ code' s', code.computed inner s = .ok (code', s') ∧ code.Leaves '&' s code' s' := by
  obtain ⟨found, s', hread, hleaves⟩ := readIf_leaves code '&' s
  refine ⟨_, s', ?_, hleaves⟩
  show (if (!(Lexeme.wordBefore? _ == some ("async" : Text) ||
    Lexeme.wordBefore? _ == some ("defer" : Text) || _) || _) = true then _ else _ : Compile Code) s = _
  rw [h.word_ne (by decide), h.word_ne (by decide), h.no_start (by decide)]
  refine (congrFun (if_pos rfl) s).trans ?_
  exact bind_of_ok hread (by cases found <;> rfl)

theorem reactiveRead_leaves (inner : Purpose → Expander) (code : Code) (s : Session)
    (h : EndsOperand (wordsBefore '*') (s.cursor.past.drop 1))
    (hpoint : endsWithChar '.' code.lookback = false) :
    ∃ code' s', code.reactiveRead inner .tracked s = .ok (code', s') ∧
      code.Leaves '*' s code' s' := by
  obtain ⟨found, s', hread, hleaves⟩ := readIf_leaves code '*' s
  refine ⟨_, s', ?_, hleaves⟩
  have hspread : endsWith "..." code.lookback = false := by
    refine Bool.eq_false_iff.mpr fun hends => ?_
    obtain ⟨front, hfront⟩ := isSuffixOf_iff_suffix.mp hends
    rw [← hfront] at hpoint
    simp [endsWithChar] at hpoint
  show (if (!((endsWithChar '.' code.lookback && _) || (endsWith "..." code.lookback || _ &&
    Lexeme.canStartExpression _)) || _) = true then _ else _ : Compile Code) s = _
  rw [hpoint, h.no_start (by decide), hspread]
  refine (congrFun (if_pos rfl) s).trans ?_
  exact bind_of_ok hread (by cases found <;> rfl)

end Code
end Patchwork
