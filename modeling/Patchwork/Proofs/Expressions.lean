import Patchwork.Proofs.Places

/-!
# Where an expression ends

An expression is read item by item (`Items`), with blanks and comments between the items (`Gap`). What
is read of it is all its items and what stands between them, and nothing but blanks and comments is
lost at its ends. Main result: `Scan.readExpression_stops`.
-/

namespace Patchwork

open List Text

namespace Lexeme

/-- From `t` on there are only blanks and comments up to `rest`, and a line break among them or not. -/
inductive Gap (t : Text) : (broken : Bool) → (rest : Text) → Prop
  | start : Gap t false t
  | blank {broken : Bool} {c : Char} {rest : Text} (h : Gap t broken (c :: rest))
      (hc : isBlank c = true) : Gap t (broken || c == '\n') rest
  | comment {broken : Bool} {rest : Text} {position n : Nat} (h : Gap t broken rest)
      (hcomment : comment position rest = .ok (n + 1)) :
      Gap t (broken || (rest.take (n + 1)).contains '\n') (rest.drop (n + 1))

/-- From `t` on there are items up to `rest`, with gaps between them, and the last one ends an operand
or not. -/
inductive Items (t : Text) : (operand : Bool) → (rest : Text) → Prop
  | start : Items t false t
  | item {operand operand' broken : Bool} {rest ahead : Text} {position n : Nat}
      (h : Items t operand rest) (hgap : Gap rest broken ahead)
      (hitem : item operand position ahead = .ok (n, operand')) : Items t operand' (ahead.drop n)

/-- Behind the last item, where `rest` stands, an expression ends at `here`. -/
inductive Stops (operand : Bool) (rest : Text) : (here : Text) → Prop
  | ended : Stops operand rest []
  | terminator {c : Char} {t : Text} (hc : isTerminator c = true) : Stops operand rest (c :: t)
  | line {c : Char} {t : Text} (hoperand : operand = true) (hgap : Gap rest true (c :: t))
      (hblank : isBlank c = false) (hc : c ≠ '.' ∧ c ≠ '?') : Stops operand rest rest
  | word {c : Char} {t : Text} {position n : Nat} (hoperand : operand = true)
      (hword : isWordChar c = true) (hitem : item true position (c :: t) = .ok (n, true))
      (hgap : (c :: t).length < rest.length) : Stops operand rest (c :: t)

/-! ## Items -/

variable {position n k : Nat} {c : Char} {t : Text}

theorem lt_of_regexFrom {inClass : Bool} (h : regexFrom inClass n t = some k) : n < k := by
  fun_induction regexFrom inClass n t with
  | case1 | case2 | case3 => cases h
  | case7 =>
    cases h
    omega
  | case4 _ _ _ _ ih | case5 _ _ _ ih | case6 _ _ _ ih | case8 _ _ _ _ _ _ _ _ _ _ ih =>
    have hlt := ih h
    omega

/-- Every item has a character. -/
theorem item_ne_zero {operand operand' : Bool}
    (h : item operand position (c :: t) = .ok (n, operand')) : n ≠ 0 := by
  have hmap {x : Except Slip Nat} {f : Nat → Bool}
      (h : x.map (fun n => (n, f n)) = .ok (n, operand')) : x = .ok n := by
    cases x with
    | error => cases h
    | ok => cases h; rfl
  dsimp only [item] at h
  split at h
  next hopening =>
    obtain ⟨body, d, rest, -, rfl, -⟩ := group_eq hopening (hmap h)
    exact Nat.succ_ne_zero _
  split at h
  next hquote =>
    obtain ⟨body, rest, -, rfl⟩ := string_eq hquote (hmap h)
    exact Nat.succ_ne_zero _
  split at h
  · split at h
    next hregex =>
      cases h
      exact Nat.ne_zero_of_lt (lt_of_regexFrom hregex)
    · cases h
      exact Nat.one_ne_zero
  split at h
  next hword =>
    have hw := hmap h
    unfold word at hw
    split at hw
    · cases hw
      rw [takeWhile_cons_of_pos hword]
      exact Nat.succ_ne_zero _
    · split at hw
      · cases hw
      next hne =>
        cases hw
        exact hne
  split at h
  · cases h
    exact Nat.succ_ne_zero _
  split at h
  · cases h
    exact Nat.succ_ne_zero _
  · cases h
    exact Nat.one_ne_zero

/-! ## Reading on -/

/-- How things stand after `n` characters. -/
structure Stands (whole : Text) (p : Progress) (n : Nat) : Prop where
  items : Items whole p.afterOperand (whole.drop p.stop)
  gap : Gap (whole.drop p.stop) p.newline (whole.drop n)
  stop_le : p.stop ≤ n

/-- An expression has been read to its end. -/
def Ended (whole : Text) (e : Extent) : Prop :=
  ∃ operand broken, Items whole operand (whole.drop e.stop) ∧
    Gap (whole.drop e.stop) broken (whole.drop e.passed) ∧
    Stops operand (whole.drop e.stop) (whole.drop e.passed)

variable {whole : Text} {p : Progress}

theorem expressionFrom_ended {e : Extent} : ∀ {p : Progress} {position skip n : Nat},
    expressionFrom p position skip n t = .ok e → whole.drop n = t → Stands whole p (n + skip) →
    Ended whole e := by
  induction t with
  | nil =>
    intro p position skip n h ht hs
    have he : e = ⟨p.stop, n⟩ := by cases skip <;> cases h <;> rfl
    subst he
    have hgap := hs.gap
    rw [← drop_drop, ht, drop_nil] at hgap
    exact ⟨_, _, hs.items, ht ▸ hgap, ht ▸ .ended⟩
  | cons c t ih =>
    intro p position skip n h ht hs
    have ht' : whole.drop (n + 1) = t := by
      rw [← drop_drop, ht]
      rfl
    cases skip with
    | succ skip =>
      refine ih h ht' ?_
      rw [Nat.add_right_comm]
      exact hs
    | zero =>
    obtain ⟨hitems, hgap, hle⟩ := hs
    rw [Nat.add_zero, ht] at hgap
    -- the expression ends here
    have hended (hstops : Stops p.afterOperand (whole.drop p.stop) (c :: t)) :
        Ended whole ⟨p.stop, n⟩ := ⟨_, _, hitems, ht ▸ hgap, ht ▸ hstops⟩
    have hdrop (k : Nat) : whole.drop (n + 1 + k) = t.drop k := by
      rw [← drop_drop, ht']
    unfold expressionFrom at h
    split at h
    next hblank =>
      exact ih h ht' ⟨hitems, ht' ▸ hgap.blank hblank, Nat.le_succ_of_le hle⟩
    next hblank =>
    rw [Bool.not_eq_true] at hblank
    split at h
    · cases h
    next k hcomment =>
      have hgap' := hgap.comment hcomment
      refine ih h ht' ⟨hitems, hdrop k ▸ hgap', ?_⟩
      exact Nat.le_trans hle (by omega)
    split at h
    next hline =>
      cases h
      simp only [Bool.and_eq_true, bne_iff_ne] at hline
      obtain ⟨⟨⟨hoperand, hbroken⟩, hpoint⟩, hmark⟩ := hline
      rw [hbroken] at hgap
      exact ⟨_, _, hitems, .start, .line hoperand hgap hblank ⟨hpoint, hmark⟩⟩
    split at h
    next hterm =>
      cases h
      exact hended (.terminator hterm)
    split at h
    · cases h
    next k operand hitem =>
    obtain ⟨m, rfl⟩ := Nat.exists_eq_succ_of_ne_zero (item_ne_zero hitem)
    split at h
    next hword =>
      cases h
      simp only [Bool.and_eq_true, decide_eq_true_eq] at hword
      obtain ⟨⟨⟨hword, hoperand⟩, hlt⟩, rfl⟩ := hword
      rw [hoperand] at hitem
      refine hended (.word hoperand hword hitem ?_)
      have hlength := congrArg length ht
      rw [length_drop] at hlength ⊢
      rw [length_cons] at hlength ⊢
      omega
    · have hstop : whole.drop (n + (m + 1)) = (c :: t).drop (m + 1) := by
        rw [← drop_drop, ht]
      have hle : n + (m + 1) ≤ n + 1 + (m + 1 - 1) := by omega
      refine ih h ht' ⟨hstop ▸ hitems.item hgap hitem, ?_, hle⟩
      rw [Nat.succ_sub_one, Nat.add_right_comm]
      exact .start

end Lexeme

namespace Scan

/-- What is read of an expression is its text without the blanks around it. Apart from these only
blanks and comments behind it are passed over. It ends where nothing follows, before a terminator,
behind an operand at the end of the line or before a word that follows an operand. -/
theorem readExpression_stops (cur cur' : Cursor) (text : Text)
    (h : readExpression cur = .ok text cur') :
    ∃ front back rest operand broken, cur.rest = front ++ (text ++ back) ++ rest ∧
      (front.all isBlank && back.all isBlank) = true ∧
      (∀ c ∈ text.head?, isBlank c = false) ∧ (∀ c ∈ text.getLast?, isBlank c = false) ∧
      Lexeme.Items cur.rest operand rest ∧ Lexeme.Gap rest broken cur'.rest ∧
      Lexeme.Stops operand rest cur'.rest := by
  unfold readExpression at h
  split at h
  next e he =>
    cases h
    have hstart : Lexeme.Stands cur.rest {} 0 := ⟨.start, .start, Nat.le_refl 0⟩
    obtain ⟨operand, broken, hends⟩ := Lexeme.expressionFrom_ended he rfl hstart
    obtain ⟨front, back, htake, hfront, hhead, hback, hlast⟩ := exists_eq_trim (cur.rest.take e.stop)
    refine ⟨front, back, cur.rest.drop e.stop, operand, broken, ?_, by rw [hfront, hback]; rfl,
      hhead, hlast, hends⟩
    rw [← htake, take_append_drop]
  · cases h

theorem readExpression_stops_line :
    let cur := Cursor.ofText " a + b // c\n d" 0
    readExpression cur = .ok "a + b" (cur.advance 6) ∧
      ∃ rest operand, Lexeme.Items cur.rest operand rest ∧ Lexeme.Stops operand rest " // c\n d" := by
  intro cur
  have h : readExpression cur = .ok "a + b" (cur.advance 6) := by
    with_unfolding_all rfl
  obtain ⟨_, _, rest, operand, _, _, _, _, _, hitems, _, hstops⟩ := readExpression_stops cur _ _ h
  exact ⟨h, rest, operand, hitems, hstops⟩

end Scan
end Patchwork
