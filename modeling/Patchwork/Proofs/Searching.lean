import Patchwork.Proofs.Groups
import Patchwork.Proofs.Moving

/-!
# What a search passes over

A search goes to the first of some characters, but it passes over strings as a whole. A string ends
in the quote it begins with (`string_eq`), and a group in the bracket that closes it (`group_eq`). So
a character that is searched for and yet has been passed over has a quote behind it (`Quoted`). Main
result: `Scan.find_spec`.
-/

namespace Patchwork

open List Lexeme

theorem Text.trimEnd_append_blankEnd (t : Text) : Text.trimEnd t ++ Text.blankEnd t = t := by
  unfold Text.trimEnd Text.blankEnd
  rw [← reverse_append, takeWhile_append_dropWhile, reverse_reverse]

theorem Text.allBlank_blankEnd (t : Text) : allBlank (Text.blankEnd t) = true := by
  rw [allBlank, Text.blankEnd, all_reverse]
  exact all_takeWhile

namespace Lexeme

variable {position m : Nat} {t : Text} {c p : Char}

/-! ## Strings and groups end in what closes them -/

theorem string_eq (hc : isQuote c = true) (h : string position (c :: t) = .ok m) :
    ∃ body rest, t = body ++ c :: rest ∧ m = body.length + 2 := by
  obtain ⟨body, rest, ht, hm, -⟩ := (string_eq_ok_iff hc).mp h
  exact ⟨body, rest, ht, hm⟩

/-- A group begins with a bracket and ends with the one that closes it. -/
theorem group_eq (hc : isOpening c = true) (h : group position (c :: t) = .ok m) :
    ∃ body d rest, t = body ++ d :: rest ∧ m = body.length + 2 ∧ opening? d = some c := by
  obtain ⟨b, rfl⟩ := exists_opener hc
  obtain ⟨body, rest, -, ht, hm, -⟩ := group_eq_ok_iff.mp h
  exact ⟨body, b.closer, rest, ht, hm, by cases b <;> rfl⟩

/-! ## Blanks -/

theorem blanksFrom_eq {comments : Bool} {position n : Nat}
    (hslash : comments = true → ∀ d ∈ (Text.trimStart t).head?, d ≠ '/') :
    blanksFrom comments position 0 n t = .ok (n + (t.takeWhile Text.isBlank).length) := by
  induction t generalizing position n with
  | nil => rfl
  | cons d u ih =>
    unfold blanksFrom
    by_cases hd : Text.isBlank d = true
    · rw [if_pos hd, takeWhile_cons_of_pos hd, length_cons]
      rw [Text.trimStart, dropWhile_cons_of_pos hd] at hslash
      rw [ih hslash, Nat.add_right_comm, Nat.add_assoc]
    · rw [if_neg hd, takeWhile_cons_of_neg hd]
      cases comments with
      | false => rfl
      | true =>
        have hne : d ≠ '/' := by
          refine hslash rfl d ?_
          rw [Text.trimStart, dropWhile_cons_of_neg hd]
          rfl
        have hcomment : comment position (d :: u) = .ok 0 := by
          unfold comment
          split
          next hcase => exact absurd (cons.inj hcase).1 hne
          next hcase => exact absurd (cons.inj hcase).1 hne
          · rfl
        rw [hcomment]
        rfl

/-! ## A search -/

def Quoted (p : Char) (t : Text) : Prop :=
  ∀ front back, t = front ++ p :: back → ∃ q ∈ back, isQuote q = true

theorem Quoted.of_not_mem (h : p ∉ t) : Quoted p t := by
  rintro front back rfl
  exact absurd (mem_append_right _ mem_cons_self) h

theorem Quoted.cons (h : Quoted p t) (hc : c = p → ∃ q ∈ t, isQuote q = true) :
    Quoted p (c :: t) := by
  intro front back heq
  cases front with
  | nil =>
    obtain ⟨rfl, rfl⟩ := List.cons.inj heq
    exact hc rfl
  | cons d front => exact h front back (List.cons.inj heq).2

theorem Quoted.append {u : Text} (ht : Quoted p t) (hu : Quoted p u) : Quoted p (t ++ u) := by
  induction t with
  | nil => exact hu
  | cons c t ih =>
    refine (ih fun front back heq => ?_).cons fun hc => ?_
    · exact ht (c :: front) back (congrArg (List.cons c) heq)
    · obtain ⟨q, hq, hquote⟩ := ht [] t (congrArg (List.cons · t) hc)
      exact ⟨q, mem_append_left u hq, hquote⟩

theorem Quoted.concat {q : Char} (hq : isQuote q = true) (hp : isQuote p = false) (t : Text) :
    Quoted p (t ++ [q]) := by
  induction t with
  | nil => exact (of_not_mem (t := []) nofun).cons fun heq => by rw [← heq, hq] at hp; cases hp
  | cons c t ih => exact ih.cons fun _ => ⟨q, mem_append_right _ (mem_singleton_self _), hq⟩

/-- What is passed over as a whole is a string, or one character. -/
theorem unit_quoted {o : ScanOptions} {past : Text} {k : Nat} (hslash : c ≠ '/') (hc : c ≠ p)
    (hp : isQuote p = false) (h : unit o past position (c :: t) = .ok k) :
    ∃ front back, t = front ++ back ∧ k - 1 = front.length ∧ Quoted p (c :: front) := by
  dsimp only [unit] at h
  split at h
  next hstring =>
    have hquote := (Bool.and_eq_true_iff.mp hstring).2
    obtain ⟨body, rest, rfl, rfl⟩ := string_eq hquote h
    exact ⟨body ++ [c], rest, by simp, by simp, .concat hquote hp (c :: body)⟩
  rw [if_neg fun heq => hslash (eq_of_beq heq)] at h
  cases h
  exact ⟨[], t, rfl, rfl, .of_not_mem (by simp [Ne.symm hc])⟩

theorem searchFrom_stops {o : ScanOptions} {chars : List Char} {past : Text}
    {position skip n m : Nat} (h : searchFrom o chars past position skip n t = .ok m) :
    ∃ read rest, t = read ++ rest ∧ m = n + read.length ∧ ∀ d ∈ rest.head?, d ∈ chars := by
  fun_induction searchFrom o chars past position skip n t with
  | case1 =>
    cases h
    exact ⟨[], [], rfl, rfl, nofun⟩
  | case2 _ _ _ _ c _ ih | case5 _ _ _ c _ _ _ _ ih =>
    obtain ⟨read, rest, rfl, rfl, hstop⟩ := ih h
    exact ⟨c :: read, rest, rfl, by rw [length_cons]; omega, hstop⟩
  | case3 _ _ _ c t hfound =>
    cases h
    refine ⟨[], c :: t, rfl, rfl, ?_⟩
    rintro d ⟨⟩
    exact contains_iff_mem.mp hfound
  | case4 => cases h

/-- If a search passes over a character that is looked for, then in a string, whose quote comes after
it. -/
theorem searchFrom_spec {o : ScanOptions} {chars : List Char} (hp : p ∈ chars)
    (hquote : isQuote p = false) (hslash : '/' ∈ chars) {front back past : Text} {position n : Nat}
    (ht : t = front ++ back) (h : searchFrom o chars past position front.length n t = .ok m) :
    ∃ read rest, back = read ++ rest ∧ m = n + front.length + read.length ∧ Quoted p read := by
  induction t generalizing front back past position n with
  | nil =>
    obtain ⟨rfl, rfl⟩ := append_eq_nil_iff.mp ht.symm
    cases h
    exact ⟨[], [], rfl, rfl, .of_not_mem nofun⟩
  | cons c t ih =>
    cases front with
    | cons d front =>
      obtain ⟨rfl, rfl⟩ := List.cons.inj ht
      obtain ⟨read, rest, rfl, rfl, hquoted⟩ := ih rfl h
      exact ⟨read, rest, rfl, by rw [length_cons]; omega, hquoted⟩
    | nil =>
      obtain rfl : c :: t = back := ht
      rw [length_nil, searchFrom] at h
      split at h
      next hfound =>
        cases h
        exact ⟨[], c :: t, rfl, rfl, .of_not_mem nofun⟩
      next hfound =>
        have hne : ∀ d ∈ chars, c ≠ d := by
          rintro d hd rfl
          exact hfound (contains_iff_mem.mpr hd)
        split at h
        · cases h
        next k hunit =>
          obtain ⟨front, back, rfl, hk, hfront⟩ :=
            unit_quoted (hne '/' hslash) (hne p hp) hquote hunit
          rw [hk] at h
          obtain ⟨read, rest, rfl, rfl, hread⟩ := ih rfl h
          exact ⟨c :: front ++ read, rest, by simp, by simp; omega, hfront.append hread⟩

/-! ## A search in text -/

theorem unit_inText (past : Text) (position : Nat) (c : Char) (t : Text) :
    unit .inText past position (c :: t) = .ok 1 := by
  by_cases hslash : c == '/'
  · simp [unit, ScanOptions.inText, bind, Except.bind]
  · simp [unit, ScanOptions.inText, hslash]

/-- In text a search passes over all that is not looked for, character by character. -/
theorem searchFrom_inText {chars : List Char} : ∀ {past : Text} {position n : Nat},
    searchFrom .inText chars past position 0 n t =
      .ok (n + (t.takeWhile fun c => !chars.contains c).length) := by
  induction t with
  | nil => exact rfl
  | cons c t ih =>
    unfold searchFrom
    by_cases hc : chars.contains c = true
    · rw [if_pos hc, takeWhile_cons_of_neg (by rw [hc]; decide)]
      rfl
    · rw [if_neg hc, unit_inText, takeWhile_cons_of_pos (by simpa using hc)]
      dsimp only
      rw [ih, length_cons]
      congr 1
      omega

end Lexeme

/-! ## Scanning -/

namespace Scan

variable {c c' : Cursor} {chars : List Char} {consume : Bool} {t : Text} {found : Found}

/-- A search goes to a character that is looked for, or to the end, and what it has passed over is
the text up to there. -/
theorem find_cases (h : find chars false consume c = .ok found c') :
    (found = ⟨c.rest, none⟩ ∧ c' = { c with past := c.rest.reverse ++ c.past, rest := [] }) ∨
      ∃ d ∈ chars, ∃ t back, found = ⟨t, some d⟩ ∧ c.rest = t ++ d :: back ∧
        c' = { c with
          past := if consume then d :: (t.reverse ++ c.past) else t.reverse ++ c.past
          rest := if consume then back else d :: back
          lastMatch := c.position + Text.bytes t } := by
  unfold find at h
  split at h
  · cases h
  next n hsearch =>
    obtain ⟨t, rest, hrest, rfl, hstop⟩ := searchFrom_stops hsearch
    have hadvance : c.advance (0 + t.length) = { c with past := t.reverse ++ c.past, rest } := by
      rw [Nat.zero_add, Cursor.advance, hrest, take_left, drop_left]
    rw [hadvance, Nat.zero_add, hrest, take_left] at h
    cases rest with
    | nil =>
      cases h
      rw [hrest, append_nil]
      exact .inl ⟨rfl, rfl⟩
    | cons d back =>
      have hposition : Cursor.position { c with past := t.reverse ++ c.past, rest := d :: back } =
          c.position + Text.bytes t := by
        show c.base + _ = c.base + _ + _
        rw [Text.bytes_append, Text.bytes_reverse]
        omega
      refine .inr ⟨d, hstop d rfl, t, back, ?_⟩
      dsimp only [Cursor.peek?, head?_cons] at h
      rw [hposition] at h
      cases h
      refine ⟨rfl, hrest, ?_⟩
      cases consume <;> rfl

theorem find_stopped (h : find chars false false c = .ok found c') :
    c.rest = found.before ++ c'.rest ∧ c'.peek? = found.matched := by
  obtain ⟨rfl, rfl⟩ | ⟨d, -, t, back, rfl, hrest, rfl⟩ := find_cases h
  · exact ⟨(append_nil _).symm, rfl⟩
  · exact ⟨hrest, rfl⟩

theorem find_mem (h : find chars false consume c = .ok found c') :
    ∀ d ∈ found.matched, d ∈ chars := by
  obtain ⟨rfl, -⟩ | ⟨d, hd, t, back, rfl, -⟩ := find_cases h
  · exact nofun
  · rintro _ ⟨⟩
    exact hd

theorem find_spec {p : Char} (hp : p ∈ chars) (hquote : Lexeme.isQuote p = false)
    (hslash : '/' ∈ chars) (h : find chars false false c = .ok found c') :
    Lexeme.Quoted p found.before := by
  unfold find at h
  split at h
  · cases h
  next n hsearch =>
    obtain ⟨read, rest, hrest, rfl, hquoted⟩ :=
      searchFrom_spec hp hquote hslash (nil_append c.rest).symm hsearch
    dsimp only [length_nil] at h
    rw [Nat.zero_add, hrest, take_left] at h
    split at h <;>
    · cases h
      exact hquoted

theorem find_here {d : Char} (hrest : c.rest = d :: t) (hd : chars.contains d = true) :
    find chars false consume c =
      .ok ⟨[], some d⟩ (if consume then { c with lastMatch := c.position }.advance 1
        else { c with lastMatch := c.position }) := by
  have hsearch : Lexeme.search c.options chars c.past c.position c.rest = .ok 0 := by
    rw [Lexeme.search, hrest, Lexeme.searchFrom, if_pos hd]
  have hpeek : (c.advance 0).peek? = some d := by
    show c.rest.head? = some d
    rw [hrest]
    rfl
  unfold find
  rw [hsearch]
  dsimp only
  rw [hpeek]
  rfl

theorem find_end (hrest : c.rest = []) : find chars false consume c = .ok ⟨[], none⟩ c := by
  unfold find
  rw [Lexeme.search, hrest, Lexeme.searchFrom]
  dsimp only
  have hpeek : (c.advance 0).peek? = none := by
    show c.rest.head? = none
    rw [hrest]
    rfl
  rw [hpeek]
  rfl

/-- A search in text goes on from one character to the next, where that is not looked for. -/
theorem find_inText_cons {d : Char} (hoptions : c.options = .inText) (hrest : c.rest = d :: t)
    (hd : chars.contains d = false) :
    find chars false consume c =
      match find chars false consume (c.advance 1) with
      | .ok found c' => .ok { found with before := d :: found.before } c'
      | .error h c' => .error h c' := by
  have hadvance (n : Nat) : (c.advance 1).advance n = c.advance (n + 1) := by
    simp only [Cursor.advance, hrest, take_succ_cons, drop_succ_cons, take_zero,
      drop_zero, reverse_cons, reverse_nil, nil_append, append_assoc]
  have hfirst : Lexeme.search c.options chars c.past c.position c.rest =
      .ok ((t.takeWhile fun c => !chars.contains c).length + 1) := by
    rw [Lexeme.search, hoptions, hrest, searchFrom_inText,
      takeWhile_cons_of_pos (by rw [hd]; rfl), length_cons, Nat.zero_add]
  have hnext : Lexeme.search (c.advance 1).options chars (c.advance 1).past (c.advance 1).position
      (c.advance 1).rest = .ok (t.takeWhile fun c => !chars.contains c).length := by
    have hrest' : (c.advance 1).rest = t := by
      rw [Cursor.advance, hrest]
      rfl
    rw [Lexeme.search, hrest', show (c.advance 1).options = .inText from hoptions,
      searchFrom_inText, Nat.zero_add]
  have htake (n : Nat) : c.rest.take (n + 1) = d :: (c.advance 1).rest.take n := by
    rw [Cursor.advance, hrest]
    rfl
  unfold find
  rw [hfirst, hnext]
  dsimp only
  rw [hadvance, htake]
  cases (c.advance _).peek? <;> rfl

theorem skipString_spec {q : Char} (hquote : isQuote q = true) (hq : c.rest.head? = some q)
    (h : skipString c = .ok t c') :
    ∃ body, t = q :: (body ++ [q]) := by
  obtain ⟨after, hrest⟩ := head?_eq_some_iff.mp hq
  unfold skipString lexeme at h
  rw [hrest] at h
  split at h
  next n hstring =>
    cases h
    obtain ⟨body, rest, rfl, rfl⟩ := string_eq hquote hstring
    refine ⟨body, ?_⟩
    have hlength : body.length + 1 = (body ++ [q]).length := by simp
    rw [take_succ_cons, hlength, ← singleton_append (l := rest), ← append_assoc, take_left]
  · cases h

/-! ## One search after another -/

/-- Search again and again, each time behind what was found, until nothing is found. -/
def findAll (chars : List Char) : (bound : Nat) → Scan (List Found)
  | 0 => return []
  | bound + 1 => do
    let found ← find chars false true
    if found.matched.isNone then return [found]
    return found :: (← findAll chars bound)

/-- What was passed over and what was found make up the text. Each character that is found makes the
rest shorter, so there are not more searches than it has characters. -/
theorem findAll_flatMap {bound : Nat} {founds : List Found} (hbound : c.rest.length < bound)
    (h : findAll chars bound c = .ok founds c') :
    founds.flatMap (fun f => f.before ++ f.matched.toList) = c.rest ∧ c'.rest = [] := by
  induction bound generalizing c founds with
  | zero => exact absurd hbound (Nat.not_lt_zero _)
  | succ bound ih =>
    change EStateM.bind (find chars false true) _ c = _ at h
    rw [EStateM.bind] at h
    split at h
    next found c1 hfind =>
      obtain ⟨rfl, rfl⟩ | ⟨d, -, t, back, rfl, hrest, rfl⟩ := find_cases hfind
      · cases h
        exact ⟨by simp, rfl⟩
      · change EStateM.bind (findAll chars bound) _ _ = _ at h
        rw [EStateM.bind] at h
        split at h
        next founds' c2 hnext =>
          cases h
          rw [hrest, length_append, length_cons] at hbound
          obtain ⟨hback, hend⟩ := ih (show back.length < bound by omega) hnext
          rw [flatMap_cons, hback, hrest]
          exact ⟨by simp, hend⟩
        · cases h
    · cases h

end Scan

end Patchwork
