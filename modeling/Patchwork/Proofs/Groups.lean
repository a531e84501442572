import Patchwork.Cursor
import Patchwork.Proofs.Brackets

/-!
# Groups and templates

A group begins with a bracket and ends with the bracket that closes it. Brackets in strings, templates
and comments do not count, but the holes of a template are groups of their own. `Passes` says this for
texts, without a stack: what stands outside, up to some place, and `Fails` says how a group may not
come to its end. Every group comes to its end or fails (`closes_or_fails`), and the reader finds out
which (`group_eq_ok_iff`, `group_error_iff`).

The reader keeps the place of everything that is open, for its reports. `close` does the same without
places.
-/

namespace Patchwork

open List Brackets

/-- The closing bracket that was not expected. -/
def Halt.unexpected? : Halt → Option Char
  | .fault ⟨.bracketUnexpected c, _⟩ => some c
  | _ => none

namespace Lexeme

/-! ## Closing what is open -/

/-- What can be open, apart from where it was opened. -/
inductive Mark where
  | bracket (opened : Char)
  | quoted (quote : Char)
  | lineComment
  | blockComment
  deriving DecidableEq, Repr

def Layer.mark : Layer → Mark
  | bracket c _ => .bracket c
  | quoted q _ => .quoted q
  | lineComment => .lineComment
  | blockComment .. => .blockComment

/-- What follows when all that is open has been closed, innermost first. If it cannot be closed, there
may be a closing bracket that does not fit. -/
def close : List Mark → Text → Except (Option Char) Text
  | [], t => .ok t
  | _ :: _, [] => .error none
  | .quoted q :: marks, c :: t =>
    if c == '\\' then
      match t with
      | [] => .error none
      | _ :: t => close (.quoted q :: marks) t
    else if c == '\n' && q != '\x60' then .error none
    else if c == '$' && q == '\x60' then
      match t with
      | '{' :: t => close (.bracket '{' :: .quoted q :: marks) t
      | t => close (.quoted q :: marks) t
    else if c == q then close marks t
    else close (.quoted q :: marks) t
  | .bracket b :: marks, c :: t =>
    if isOpening c then close (.bracket c :: .bracket b :: marks) t
    else
      match opening? c with
      | some o => if o == b then close marks t else .error (some c)
      | none =>
        if isQuote c then close (.quoted c :: .bracket b :: marks) t
        else if c == '/' then
          match t with
          | '/' :: t => close (.lineComment :: .bracket b :: marks) t
          | '*' :: t => close (.blockComment :: .bracket b :: marks) t
          | t => close (.bracket b :: marks) t
        else close (.bracket b :: marks) t
  | .lineComment :: marks, c :: t =>
    if c == '\n' then close marks t else close (.lineComment :: marks) t
  | .blockComment :: marks, c :: t =>
    if c == '*' then
      match t with
      | '/' :: t => close marks t
      | t => close (.blockComment :: marks) t
    else close (.blockComment :: marks) t

variable {position n m : Nat} {c : Char} {t : Text} {layers : List Layer} {quote? : Option Char}

theorem endOpen_unexpected? (n : Nat) (layers : List Layer) :
    (endOpen n layers).halt.unexpected? = none := by
  have hgroup (layers : List Layer) : (Halt.fault (groupOpen layers)).unexpected? = none := by
    unfold groupOpen
    split <;> rfl
  unfold endOpen
  split
  · rfl
  · rfl
  · exact hgroup _
  · exact hgroup _

/-- What reading comes to from a place on, of which `n` characters are before it. -/
def Comes (n : Nat) (t : Text) (closed : Except (Option Char) Text) : Except Slip Nat → Prop
  | .ok m => ∃ read rest, t = read ++ rest ∧ m = n + read.length ∧ closed = .ok rest
  | .error s => closed = .error s.halt.unexpected?

theorem Comes.cons {r : Except Slip Nat} {closed : Except (Option Char) Text}
    (h : Comes (n + 1) t closed r) : Comes n (c :: t) closed r := by
  cases r with
  | error s => exact h
  | ok m =>
    obtain ⟨read, rest, rfl, rfl, hclosed⟩ := h
    exact ⟨c :: read, rest, rfl, by rw [length_cons]; omega, hclosed⟩

theorem nested_comes (layers : List Layer) (position n : Nat) (t : Text) :
    Comes n t (close (layers.map Layer.mark) t) (nested layers position n t) := by
  fun_induction nested layers position n t
  case case1 =>
    rw [map_nil, close]
    exact ⟨[], _, rfl, rfl, rfl⟩
  case case2 layers _ n hne =>
    obtain ⟨layer, layers, rfl⟩ := exists_cons_of_ne_nil hne
    exact congrArg Except.error (endOpen_unexpected? ..).symm
  case case3 hescape _ =>
    rw [map_cons, Layer.mark, close, if_pos hescape, nested]
    · exact congrArg Except.error (endOpen_unexpected? ..).symm
    · exact nofun
  case case8 hescape hbreak hdollar hquote ih =>
    rw [map_cons, close.eq_def]
    dsimp only [Layer.mark]
    rw [if_neg hescape, if_neg hbreak, if_neg hdollar, if_pos hquote]
    exact ih.cons
  case case9 hescape hbreak hdollar hquote ih =>
    rw [map_cons, close.eq_def]
    dsimp only [Layer.mark]
    rw [if_neg hescape, if_neg hbreak, if_neg hdollar, if_neg hquote]
    exact ih.cons
  all_goals
    rw [close.eq_def]
    simp_all [Layer.mark]
    first
      | exact Comes.cons ‹_›
      | exact Comes.cons (Comes.cons ‹_›)
      | rfl

theorem nested_eq_ok (h : nested layers position n t = .ok m) :
    ∃ read rest, t = read ++ rest ∧ m = n + read.length ∧
      close (layers.map Layer.mark) t = .ok rest := by
  have hcomes := nested_comes layers position n t
  rwa [h] at hcomes

theorem nested_eq_error {s : Slip} (h : nested layers position n t = .error s) :
    close (layers.map Layer.mark) t = .error s.halt.unexpected? := by
  have hcomes := nested_comes layers position n t
  rwa [h] at hcomes

variable {rest outside : Text} {q : Char}

theorem nested_of_close {layer : Layer} {read : Text}
    (h : close [layer.mark] (read ++ c :: rest) = .ok rest) :
    nested [layer] position 1 (read ++ c :: rest) = .ok (read.length + 2) := by
  cases hnested : nested [layer] position 1 (read ++ c :: rest) with
  | error s => cases h.symm.trans (nested_eq_error hnested)
  | ok m =>
    obtain ⟨read', rest', heq, rfl, hclose⟩ := nested_eq_ok hnested
    cases h.symm.trans hclose
    have hlength := congrArg length heq
    simp only [length_append, length_cons] at hlength
    congr 1
    omega

/-! ## Comments -/

variable {p : Nat} {marks : List Mark} {b : Bracket} {w : List Bracket}

def toMark (b : Bracket) : Mark :=
  .bracket b.opener

/-- A character outside strings and comments opens a bracket, closes the innermost one or is no
bracket. -/
theorem close_char (marks : List Mark) (t : Text)
    (hquote : isQuote c = false) (hcomment : comment 0 (c :: t) = .ok 0) :
    close (toMark b :: (w.map toMark ++ marks)) (c :: t) =
      match step {} (b :: w) c with
      | some w' => close (w'.map toMark ++ marks) t
      | none => .error (some c) := by
  by_cases hc : c ∈ characters
  · simp only [characters, mem_cons, not_mem_nil, or_false] at hc
    rcases hc with rfl | rfl | rfl | rfl | rfl | rfl <;> cases b <;> rw [close.eq_def] <;> rfl
  · rw [step_of_not_mem hc _]
    simp only [characters, mem_cons, not_or, not_mem_nil, not_false_eq_true, and_true] at hc
    rw [toMark, close.eq_def]
    simp [isOpening, opening?, hc, hquote, toMark]
    rintro rfl
    unfold comment at hcomment
    split at hcomment
    · exact absurd (Except.ok.inj hcomment) (by omega)
    · split at hcomment <;> cases hcomment
    next hline hblock =>
      split
      · exact absurd rfl (hline _)
      · exact absurd rfl (hblock _)
      · rfl

theorem close_lineComment (marks : List Mark) (b : Bracket) (t : Text) :
    close (.lineComment :: toMark b :: marks) t =
      close (toMark b :: marks) (t.drop (t.takeWhile (· != '\n')).length) := by
  induction t with
  | nil => rfl
  | cons c t ih =>
    by_cases hc : c = '\n'
    · subst hc
      have hbreak : close (.lineComment :: toMark b :: marks) ('\n' :: t) =
          close (toMark b :: marks) t := rfl
      rw [takeWhile_cons_of_neg (by decide), hbreak]
      exact (close_char (c := '\n') (w := []) marks t rfl rfl).symm
    · rw [close, if_neg (by simp [hc]), ih, takeWhile_cons_of_pos (by simp [hc])]
      rfl

theorem close_blockComment (marks : List Mark) (t : Text) :
    close (.blockComment :: marks) t =
      match Text.indexOf? "*/" t with
      | some n => close marks (t.drop (n + 2))
      | none => .error none := by
  induction t with
  | nil => rfl
  | cons c t ih =>
    by_cases hstarts : Text.startsWith "*/" (c :: t)
    · obtain ⟨more, hmore⟩ := List.isPrefixOf_iff_prefix.mp hstarts
      cases hmore
      rfl
    · have hnext : close (.blockComment :: marks) (c :: t) = close (.blockComment :: marks) t := by
        rw [close.eq_def]
        dsimp only
        split
        next hc =>
          obtain rfl := eq_of_beq hc
          split
          · exact absurd rfl hstarts
          · rfl
        · rfl
      rw [hnext, ih, Text.indexOf?, if_neg hstarts]
      cases Text.indexOf? "*/" t <;> rfl

theorem close_comment (marks : List Mark) (b : Bracket) (t : Text) :
    close (toMark b :: marks) t =
      match comment 0 t with
      | .ok n => close (toMark b :: marks) (t.drop n)
      | .error _ => .error none := by
  have hblock (t : Text) : close (toMark b :: marks) ('/' :: '*' :: t) =
      close (.blockComment :: toMark b :: marks) t := by cases b <;> rfl
  fun_cases comment 0 t
  case case1 t =>
    have hline : close (toMark b :: marks) ('/' :: '/' :: t) =
        close (.lineComment :: toMark b :: marks) t := by cases b <;> rfl
    rw [hline, close_lineComment]
    dsimp only
    rw [← drop_drop]
    rfl
  case case2 t n hn =>
    rw [hblock, close_blockComment, hn]
    rfl
  case case3 t hn => rw [hblock, close_blockComment, hn]
  case case4 => rfl

/-! ## What is passed over -/

/-- `Passes quote? t outside rest`: `t` is passed over up to `rest`, and `outside` is what of it stands
outside strings, templates and comments. All of it is in a string if its quote is given. A template
goes on behind a hole, which ends before the first brace that closes nothing in it. -/
inductive Passes : Option Char → Text → Text → Text → Prop
  | done {quote? : Option Char} {t : Text} : Passes quote? t [] t
  | char {c : Char} {t outside rest : Text} (hquote : isQuote c = false)
      (hcomment : comment 0 (c :: t) = .ok 0) (h : Passes none t outside rest) :
      Passes none (c :: t) (c :: outside) rest
  | comment {n : Nat} {t outside rest : Text} (hcomment : comment 0 t = .ok (n + 1))
      (h : Passes none (t.drop (n + 1)) outside rest) : Passes none t outside rest
  | string {q : Char} {t t' outside rest : Text} (hquote : isQuote q = true)
      (hstring : Passes (some q) t [] (q :: t')) (h : Passes none t' outside rest) :
      Passes none (q :: t) outside rest
  | escape {q c : Char} {t rest : Text} (h : Passes (some q) t [] rest) :
      Passes (some q) ('\\' :: c :: t) [] rest
  | quoted {q c : Char} {t rest : Text} (hescape : c ≠ '\\') (hend : c ≠ q)
      (hbreak : c = '\n' → q = '\x60') (hhole : q = '\x60' → ¬['$', '{'] <+: c :: t)
      (h : Passes (some q) t [] rest) : Passes (some q) (c :: t) [] rest
  | hole {t t' outside rest : Text} (hhole : Passes none t outside ('}' :: t'))
      (hbalanced : after {} [] outside = some []) (h : Passes (some '\x60') t' [] rest) :
      Passes (some '\x60') ('$' :: '{' :: t) [] rest

/-- A bracket begins no string and no comment. -/
theorem outside_of_mem (t : Text) (hc : c ∈ characters) :
    isQuote c = false ∧ comment 0 (c :: t) = .ok 0 := by
  simp only [characters, mem_cons, not_mem_nil, or_false] at hc
  rcases hc with rfl | rfl | rfl | rfl | rfl | rfl <;> exact ⟨rfl, rfl⟩

theorem isQuote_iff : isQuote q = true ↔ q = '\x22' ∨ q = '\x27' ∨ q = '\x60' := by
  simp [isQuote, or_assoc]

theorem map_append_eq (w : List Bracket) (b : Bracket) (marks : List Mark) :
    ∃ b' w', (w ++ [b]).map toMark ++ marks = toMark b' :: (w'.map toMark ++ marks) ∧
      b' :: w' = w ++ [b] := by
  obtain ⟨b', w', hw⟩ := exists_cons_of_ne_nil (append_ne_nil_of_right_ne_nil w (cons_ne_nil b []))
  exact ⟨b', w', by rw [hw]; rfl, hw.symm⟩

theorem close_quote (hquote : isQuote q = true) (marks : List Mark) (t : Text) :
    close (.quoted q :: marks) (q :: t) = close marks t := by
  rcases isQuote_iff.mp hquote with rfl | rfl | rfl <;> rw [close.eq_def] <;> rfl

theorem close_string (hquote : isQuote q = true) (b : Bracket) (marks : List Mark)
    (t : Text) : close (toMark b :: marks) (q :: t) = close (.quoted q :: toMark b :: marks) t := by
  rcases isQuote_iff.mp hquote with rfl | rfl | rfl <;> cases b <;> rw [close.eq_def] <;> rfl

theorem Passes.close_eq (marks : List Mark) :
    Passes quote? t outside rest → match quote? with
    | none => ∀ {w w' : List Bracket} (b : Bracket), after {} w outside = some w' →
        close ((w ++ [b]).map toMark ++ marks) t = close ((w' ++ [b]).map toMark ++ marks) rest
    | some q => close (.quoted q :: marks) t = close (.quoted q :: marks) rest := by
  intro h
  induction h generalizing marks with
  | @done quote? t =>
    cases quote? with
    | none =>
      rintro w w' b ⟨⟩
      rfl
    | some q => rfl
  | @char c t outside rest hquote hcomment _ ih =>
    intro w w' b hafter
    obtain ⟨w1, hstep, hafter⟩ := after_cons.mp hafter
    obtain ⟨b', w', hw, heq⟩ := map_append_eq w b marks
    rw [← ih marks b hafter, hw, close_char marks t hquote hcomment, heq, step_append hstep]
  | @comment n t outside rest hcomment _ ih =>
    intro w w' b hafter
    obtain ⟨b', w', hw, -⟩ := map_append_eq w b marks
    rw [← ih marks b hafter, hw, close_comment, hcomment]
  | @string q t t' outside rest hquote _ _ ihs ih =>
    intro w w' b hafter
    obtain ⟨b', w', hw, -⟩ := map_append_eq w b marks
    rw [← ih marks b hafter, hw, close_string hquote, ihs, close_quote hquote]
  | @escape q c t rest _ ih =>
    refine Eq.trans ?_ (ih marks)
    simp [close]
  | @quoted q c t rest hescape hend hbreak hhole _ ih =>
    refine Eq.trans ?_ (ih marks)
    rw [close.eq_def]
    dsimp only
    rw [if_neg (by simp [hescape]), if_neg (by simpa using hbreak)]
    split
    next hdollar =>
      obtain ⟨rfl, rfl⟩ : c = '$' ∧ q = '\x60' := by simpa using hdollar
      split
      · exact absurd ⟨_, rfl⟩ (hhole rfl)
      · rfl
    · exact if_neg (by simp [hend])
  | @hole t t' outside rest hhole hbalanced _ ih ih' =>
    refine Eq.trans ?_ (ih' marks)
    exact ih (.quoted '\x60' :: marks) .curly hbalanced

theorem Passes.close_top (h : Passes none t outside rest)
    (hopen : after {} [] outside = some w) (b : Bracket) (marks : List Mark) : ∃ b' w',
    close (toMark b :: marks) t = close (toMark b' :: (w'.map toMark ++ marks)) rest ∧
      b' :: w' = w ++ [b] := by
  obtain ⟨b', w', hw, heq⟩ := map_append_eq w b marks
  exact ⟨b', w', hw ▸ h.close_eq marks b hopen, heq⟩

/-- `Fails quote? b t unexpected`: the bracket `b`, behind which `t` stands, is not closed, because the
text ends in it or in what it holds, a string breaks off at the end of the line, or a closing bracket
does not fit. All of it is in a string if its quote is given, and then that cannot be closed. -/
inductive Fails : Option Char → Bracket → Text → Option Char → Prop
  | unexpected {b : Bracket} {d : Char} {w : List Bracket} {t outside rest : Text}
      (h : Passes none t outside (d :: rest)) (hopen : after {} [] outside = some w)
      (hstep : step {} (w ++ [b]) d = none) : Fails none b t (some d)
  | ended {b : Bracket} {w : List Bracket} {t outside : Text} (h : Passes none t outside [])
      (hopen : after {} [] outside = some w) : Fails none b t none
  | comment {b : Bracket} {w : List Bracket} {s : Slip} {t outside rest : Text}
      (h : Passes none t outside rest) (hopen : after {} [] outside = some w)
      (hcomment : comment 0 rest = .error s) : Fails none b t none
  | string {b : Bracket} {w : List Bracket} {q : Char} {t outside rest : Text}
      {unexpected : Option Char} (h : Passes none t outside (q :: rest))
      (hopen : after {} [] outside = some w) (hquote : isQuote q = true)
      (hstring : Fails (some q) b rest unexpected) : Fails none b t unexpected
  | stringEnded {b : Bracket} {q : Char} {t rest : Text} (h : Passes (some q) t [] rest)
      (hend : rest = [] ∨ rest = ['\\']) : Fails (some q) b t none
  | lineBreak {b : Bracket} {q : Char} {t rest : Text} (h : Passes (some q) t [] ('\n' :: rest))
      (hquote : q ≠ '\x60') : Fails (some q) b t none
  | hole {b : Bracket} {t rest : Text} {unexpected : Option Char}
      (h : Passes (some '\x60') t [] ('$' :: '{' :: rest)) (hhole : Fails none .curly rest unexpected) :
      Fails (some '\x60') b t unexpected

theorem Fails.close_eq {unexpected : Option Char} (marks : List Mark) :
    Fails quote? b t unexpected → match quote? with
    | none => close (toMark b :: marks) t = .error unexpected
    | some q => close (.quoted q :: marks) t = .error unexpected := by
  intro h
  induction h generalizing marks with
  | @unexpected b d w t outside rest h hopen hstep =>
    obtain ⟨b', w', hclose, heq⟩ := h.close_top hopen b marks
    have hd : d ∈ characters := by
      refine Decidable.byContradiction fun hd => ?_
      rw [step_of_not_mem hd _] at hstep
      cases hstep
    obtain ⟨hquote, hcomment⟩ := outside_of_mem rest hd
    rw [hclose, close_char marks rest hquote hcomment, heq, hstep]
  | @ended b w t outside h hopen =>
    obtain ⟨b', w', hclose, -⟩ := h.close_top hopen b marks
    rw [hclose]
    rfl
  | @comment b w s t outside rest h hopen hcomment =>
    obtain ⟨b', w', hclose, -⟩ := h.close_top hopen b marks
    rw [hclose, close_comment, hcomment]
  | @string b w q t outside rest unexpected h hopen hquote _ ih =>
    obtain ⟨b', w', hclose, -⟩ := h.close_top hopen b marks
    rw [hclose, close_string hquote]
    exact ih _
  | @stringEnded b q t rest h hend =>
    refine (h.close_eq marks).trans ?_
    rcases hend with rfl | rfl <;> rfl
  | @lineBreak b q t rest h hquote =>
    refine (h.close_eq marks).trans ?_
    rw [close.eq_def]
    simp [hquote]
  | @hole b t rest unexpected h _ ih =>
    refine (h.close_eq marks).trans ?_
    exact ih (.quoted '\x60' :: marks)

theorem Passes.suffix (h : Passes quote? t outside rest) : rest <:+ t := by
  induction h with
  | done => exact suffix_refl _
  | char _ _ _ ih => exact ih.trans (suffix_cons ..)
  | comment _ _ ih => exact ih.trans (drop_suffix ..)
  | string _ _ _ ihs ih =>
    exact ((ih.trans (suffix_cons ..)).trans ihs).trans (suffix_cons ..)
  | escape _ ih => exact (ih.trans (suffix_cons ..)).trans (suffix_cons ..)
  | quoted _ _ _ _ _ ih => exact ih.trans (suffix_cons ..)
  | hole _ _ _ ih ih' =>
    exact (((ih'.trans (suffix_cons ..)).trans ih).trans (suffix_cons ..)).trans (suffix_cons ..)

/-- The brackets that are open are closed before the text is balanced, or just then. -/
theorem Passes.close_of_balanced (h : Passes quote? t outside rest)
    (hquote : quote? = none)
    (hafter : after {} (b :: w) outside = some []) :
    ∃ rest', close (toMark b :: (w.map toMark ++ [])) t = .ok rest' ∧ rest <:+ rest' := by
  induction h generalizing b w with
  | done => cases hafter
  | @char c t outside rest hc hcomment h ih =>
    obtain ⟨w1, hstep, hafter⟩ := after_cons.mp hafter
    rw [close_char [] t hc hcomment, hstep]
    cases w1 with
    | nil => exact ⟨t, close.eq_1 t, h.suffix⟩
    | cons b1 w1 => exact ih rfl hafter
  | @comment n t outside rest hcomment _ ih =>
    rw [close_comment, hcomment]
    exact ih rfl hafter
  | @string q t t' outside rest hq hstring _ _ ih =>
    rw [close_string hq, hstring.close_eq, close_quote hq]
    exact ih rfl hafter
  | escape | quoted | hole => cases hquote

/-- Behind a bracket that is open, and others in it, there is nothing more to pass over. -/
def Halts (b : Bracket) (w : List Bracket) (t : Text) : Prop :=
  (∃ d rest, t = d :: rest ∧ (step {} (w ++ [b]) d = none ∨ step {} (w ++ [b]) d = some [])) ∨
  t = [] ∨ (∃ s, comment 0 t = .error s) ∨
  ∃ q rest unexpected, t = q :: rest ∧ isQuote q = true ∧ Fails (some q) b rest unexpected

theorem Halts.closes_or_fails (h : Halts b w rest)
    (hpasses : Passes none t outside rest) (hopen : after {} [] outside = some w) :
    (∃ rest, Passes none t outside (b.closer :: rest) ∧ Balanced {} outside) ∨
      ∃ unexpected, Fails none b t unexpected := by
  obtain ⟨d, rest, rfl, hstep | hstep⟩ | rfl | ⟨s, hs⟩ | ⟨q, rest, unexpected, rfl, hq, hfails⟩ := h
  · exact .inr ⟨_, .unexpected hpasses hopen hstep⟩
  · obtain ⟨rfl, rfl⟩ := step_eq_some_nil hstep
    exact .inl ⟨rest, hpasses, hopen⟩
  · exact .inr ⟨_, .ended hpasses hopen⟩
  · exact .inr ⟨_, .comment hpasses hopen hs⟩
  · exact .inr ⟨_, .string hpasses hopen hq hfails⟩

/-- A text can be passed over to the end of what is open, a group or a string, or up to where that is
not possible. -/
structure Reads (t : Text) : Prop where
  group (b : Bracket) (w : List Bracket) : ∃ outside w' rest,
    Passes none t outside rest ∧ after {} w outside = some w' ∧ Halts b w' rest
  string (b : Bracket) (q : Char) : (∃ rest, Passes (some q) t [] (q :: rest)) ∨
    ∃ unexpected, Fails (some q) b t unexpected

theorem Reads.closes_or_fails (h : Reads t) (b : Bracket) :
    (∃ outside rest, Passes none t outside (b.closer :: rest) ∧ Balanced {} outside) ∨
      ∃ unexpected, Fails none b t unexpected := by
  obtain ⟨outside, w, rest, hpasses, hafter, hhalts⟩ := h.group b []
  exact (hhalts.closes_or_fails hpasses hafter).imp_left fun h => ⟨outside, h⟩

section
variable (ih : ∀ u : Text, u.length < t.length → Reads u)
include ih

theorem reads_group (b : Bracket) (w : List Bracket) : ∃ outside w' rest,
    Passes none t outside rest ∧ after {} w outside = some w' ∧ Halts b w' rest := by
  cases t with
  | nil => exact ⟨[], w, [], .done, rfl, .inr (.inl rfl)⟩
  | cons c t =>
    by_cases hquote : isQuote c = true
    · rcases (ih t (Nat.lt_succ_self _)).string b c with ⟨t', hstring⟩ | ⟨unexpected, hfails⟩
      · have hlength := hstring.suffix.length_le
        obtain ⟨outside, w', rest, hpasses, hafter, hhalts⟩ :=
          (ih t' (by rw [length_cons] at hlength ⊢; omega)).group b w
        exact ⟨outside, w', rest, .string hquote hstring hpasses, hafter, hhalts⟩
      · exact ⟨[], w, _, .done, rfl, .inr (.inr (.inr ⟨c, t, unexpected, rfl, hquote, hfails⟩))⟩
    rw [Bool.not_eq_true] at hquote
    cases hcomment : comment 0 (c :: t) with
    | error s => exact ⟨[], w, _, .done, rfl, .inr (.inr (.inl ⟨s, hcomment⟩))⟩
    | ok m =>
    cases m with
    | succ m =>
      obtain ⟨outside, w', rest, hpasses, hafter, hhalts⟩ :=
        (ih ((c :: t).drop (m + 1)) (by rw [length_drop, length_cons]; omega)).group b w
      exact ⟨outside, w', rest, .comment hcomment hpasses, hafter, hhalts⟩
    | zero =>
    cases hstep : step {} w c with
    | none => exact ⟨[], w, _, .done, rfl, .inl ⟨c, t, rfl, step_eq_none hstep b⟩⟩
    | some w1 =>
      obtain ⟨outside, w', rest, hpasses, hafter, hhalts⟩ := (ih t (Nat.lt_succ_self _)).group b w1
      exact ⟨c :: outside, w', rest, .char hquote hcomment hpasses,
        after_cons.mpr ⟨w1, hstep, hafter⟩, hhalts⟩

theorem reads_string (b : Bracket) (q : Char) : (∃ rest, Passes (some q) t [] (q :: rest)) ∨
    ∃ unexpected, Fails (some q) b t unexpected := by
  -- what can be said of the rest can be said of the whole
  have hback : ∀ {u : Text}, u.length < t.length →
      (∀ {rest}, Passes (some q) u [] rest → Passes (some q) t [] rest) →
      (∃ rest, Passes (some q) t [] (q :: rest)) ∨ ∃ unexpected, Fails (some q) b t unexpected := by
    intro u hlength hback
    rcases (ih u hlength).string b q with ⟨rest, h⟩ | ⟨unexpected, h⟩
    · exact .inl ⟨rest, hback h⟩
    · cases h with
      | stringEnded h hend => exact .inr ⟨_, .stringEnded (hback h) hend⟩
      | lineBreak h hquote => exact .inr ⟨_, .lineBreak (hback h) hquote⟩
      | hole h hhole => exact .inr ⟨_, .hole (hback h) hhole⟩
  cases t with
  | nil => exact .inr ⟨_, .stringEnded .done (.inl rfl)⟩
  | cons c t =>
    by_cases hescape : c = '\\'
    · subst hescape
      cases t with
      | nil => exact .inr ⟨_, .stringEnded .done (.inr rfl)⟩
      | cons d t => exact hback (by rw [length_cons, length_cons]; omega) .escape
    by_cases hend : c = q
    · exact .inl ⟨t, hend ▸ .done⟩
    by_cases hbreak : c = '\n' → q = '\x60'
    · by_cases hhole : q = '\x60' → ¬['$', '{'] <+: c :: t
      · exact hback (Nat.lt_succ_self _) (.quoted hescape hend hbreak hhole)
      obtain ⟨rfl, u, heq⟩ := (Classical.not_imp.mp hhole).imp_right Classical.not_not.mp
      change '$' :: '{' :: u = c :: t at heq
      cases heq
      rcases (ih u (by rw [length_cons, length_cons]; omega)).closes_or_fails .curly with
        ⟨outside, rest, hpasses, hbalanced⟩ | ⟨unexpected, hfails⟩
      · have hlength := hpasses.suffix.length_le
        rw [length_cons] at hlength
        exact hback (by rw [length_cons, length_cons]; omega) (.hole hpasses hbalanced)
      · exact .inr ⟨_, .hole .done hfails⟩
    · obtain ⟨rfl, hquote⟩ := Classical.not_imp.mp hbreak
      exact .inr ⟨_, .lineBreak .done hquote⟩

end

theorem reads (t : Text) : Reads t := by
  induction hn : t.length using Nat.strongRecOn generalizing t with
  | ind n ih =>
    subst hn
    have ih := fun (u : Text) (h : u.length < t.length) => ih _ h u rfl
    exact ⟨reads_group ih, reads_string ih⟩

theorem exists_opener (hc : isOpening c = true) : ∃ b : Bracket, c = b.opener := by
  rcases Bool.or_eq_true_iff.mp hc with hc | hc
  · rcases Bool.or_eq_true_iff.mp hc with hc | hc
    · exact ⟨.round, eq_of_beq hc⟩
    · exact ⟨.square, eq_of_beq hc⟩
  · exact ⟨.curly, eq_of_beq hc⟩

theorem group_opener (p : Nat) (b : Bracket) (t : Text) :
    group p (b.opener :: t) = nested [.bracket b.opener p] (p + 1) 1 t := by
  cases b <;> rfl

theorem close_closer (b : Bracket) (marks : List Mark) (t : Text) :
    close (toMark b :: marks) (b.closer :: t) = close marks t := by
  cases b <;> rw [close.eq_def] <;> rfl

theorem Passes.close_group {outside rest : Text} (h : Passes none t outside (b.closer :: rest))
    (hbalanced : Balanced {} outside) : close [toMark b] t = .ok rest := by
  refine (h.close_eq [] b hbalanced).trans ?_
  exact (close_closer b [] rest).trans (close.eq_1 rest)

theorem group_eq_ok_iff :
    group p (b.opener :: t) = .ok n ↔ ∃ body rest outside,
      t = body ++ b.closer :: rest ∧ n = body.length + 2 ∧
        Passes none t outside (b.closer :: rest) ∧ Balanced {} outside := by
  rw [group_opener]
  constructor
  · intro h
    obtain ⟨outside, rest, hpasses, hbalanced⟩ | ⟨unexpected, hfails⟩ := (reads t).closes_or_fails b
    · obtain ⟨body, rfl⟩ := hpasses.suffix
      cases h.symm.trans (nested_of_close (hpasses.close_group hbalanced))
      exact ⟨body, rest, outside, rfl, rfl, hpasses, hbalanced⟩
    · obtain ⟨_, _, _, _, hclose⟩ := nested_eq_ok h
      cases hclose.symm.trans (hfails.close_eq [])
  · rintro ⟨body, rest, outside, rfl, rfl, hpasses, hbalanced⟩
    exact nested_of_close (hpasses.close_group hbalanced)

theorem string_eq_ok_iff {q : Char} (hq : isQuote q = true) :
    string p (q :: t) = .ok n ↔ ∃ body rest,
      t = body ++ q :: rest ∧ n = body.length + 2 ∧ Passes (some q) t [] (q :: rest) := by
  have hclose {rest : Text} (h : Passes (some q) t [] (q :: rest)) : close [.quoted q] t = .ok rest :=
    ((h.close_eq []).trans (close_quote hq [] rest)).trans (close.eq_1 rest)
  constructor
  · intro h
    obtain ⟨rest, hpasses⟩ | ⟨unexpected, hfails⟩ := (reads t).string .round q
    · obtain ⟨body, rfl⟩ := hpasses.suffix
      cases h.symm.trans (nested_of_close (hclose hpasses))
      exact ⟨body, rest, rfl, rfl, hpasses⟩
    · obtain ⟨_, _, _, _, hclose⟩ := nested_eq_ok h
      cases hclose.symm.trans (hfails.close_eq [])
  · rintro ⟨body, rest, rfl, rfl, hpasses⟩
    exact nested_of_close (hclose hpasses)

theorem group_error_iff {unexpected : Option Char} :
    (∃ s, group p (b.opener :: t) = .error s ∧ s.halt.unexpected? = unexpected) ↔
      Fails none b t unexpected := by
  rw [group_opener]
  constructor
  · rintro ⟨s, h, rfl⟩
    have hclose := nested_eq_error h
    obtain ⟨outside, rest, hpasses, hbalanced⟩ | ⟨unexpected, hfails⟩ := (reads t).closes_or_fails b
    · cases hclose.symm.trans (hpasses.close_group hbalanced)
    · cases hclose.symm.trans (hfails.close_eq [])
      exact hfails
  · intro hfails
    cases h : nested [.bracket b.opener p] (p + 1) 1 t with
    | ok m =>
      obtain ⟨_, _, _, _, hclose⟩ := nested_eq_ok h
      cases hclose.symm.trans (hfails.close_eq [])
    | error s =>
      cases (nested_eq_error h).symm.trans (hfails.close_eq [])
      exact ⟨s, rfl, rfl⟩

theorem group_shortest {outside outside' rest rest' : Text}
    (h : Passes none t outside (b.closer :: rest)) (hbalanced : Balanced {} outside)
    (h' : Passes none (b.opener :: t) outside' rest') (hne : outside' ≠ [])
    (hbalanced' : Balanced {} outside') : rest' <:+ rest := by
  generalize hu : b.opener :: t = u at h'
  have hopener : b.opener ∈ characters := by cases b <;> decide
  obtain ⟨hquote, hcomment⟩ := outside_of_mem t hopener
  cases h' with
  | done => exact absurd rfl hne
  | char _ _ h' =>
    cases hu
    obtain ⟨w, hstep, hafter⟩ := after_cons.mp hbalanced'
    have hw : w = [b] := by cases b <;> cases hstep <;> rfl
    subst hw
    obtain ⟨_, hclose, hsuffix⟩ := h'.close_of_balanced rfl hafter
    cases hclose.symm.trans (h.close_group hbalanced)
    exact hsuffix
  | comment h' =>
    subst hu
    cases hcomment.symm.trans h'
  | string hq =>
    cases hu
    rw [hquote] at hq
    cases hq

end Lexeme

open Lexeme in
/-- A group that is read is the text from a bracket to its partner, and the shortest one whose brackets
match, of all that end outside strings and comments. It is not read if a closing bracket does not fit,
or if the text ends in the group or in something in it, or a line in a string. -/
theorem Scan.skipGroup_shortest (cur : Cursor) (b : Bracket) (t : Text)
    (hrest : cur.rest = b.opener :: t) :
    (∀ text cur', skipGroup cur = .ok text cur' →
      cur' = cur.advance text.length ∧ cur.rest = text ++ cur'.rest ∧
      (∃ body, text = b.opener :: (body ++ [b.closer])) ∧
      (∃ outside, Passes none t outside (b.closer :: cur'.rest) ∧ Balanced {} outside) ∧
      ∀ outside rest, Passes none cur.rest outside rest → outside ≠ [] → Balanced {} outside →
        rest <:+ cur'.rest) ∧
    ∀ unexpected, (∃ halt cur', skipGroup cur = .error halt cur' ∧ halt.unexpected? = unexpected) ↔
      Fails none b t unexpected := by
  unfold skipGroup lexeme
  rw [hrest]
  refine ⟨fun text cur' h => ?_, fun unexpected => ?_⟩
  · split at h
    next n hgroup =>
      obtain ⟨body, rest, outside, rfl, rfl, hpasses, hbalanced⟩ := group_eq_ok_iff.mp hgroup
      have htext : b.opener :: (body ++ b.closer :: rest) =
          b.opener :: (body ++ [b.closer]) ++ rest := by simp
      have hlength : body.length + 2 = (b.opener :: (body ++ [b.closer])).length := by simp
      rw [htext, hlength, take_left] at h
      cases h
      have hrest' : (cur.advance (b.opener :: (body ++ [b.closer])).length).rest = rest := by
        rw [Cursor.advance, hrest, htext, drop_left]
      rw [hrest']
      exact ⟨rfl, htext, ⟨body, rfl⟩, ⟨outside, hpasses, hbalanced⟩,
        fun _ _ h' hne hbalanced' => group_shortest hpasses hbalanced h' hne hbalanced'⟩
    · cases h
  · rw [← group_error_iff (p := cur.position)]
    constructor
    · rintro ⟨halt, cur', h, hunexpected⟩
      split at h
      · cases h
      next s hs =>
        cases h
        exact ⟨s, hs, hunexpected⟩
    · rintro ⟨s, hs, hunexpected⟩
      rw [hs]
      exact ⟨s.halt, _, rfl, hunexpected⟩

open Lexeme in
theorem Scan.skipGroup_shortest_template :
    let cur := Cursor.ofText "(')' + \x60${ {} }\x60) + 1" 0
    ∃ text cur', skipGroup cur = .ok text cur' ∧ text = "(')' + \x60${ {} }\x60)" ∧
      ∃ outside, Passes none (cur.rest.drop 1) outside (')' :: cur'.rest) ∧ Balanced {} outside := by
  intro cur
  have hgroup : group cur.position cur.rest = .ok 17 := by
    have hsome : (group cur.position cur.rest).toOption = some 17 := by decide +kernel
    cases hr : group cur.position cur.rest <;> rw [hr] at hsome <;> cases hsome
    rfl
  have h : skipGroup cur = .ok (cur.rest.take 17) (cur.advance 17) := by
    rw [skipGroup, lexeme, hgroup]
  exact ⟨_, _, h, rfl, ((skipGroup_shortest cur .round _ rfl).1 _ _ h).2.2.2.1⟩

end Patchwork
