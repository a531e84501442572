import Patchwork.Proofs.TextItems
import Patchwork.Proofs.Unread

/-!
# Searches that stop early

A search that looks for more characters stops earlier, and what is found then can be passed over: the
search for fewer characters goes on behind it and comes to where it would have come at once
(`Compile.find_wider`). It is only not known any more, at the end of the document, where something was
found before.

The characters that are looked for in addition must not begin anything that a search passes over as a
whole (`Lexeme.isPlain`).
-/

namespace Patchwork

open Compile List Text

namespace Lexeme

variable {o : ScanOptions} {chars extra : List Char}

/-- Does the character begin nothing but itself, whatever a search passes over? -/
def isPlain (c : Char) : Bool :=
  !isQuote c && c != '/'

theorem unit_of_isPlain {past : Text} {position : Nat} {c : Char} (hc : isPlain c = true)
    (t : Text) : unit o past position (c :: t) = .ok 1 := by
  obtain ⟨hquote, hslash⟩ := Bool.and_eq_true_iff.mp hc
  have hquote : isQuote c = false := by
    rwa [Bool.not_eq_true'] at hquote
  have hslash : (c == '/') = false := beq_eq_false_iff_ne.mpr (bne_iff_ne.mp hslash)
  unfold unit
  dsimp only
  rw [hquote, Bool.and_false, hslash]
  rfl

theorem Slip.after_after (j n : Nat) (s : Slip) : (s.after n).after j = s.after (j + n) := by
  unfold Slip.after
  rw [Nat.add_assoc]

variable {t : Text}

/-- What has been read before a search does not matter to it. -/
theorem searchFrom_shift (j : Nat) : ∀ {past : Text} {position skip n : Nat},
    searchFrom o chars past position skip (j + n) t =
      shift j (searchFrom o chars past position skip n t) := by
  induction t with
  | nil =>
    intro past position skip n
    cases skip <;> rfl
  | cons c t ih =>
    intro past position skip n
    cases skip with
    | succ skip => exact ih (n := n + 1)
    | zero =>
      unfold searchFrom
      split
      · rfl
      split
      next s _ =>
        show _ = Except.error ((s.after n).after j)
        rw [Slip.after_after]
      · exact ih (n := n + 1)

/-- A search for more characters beside a search for some of them: both come to the same, or the first
stops early, at one of the others, from where the second may be taken up again. -/
inductive Wider (o : ScanOptions) (chars extra : List Char) (past : Text) (position n : Nat)
    (t : Text) : (wide narrow : Except Slip Nat) → Prop where
  | same (x : Except Slip Nat) : Wider o chars extra past position n t x x
  | early (read rest : Text) (d : Char) (text : t = read ++ d :: rest) (mem : d ∈ extra) :
      Wider o chars extra past position n t (.ok (n + read.length))
        (shift (n + read.length + 1)
          (search o chars (d :: (read.reverse ++ past))
            (position + (bytes read + d.utf8Size)) rest))

theorem Wider.cons {past : Text} {position n : Nat} {c : Char} {wide narrow : Except Slip Nat}
    (h : Wider o chars extra (c :: past) (position + c.utf8Size) (n + 1) t wide narrow) :
    Wider o chars extra past position n (c :: t) wide narrow := by
  cases h with
  | same => exact .same _
  | early read rest d text mem =>
    have h : Wider o chars extra past position n (c :: t) _ _ :=
      .early (c :: read) rest d (text ▸ rfl) mem
    rw [reverse_cons, append_assoc] at h
    rw [Nat.add_assoc position, Nat.add_right_comm n 1, ← Nat.add_assoc c.utf8Size]
    exact h

theorem searchFrom_wider (hextra : ∀ c ∈ extra, isPlain c = true) :
    ∀ (past : Text) (position skip n : Nat),
      Wider o chars extra past position n t
        (searchFrom o (chars ++ extra) past position skip n t)
        (searchFrom o chars past position skip n t) := by
  induction t with
  | nil =>
    intro past position skip n
    cases skip <;> exact .same _
  | cons c t ih =>
    intro past position skip n
    cases skip with
    | succ skip => exact (ih ..).cons
    | zero =>
      unfold searchFrom
      by_cases hchars : c ∈ chars
      · rw [if_pos (contains_iff_mem.mpr hchars),
          if_pos (contains_iff_mem.mpr (mem_append_left _ hchars))]
        exact .same _
      · rw [if_neg fun h => hchars (contains_iff_mem.mp h)]
        by_cases hmem : c ∈ extra
        · rw [if_pos (contains_iff_mem.mpr (mem_append_right _ hmem)),
            unit_of_isPlain (hextra c hmem)]
          have hearly : Wider o chars extra past position n (c :: t) _ _ := .early [] t c rfl hmem
          dsimp only
          rw [searchFrom_shift (n + 1) (n := 0)]
          rw [bytes, Nat.zero_add] at hearly
          exact hearly
        · rw [if_neg fun h => (mem_append.mp (contains_iff_mem.mp h)).elim hchars hmem]
          split
          · exact .same _
          · exact (ih ..).cons

end Lexeme

/-! ## Sessions -/

theorem Cursor.advance_advance (c : Cursor) (m n : Nat) :
    (c.advance m).advance n = c.advance (m + n) := by
  unfold advance
  rw [take_add, reverse_append, append_assoc, drop_drop]

/-- What a search finds that is taken up again after a text has been passed over. -/
def Found.following (t : Text) (found : Found) : Found :=
  { found with before := t ++ found.before }

/-- The session after a search that has been taken up again. If it has found nothing, the session
does not know where something was found last. -/
def Session.resumed (found : Found) (n : Nat) (s : Session) : Session :=
  if found.matched.isSome then s else s.withMatch n

def Cursor.stop (c : Cursor) (n : Nat) : Cursor :=
  { c.advance n with
    lastMatch := if (c.rest.drop n).isEmpty then c.lastMatch else (c.advance n).position }

theorem Cursor.advance_stop {c : Cursor} {read rest : Text} {d : Char}
    (h : c.rest = read ++ d :: rest) :
    ((c.stop read.length).advance 1).past = d :: (read.reverse ++ c.past) ∧
      ((c.stop read.length).advance 1).rest = rest ∧
      ((c.stop read.length).advance 1).position =
        c.position + (bytes read + d.utf8Size) := by
  have hpast : ((c.stop read.length).advance 1).past = d :: (read.reverse ++ c.past) := by
    show ((c.rest.drop read.length).take 1).reverse ++
      ((c.rest.take read.length).reverse ++ c.past) = _
    rw [h, take_left, drop_left]
    rfl
  have hrest : ((c.stop read.length).advance 1).rest = rest := by
    show (c.rest.drop read.length).drop 1 = rest
    rw [h, drop_left]
    rfl
  refine ⟨hpast, hrest, ?_⟩
  show c.base + bytes ((c.stop read.length).advance 1).past = c.base + _ + _
  rw [hpast, bytes, bytes_append, bytes_reverse]
  omega

variable {chars : List Char}

theorem Compile.find_of_search {s : Session} {n : Nat}
    (h : Lexeme.search s.cursor.options chars s.cursor.past s.cursor.position s.cursor.rest = .ok n) :
    scan (Scan.find chars false false) s =
      .ok (⟨s.cursor.rest.take n, (s.cursor.rest.drop n).head?⟩,
        { s with cursor := s.cursor.stop n }) := by
  have hpeek : (s.cursor.advance n).peek? = (s.cursor.rest.drop n).head? := rfl
  unfold scan Scan.find Cursor.stop
  rw [h]
  dsimp only
  rw [hpeek]
  cases s.cursor.rest.drop n <;> rfl

/-- A search comes to the same as one that begins behind a text, if it passes over the text. -/
theorem Compile.find_resumed {s s2 : Session} {t : Text} {n : Nat}
    (hread : s.cursor.rest.take t.length = t)
    (hs2 : s2 = { s with cursor := { s.cursor.advance t.length with lastMatch := n } })
    (hsearch : Lexeme.search s.cursor.options chars s.cursor.past s.cursor.position s.cursor.rest =
      Lexeme.shift t.length
        (Lexeme.search s2.cursor.options chars s2.cursor.past s2.cursor.position s2.cursor.rest)) :
    scan (Scan.find chars false false) s =
      (scan (Scan.find chars false false) s2).map fun r =>
        (r.1.following t, r.2.resumed r.1 s.cursor.lastMatch) := by
  cases hnext : Lexeme.search s2.cursor.options chars s2.cursor.past s2.cursor.position
      s2.cursor.rest with
  | error slip =>
    unfold scan Scan.find
    rw [hsearch, hnext]
    rfl
  | ok m =>
    rw [hnext] at hsearch
    rw [find_of_search hsearch, find_of_search hnext]
    subst hs2
    have htake : s.cursor.rest.take (t.length + m) =
        t ++ (s.cursor.advance t.length).rest.take m := by
      rw [take_add, hread]
      rfl
    have hdrop : s.cursor.rest.drop (t.length + m) = (s.cursor.advance t.length).rest.drop m :=
      drop_drop.symm
    unfold Cursor.stop
    rw [htake, hdrop, ← s.cursor.advance_advance]
    generalize s.cursor.advance t.length = c
    cases c.rest.drop m <;> rfl

/-- A search for more characters beside a search for some of them. -/
inductive Compile.Wider (chars extra : List Char) (s : Session) :
    (wide narrow : Except Halt (Found × Session)) → Prop where
  | same (x : Except Halt (Found × Session)) : Wider chars extra s x x
  | early {before : Text} {d : Char} {s1 : Session} (mem : d ∈ extra) (next : s1.cursor.peek? = some d)
      (others : s1 = { s with cursor := s1.cursor }) :
      Wider chars extra s (.ok (⟨before, some d⟩, s1))
        ((scan (Scan.find chars false false) { s1 with cursor := s1.cursor.advance 1 }).map fun r =>
          (r.1.following (before ++ [d]), r.2.resumed r.1 s.cursor.lastMatch))

theorem Compile.find_wider {extra : List Char} (hextra : ∀ c ∈ extra, Lexeme.isPlain c = true)
    (s : Session) :
    Wider chars extra s (scan (Scan.find (chars ++ extra) false false) s)
      (scan (Scan.find chars false false) s) := by
  have hsearch : Lexeme.Wider s.cursor.options chars extra s.cursor.past s.cursor.position 0
      s.cursor.rest _ _ := Lexeme.searchFrom_wider hextra _ _ 0 _
  generalize hwide : Lexeme.searchFrom s.cursor.options (chars ++ extra) s.cursor.past
    s.cursor.position 0 0 s.cursor.rest = wide at hsearch
  generalize hnarrow : Lexeme.searchFrom s.cursor.options chars s.cursor.past s.cursor.position 0 0
    s.cursor.rest = narrow at hsearch
  cases hsearch with
  | same x =>
    have hsame : scan (Scan.find (chars ++ extra) false false) s =
        scan (Scan.find chars false false) s := by
      unfold scan Scan.find Lexeme.search
      rw [hwide, hnarrow]
    rw [hsame]
    exact .same _
  | early read rest d text mem =>
    obtain ⟨hread, hback⟩ : s.cursor.rest.take read.length = read ∧
        s.cursor.rest.drop read.length = d :: rest := by
      rw [text]
      exact ⟨take_left, drop_left⟩
    obtain ⟨hpast, hrest, hposition⟩ := Cursor.advance_stop text
    rw [Nat.zero_add] at hwide hnarrow
    have hfound := find_of_search hwide
    rw [hread, hback] at hfound
    let s1 : Session := { s with cursor := s.cursor.stop read.length }
    have hlength : (read ++ [d]).length = read.length + 1 := length_append
    have hresumed : scan (Scan.find chars false false) s =
        (scan (Scan.find chars false false) { s1 with cursor := s1.cursor.advance 1 }).map fun r =>
          (r.1.following (read ++ [d]), r.2.resumed r.1 s.cursor.lastMatch) := by
      refine find_resumed (n := s1.cursor.lastMatch) ?_ ?_ ?_
      · rw [hlength, take_add, hread, hback]
        rfl
      · rw [hlength, ← s.cursor.advance_advance]
        rfl
      · rw [hlength, hposition, hpast, hrest]
        exact hnarrow
    rw [hfound, hresumed]
    exact .early mem (congrArg head? hback) rfl

end Patchwork
