import Patchwork.Lexeme.Nesting

/-!
# Reading a conditional expression

What an expression means when it is put together from texts depends on the operators in them. This
module reads an expression as far as its conditional operator goes. `marked` walks through the text
and marks the operators that bind no tighter than `?` and stand outside brackets, strings,
templates, regular expressions and comments; `pieces` cuts the text there, and `readChoice` groups
the pieces to the right, as the operator does. An assignment, an arrow and a comma bind looser than
`?`, so a text with one of them is no conditional expression.

The grouping is that of the grammar: `read_eq_some_iff` says that the pieces are read as a tree
exactly when they are the tree written out.
-/

namespace Patchwork

open List Text

namespace Text

theorem isDigit_of_mem_ofNat (n : Nat) : ∀ c ∈ ofNat n, c.isDigit = true := fun _ =>
  Nat.isDigit_of_mem_toDigits (by decide) (by decide)

def blankPoints : List Nat :=
  range' 9 5 ++ [32, 0x85, 0xa0, 0x1680] ++ range' 0x2000 11 ++
    [0x2028, 0x2029, 0x202f, 0x205f, 0x3000]

theorem isBlank_eq_false {p : Char → Bool} (hp : ∀ n ∈ blankPoints, p (Char.ofNat n) = false)
    {c : Char} (h : p c = true) : isBlank c = false := by
  rw [Bool.eq_false_iff]
  intro hblank
  have hmem : c.toNat ∈ blankPoints := by
    simp only [isBlank, Bool.or_eq_true, Bool.and_eq_true, decide_eq_true_eq, beq_iff_eq] at hblank
    simp only [blankPoints, mem_append, mem_range'_1, mem_cons, not_mem_nil, or_false]
    omega
  have hc := hp _ hmem
  rw [Char.ofNat_toNat, h] at hc
  cases hc

theorem isBlank_of_isDigit {c : Char} (h : c.isDigit = true) : isBlank c = false :=
  isBlank_eq_false (by decide) h

theorem trim_cons_blank (t : Text) : trim (' ' :: t) = trim t := rfl

theorem trim_append_blank (t : Text) : trim (t ++ [' ']) = trim t := by
  rw [trim, trimStart, dropWhile_append, trim, trimStart]
  cases dropWhile isBlank t with
  | nil => rfl
  | cons c t =>
    rw [isEmpty_cons, if_neg Bool.false_ne_true, trimEnd, reverse_append]
    rfl

theorem trim_eq_self {t : Text} (h : ∀ c ∈ t, isBlank c = false) : trim t = t := by
  have hdrop : ∀ t : Text, (∀ c ∈ t, isBlank c = false) → t.dropWhile isBlank = t := by
    intro t ht
    cases t with
    | nil => rfl
    | cons c t => rw [dropWhile_cons_of_neg (by simp [ht c mem_cons_self])]
  rw [trim, trimStart, hdrop _ h, trimEnd, hdrop, reverse_reverse]
  exact fun c hc => h c (mem_reverse.mp hc)

theorem trim_ofNat (n : Nat) : trim (ofNat n) = ofNat n :=
  trim_eq_self fun c hc => isBlank_of_isDigit (isDigit_of_mem_ofNat n c hc)

theorem count_trim {c : Char} (hc : isBlank c = false) (t : Text) :
    (trim t).count c = t.count c := by
  have hdrop : ∀ t : Text, (t.dropWhile isBlank).count c = t.count c := by
    intro t
    induction t with
    | nil => rfl
    | cons d t ih =>
      rw [dropWhile_cons]
      split
      next hd =>
        have hne : d ≠ c := by
          rintro rfl
          rw [hc] at hd
          cases hd
        rw [ih, count_cons_of_ne hne]
      · rfl
  rw [trim, trimEnd, count_reverse, hdrop, count_reverse, trimStart, hdrop]

/-- Two texts that end before a question mark, and differ in blanks only, end before the same one.
-/
theorem eq_append_blank_of_trim {a c u v : Text} (h : a ++ '?' :: u = c ++ ' ' :: '?' :: v)
    (htrim : trim a = trim c) : a = c ++ [' '] := by
  have hcount : a.count '?' = c.count '?' := by
    rw [← count_trim (by decide) a, htrim, count_trim (by decide)]
  rcases append_eq_append_iff.mp h with ⟨m, rfl, hm⟩ | ⟨m, rfl, hm⟩
  -- the first ends too early: the second would have one question mark more
  · cases m with
    | nil => cases hm
    | cons d m =>
      cases hm
      rw [count_append, count_cons_self] at hcount
      omega
  -- the first ends later: by the blank alone, or it would have one question mark more
  · match m, hm with
    | [d], hm =>
      cases hm
      rfl
    | d :: e :: m, hm =>
      cases hm
      rw [count_append, count_cons_of_ne (by decide), count_cons_self] at hcount
      omega

end Text

namespace Conditional

open Lexeme (isOpening opening? isQuote canStartExpression)

/-- Something that is open, innermost in a list of them. -/
inductive Layer where
  | bracket (opened : Char)
  /-- A string or a template, and a backslash or a `$` of a template if it stands just before. -/
  | quoted (quote : Char) (held : Option Char)
  | regex (inClass escaped : Bool)
  | lineComment
  | blockComment (star : Bool)
  deriving DecidableEq, Repr

def inCode : List Layer → Bool
  | [] | .bracket _ :: _ => true
  | _ => false

/-- What is open after a character that continues no slash. -/
def follow : List Layer → Char → List Layer
  | .quoted q held :: w, c =>
    if held == some '\\' then .quoted q none :: w
    else if c == q then w
    else if held == some '$' && c == '{' then .bracket c :: .quoted q none :: w
    else .quoted q (if c == '\\' || c == '$' && q == '\x60' then some c else none) :: w
  | .regex inClass escaped :: w, c =>
    if escaped then .regex inClass false :: w
    else if c == '/' && !inClass then w
    else .regex (c == '[' || inClass && c != ']') (c == '\\') :: w
  | .lineComment :: w, c => if c == '\n' then w else .lineComment :: w
  | .blockComment star :: w, c => if star && c == '/' then w else .blockComment (c == '*') :: w
  | w, c =>
    if isOpening c then .bracket c :: w
    else if isQuote c then .quoted c none :: w
    else
      match w with
      | .bracket b :: outer => if opening? c == some b then outer else w
      | _ => w

/-- Where a character stands: what is open there, and whether a slash in code was read just before,
with the answer to whether a regular expression may begin at it. -/
@[ext]
structure Place where
  layers : List Layer
  slash : Option Bool
  deriving DecidableEq, Repr

/-- Outside of everything. -/
def Place.code : Place := ⟨[], none⟩

def Place.step (past : Text) (s : Place) (c : Char) : Place :=
  match s.slash with
  | some regex =>
    if c == '/' then ⟨.lineComment :: s.layers, none⟩
    else if c == '*' then ⟨.blockComment false :: s.layers, none⟩
    else if regex then ⟨.regex (c == '[') (c == '\\') :: s.layers, none⟩
    else ⟨follow s.layers c, none⟩
  | none =>
    if inCode s.layers && c == '/' then ⟨s.layers, some (canStartExpression past)⟩
    else ⟨follow s.layers c, none⟩

def Place.after (past : Text) (s : Place) : Text → Place
  | [] => s
  | c :: t => after (c :: past) (s.step past c) t

/-- The operators that bind no tighter than `?`. The loose ones are the comma, the arrow and the
assignments. -/
inductive Operator where
  | question | colon | loose
  deriving DecidableEq, Repr

def endsComparison (past : Text) : Bool :=
  past.head? == some '=' || past.head? == some '!' ||
    past.head? == some '<' && past[1]? != some '<' || past.head? == some '>' && past[1]? != some '>'

/-- Does a question mark before a text begin `??` or `?.`? A digit after the point makes it a
number. -/
def beginsOther (next : Text) : Bool :=
  next.head? == some '?' || next.head? == some '.' && !next[1]?.any Char.isDigit

/-- The operator that a character of code is the sign of, given what is before it, backwards, and
after it. -/
def operator? (past : Text) (c : Char) (next : Text) : Option Operator :=
  if c == '?' then
    if past.head? == some '?' || beginsOther next then none else some .question
  else if c == ':' then some .colon
  else if c == ',' then some .loose
  else if c == '=' then
    if next.head? == some '=' || endsComparison past then none else some .loose
  else none

def marked (past : Text) (s : Place) : Text → List (Char × Option Operator)
  | [] => []
  | c :: t =>
    (c, if s.layers.isEmpty && (s.step past c).layers.isEmpty then operator? past c t else none) ::
      marked (c :: past) (s.step past c) t

/-- An operand, and the operators after it with their right operands. -/
abbrev Pieces := Text × List (Operator × Text)

def cut : List (Char × Option Operator) → Pieces
  | [] => ([], [])
  | (c, none) :: t => (c :: (cut t).1, (cut t).2)
  | (_, some op) :: t => ([], (op, (cut t).1) :: (cut t).2)

/-- The operands without the blanks around them. -/
def trimmed (p : Pieces) : Pieces :=
  (trim p.1, p.2.map fun (op, t) => (op, trim t))

/-- A text cut at the operators outside of everything. -/
def pieces (t : Text) : Pieces :=
  trimmed (cut (marked [] .code t))

/-- A conditional expression. -/
inductive Tree where
  | leaf (t : Text)
  | choose (test : Text) (yes no : Tree)
  deriving DecidableEq, Repr

namespace Tree

def spell : Tree → Pieces
  | leaf t => (t, [])
  | choose test yes no =>
    (test, (.question, yes.spell.1) :: yes.spell.2 ++ (.colon, no.spell.1) :: no.spell.2)

/-- The operand that is chosen when these tests hold. -/
def eval (holds : Text → Bool) : Tree → Text
  | leaf t => t
  | choose test yes no => if holds test then yes.eval holds else no.eval holds

end Tree

/-- Put an operand and an operator in front of the trees that colons stand between: a question mark
takes the first two together. -/
def group (a : Text) : Operator → List Tree → Option (List Tree)
  | .colon, stack => some (.leaf a :: stack)
  | .question, yes :: no :: stack => some (.choose a yes no :: stack)
  | _, _ => none

/-- The trees that colons stand between, read from the right. -/
def trees (a : Text) : List (Operator × Text) → Option (List Tree)
  | [] => some [.leaf a]
  | (op, b) :: r => (trees b r).bind (group a op)

def read (p : Pieces) : Option Tree :=
  match trees p.1 p.2 with
  | some [tree] => some tree
  | _ => none

def readChoice (t : Text) : Option Tree :=
  read (pieces t)

/-! ## The grouping -/

/-- What may follow a tree: nothing, or a colon and more trees. -/
inductive Followed : List (Operator × Text) → List Tree → Prop where
  | nothing : Followed [] []
  | colon {b : Text} {r : List (Operator × Text)} {stack : List Tree}
      (rest : trees b r = some stack) : Followed ((.colon, b) :: r) stack

theorem trees_spell (tree : Tree) : ∀ {r : List (Operator × Text)} {stack : List Tree},
    Followed r stack → trees tree.spell.1 (tree.spell.2 ++ r) = some (tree :: stack) := by
  induction tree with
  | leaf a =>
    intro r stack hr
    cases hr with
    | nothing => rfl
    | @colon b r _ rest =>
      show (trees b r).bind (group a .colon) = _
      rw [rest]
      rfl
  | choose test yes no ihyes ihno =>
    intro r stack hr
    have hyes := ihyes (.colon (ihno hr))
    show (trees yes.spell.1 ((yes.spell.2 ++ (.colon, no.spell.1) :: no.spell.2) ++ r)).bind
      (group test .question) = _
    rw [append_assoc, cons_append, hyes]
    rfl

/-- Whatever has been read was a tree written out, with the other trees after it. -/
theorem spell_of_trees : ∀ {a : Text} {r : List (Operator × Text)} {stack : List Tree},
    trees a r = some stack → ∃ tree rest more, stack = tree :: more ∧
      (a, r) = (tree.spell.1, tree.spell.2 ++ rest) ∧ Followed rest more
  | a, [], stack, h => by
    cases h
    exact ⟨.leaf a, [], [], rfl, rfl, .nothing⟩
  | a, (op, b) :: r, stack, h => by
    obtain ⟨inner, hinner, hgroup⟩ := Option.bind_eq_some_iff.mp h
    unfold group at hgroup
    split at hgroup
    · cases hgroup
      exact ⟨.leaf a, (.colon, b) :: r, inner, rfl, rfl, .colon hinner⟩
    next yes no inner =>
      cases hgroup
      obtain ⟨_, rest, _, hstack, hspell, hfollowed⟩ := spell_of_trees hinner
      cases hstack
      obtain ⟨rfl, hr⟩ := Prod.mk.inj hspell
      -- the second tree is what stands behind the colon after the first one
      cases hfollowed with
      | @colon b' r' _ hno =>
        have hshorter : r'.length < r.length + 1 := by
          rw [hr, length_append, length_cons]
          omega
        obtain ⟨_, rest, more, hstack, hspell', hfollowed⟩ := spell_of_trees hno
        cases hstack
        obtain ⟨rfl, rfl⟩ := Prod.mk.inj hspell'
        refine ⟨.choose a yes no, rest, inner, rfl, ?_, hfollowed⟩
        simp only [hr, Tree.spell, cons_append, append_assoc]
    · cases hgroup
termination_by _ r => r.length

theorem read_eq_some_iff {p : Pieces} {tree : Tree} : read p = some tree ↔ p = tree.spell := by
  constructor
  · intro h
    unfold read at h
    split at h
    next htrees =>
      cases h
      obtain ⟨_, rest, _, hstack, hspell, hfollowed⟩ := spell_of_trees htrees
      cases hstack
      cases hfollowed with
      | nothing => rwa [append_nil] at hspell
      | colon hrest =>
        obtain ⟨_, _, _, hnil, -⟩ := spell_of_trees hrest
        cases hnil
    · cases h
  · rintro rfl
    have h := trees_spell tree .nothing
    rw [append_nil] at h
    rw [read, h]

/-! ## The walk through the text -/

theorem Place.after_append (past : Text) (s : Place) (t u : Text) :
    s.after past (t ++ u) = (s.after past t).after (t.reverse ++ past) u := by
  induction t generalizing past s with
  | nil => rfl
  | cons c t ih =>
    rw [cons_append, after, ih, after, reverse_cons, append_assoc, singleton_append]

theorem Place.slash_step_blank (past : Text) (s : Place) : (s.step past ' ').slash = none := by
  unfold step
  split
  next regex _ => cases regex <;> rfl
  · simp

@[simp] theorem map_fst_marked (past : Text) (s : Place) (t : Text) :
    (marked past s t).map Prod.fst = t := by
  induction t generalizing past s with
  | nil => rfl
  | cons c t ih => rw [marked, map_cons, ih]

theorem length_marked (past : Text) (s : Place) (t : Text) :
    (marked past s t).length = t.length := by
  rw [← length_map Prod.fst, map_fst_marked]

variable {past : Text}

theorem eq_of_operator?_question {next : Text} {c : Char}
    (h : operator? past c next = some .question) : c = '?' := by
  unfold operator? at h
  split at h
  next hc => exact beq_iff_eq.mp hc
  · grind

theorem eq_of_mem_marked_question {s : Place} {t : Text} {c : Char}
    (h : (c, some .question) ∈ marked past s t) : c = '?' := by
  induction t generalizing past s with
  | nil => cases h
  | cons d t ih =>
    rcases mem_cons.mp h with h | h
    · obtain ⟨rfl, hop⟩ := Prod.mk.inj h
      split at hop
      · exact eq_of_operator?_question hop.symm
      · cases hop
    · exact ih h

theorem operator?_append_blank (past : Text) (c : Char) (t u : Text) :
    operator? past c (t ++ ' ' :: u) = operator? past c t := by
  have hother : beginsOther (t ++ ' ' :: u) = beginsOther t := by
    cases t with
    | nil => rfl
    | cons d t => cases t <;> rfl
  have hhead : ((t ++ ' ' :: u).head? == some '=') = (t.head? == some '=') := by
    cases t <;> rfl
  rw [operator?, hother, hhead, operator?]

theorem marked_append_blank (past : Text) (s : Place) (t u : Text) :
    marked past s (t ++ ' ' :: u) =
      marked past s t ++ marked (t.reverse ++ past) (s.after past t) (' ' :: u) := by
  induction t generalizing past s with
  | nil => rfl
  | cons c t ih =>
    rw [cons_append, marked, operator?_append_blank, ih, Place.after, reverse_cons,
      append_assoc, singleton_append]
    rfl

/-- A text, given backwards, behind which an expression begins as at the very start. -/
structure Fresh (older : Text) : Prop where
  starts : canStartExpression older = true
  notWord : older.head?.any Text.isWordChar = false

theorem canStartExpression_append {older : Text} (h : Fresh older) (past : Text) :
    canStartExpression (past ++ older) = canStartExpression past := by
  have hstarts := h.starts
  unfold canStartExpression at hstarts ⊢
  rw [dropWhile_append]
  cases past.dropWhile Text.isBlank with
  | nil => exact hstarts
  | cons c t =>
    have hword : older.takeWhile Text.isWordChar = [] := by
      cases older with
      | nil => rfl
      | cons d older => exact takeWhile_cons_of_neg (by simpa using h.notWord)
    have htake : ((c :: t) ++ older).takeWhile Text.isWordChar =
        (c :: t).takeWhile Text.isWordChar := by
      rw [takeWhile_append]
      split
      next hlength =>
        rw [hword, append_nil]
        exact ((List.takeWhile_prefix _).eq_of_length hlength).symm
      · rfl
    simp only [isEmpty_cons, Bool.false_eq_true, if_false]
    rw [cons_append] at htake ⊢
    simp only [htake]

/-! Behind a colon and a blank a text is walked through as it is at the start. -/

theorem canStartExpression_append_colon (past older : Text) :
    canStartExpression (past ++ ' ' :: ':' :: older) = canStartExpression past :=
  canStartExpression_append ⟨rfl, rfl⟩ past

theorem operator?_append_colon (past older : Text) (c : Char) (next : Text) :
    operator? (past ++ ' ' :: ':' :: older) c next = operator? past c next := by
  have hhead : ((past ++ ' ' :: ':' :: older).head? == some '?') = (past.head? == some '?') := by
    cases past <;> rfl
  have hcomparison : endsComparison (past ++ ' ' :: ':' :: older) = endsComparison past := by
    cases past with
    | nil => rfl
    | cons d past => cases past <;> rfl
  rw [operator?, hhead, hcomparison, operator?]

theorem Place.step_append_colon (past older : Text) (s : Place) (c : Char) :
    s.step (past ++ ' ' :: ':' :: older) c = s.step past c := by
  rw [step, canStartExpression_append_colon, step]

theorem marked_append_colon (past older : Text) (s : Place) (t : Text) :
    marked (past ++ ' ' :: ':' :: older) s t = marked past s t := by
  induction t generalizing past s with
  | nil => rfl
  | cons c t ih =>
    rw [marked, Place.step_append_colon, operator?_append_colon, ← cons_append, ih, marked]

/-! ## Operands -/

/-- A text that stands as one operand wherever it is put before a blank: it leaves nothing open, and
it has no operator of its own that binds no tighter than `?`. -/
def Operand (t : Text) : Prop :=
  Place.code.after [] (t ++ [' ']) = .code ∧ ∀ m ∈ marked [] .code t, m.2 = none

instance (t : Text) : Decidable (Operand t) :=
  inferInstanceAs (Decidable (_ ∧ _))

theorem cut_append {xs : List (Char × Option Operator)} (hxs : ∀ x ∈ xs, x.2 = none)
    (ys : List (Char × Option Operator)) :
    cut (xs ++ ys) = (xs.map Prod.fst ++ (cut ys).1, (cut ys).2) := by
  induction xs with
  | nil => rfl
  | cons x xs ih =>
    obtain ⟨c, op⟩ := x
    have hop : op = none := hxs _ mem_cons_self
    subst hop
    rw [cons_append, cut, ih fun x hx => hxs x (mem_cons_of_mem _ hx)]
    rfl

theorem exists_of_cut {zs : List (Char × Option Operator)} {a : Text} {op : Operator}
    {r : List (Operator × Text)} {b : Text} (h : cut zs = (a, (op, b) :: r)) :
    ∃ xs c ys, zs = xs ++ (c, some op) :: ys ∧ (∀ x ∈ xs, x.2 = none) ∧ xs.map Prod.fst = a := by
  induction zs generalizing a with
  | nil => cases h
  | cons z zs ih =>
    obtain ⟨c, mark⟩ := z
    cases mark with
    | none =>
      obtain ⟨ha, hr⟩ := Prod.mk.inj h
      obtain ⟨xs, d, ys, rfl, hnone, hfst⟩ := ih (Prod.ext rfl hr)
      refine ⟨(c, none) :: xs, d, ys, rfl, ?_, by rw [map_cons, hfst, ha]⟩
      exact forall_mem_cons.mpr ⟨rfl, hnone⟩
    | some op' =>
      cases h
      exact ⟨[], c, zs, rfl, forall_mem_nil _, rfl⟩

/-- A character that changes nothing outside of everything. -/
theorem marked_code_cons {c : Char} (hc : Place.code.step past c = .code) (t : Text) :
    marked past .code (c :: t) = (c, operator? past c t) :: marked (c :: past) .code t := by
  rw [marked, hc]
  rfl

theorem marked_number (past : Text) (n : Nat) (t : Text) :
    marked past .code (Text.ofNat n ++ t) =
      (Text.ofNat n).map (·, none) ++ marked ((Text.ofNat n).reverse ++ past) .code t := by
  have hdigits := isDigit_of_mem_ofNat n
  generalize Text.ofNat n = ds at hdigits ⊢
  induction ds generalizing past with
  | nil => rfl
  | cons c ds ih =>
    have hc : c.isDigit = true := hdigits c mem_cons_self
    have hne : ∀ d : Char, d.isDigit = false → (c == d) = false := by
      intro d hd
      refine beq_eq_false_iff_ne.mpr ?_
      rintro rfl
      rw [hc] at hd
      cases hd
    have hstep : Place.code.step past c = .code := by
      simp [Place.step, Place.code, follow, isOpening, isQuote, hne]
    have hop : operator? past c (ds ++ t) = none := by
      simp [operator?, hne]
    rw [cons_append, marked_code_cons hstep, hop, ih _ fun d hd => hdigits d (.tail _ hd),
      map_cons, reverse_cons, append_assoc]
    rfl

/-- A condition with the branch to take, and what is chosen if it fails. -/
def arm (c : Text) (n : Nat) (rest : Text) : Text :=
  c ++ " ? " ++ Text.ofNat n ++ " : " ++ rest

theorem arm_eq (c : Text) (n : Nat) (rest : Text) :
    arm c n rest = c ++ ' ' :: '?' :: ' ' :: (Text.ofNat n ++ ' ' :: ':' :: ' ' :: rest) := by
  have hquestion : (" ? " : Text) = [' ', '?', ' '] := rfl
  have hcolon : (" : " : Text) = [' ', ':', ' '] := rfl
  rw [arm]
  simp

/-- The blank after a condition has no sign, and what comes next is the question mark. -/
theorem marked_arm_front (c : Text) (n : Nat) (rest : Text) :
    marked [] .code (arm c n rest) = (marked [] .code c ++ [(' ', none)]) ++
      marked (' ' :: c.reverse) (Place.code.after [] (c ++ [' ']))
        ('?' :: ' ' :: (Text.ofNat n ++ ' ' :: ':' :: ' ' :: rest)) := by
  rw [arm_eq, marked_append_blank, marked, Place.after_append, append_nil, append_assoc]
  congr 2
  exact Prod.ext rfl (ite_self none)

theorem marked_arm {c : Text} (hc : Place.code.after [] (c ++ [' ']) = .code) (n : Nat)
    (rest : Text) :
    marked [] .code (arm c n rest) =
      (marked [] .code c ++ [(' ', none)]) ++ ('?', some .question) ::
        (((' ', none) :: (Text.ofNat n).map (·, none) ++ [(' ', none)]) ++ (':', some .colon) ::
          (' ', none) :: marked [] .code rest) := by
  rw [marked_arm_front, hc, marked_code_cons rfl, marked_code_cons rfl, marked_number,
    ← marked_append_colon [] _ _ rest]
  simp only [append_assoc]
  rfl

/-- An operand before `?` is the test. -/
theorem pieces_arm {c : Text} (hc : Operand c) (n : Nat) (rest : Text) :
    pieces (arm c n rest) = (trim c, (.question, Text.ofNat n) ::
      (.colon, (pieces rest).1) :: (pieces rest).2) := by
  have htest : ∀ x ∈ marked [] .code c ++ [(' ', none)], x.2 = none := by
    simpa [or_imp] using hc.2
  have hnumber : ∀ x ∈ (' ', none) :: (Text.ofNat n).map (·, none) ++ [(' ', none)],
      x.2 = (none : Option Operator) := by
    grind
  rw [pieces, marked_arm hc.1, cut_append htest, cut, cut_append hnumber, cut, cut]
  simp [trimmed, pieces, trim_append_blank, trim_cons_blank, trim_ofNat,
    Function.comp_def]

/-- What is read as the test before the first `?` is an operand. -/
theorem operand_of_pieces_arm {c : Text} {n : Nat} {rest : Text} {b : Text}
    {r : List (Operator × Text)}
    (h : pieces (arm c n rest) = (trim c, (.question, b) :: r)) : Operand c := by
  obtain ⟨htrim, hrest⟩ := Prod.mk.inj h
  obtain ⟨⟨op, b'⟩, r', hcut, hop, -⟩ := map_eq_cons_iff.mp hrest
  cases (Prod.mk.inj hop).1
  obtain ⟨xs, d, ys, hzs, hnone, hfst⟩ := exists_of_cut (Prod.ext rfl hcut)
  have hmem : (d, some .question) ∈ marked [] .code (arm c n rest) := by
    rw [hzs]
    exact mem_append_right _ mem_cons_self
  obtain rfl : d = '?' := eq_of_mem_marked_question hmem
  have htext : xs.map Prod.fst ++ '?' :: ys.map Prod.fst = arm c n rest := by
    rw [← map_fst_marked [] .code (arm c n rest), hzs, map_append, map_cons]
  -- the first piece can only end at the question mark behind the condition
  have hfirst : xs.map Prod.fst = c ++ [' '] :=
    eq_append_blank_of_trim (htext.trans (arm_eq c n rest)) (by rw [hfst, htrim])
  have hlength : (marked [] .code c ++ [(' ', none)]).length = xs.length := by
    have hxs : xs.length = (c ++ [' ']).length := by
      rw [← hfirst, length_map]
    rw [hxs, length_append, length_marked, length_append]
    rfl
  rw [marked_arm_front] at hzs
  obtain ⟨hxs, hsign⟩ := append_inj hzs hlength
  constructor
  · -- the question mark is a sign, so it stands outside of everything
    have hlayers : (Place.code.after [] (c ++ [' '])).layers = [] := by
      have hsign := (Prod.mk.inj (List.cons.inj hsign).1).2
      split at hsign
      next hempty => exact List.isEmpty_iff.mp (Bool.and_eq_true_iff.mp hempty).1
      · cases hsign
    have hslash : (Place.code.after [] (c ++ [' '])).slash = none := by
      rw [Place.after_append]
      exact Place.slash_step_blank ..
    exact Place.ext hlayers hslash
  · intro m hm
    exact hnone m (hxs ▸ mem_append_left _ hm)

theorem pieces_number (n : Nat) : pieces (Text.ofNat n) = (Text.ofNat n, []) := by
  have hmarked := marked_number [] n []
  rw [append_nil, marked, append_nil] at hmarked
  have hnone : ∀ x ∈ (Text.ofNat n).map (·, none), x.2 = (none : Option Operator) := by
    simp
  have hcut := cut_append hnone []
  rw [append_nil] at hcut
  rw [pieces, hmarked, hcut]
  simp [cut, trimmed, trim_ofNat, Function.comp_def]

/-- A condition and its branch are read as the test and its first choice if the condition is an
operand, and only then. -/
theorem pieces_arm_iff {c : Text} {n : Nat} {rest : Text} {tree : Tree} :
    pieces (arm c n rest) = (Tree.choose (trim c) (.leaf (Text.ofNat n)) tree).spell ↔
      Operand c ∧ pieces rest = tree.spell := by
  constructor
  · intro h
    have hc : Operand c := operand_of_pieces_arm h
    rw [pieces_arm hc] at h
    obtain ⟨-, hpieces⟩ := Prod.mk.inj h
    obtain ⟨hfirst, hmore⟩ := List.cons.inj (List.cons.inj hpieces).2
    exact ⟨hc, Prod.ext (Prod.mk.inj hfirst).2 hmore⟩
  · rintro ⟨hc, hrest⟩
    rw [pieces_arm hc, hrest]
    rfl

end Conditional
end Patchwork
