import Patchwork.Text.Basic

/-!
# Balanced brackets

A text is balanced when every bracket in it is closed by one of its kind, the innermost first. It
may be that only some kinds are of interest, and then the other brackets are characters like any
other (`Kinds`).

A part of a balanced text need not be balanced. `Turns kinds a t b` says what a part does: read when
the brackets `a` are open, innermost first, it leaves the brackets `b` open. Parts are put together
by `Turns.append`, and what is open further out does not matter (`Turns.under`).
-/

namespace Patchwork.Brackets

open List

/-- A kind of bracket. -/
inductive Bracket where
  | round | square | curly
  deriving DecidableEq, Repr

/-- The kinds that are looked at. -/
structure Kinds where
  round : Bool := true
  square : Bool := true
  curly : Bool := true
  deriving DecidableEq, Repr

def Kinds.counts (kinds : Kinds) : Bracket → Bool
  | .round => kinds.round
  | .square => kinds.square
  | .curly => kinds.curly

def Kinds.all : List Kinds :=
  [true, false].flatMap fun round => [true, false].flatMap fun square =>
    [true, false].map fun curly => { round, square, curly }

theorem Kinds.mem_all (kinds : Kinds) : kinds ∈ all := by
  obtain ⟨round, square, curly⟩ := kinds
  cases round <;> cases square <;> cases curly <;> decide

def opening? (c : Char) : Option Bracket :=
  if c == '(' then some .round
  else if c == '[' then some .square
  else if c == '{' then some .curly
  else none

def closing? (c : Char) : Option Bracket :=
  if c == ')' then some .round
  else if c == ']' then some .square
  else if c == '}' then some .curly
  else none

def Bracket.opener : Bracket → Char
  | .round => '('
  | .square => '['
  | .curly => '{'

def Bracket.closer : Bracket → Char
  | .round => ')'
  | .square => ']'
  | .curly => '}'

variable {c : Char} {w : List Bracket} {kinds : Kinds}

theorem eq_closer {b : Bracket} (h : closing? c = some b) : c = b.closer := by
  unfold closing? at h
  repeat' split at h
  all_goals cases h
  all_goals exact eq_of_beq ‹_›

def characters : List Char :=
  ['(', ')', '[', ']', '{', '}']

/-- The brackets that are open after a character, innermost first. There is no answer when it closes
a bracket that is not the innermost. -/
def step (kinds : Kinds) (w : List Bracket) (c : Char) : Option (List Bracket) :=
  match (opening? c).filter kinds.counts, (closing? c).filter kinds.counts with
  | some b, _ => some (b :: w)
  | none, some b => if w.head? = some b then some w.tail else none
  | none, none => some w

def after (kinds : Kinds) (w : List Bracket) (t : Text) : Option (List Bracket) :=
  t.foldlM (step kinds) w

theorem step_of_not_mem (hc : c ∉ characters) (w : List Bracket) : step kinds w c = some w := by
  simp only [characters, mem_cons, not_or, not_mem_nil, not_false_eq_true, and_true] at hc
  simp [step, opening?, closing?, hc]

/-- What is open further out stays open. -/
theorem step_append {w' : List Bracket} (h : step kinds w c = some w') (z : List Bracket) :
    step kinds (w ++ z) c = some (w' ++ z) := by
  unfold step at h ⊢
  split at h
  · cases h; rfl
  next b _ =>
    cases w with
    | nil => simp at h
    | cons d w => simpa using h
  · cases h; rfl

/-- A character that closes none of the brackets that are open may close the next one. -/
theorem step_eq_none (h : step {} w c = none) (b : Bracket) :
    step {} (w ++ [b]) c = none ∨ step {} (w ++ [b]) c = some [] := by
  unfold step at h ⊢
  split at h
  · cases h
  next closed _ _ =>
    cases w with
    | nil =>
      by_cases hb : some b = some closed
      · exact .inr (if_pos hb)
      · exact .inl (if_neg hb)
    | cons d w => exact .inl (by simpa using h)
  · cases h

theorem step_eq_some_nil {b : Bracket} (h : step {} (w ++ [b]) c = some []) :
    w = [] ∧ c = b.closer := by
  unfold step at h
  split at h
  · cases h
  next closed _ hclosing =>
    split at h
    next hhead =>
      cases w with
      | nil =>
        cases hhead
        exact ⟨rfl, eq_closer (Option.filter_eq_some_iff.mp hclosing).1⟩
      | cons d w => simp at h
    · cases h
  · simp at h

theorem after_cons {w' : List Bracket} {t : Text} :
    after kinds w (c :: t) = some w' ↔
      ∃ w1, step kinds w c = some w1 ∧ after kinds w1 t = some w' :=
  Option.bind_eq_some_iff

theorem after_append {w' : List Bracket} {t : Text} (h : after kinds w t = some w')
    (z : List Bracket) : after kinds (w ++ z) t = some (w' ++ z) := by
  induction t generalizing w with
  | nil =>
    cases h
    rfl
  | cons c t ih =>
    obtain ⟨w1, hstep, hafter⟩ := after_cons.mp h
    exact after_cons.mpr ⟨_, step_append hstep z, ih hafter⟩

/-- The text turns the open brackets `a` into `b`. Kinds that are not looked at do not count. -/
def Turns (kinds : Kinds) (a : List Bracket) (t : Text) (b : List Bracket) : Prop :=
  after kinds (a.filter kinds.counts) t = some (b.filter kinds.counts)

instance (kinds : Kinds) (a : List Bracket) (t : Text) (b : List Bracket) :
    Decidable (Turns kinds a t b) :=
  inferInstanceAs (Decidable (_ = _))

/-- Every bracket is closed, the innermost first. -/
def Balanced (kinds : Kinds) (t : Text) : Prop :=
  Turns kinds [] t []

instance (kinds : Kinds) (t : Text) : Decidable (Balanced kinds t) :=
  inferInstanceAs (Decidable (Turns ..))

variable {kinds : Kinds} {a b c : List Bracket} {t u : Text}

namespace Turns

/-- A text that is written out does the same for every choice of kinds. -/
theorem literal (h : ∀ kinds ∈ Kinds.all, Turns kinds a t b) : Turns kinds a t b :=
  h kinds kinds.mem_all

theorem nil (a : List Bracket) : Turns kinds a [] a := rfl

theorem append (ht : Turns kinds a t b) (hu : Turns kinds b u c) : Turns kinds a (t ++ u) c := by
  unfold Turns after at *
  rw [foldlM_append, ht]
  exact hu

theorem cons {x : Char} (hx : Turns kinds a [x] b) (hu : Turns kinds b u c) :
    Turns kinds a (x :: u) c :=
  hx.append hu

theorem under (h : Turns kinds a t b) (z : List Bracket) : Turns kinds (a ++ z) t (b ++ z) := by
  unfold Turns
  rw [filter_append, filter_append]
  exact after_append h _

end Turns

namespace Balanced

/-- A balanced text changes nothing, whatever is open. -/
theorem turns (h : Balanced kinds t) (a : List Bracket) : Turns kinds a t a := Turns.under h a

theorem append (ht : Balanced kinds t) (hu : Balanced kinds u) : Balanced kinds (t ++ u) :=
  Turns.append ht hu

theorem flatten {ts : List Text} (h : ∀ t ∈ ts, Balanced kinds t) : Balanced kinds ts.flatten := by
  induction ts with
  | nil => exact .nil []
  | cons t ts ih =>
    exact (h t mem_cons_self).append (ih fun u hu => h u (mem_cons_of_mem _ hu))

theorem literal (h : ∀ kinds ∈ Kinds.all, Balanced kinds t) : Balanced kinds t :=
  Turns.literal h

theorem of_all {p : Char → Bool} (hp : characters.all (fun c => !p c) = true)
    (h : t.all p = true) : Balanced kinds t := by
  have hafter : ∀ w, after kinds w t = some w := by
    intro w
    induction t with
    | nil => rfl
    | cons c t ih =>
      obtain ⟨hc, ht⟩ := Bool.and_eq_true_iff.mp h
      have hmem : c ∉ characters := by
        intro hmem
        have := all_eq_true.mp hp c hmem
        rw [hc] at this
        cases this
      exact after_cons.mpr ⟨w, step_of_not_mem hmem w, ih ht⟩
  exact hafter []

/-- A text in parentheses. -/
theorem inRound (h : Balanced kinds t) : Balanced kinds ('(' :: t ++ [')']) :=
  (Turns.cons (.literal (by decide)) (h.turns [.round])).append (.literal (by decide))

/-- A parenthesis before a text stays open. -/
theorem openRound (h : Balanced kinds t) : Turns kinds [] ('(' :: t) [.round] :=
  .cons (.literal (by decide)) (h.turns [.round])

theorem flatMap {α : Type} {f : α → Text} {xs : List α} (h : ∀ x ∈ xs, Balanced kinds (f x)) :
    Balanced kinds (xs.flatMap f) := by
  exact flatten (forall_mem_map.mpr h)

end Balanced

end Patchwork.Brackets
