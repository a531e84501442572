import Patchwork.Proofs.Acts

/-!
# Turns of statement trackers and stylesheets

What a tracker does with a character, and what a stylesheet does with one, as relations with a case
for each thing that can happen. A property that a turn keeps is then proved by these cases.
-/

namespace Patchwork

open Compile TextHost

theorem Agree.reading {α β : Type} {x : Compile α} [hx : Made [.read] x] {f g : α → Compile β}
    {s : Session} {Q : β → Session → Prop}
    (hf : ∀ a s', s.Steps [.read] s' → Agree (f a) (g a) s' Q) : Agree (x >>= f) (x >>= g) s Q :=
  .given fun a s' h => hf a s' (hx.steps h)

namespace Tracker

section

variable {H : Type} [TextHost H] [Expansion] {k : Tracker} {host : H} {c : Char} {s : Session}

/-- Opening a branch puts a statement before the others that are open, with the branches before it. The
branch begins where all that the host holds has been flushed. -/
theorem openPart_opens (k : Tracker) (host : H) (keyword : Keyword) (continued : Option Statement)
    (s : Session) :
    Gives (k.openPart host keyword continued) s fun r _ => ∃ st s1,
      r.1 = { k with opened := .statement st :: k.opened } ∧ boundary host s = .ok (r.2, s1) ∧
        st.earlier = (continued.map Statement.parts).getD [] ∧
        st.last.span.start = s1.cursor.position := by
  refine .given fun host' s1 h1 => .position ?_
  refine .after fun _ s3 => .after fun stop s4 => ?_
  extract_lets span rest
  have hrest : ∀ start s5, Gives (rest start) s5 fun r _ => ∃ st s1,
      r.1 = { k with opened := .statement st :: k.opened } ∧ boundary host s = .ok (r.2, s1) ∧
        st.earlier = (continued.map Statement.parts).getD [] ∧
        st.last.span.start = s1.cursor.position := by
    intro start s5
    refine .after fun o s6 => .after fun declStart s7 => .after fun head s8 => ?_
    refine .after fun blanks s9 => .after fun _ s10 => .after fun braced s11 => ?_
    refine .after fun _ s12 => .pure ⟨_, s1, rfl, h1, ?_⟩
    cases continued with
    | none | some => exact ⟨rfl, rfl⟩
  split
  · exact .after hrest
  · exact .after hrest

variable [Editor]

/-- What a tracker does with a character: it is text, or it was escaped or a keyword was, or the
innermost thing that is open is closed, or a declaration is copied, or a statement begins. -/
inductive Turn (k : Tracker) (host : H) (c : Char) (s : Session) :
    Tracker × H × Option Closed → Session → Prop
  | text {closed : Option Closed} {s' : Session} (read : s.Steps [.read] s')
      (answer : closed = none ∨ closed = some .stray) :
      Turn k host c s (k, pushText host [c], closed) s'
  | unescaped {word : Text} {s' : Session} (read : s.Steps [.read] s')
      (ends : escaped host = true) (mem : word ∈ ['}'] :: keywords.map Prod.fst) :
      Turn k host c s (k, unescape host word, none) s'
  | closes {atLineBreak : Bool} {p : Tracker × H × Closed} {closed : Option Closed}
      {s1 s' : Session} (read : s.Steps [.read] s1) (line : c = '\n' → k.inlineOpen = true)
      (close : k.close host atLineBreak s1 = .ok (p, s')) (opened : k.opened ≠ [])
      (answer : closed = some p.2.2 ∨ closed = none ∧ k.inlineOpen = true) :
      Turn k host c s (p.1, p.2.1, closed) s'
  | declares {word : Text} {closing : List Char} {host' : H} {s1 s' : Session}
      (read : s.Steps [.read] s1) (other : c ≠ '\n')
      (declares : declaration host word closing s1 = .ok (host', s')) :
      Turn k host c s ({ k with recognized := k.recognized + 1 }, host', none) s'
  | begins {word : Text} {keyword : Keyword} {p : Tracker × H} {s1 s' : Session}
      (read : s.Steps [.read] s1) (other : c ≠ '\n') (mem : (word, .block keyword) ∈ keywords)
      (begins : openPart { k with recognized := k.recognized + 1 } host keyword none s1 =
        .ok (p, s')) :
      Turn k host c s (p.1, p.2, none) s'

theorem keyword?_turn (k : Tracker) (host : H) (hc : c ≠ '\n') (s : Session) :
    Gives (k.keyword? host) s fun found s' =>
      found.elim (s.Steps [.read] s') fun p => k.Turn host c s (p.1, p.2, none) s' := by
  refine .reading fun cur s1 h1 => ?_
  extract_lets at_ recognized
  split
  · exact .pure h1
  next word form hfind =>
    have hmem := List.mem_of_find?_eq_some hfind
    extract_lets rest
    have hrest : ∀ kept s2, (kept = true → escaped host = true) → s.Steps [.read] s2 →
        Gives (rest kept) s2 fun found s' =>
          found.elim (s.Steps [.read] s') fun p => k.Turn host c s (p.1, p.2, none) s' := by
      intro kept s2 hkept h2
      unfold rest
      split
      next hk =>
        refine .reading fun _ s3 h3 => .pure ?_
        have hword := List.mem_map_of_mem (f := Prod.fst) hmem
        exact .unescaped (h2.trans h3) (hkept hk) (List.mem_cons_of_mem _ hword)
      refine .reading fun atStart s3 h3 => ?_
      split
      · exact .pure (h2.trans h3)
      split
      next closing =>
        exact .given fun host' s4 h4 => .pure (.declares (h2.trans h3) hc h4)
      next keyword =>
        split
        · exact .given fun p s4 h4 => .pure (.begins (h2.trans h3) hc hmem h4)
        · exact .pure (h2.trans h3)
    split
    next hescaped =>
      refine .reading fun kept s2 h2 => ?_
      exact hrest kept s2 (fun _ => (Bool.and_eq_true_iff.mp hescaped).2) (h1.trans h2)
    · exact hrest false s1 (fun h => absurd h Bool.false_ne_true) h1

theorem dispatch_turn (k : Tracker) (host : H) (c : Char) (s : Session) :
    Gives (k.dispatch host c) s (k.Turn host c s) := by
  unfold dispatch
  split
  next hbrace =>
    obtain rfl : c = '\x7d' := eq_of_beq hbrace
    refine .reading fun _ s1 h1 => ?_
    split
    next hends => exact .pure (.unescaped h1 hends List.mem_cons_self)
    split
    · exact .pure (.text h1 (.inr rfl))
    next hopened =>
      refine .given fun p s2 h2 => .pure (.closes h1 nofun h2 ?_ (.inl rfl))
      exact fun hnil => hopened (List.isEmpty_iff.mpr hnil)
  · split
    next hbreak =>
      obtain rfl : c = '\n' := eq_of_beq hbreak
      refine .reading fun _ s1 h1 => ?_
      split
      next hinline =>
        refine .given fun p s2 h2 => .pure (.closes h1 (fun _ => hinline) h2 ?_ (.inr ⟨rfl, hinline⟩))
        intro hnil
        rw [inlineOpen, hnil] at hinline
        cases hinline
      · exact .pure (.text h1 (.inl rfl))
    next hbreak =>
      refine (keyword?_turn k host (fun hc => hbreak (beq_iff_eq.mpr hc)) s).bind ?_
      intro found s1 h1
      cases found with
      | some p => exact .pure h1
      | none =>
        exact .reading fun _ s2 h2 =>
          .pure (.text (Session.Steps.trans h1 h2) (.inl rfl))

end

end Tracker

namespace Stylesheet

variable (r : Stylesheet)

theorem remaining_suffix (closed : Option Closed) : r.remaining closed <:+ r.blocks := by
  unfold remaining
  split
  · exact List.drop_suffix _ _
  · exact List.suffix_rfl

section

variable (r : Stylesheet)

/-- Pieces as a string expression, as they are written when there is nothing to compute. -/
def plain (o : Output) (pieces : List Piece) : Text :=
  (Piece.join? o.dialect false pieces).getD (Text.quote [])

theorem joined_eq (pieces : List Piece) (s : Session) :
    joined pieces s = .ok (plain s.output pieces, s) :=
  rfl

theorem declarationValue_looks (value : List Piece) (span : Span) (s : Session) :
    Gives (declarationValue value span) s fun _ s' => s = s' := by
  unfold declarationValue
  split
  · refine .output ?_
    split
    · exact .fail ..
    · exact .fail ..
    · exact .pure rfl
  · exact .known (joined_eq _ s) (.pure rfl)

/-- The session when a statement has been taken: the blanks before it and its comments are written. -/
def taken (s : Session) : Session :=
  { s with output := s.output.add ((StyleStatement.split r.buffer.pieces.pieces).leading ++
    (StyleStatement.split r.buffer.pieces.pieces).comments.flatten) }

theorem takeStatement_eq (s : Session) :
    r.takeStatement s = .ok (({ r with buffer := {} },
      (StyleStatement.split r.buffer.pieces.pieces).body, r.buffer.start), r.taken s) :=
  rfl

/-- A call on the variable of a scope that is open. -/
inductive ScopeCall where
  | value (receiver key computed : Text)
  | stat (receiver statement : Text)
  | spread (receiver subject : Text)
  deriving DecidableEq, Repr

def ScopeCall.code : ScopeCall → Text
  | value receiver key computed => receiver ++ ".value(" ++ key ++ ", " ++ computed ++ ");"
  | stat receiver statement => receiver ++ ".stat(" ++ statement ++ ");"
  | spread receiver subject => receiver ++ ".spread(" ++ subject ++ ");"

def ScopeCall.receiver : ScopeCall → Text
  | value receiver _ _ | stat receiver _ | spread receiver _ => receiver

/-- What the end of a statement does: there was none, or its call is written. Then only the sheet has
changed, and whether the region folds: once it does not, it never will. -/
inductive Ends (s : Session) : Stylesheet → Session → Prop
  | blank (body : (StyleStatement.split r.buffer.pieces.pieces).body = []) :
      Ends s { r with buffer := {} } (r.taken s)
  | call {c : ScopeCall} {sheet : Style.Sheet} {folds : Bool} (receiver : c.receiver = r.current.var)
      (still : folds = true → r.folds = true) :
      Ends s { r with buffer := {}, sheet, folds }
        { r.taken s with output := (r.taken s).output.add c.code }

theorem endStatement_ends (stop : Nat) (s : Session) : Gives (r.endStatement stop) s (r.Ends s) := by
  refine .known (r.takeStatement_eq s) ?_
  dsimp only
  split
  next hbody => exact .pure (.blank (List.isEmpty_iff.mp hbody))
  split
  next subject _ => exact .emit (.pure (.call (c := .spread r.current.var subject) rfl (by rintro ⟨⟩)))
  next key value _ _ =>
    refine .known (joined_eq key _) ((declarationValue_looks value _ _).bind ?_)
    rintro ⟨computed, folded⟩ _ rfl
    have hcall := fun sheet folds => @Ends.call r s
      (.value r.current.var (plain (r.taken s).output key) computed) sheet folds rfl
    refine .emit ?_
    split
    · exact .pure (hcall _ _ (by rintro ⟨⟩))
    split
    · split <;> exact .pure (hcall _ _ id)
    · exact .pure (hcall _ _ id)
  · have hcall := fun sheet folds => @Ends.call r s (.stat r.current.var (plain (r.taken s).output
      (StyleStatement.split r.buffer.pieces.pieces).body)) sheet folds rfl
    refine .known (joined_eq _ _) (.emit ?_)
    split
    · split <;> exact .pure (hcall _ _ id)
    · exact .pure (hcall _ _ id)

/-- The code that opens a scope inside of another one. -/
def selectCode (o : Output) (var receiver selector : Text) : Text :=
  o.declare ++ ' ' :: var ++ " = " ++ receiver ++ ".select(" ++ selector ++ ");"

theorem openBlock_opens (at_ : Nat) (s : Session) :
    Gives (r.openBlock at_) s fun r' s' => ∃ selector sheet scope span,
      r' = { r with
        buffer := {}, sheet, blocks := ⟨(r.taken s).output.freshVar.2, scope⟩ :: r.blocks
        statements := r.statements.pushBlock r.blocks.length span } ∧
      s' = { r.taken s with output := (r.taken s).output.freshVar.1.add (selectCode
        (r.taken s).output (r.taken s).output.freshVar.2 r.current.var selector) } := by
  refine .known (r.takeStatement_eq s) (.output ?_)
  split
  · exact .fail ..
  · exact .known rfl (.emit (.pure ⟨_, _, _, _, rfl, rfl⟩))

/-- What a slash has been read as: text, a comment up to its end, or one up to the end of its line. -/
inductive Slashed (at_ : Nat) : Stylesheet → Session → Prop where
  | text {s : Session} : Slashed at_ { r with buffer := r.buffer.push (.text ['/']) at_ } s
  | block {s : Session} (body : Text) : Slashed at_ { r with
      buffer.pieces := .comment ("/*" ++ body ++ "*/") :: r.buffer.pieces } s
  | line {s s' : Session} {t : Text} (h : scan (Scan.findText "\n" false) s = .ok (t, s')) :
      Slashed at_ { r with buffer.pieces := .comment ('/' :: t) :: r.buffer.pieces } s'

theorem slash_slashed (at_ : Nat) (s : Session) : Gives (r.slash at_) s (r.Slashed at_) := by
  refine .after fun block s1 => ?_
  split
  · refine .after fun c s2 => ?_
    extract_lets buffer rest
    have hrest : ∀ u s3, Gives (rest u) s3 (r.Slashed at_) := fun u s3 =>
      .after fun body s4 => .pure (.block body)
    split
    · exact .after hrest
    · exact hrest () s2
  · refine .after fun c s2 => ?_
    split
    · exact .given fun t s3 h => .pure (.line h)
    · exact .pure .text

end

variable {r : Stylesheet} {c : Char} {at_ : Nat} {s : Session}

/-- What a stylesheet does with a character that statements leave alone: it is text, or a string, an
expression or a comment begins with it, or something ends. -/
inductive Turn (r : Stylesheet) (c : Char) (at_ : Nat) (s : Session) :
    Stylesheet × Step → Session → Prop
  | string {literal : Text} {s' : Session} (quote : (c == '\x22' || c == '\x27') = true)
      (read : scan Scan.skipString s = .ok (literal, s')) :
      Turn r c at_ s ({ r with buffer := r.buffer.push (.text literal) at_ }, .next) s'
  | closing {s' : Session} (tag : c = '<') (read : discard (scan Scan.read) s = .ok ((), s')) :
      Turn r c at_ s (r, .close) s'
  | text {pieces : Buffer} {s' : Session} (read : s.Steps [.read] s')
      (kept : pieces = r.buffer.pieces ∨ pieces = r.buffer.pieces.unescape) :
      Turn r c at_ s
        ({ r with buffer := StyleBuffer.push { r.buffer with pieces } (.text [c]) at_ }, .next) s'
  | expr {e : Expr} {s' : Session} (read : s.Steps [.read] s') :
      Turn r c at_ s ({ r with
        buffer := r.buffer.push (.expr e) at_, reactive := r.reactive || e.reactive
        folds := false }, .next) s'
  | comment {body : Text} {s' : Session} (read : s.Steps [.read] s') :
      Turn r c at_ s ({ r with
        buffer.pieces := .comment ("/*" ++ body ++ "*/") :: r.buffer.pieces }, .next) s'
  | line {t : Text} {s1 s' : Session} (read : s.Steps [.read] s')
      (line : scan (Scan.findText "\n" false) s1 = .ok (t, s')) :
      Turn r c at_ s ({ r with
        buffer.pieces := .comment ('/' :: t) :: r.buffer.pieces }, .next) s'
  | block {r' : Stylesheet} {s1 s' : Session} (brace : c = '\x7b') (read : s.Steps [.read] s1)
      (block : r.openBlock at_ s1 = .ok (r', s')) : Turn r c at_ s (r', .next) s'
  | ends {r' : Stylesheet} {s1 s' : Session} (semicolon : c = ';') (read : s.Steps [.read] s1)
      (ends : r.endStatement (at_ + 1) s1 = .ok (r', s')) : Turn r c at_ s (r', .next) s'

theorem character_turn (c : Char) (at_ : Nat) (s : Session) :
    Gives (r.character c at_) s (r.Turn c at_ s) := by
  unfold character
  split
  next hquote => exact .given fun literal s1 h1 => .pure (.string hquote h1)
  refine .given fun _ s2 h1 => .known rfl ?_
  have h2 : s.Steps [.read] s2 := Made.steps inferInstance h1
  split
  next hclosing => exact .pure (.closing (eq_of_beq (Bool.and_eq_true_iff.mp hclosing).1) h1)
  split
  · refine Agree.bind (P := fun r' => r.Turn c at_ s (r', .next)) ?_ fun _ _ h => .pure h
    refine .reading fun cur s3 h3 => ?_
    split
    · exact .pure (.text (h2.trans h3) (.inl rfl))
    split
    · exact .pure (.text (h2.trans h3) (.inr rfl))
    · exact .reading fun e s4 h4 => .pure (.expr ((h2.trans h3).trans h4))
  split
  next hc =>
    obtain rfl := eq_of_beq hc
    refine .given fun r' s3 h3 => .pure ?_
    have hread := h2.trans (Made.steps inferInstance h3)
    cases (r.slash_slashed at_ s2).result _ _ h3 with
    | text => exact .text hread (.inl rfl)
    | block body => exact .comment hread
    | line hline => exact .line hread hline
  split
  next hc => exact .given fun r' s3 h3 => .pure (.block (eq_of_beq hc) h2 h3)
  split
  next hc => exact .given fun r' s3 h3 => .pure (.ends (eq_of_beq hc) h2 h3)
  · exact .pure (.text h2 (.inl rfl))

/-- A stylesheet lets the tracker deal with a character. Beside that, it forgets a block that has been
closed, and it does not fold when a statement was recognized. -/
theorem trackStatement_turn (c : Char) (at_ : Nat) (s : Session) :
    Gives (r.trackStatement c at_) s fun r' s' => ∃ k b closed s1,
      r.statements.dispatch r.buffer c s = .ok ((k, b, closed), s1) ∧ s1.Steps [.read] s' ∧
        ∃ start, r' = { r with
          statements := k, buffer := { b with start }, blocks := r.remaining closed
          folds := r.folds && k.recognized == r.statements.recognized } := by
  rw [trackStatement_eq]
  refine .given fun p s1 h1 => .reading fun _ s2 h2 => .pure ⟨_, _, _, s1, h1, h2, ?_⟩
  unfold tracked
  split
  · exact ⟨_, rfl⟩
  · exact ⟨_, rfl⟩

/-- The region when text has been read up to the next character that needs a look. -/
def arrived (r : Stylesheet) (found : Found) (start : Option Nat) : Stylesheet :=
  { r with buffer := { pieces := r.buffer.pieces.pushText found.before, start } }

/-- What is done about what a step has come to: the end of the text, or a character. The tracker deals
with the character, perhaps after a brace has ended a statement, or it is left to the stylesheet. -/
inductive Deals (r : Stylesheet) (at_ : Nat) (s : Session) :
    Option Char → Stylesheet × Step → Session → Prop
  | eof : Deals r at_ s none (r, .eof) s
  | tracks {c : Char} {r' : Stylesheet} {s' : Session} (handles : r.statements.handles c = true)
      (track : r.trackStatement c at_ s = .ok (r', s')) : Deals r at_ s (some c) (r', .next) s'
  | ends {r1 r' : Stylesheet} {s1 s' : Session} (ends : r.endStatement at_ s = .ok (r1, s1))
      (track : r1.trackStatement '\x7d' at_ s1 = .ok (r', s')) :
      Deals r at_ s (some '\x7d') (r', .next) s'
  | leaves {c : Char} {p : Stylesheet × Step} {s' : Session}
      (leaves : r.statements.handles c = false) (character : r.character c at_ s = .ok (p, s')) :
      Deals r at_ s (some c) p s'

theorem step_deals (s : Session) :
    Gives r.step s fun p s' => ∃ found start s1,
      scan (Scan.find (breakpoints ++ r.statements.breakpoints) false false) s = .ok (found, s1) ∧
        (r.arrived found start).Deals s1.cursor.position s1 found.matched p s' := by
  refine .given fun found s1 h1 => .position ?_
  extract_lets text src pushed buffer r1
  obtain ⟨start, hr1⟩ : ∃ start, r1 = r.arrived found start := by
    unfold r1 buffer
    split
    · exact ⟨_, rfl⟩
    · exact ⟨_, rfl⟩
  refine Agree.mono (P := r1.Deals _ s1 found.matched) ?_ fun p s' h =>
    ⟨found, start, s1, h1, hr1 ▸ h⟩
  split
  next hnone =>
    rw [hnone]
    exact .pure .eof
  next c hc =>
    rw [hc]
    extract_lets ends rest
    split
    next hends =>
      obtain rfl : c = '\x7d' := by
        have hbrace := (Bool.and_eq_true_iff.mp (Bool.and_eq_true_iff.mp hends).1).1
        exact eq_of_beq hbrace
      exact .given fun r2 s2 h2 => .given fun r3 s3 h3 => .pure (.ends h2 h3)
    · refine .known rfl ?_
      unfold rest
      split
      next hhandles => exact .given fun r2 s2 h2 => .pure (.tracks hhandles h2)
      next hhandles => exact ⟨rfl, fun _ _ h => .leaves (Bool.eq_false_iff.mpr hhandles) h⟩

/-- A stylesheet has no child regions. -/
theorem step_childless (s : Session) : Gives r.step s fun p _ => p.2 ≠ .child := by
  refine (r.step_deals s).mono ?_
  rintro p s' ⟨found, start, s1, -, hdeals⟩
  generalize found.matched = next at hdeals
  cases hdeals with
  | eof | tracks | ends => rintro ⟨⟩
  | leaves _ h => cases (character_turn _ _ _).result _ _ h <;> rintro ⟨⟩

end Stylesheet
end Patchwork
