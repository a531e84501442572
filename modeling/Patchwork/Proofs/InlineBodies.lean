import Patchwork.Proofs.LineComments
import Patchwork.Proofs.Progress

/-!
# Bodies without braces

A branch without braces ends at the line break after its body. Between its head and its body there may
be line breaks too, so the body may be a statement that begins on a line of its own, and that one may
have no braces either. All of them end on one line then. But a line break closes the innermost branch
only, if that has no braces (`Tracker.dispatch_lineBreak`). So the others take in the lines that follow,
one for each of them (`nested_inline_body_stays_open`), and they are all closed exactly if there is no
more than one (`line_break_closes_innermost_iff`).

A closing brace closes the innermost thing too, whether a brace has opened it or not
(`Tracker.dispatch_brace`). What a brace has opened has a brace of its own in the text
(`Stretch.Braces`). So a closing brace has nothing to match exactly in a branch without braces
(`closing_brace_matches_iff`, `brace_closes_inline_body`).
-/

namespace Patchwork

open Compile TextHost

theorem Session.Steps.moved {acts : List Act} {s s' : Session} (h : s.Steps acts s') :
    s.cursor.Moved s'.cursor := by
  induction h with
  | refl => exact .refl _
  | warn _ _ ih => exact ih
  | act _ _ hdoes ih =>
    cases hdoes with
    | read hahead => exact ih.trans hahead.moved
    | text | scope | freshVar | freshId | slot | edit | mark | cut => exact ih

theorem Agree.moving {α : Type} (acts : List Act) (x : Compile α) [hx : Made acts x] (s : Session) :
    Gives x s fun _ s' => s.cursor.Moved s'.cursor :=
  ⟨rfl, fun _ _ h => (hx.steps h).moved⟩

theorem Compile.read_lt {s : Session} {c : Char} (hnext : s.cursor.peek? = some c) :
    Gives (discard (scan Scan.read)) s fun _ s' => s.cursor.position < s'.cursor.position := by
  refine Agree.discard (.scan (R := fun _ c => s.cursor.position < c.position) ?_)
  rintro _ _ ⟨⟩
  obtain ⟨back, hback⟩ := List.head?_eq_some_iff.mp hnext
  rw [Cursor.position_advance, hback]
  exact Nat.lt_add_of_pos_right c.utf8Size_pos

/-- What is said to be closed when something that is open ends. -/
def Open.closes : Open → Closed
  | statement _ => .statement
  | block id _ => .block id

namespace Tracker

variable {k : Tracker}

/-- What is open apart from the branch that a line break ends. -/
def around (k : Tracker) : List Open :=
  if k.inlineOpen then k.opened.tail else k.opened

theorem opened_of_inlineOpen (h : k.inlineOpen = true) :
    ∃ st, k.opened = .statement st :: k.around ∧ st.last.inline = true := by
  rw [around, if_pos h]
  unfold inlineOpen at h
  split at h
  next st below hopened =>
    rw [hopened]
    exact ⟨st, rfl, h⟩
  · cases h

theorem braced_eq {o : Open} {below : List Open} (hopened : k.opened = o :: below) :
    o.braced = !k.inlineOpen := by
  rw [inlineOpen, hopened]
  cases o with
  | statement | block => rfl

theorem mem_opened_of_mem_around {o : Open} (h : o ∈ k.around) : o ∈ k.opened := by
  unfold around at h
  split at h
  · exact List.mem_of_mem_tail h
  · exact h

variable {H : Type} [TextHost H] [Lawful H]

/-- The innermost thing is closed. Then what was open around it is open, or before that the next branch
of the statement. -/
theorem close_innermost {o : Open} {below : List Open} (hopened : k.opened = o :: below) (host : H)
    (atLineBreak : Bool) (s : Session) :
    Gives (k.close host atLineBreak) s fun r _ => r.2.2 = o.closes ∧ (r.1.opened = below ∨
      ∃ st st' close, o = .statement st ∧ r.1.opened = .statement st' :: below ∧
        st'.earlier = (st.closeLast close).parts ∧ s.cursor.position ≤ st'.last.span.start) := by
  refine (Agree.moving [.text] (boundary host) s).bind fun host' s1 h1 => ?_
  rw [hopened]
  cases o with
  | block => exact .pure ⟨rfl, .inl rfl⟩
  | statement st =>
    have hclose : Gives (closePart st) s1 fun st1 s2 =>
        s1.cursor.Moved s2.cursor ∧ ∃ close, st1 = st.closeLast close :=
      (Agree.moving [.slot, .edit] _ s1).and
        (.after fun _ s2 => .after fun close s3 => .pure ⟨close, rfl⟩)
    refine hclose.bind ?_
    rintro _ s2 ⟨h2, close, rfl⟩
    refine (Agree.moving [] cursor s2).bind fun c s3 h3 => ?_
    dsimp only
    split
    next keyword _ =>
      refine (Agree.moving [.read] _ s3).bind fun blanks s4 h4 => ?_
      refine (openPart_opens _ _ _ _ s4).bind ?_
      rintro r s5 ⟨st', s6, hr, hboundary, hearlier, hstart⟩
      have h6 := (Agree.moving [.text] _ s4).result _ _ hboundary
      have hbefore := (h1.trans (h2.trans (h3.trans (h4.trans h6)))).position_le
      refine .pure ⟨rfl, .inr ⟨st, st', close, rfl, congrArg opened hr, hearlier, ?_⟩⟩
      exact hstart ▸ hbefore
    · exact .pure ⟨rfl, .inl rfl⟩

/-- What a line break closes. A branch that goes on with `else` begins behind it. -/
theorem dispatch_lineBreak (k : Tracker) (host : H) {s : Session}
    (hnext : s.cursor.peek? = some '\n') :
    Gives (k.dispatch host '\n') s fun r _ => r.1.opened = k.around ∨
      ∃ st st' close, k.opened = .statement st :: k.around ∧ st.last.inline = true ∧
        r.1.opened = .statement st' :: k.around ∧ st'.earlier = (st.closeLast close).parts ∧
        s.cursor.position < st'.last.span.start := by
  unfold dispatch
  refine (Compile.read_lt hnext).bind fun _ s1 h1 => ?_
  split
  next hinline =>
    obtain ⟨st, hopened, hst⟩ := opened_of_inlineOpen hinline
    refine (close_innermost hopened host true s1).bind fun r s2 hr => .pure ?_
    rcases hr.2 with hends | ⟨_, st', close, ⟨⟩, hopens, hearlier, hafter⟩
    · exact .inl hends
    · exact .inr ⟨st, st', close, hopened, hst, hopens, hearlier, Nat.lt_of_lt_of_le h1 hafter⟩
  next hinline =>
    refine .pure (.inl ?_)
    rw [around, if_neg hinline]

/-- What a brace does. After a backslash and where nothing is open it is text. -/
theorem dispatch_brace [Placed H] (k : Tracker) (host : H) {s : Session}
    (hnext : s.cursor.peek? = some '\x7d') :
    Gives (k.dispatch host '\x7d') s fun r _ =>
      (escaped host = true ∨ k.opened = [] →
        r.1 = k ∧ (buffer r.2.1).endsWith '\x7d' = true) ∧
      ∀ o below, escaped host = false → k.opened = o :: below → r.1.opened = below ∨
        ∃ st st' close, o = .statement st ∧ r.1.opened = .statement st' :: below ∧
          st'.earlier = (st.closeLast close).parts ∧ s.cursor.position < st'.last.span.start := by
  unfold dispatch
  refine (Compile.read_lt hnext).bind fun _ s1 h1 => ?_
  have htext : ∀ b : Buffer,
      (buffer (setBuffer host (b.pushText ['\x7d']))).endsWith '\x7d' = true := by
    intro b
    rw [Placed.buffer_setBuffer, Buffer.endsWith_pushText (List.cons_ne_nil _ _)]
    rfl
  split
  next hescaped =>
    refine .pure ⟨fun _ => ⟨rfl, htext _⟩, fun o below hnot => ?_⟩
    exact absurd (hescaped.symm.trans hnot) (by decide)
  next hescaped =>
    cases hopened : k.opened with
    | nil => exact .pure ⟨fun _ => ⟨rfl, htext _⟩, fun o below _ hopen => by cases hopen⟩
    | cons o below =>
      refine (close_innermost hopened host false s1).bind fun r s2 hr => .pure ⟨?_, ?_⟩
      · rintro (hescapes | hnone)
        · exact absurd hescapes hescaped
        · cases hnone
      · rintro _ _ - ⟨⟩
        rcases hr.2 with hends | ⟨st, st', close, ho, hopens, hearlier, hafter⟩
        · exact .inl hends
        · exact .inr ⟨st, st', close, ho, hopens, hearlier, Nat.lt_of_lt_of_le h1 hafter⟩

end Tracker

theorem Region.Noted.fit {b : Bounds} {r : Stretch b} {p : Nat} {region : Region} {k : Tracker}
    (h : region.Noted r p) (hk : region.tracker? = some k) : k.Fit r p := by
  cases region with
  | markup m => exact h k hk
  | stylesheet sheet =>
    cases hk
    exact h.2
  | code | script | comment => cases hk

namespace Document

variable {registry : Registry} {settings : Settings} {source : Text} {n : Nat} {frame : Frame}
  {outer : List Frame} {s : Session} {k : Tracker}

variable (registry settings source n) in
/-- A run comes to a state with one region, whose tracker passes a test. -/
theorem exists_tracker {P : Tracker → Session → Bool}
    (h : ((stateAfter registry settings source n).any fun state => decide (state.1.length = 1) &&
      state.1.head?.any fun frame => frame.region.tracker?.any (P · state.2)) = true) :
    ∃ frame s k, stateAfter registry settings source n = some ([frame], s) ∧
      frame.region.tracker? = some k ∧ P k s = true := by
  obtain ⟨⟨frames, s⟩, hn, h⟩ := (Option.any_eq_true _ _).mp h
  obtain ⟨hlength, h⟩ := Bool.and_eq_true_iff.mp h
  obtain ⟨frame, rfl⟩ := List.length_eq_one_iff.mp (of_decide_eq_true hlength)
  obtain ⟨k, hk, h⟩ := (Option.any_eq_true _ frame.region.tracker?).mp h
  exact ⟨frame, s, k, hn, hk, h⟩

/-- The branches that are open have begun before the cursor. -/
theorem start_le_position (hn : stateAfter registry settings source n = some (frame :: outer, s))
    (hk : frame.region.tracker? = some k) {st : Statement} (hst : .statement st ∈ k.opened) :
    st.last.span.start ≤ s.cursor.position := by
  have hwaiting : st.waiting ∈ frame.region.waiting := by
    unfold Region.waiting
    rw [hk]
    exact List.mem_map_of_mem (List.mem_filterMap.mpr ⟨_, List.mem_reverse.mpr hst, rfl⟩)
  cases (sound_stateAfter hn).stacked with
  | cons _ _ _ inOrder => exact inOrder.behind _ hwaiting

variable {H : Type} [TextHost H] [TextHost.Lawful H] {host host' : H} {k' : Tracker}
  {closed : Option Closed} {s1 s2 : Session}

/-- In every state of a run, a line break at or behind the cursor that the tracker of a region deals
with closes the innermost branch if that has no braces, and nothing else. What is open around it stays
open; if the text goes on with `else`, the next branch of the statement begins behind the line break. So
no branch without braces that had begun before the line break is still open exactly if there was none
apart from the innermost. -/
theorem line_break_closes_innermost_iff
    (hn : stateAfter registry settings source n = some (frame :: outer, s))
    (hk : frame.region.tracker? = some k) (hmoved : s.cursor.Moved s1.cursor)
    (hnext : s1.cursor.peek? = some '\n')
    (hdispatch : k.dispatch host '\n' s1 = .ok ((k', host', closed), s2)) :
    (k'.opened = k.around ∨
      ∃ st st' close, k.opened = .statement st :: k.around ∧ st.last.inline = true ∧
        k'.opened = .statement st' :: k.around ∧ st'.earlier = (st.closeLast close).parts ∧
        s1.cursor.position < st'.last.span.start) ∧
    ((∀ st, .statement st ∈ k'.opened → st.last.inline = true →
        s1.cursor.position < st.last.span.start) ↔
      ∀ st, .statement st ∈ k.around → st.last.inline = false) := by
  have hclosed := (k.dispatch_lineBreak host hnext).result _ _ hdispatch
  refine ⟨hclosed, ?_⟩
  -- what is open around the innermost branch had begun before the line break, and is still open
  have haround : ∀ st, .statement st ∈ k.around →
      .statement st ∈ k'.opened ∧ ¬s1.cursor.position < st.last.span.start := by
    intro st hst
    have hstart := start_le_position hn hk (Tracker.mem_opened_of_mem_around hst)
    have hle := hmoved.position_le
    refine ⟨?_, by omega⟩
    rcases hclosed with hends | ⟨_, _, _, _, _, hopens, _⟩
    · exact hends ▸ hst
    · exact hopens ▸ List.mem_cons_of_mem _ hst
  constructor
  · intro hbegun st hst
    obtain ⟨hopen, hbefore⟩ := haround st hst
    cases hinline : st.last.inline with
    | false => rfl
    | true => exact absurd (hbegun st hopen hinline) hbefore
  · intro hbraced st hst hinline
    have hnot : .statement st ∉ k.around := by
      intro hmem
      rw [hbraced st hmem] at hinline
      cases hinline
    rcases hclosed with hends | ⟨_, st', _, _, _, hopens, _, hafter⟩
    · exact absurd (hends ▸ hst) hnot
    · rw [hopens] at hst
      rcases List.mem_cons.mp hst with hnew | hold
      · cases hnew
        exact hafter
      · exact absurd hold hnot

/-- One branch without braces that ends before the `else` of the next. -/
theorem line_break_closes_innermost_iff_else :
    ∃ frame s k k' host' closed s2,
      stateAfter .standard { rootMode := "html", attributes := { logic := true } }
        "if (a)\nx\nelse\ny\n" 1 = some ([frame], s) ∧
      frame.region.tracker? = some k ∧ k.opened.length = 1 ∧
      s.cursor.Moved (s.cursor.advance 1) ∧ (s.cursor.advance 1).peek? = some '\n' ∧
      k.dispatch ({ trimmed := true, decode := true } : Chain) '\n'
        { s with cursor := s.cursor.advance 1 } = .ok ((k', host', closed), s2) ∧
      k'.opened.length = 1 ∧ ∀ st, .statement st ∈ k'.opened → st.last.inline = true →
        (s.cursor.advance 1).position < st.last.span.start := by
  have hrun := exists_tracker .standard
    { rootMode := "html", attributes := { logic := true } } "if (a)\nx\nelse\ny\n" 1
    (P := fun k s => decide (k.opened.length = 1 ∧ k.inlineOpen = true ∧
        (s.cursor.advance 1).peek? = some '\n') &&
      (k.dispatch ({ trimmed := true, decode := true } : Chain) '\n'
        { s with cursor := s.cursor.advance 1 }).toOption.any fun r =>
          decide (r.1.1.opened.length = 1)) (by decide +kernel)
  obtain ⟨frame, s, k, hn, hk, hrun⟩ := hrun
  obtain ⟨hfacts, hrun⟩ := Bool.and_eq_true_iff.mp hrun
  obtain ⟨hone, hinline, hnext⟩ := of_decide_eq_true hfacts
  obtain ⟨⟨⟨k', host', closed⟩, s2⟩, hdispatch, hgoesOn⟩ := exists_ok_of_any hrun
  have hmoved := Cursor.Moved.advance s.cursor 1
  refine ⟨frame, s, k, k', host', closed, s2, hn, hk, hone, hmoved, hnext, hdispatch,
    of_decide_eq_true hgoesOn, ?_⟩
  refine (line_break_closes_innermost_iff hn hk hmoved hnext hdispatch).2.mpr fun st hst => ?_
  obtain ⟨_, hopened, -⟩ := Tracker.opened_of_inlineOpen hinline
  rw [hopened] at hone
  rw [List.length_eq_zero_iff.mp (Nat.succ.inj hone)] at hst
  exact absurd hst List.not_mem_nil

/-- Two branches without braces that end on one line: after the line break the outer one is still
open, and it takes in the next line. -/
theorem nested_inline_body_stays_open :
    ∃ frame s k st,
      stateAfter .standard { rootMode := "html", attributes := { logic := true } }
        "if (a)\nif (b)\nx\ny\n" 3 = some ([frame], s) ∧
      frame.region.tracker? = some k ∧ s.cursor.rest = ("y\n" : Text) ∧
      k.opened = [.statement st] ∧ st.last.inline = true ∧ st.last.span.start = 0 := by
  obtain ⟨frame, s, k, hn, hk, hrun⟩ := exists_tracker .standard
    { rootMode := "html", attributes := { logic := true } } "if (a)\nif (b)\nx\ny\n" 3
    (P := fun k s => decide (s.cursor.rest = ("y\n" : Text) ∧ k.opened.length = 1) &&
      k.opened.head?.any fun o => o.statement?.any fun st =>
        decide (st.last.inline = true ∧ st.last.span.start = 0)) (by decide +kernel)
  obtain ⟨hfacts, hrun⟩ := Bool.and_eq_true_iff.mp hrun
  obtain ⟨hrest, hone⟩ := of_decide_eq_true hfacts
  obtain ⟨o, ho⟩ := List.length_eq_one_iff.mp hone
  rw [ho] at hrun
  cases o with
  | block => cases hrun
  | statement st =>
    obtain ⟨hinline, hstart⟩ := of_decide_eq_true hrun
    exact ⟨frame, s, k, st, hn, hk, hrest, ho, hinline, hstart⟩

/-- In every state of a run, what has been opened with a brace has a brace of its own, and these stand
in the order in which they opened something. A closing brace at or behind the cursor that the tracker of
a region deals with is text after a backslash and where nothing is open. Any other closes the innermost
thing; if the text goes on with `else`, the next branch of the statement begins behind it. So a closing
brace is text or closes what a brace has opened exactly if it does not end a branch without braces. -/
theorem closing_brace_matches_iff [TextHost.Placed H]
    (hn : stateAfter registry settings source n = some (frame :: outer, s))
    (hk : frame.region.tracker? = some k) (hmoved : s.cursor.Moved s1.cursor)
    (hnext : s1.cursor.peek? = some '\x7d')
    (hdispatch : k.dispatch host '\x7d' s1 = .ok ((k', host', closed), s2)) :
    (stretch settings source).Braces k.opened s1.cursor.position ∧
    ((escaped host = true ∨ k.opened = [] → k' = k ∧ (buffer host').endsWith '\x7d' = true) ∧
      ∀ o below, escaped host = false → k.opened = o :: below → k'.opened = below ∨
        ∃ st st' close, o = .statement st ∧ k'.opened = .statement st' :: below ∧
          st'.earlier = (st.closeLast close).parts ∧ s1.cursor.position < st'.last.span.start) ∧
    ((k' = k ∨ k.opened.head?.any Open.braced = true) ↔
      (escaped host = false → k.inlineOpen = false)) := by
  have hbraces := ((framed_stateAfter hn).2.1.noted.fit hk).braces.mono hmoved.position_le
  have hdoes := (k.dispatch_brace host hnext).result _ _ hdispatch
  refine ⟨hbraces, hdoes, ?_⟩
  obtain ⟨htext, hcloses⟩ := hdoes
  cases hopened : k.opened with
  | nil =>
    refine iff_of_true (.inl (htext (.inr hopened)).1) fun _ => ?_
    rw [Tracker.inlineOpen, hopened]
  | cons o below =>
    rw [List.head?_cons, Option.any_some, Tracker.braced_eq hopened, Bool.not_eq_true']
    cases hescaped : escaped host with
    | true => exact iff_of_true (.inl (htext (.inl hescaped)).1) (by rintro ⟨⟩)
    | false =>
      -- something is closed, and a branch that is open in its place has begun behind it
      have hne : k' ≠ k := by
        rintro rfl
        rcases hcloses o below hescaped hopened with hends | ⟨_, st', _, -, hopens, -, hafter⟩
        · exact List.cons_ne_self _ _ (hopened.symm.trans hends)
        · have hstart := start_le_position hn hk (hopens ▸ List.mem_cons_self)
          have hle := hmoved.position_le
          omega
      exact ⟨fun h _ => h.resolve_left hne, fun h => .inr (h rfl)⟩

theorem closing_brace_matches_iff_braced :
    ∃ frame s k k' host' closed s2,
      stateAfter .standard { rootMode := "html", attributes := { logic := true } }
        "if (a) \x7bx\x7d" 1 = some ([frame], s) ∧
      frame.region.tracker? = some k ∧ s.cursor.Moved (s.cursor.advance 1) ∧
      (s.cursor.advance 1).peek? = some '\x7d' ∧
      k.dispatch ({ trimmed := true, decode := true } : Chain) '\x7d'
        { s with cursor := s.cursor.advance 1 } = .ok ((k', host', closed), s2) ∧
      (stretch { rootMode := "html", attributes := { logic := true } } "if (a) \x7bx\x7d").Braces
        k.opened (s.cursor.advance 1).position ∧
      k' ≠ k ∧ k.opened.head?.any Open.braced = true := by
  have hrun := exists_tracker .standard
    { rootMode := "html", attributes := { logic := true } } "if (a) \x7bx\x7d" 1
    (P := fun k s => decide (k.inlineOpen = false ∧ (s.cursor.advance 1).peek? = some '\x7d') &&
      (k.dispatch ({ trimmed := true, decode := true } : Chain) '\x7d'
        { s with cursor := s.cursor.advance 1 }).toOption.any fun r => decide (r.1.1 ≠ k))
    (by decide +kernel)
  obtain ⟨frame, s, k, hn, hk, hrun⟩ := hrun
  obtain ⟨hfacts, hrun⟩ := Bool.and_eq_true_iff.mp hrun
  obtain ⟨hbraced, hnext⟩ := of_decide_eq_true hfacts
  obtain ⟨⟨⟨k', host', closed⟩, s2⟩, hdispatch, hother⟩ := exists_ok_of_any hrun
  have hother := of_decide_eq_true hother
  have hmoved := Cursor.Moved.advance s.cursor 1
  obtain ⟨hbraces, -, hmatches⟩ := closing_brace_matches_iff hn hk hmoved hnext hdispatch
  exact ⟨frame, s, k, k', host', closed, s2, hn, hk, hmoved, hnext, hdispatch, hbraces, hother,
    (hmatches.mpr fun _ => hbraced).resolve_left hother⟩

/-- A brace at the end of a branch without braces closes the branch, though there is no other one in the
text. -/
theorem brace_closes_inline_body :
    ∃ frame s k frame' s' k',
      stateAfter .standard { rootMode := "html", attributes := { logic := true } }
        "if (a) x \x7d" 1 = some ([frame], s) ∧
      frame.region.tracker? = some k ∧ k.opened.length = 1 ∧ s.cursor.rest = ("x \x7d" : Text) ∧
      stateAfter .standard { rootMode := "html", attributes := { logic := true } }
        "if (a) x \x7d" 2 = some ([frame'], s') ∧
      frame'.region.tracker? = some k' ∧ k'.opened = [] ∧ s'.cursor.rest = [] := by
  obtain ⟨frame, s, k, hn, hk, hopen⟩ := exists_tracker .standard
    { rootMode := "html", attributes := { logic := true } } "if (a) x \x7d" 1
    (P := fun k s => decide (k.opened.length = 1 ∧ s.cursor.rest = ("x \x7d" : Text)))
    (by decide +kernel)
  obtain ⟨frame', s', k', hn', hk', hclosed⟩ := exists_tracker .standard
    { rootMode := "html", attributes := { logic := true } } "if (a) x \x7d" 2
    (P := fun k s => decide (k.opened = [] ∧ s.cursor.rest = [])) (by decide +kernel)
  obtain ⟨hone, hrest⟩ := of_decide_eq_true hopen
  obtain ⟨hnone, hend⟩ := of_decide_eq_true hclosed
  exact ⟨frame, s, k, frame', s', k', hn, hk, hone, hrest, hn', hk', hnone, hend⟩

end Document
end Patchwork
