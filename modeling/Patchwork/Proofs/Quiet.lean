import Patchwork.Proofs.Resuming

/-!
# Text without statements

A line begins a statement if it begins with a keyword, after blanks and perhaps a backslash
(`Tracker.begins`). Where no line does that and no backslash stands before a closing brace, a tracker
never finds anything: it stops at letters and braces that mean nothing to it, hands each of them on as
text, and stays idle (`Tracker.dispatch_unmoved`). A region with an idle tracker is therefore read like
the region without it, in more and smaller steps (`Markup.step_idle`).
-/

namespace Patchwork

open Compile List Text Bool Scan

/-! ## Computations in tandem -/

/-- Two ends of computations: in the same session with results that `Q` relates, or with the same
halt. -/
inductive Meet {α β : Type} (Q : α → β → Session → Prop) :
    Except Halt (α × Session) → Except Halt (β × Session) → Prop where
  | ok {a : α} {b : β} {s : Session} (h : Q a b s) : Meet Q (.ok (a, s)) (.ok (b, s))
  | error (h : Halt) : Meet Q (.error h) (.error h)

/-- From a session, two computations come to the same session with related results, or to the same
halt. -/
def Tandem {α β : Type} (x : Compile α) (y : Compile β) (s : Session)
    (Q : α → β → Session → Prop) : Prop :=
  Meet Q (x s) (y s)

namespace Tandem

variable {α β γ δ : Type} {x : Compile α} {y : Compile β} {f : α → Compile γ} {g : β → Compile δ}
  {s : Session} {P : α → β → Session → Prop} {Q : γ → δ → Session → Prop}

theorem pure {a : α} {b : β} (h : P a b s) : Tandem (Pure.pure a) (Pure.pure b) s P := .ok h

theorem fail (cause : Cause) (start stop : Nat) :
    Tandem (Compile.fail cause start stop) (Compile.fail cause start stop) s P :=
  .error _

theorem bind (hx : Tandem x y s P) (hf : ∀ a b s1, P a b s1 → Tandem (f a) (g b) s1 Q) :
    Tandem (x >>= f) (y >>= g) s Q := by
  unfold Tandem at hx ⊢
  rw [bind_apply, bind_apply]
  generalize x s = end1, y s = end2 at hx
  cases hx with
  | ok h => exact hf _ _ _ h
  | error h => exact .error h

/-- What both do is the same. -/
theorem refl {R : α → α → Session → Prop} (hx : ∀ a s1, x s = .ok (a, s1) → R a a s1) :
    Tandem x x s R := by
  unfold Tandem
  cases h : x s with
  | error halt => exact .error halt
  | ok p => exact .ok (hx p.1 p.2 h)

/-- Both begin in the same way. -/
theorem after {f : α → Compile γ} {g : α → Compile δ}
    (hf : ∀ a s1, x s = .ok (a, s1) → Tandem (f a) (g a) s1 Q) :
    Tandem (x >>= f) (x >>= g) s Q := by
  refine (refl (R := fun a b s1 => a = b ∧ x s = .ok (a, s1)) fun a s1 h => ⟨rfl, h⟩).bind ?_
  rintro a _ s1 ⟨rfl, h⟩
  exact hf a s1 h

theorem mono {P' : α → β → Session → Prop} (hx : Tandem x y s P)
    (hP : ∀ a b s1, P a b s1 → P' a b s1) : Tandem x y s P' := by
  unfold Tandem at hx ⊢
  generalize x s = end1, y s = end2 at hx
  cases hx with
  | ok h => exact .ok (hP _ _ _ h)
  | error h => exact .error h

end Tandem

/-! ## Lines -/

namespace Text

theorem lastLine_eq (t : Text) : lastLine t = t ∨ ∃ front, t = front ++ '\n' :: lastLine t := by
  have hsplit : t.reverse = t.reverse.takeWhile (· != '\n') ++ t.reverse.dropWhile (· != '\n') :=
    takeWhile_append_dropWhile.symm
  cases hdrop : t.reverse.dropWhile (· != '\n') with
  | nil =>
    rw [hdrop, append_nil] at hsplit
    refine .inl ?_
    rw [lastLine, ← hsplit, reverse_reverse]
  | cons c back =>
    have hc : c = '\n' := by
      have hhead := head?_dropWhile_not (· != '\n') t.reverse
      rw [hdrop] at hhead
      simpa using hhead
    refine .inr ⟨back.reverse, ?_⟩
    rw [hdrop, hc] at hsplit
    calc t = t.reverse.reverse := t.reverse_reverse.symm
      _ = (t.reverse.takeWhile (· != '\n') ++ '\n' :: back).reverse := congrArg _ hsplit
      _ = _ := by
        rw [reverse_append, reverse_cons, append_assoc]
        rfl

theorem trimStart_append {blank : Text} (h : allBlank blank = true) (t : Text) :
    trimStart (blank ++ t) = trimStart t :=
  dropWhile_append_of_pos fun c hc => all_eq_true.mp h c hc

theorem trimStart_cons {c : Char} (h : isBlank c = false) (t : Text) :
    trimStart (c :: t) = c :: t :=
  dropWhile_cons_of_neg (by rw [h]; exact Bool.false_ne_true)

end Text

namespace Tracker

/-- Does a line begin a statement: with a keyword, after blanks and perhaps a backslash? -/
def begins (line : Text) : Bool :=
  let word := trimStart line
  let word := (Text.after? "\\" word).getD word
  keywords.any fun k => startsWithWord k.1 word

theorem keywords_head : ∀ k ∈ keywords,
    (k.1.head?.any fun c => !Text.isBlank c && c != '\\') = true := by
  decide

variable {k : Text × Form} {blank t : Text}

theorem begins_of_word (hk : k ∈ keywords) (ht : startsWithWord k.1 t = true)
    (hblank : allBlank blank = true) : begins (blank ++ t) = true := by
  obtain ⟨c, hc, hletter⟩ := (Option.any_eq_true _ _).mp (keywords_head k hk)
  obtain ⟨hletter, hslash⟩ := and_eq_true_iff.mp hletter
  obtain ⟨u, rfl⟩ := List.isPrefixOf_iff_prefix.mp (and_eq_true_iff.mp ht).1
  obtain ⟨w, hw⟩ := head?_eq_some_iff.mp hc
  have hescaped : Text.after? "\\" (c :: (w ++ u)) = none := by
    refine if_neg fun h => bne_iff_ne.mp hslash ?_
    exact (cons_prefix_cons.mp (List.isPrefixOf_iff_prefix.mp h)).1.symm
  have hword : trimStart (blank ++ (k.1 ++ u)) = k.1 ++ u := by
    rw [trimStart_append hblank, hw]
    exact trimStart_cons (by rwa [not_eq_true'] at hletter) _
  unfold begins
  dsimp only
  rw [hword, hw, cons_append, hescaped, ← cons_append, ← hw]
  exact any_eq_true.mpr ⟨k, hk, ht⟩

theorem begins_of_escaped (hk : k ∈ keywords) (ht : startsWithWord k.1 t = true)
    (hblank : allBlank blank = true) : begins (blank ++ '\\' :: t) = true := by
  have hword : (Text.after? "\\" ('\\' :: t)).getD ('\\' :: t) = t := rfl
  unfold begins
  dsimp only
  rw [trimStart_append hblank]
  exact any_eq_true.mpr ⟨k, hk, ht⟩

/-- A text in which no line begins a statement but perhaps the first, and no closing brace is
escaped. -/
structure Quiet (source : Text) : Prop where
  lines : ∀ line, '\n' :: line <:+ source → begins line = false
  braces : ¬['\\', '}'] <:+: source

def QuietAt (source : Text) (place : Nat) : Prop :=
  ∃ front back, source = front ++ back ∧ place = bytes front ∧ begins back = false

theorem Quiet.begins_lastLine {front middle back : Text} (h : Quiet (front ++ (middle ++ back)))
    (hstart : begins (middle ++ back) = false) :
    begins (lastLine middle ++ back) = false := by
  rcases lastLine_eq middle with hall | ⟨first, hbreak⟩
  · rwa [hall]
  · refine h.lines _ ⟨front ++ first, ?_⟩
    conv_rhs => rw [hbreak]
    rw [append_assoc, append_assoc]
    rfl

/-- Where there are only blanks before a place on its line, no statement begins. -/
theorem atLineStart_quiet {k : Tracker} {c : Cursor} {front back : Text} (hbase : c.base = 0)
    (hinput : c.input = front ++ back) (hquiet : Quiet (front ++ back))
    (hstart : QuietAt (front ++ back) k.regionStart) (hle : k.regionStart ≤ bytes front) :
    ∃ line, k.atLineStart (bytes front) c = .ok (allBlank line) c ∧
      begins (line ++ back) = false := by
  obtain ⟨front0, back0, hsource, hplace, hbegins⟩ := hstart
  -- the region begins before the place
  obtain ⟨middle, rfl, rfl⟩ := exists_append_of_bytes_le hsource.symm (hplace ▸ hle)
  rw [append_assoc] at hquiet
  refine ⟨lastLine middle, ?_, hquiet.begins_lastLine hbegins⟩
  have hslice : c.slice? (min k.regionStart (bytes (front0 ++ middle)))
      (bytes (front0 ++ middle)) = some middle := by
    rw [Nat.min_eq_left hle, Cursor.slice?, hbase, hinput, hplace]
    exact slice?_append front0 middle back
  unfold atLineStart
  rw [get_bind, hslice]
  rfl

/-- Nothing is open, and nothing has been closed. -/
structure Idle (k : Tracker) : Prop where
  opened : k.opened = []
  closed : k.closed = []

theorem Idle.breakpoints {k : Tracker} (h : k.Idle) : k.breakpoints = keywordInitials ++ ['}'] := by
  unfold Tracker.breakpoints inlineOpen
  rw [h.opened]
  rfl

variable {H : Type} [TextHost H] {host : H} {s : Session} {k : Tracker} {source : Text}
  {buffer : Buffer} {c c' : Cursor}

/-- A tracker that has nothing to find: its region has begun at the cursor or before it, in a quiet
text. What is buffered has been read since then, so a backslash at its end stands before the cursor. -/
structure Unmoved (source : Text) (k : Tracker) (buffer : Buffer) (c : Cursor) : Prop where
  base : c.base = 0
  input : c.input = source
  quiet : Quiet source
  start : QuietAt source k.regionStart
  begun : k.regionStart ≤ c.position
  since : buffer = [] ∨ k.regionStart < c.position
  escapes : buffer.Escapes c

namespace Unmoved

theorem text_eq (h : k.Unmoved source buffer c) : source = c.past.reverse ++ c.rest := h.input.symm

theorem position_eq (h : k.Unmoved source buffer c) : c.position = bytes c.past.reverse := by
  rw [Cursor.position, h.base, Nat.zero_add, bytes_reverse]

/-- Text is added that has just been read. -/
theorem pushText (h : k.Unmoved source buffer c) (hmoved : c.Moved c') {t : Text}
    (hrest : c.rest = t ++ c'.rest) : k.Unmoved source (buffer.pushText t) c' where
  base := by
    obtain ⟨-, -, -, hbase⟩ := hmoved.exists_read
    rw [hbase, h.base]
  input := hmoved.input_eq.trans h.input
  quiet := h.quiet
  start := h.start
  begun := Nat.le_trans h.begun hmoved.position_le
  since := by
    have hbegun := h.begun
    rw [hmoved.position_eq hrest]
    cases t with
    | nil => exact h.since
    | cons d t =>
      have hsize := d.utf8Size_pos
      rw [bytes]
      omega
  escapes := h.escapes.pushText (hmoved.past_eq hrest)

theorem not_atLineStart (h : k.Unmoved source buffer s.cursor) {front back : Text}
    (hsource : source = front ++ back) (hle : k.regionStart ≤ bytes front)
    (hback : ∀ blank, allBlank blank = true → begins (blank ++ back) = true) :
    scan (k.atLineStart (bytes front)) s = .ok (false, s) := by
  obtain ⟨line, hline, hbegins⟩ := atLineStart_quiet h.base (h.input.trans hsource)
    (hsource ▸ h.quiet) (hsource ▸ h.start) hle
  have hblank : allBlank line = false := by
    rw [← not_eq_true]
    intro hblank
    rw [hback line hblank] at hbegins
    cases hbegins
  rw [hblank] at hline
  exact scan_eq_ok.mpr ⟨s.cursor, hline, rfl⟩

end Unmoved

theorem keyword?_unmoved (h : k.Unmoved source (TextHost.buffer host) s.cursor) :
    k.keyword? host s = .ok (none, s) := by
  have hcursor : cursor s = .ok (s.cursor, s) := rfl
  refine bind_of_ok hcursor ?_
  generalize hfind : keywords.find? (fun x => startsWithWord x.1 s.cursor.rest) = found
  cases found with
  | none => rfl
  | some p =>
    have hmem := mem_of_find?_eq_some hfind
    have hword := find?_some hfind
    have hhere : scan (k.atLineStart s.cursor.position) s = .ok (false, s) := by
      have hbegun := h.begun
      rw [h.position_eq] at hbegun ⊢
      exact h.not_atLineStart h.text_eq hbegun fun blank hblank => begins_of_word hmem hword hblank
    split
    next hescaped =>
      have hkept : scan (k.atLineStart (s.cursor.position - 1)) s = .ok (false, s) := by
        have hends := (and_eq_true_iff.mp hescaped).2
        obtain ⟨past, hpast⟩ := head?_eq_some_iff.mp (h.escapes hends)
        have hposition : s.cursor.position = bytes past.reverse + 1 := by
          rw [h.position_eq, hpast, reverse_cons, bytes_append]
          rfl
        have hbegun : k.regionStart ≤ bytes past.reverse := by
          rcases h.since with hempty | hlt
          · rw [TextHost.escaped, hempty] at hends
            cases hends
          · omega
        rw [hposition]
        have hsource : source = past.reverse ++ '\\' :: s.cursor.rest := by
          rw [h.text_eq, hpast, reverse_cons, append_assoc]
          rfl
        exact h.not_atLineStart hsource hbegun fun blank hblank =>
          begins_of_escaped hmem hword hblank
      refine bind_of_ok hkept ?_
      exact bind_of_ok hhere rfl
    · refine bind_of_ok rfl ?_
      exact bind_of_ok hhere rfl

theorem dispatch_unmoved (hk : k.Idle) (h : k.Unmoved source (TextHost.buffer host) s.cursor) {d : Char}
    (hd : k.handles d = true) (hnext : s.cursor.peek? = some d) :
    ∃ closed, k.dispatch host d s =
      .ok ((k, TextHost.pushText host [d], closed), { s with cursor := s.cursor.advance 1 }) := by
  have hread : (discard (scan Scan.read)) s = .ok ((), { s with cursor := s.cursor.advance 1 }) := rfl
  unfold dispatch
  split
  next hbrace =>
    obtain rfl : d = '}' := eq_of_beq hbrace
    have hescaped : TextHost.escaped host = false := by
      rw [← not_eq_true]
      intro hends
      obtain ⟨past, hpast⟩ := head?_eq_some_iff.mp (h.escapes hends)
      obtain ⟨rest, hrest⟩ := head?_eq_some_iff.mp hnext
      refine h.quiet.braces ⟨past.reverse, rest, ?_⟩
      rw [h.text_eq, hpast, hrest, reverse_cons, append_assoc, append_assoc]
      rfl
    refine ⟨some .stray, bind_of_ok hread ?_⟩
    rw [hescaped, hk.opened]
    rfl
  · split
    next hbreak =>
      obtain rfl : d = '\n' := eq_of_beq hbreak
      rw [handles, hk.breakpoints] at hd
      cases hd
    · refine ⟨none, bind_of_ok (keyword?_unmoved h) ?_⟩
      exact bind_of_ok hread rfl

/-- The end of the region finds nothing either. -/
theorem finish_idle (hk : k.Idle) : (discard k.finish : Compile Unit) = pure () := by
  unfold finish openBlock?
  rw [hk.opened, hk.closed]
  cases k.wraps <;> rfl

end Tracker

/-! ## Text regions -/

theorem Chain.pushText_append (chain : Chain) (t u : Text) :
    chain.pushText (t ++ u) = (chain.pushText t).pushText u := by
  unfold pushText
  rw [TextDocument.pushText_pushText]

namespace Markup

variable {r : Markup} {k : Tracker} {source : Text} {s : Session}

def tracking (k : Tracker) (r : Markup) : Markup :=
  { r with statements := some k }

theorem trackStatement_unmoved (hk : k.Idle) (h : k.Unmoved source r.chain.current s.cursor)
    {d : Char} (hd : k.handles d = true) (hnext : s.cursor.peek? = some d)
    (hwarn : s.settings.warnFallbacks = false) :
    r.trackStatement k d s =
      .ok (tracking k { r with chain := r.chain.pushText [d] },
        { s with cursor := s.cursor.advance 1 }) := by
  have h : k.Unmoved source (TextHost.buffer r.chain) s.cursor := h
  obtain ⟨closed, hdispatch⟩ := Tracker.dispatch_unmoved hk h hd hnext
  rw [trackStatement_eq]
  refine bind_of_ok rfl (bind_of_ok hdispatch (bind_of_ok (a := ()) ?_ rfl))
  unfold Tracker.warnStray
  split
  · refine bind_of_ok rfl ?_
    rw [if_neg (by rw [hwarn]; exact Bool.false_ne_true)]
    rfl
  · rfl

theorem character_tracking (k : Tracker) (r : Markup) (c : Char) (s : Session) :
    Tandem (r.character c) ((r.tracking k).character c) s fun p p' _ =>
      p' = (p.1.tracking k, p.2) ∧ p.1.statements = r.statements := by
  refine .after fun _ s1 _ => ?_
  split
  · exact .after fun chain s2 _ => .pure ⟨rfl, rfl⟩
  refine .after fun c s2 _ => ?_
  dsimp only [tracking]
  split
  · exact .after fun chain s2 _ => .pure ⟨rfl, rfl⟩
  · exact .after fun o s2 _ => .pure ⟨rfl, rfl⟩
  · exact .pure ⟨rfl, rfl⟩
  · exact .pure ⟨rfl, rfl⟩

/-- The characters of a tracker that is idle are none of those that the region deals with itself, and
begin nothing that is passed over as a whole. -/
theorem handles_breakpoints (hk : k.Idle) : ∀ c ∈ breakpoints, k.handles c = false := by
  have hall : breakpoints.all (fun c => !(Tracker.keywordInitials ++ ['}']).contains c) = true := by
    decide
  intro c hc
  have hother := all_eq_true.mp hall c hc
  rwa [not_eq_true', ← hk.breakpoints] at hother

theorem isPlain_breakpoints (hk : k.Idle) : ∀ c ∈ k.breakpoints, Lexeme.isPlain c = true := by
  have hall : (Tracker.keywordInitials ++ ['}']).all Lexeme.isPlain = true := by decide
  rw [hk.breakpoints]
  exact fun c hc => all_eq_true.mp hall c hc

/-- What a region without a tracker does with what it has found. -/
def deal (r : Markup) (found : Found) : Compile (Markup × Step) :=
  let r := { r with chain := r.chain.pushText found.before }
  match found.matched with
  | none => pure (r, .eof)
  | some c => r.character c

theorem step_eq_deal (hr : r.statements = none) :
    r.step = scan (Scan.find breakpoints false false) >>= r.deal := by
  obtain ⟨chain, statements, children⟩ := r
  obtain rfl : statements = none := hr
  refine bind_congr fun found => ?_
  unfold deal
  cases found.matched <;> rfl

def dealTracking (k : Tracker) (r : Markup) (found : Found) : Compile (Markup × Step) :=
  let r := { r with chain := r.chain.pushText found.before }
  match found.matched with
  | none => pure (r.tracking k, .eof)
  | some c =>
    if k.handles c then do return (← (r.tracking k).trackStatement k c, .next)
    else (r.tracking k).character c

theorem step_eq_dealTracking (k : Tracker) (r : Markup) :
    (r.tracking k).step =
      scan (Scan.find (breakpoints ++ k.breakpoints) false false) >>= r.dealTracking k := by
  refine bind_congr fun found => ?_
  unfold dealTracking
  cases found.matched <;> rfl

theorem deal_following (t : Text) (found : Found) :
    r.deal (found.following t) = deal { r with chain := r.chain.pushText t } found := by
  unfold deal Found.following
  rw [Chain.pushText_append]

/-- A step comes to the same as one that is made later, but for the place where something was found
last, which is not known any more at the end of the document. -/
def Resumes (x y : Except Halt ((Markup × Step) × Session)) : Prop :=
  x = y ∨ ∃ (r : Markup) (s : Session) (n : Nat), r.statements = none ∧
    y = .ok ((r, .eof), s) ∧ x = .ok ((r, .eof), s.withMatch n)

/-- The region may be taken up again behind text that has been added to it. -/
theorem step_resumes (hr : r.statements = none) {t : Text} {s2 : Session} {n : Nat}
    (h : scan (Scan.find breakpoints false false) s =
      (scan (Scan.find breakpoints false false) s2).map fun p =>
        (p.1.following t, p.2.resumed p.1 n)) :
    Resumes (r.step s) (step { r with chain := r.chain.pushText t } s2) := by
  have hstep := step_eq_deal (r := { r with chain := r.chain.pushText t }) hr
  rw [step_eq_deal hr, hstep, bind_apply, bind_apply, h]
  cases scan (Scan.find breakpoints false false) s2 with
  | error halt => exact .inl rfl
  | ok p =>
    obtain ⟨found, s3⟩ := p
    show Resumes (r.deal (found.following t) (s3.resumed found n)) (deal _ found s3)
    rw [deal_following]
    unfold Session.resumed
    cases hfound : found.matched with
    | some c => exact .inl rfl
    | none =>
      have hdeal : ∀ s4, deal { r with chain := r.chain.pushText t } found s4 =
          .ok (({ r with chain := (r.chain.pushText t).pushText found.before }, .eof), s4) := by
        intro s4
        unfold deal
        rw [hfound]
        rfl
      exact .inr ⟨{ r with chain := (r.chain.pushText t).pushText found.before }, s3, n, hr,
        hdeal s3, hdeal (s3.withMatch n)⟩

/-- A region with an idle tracker reads like the region without it, or it makes a smaller step, which
adds a text that the region without the tracker would pass over. -/
theorem step_idle (hr : r.statements = none) (hk : k.Idle)
    (h : k.Unmoved source r.chain.current s.cursor) (hwarn : s.settings.warnFallbacks = false) :
    Tandem r.step (r.tracking k).step s (fun p p' _ =>
        p' = (p.1.tracking k, p.2) ∧ p.1.statements = none) ∨
      ∃ t s2, (r.tracking k).step s =
          .ok ((tracking k { r with chain := r.chain.pushText t }, .next), s2) ∧
        Resumes (r.step s) (step { r with chain := r.chain.pushText t } s2) := by
  have hwider : Wider breakpoints k.breakpoints s _ _ := find_wider (isPlain_breakpoints hk) s
  generalize hwide : scan (Scan.find (breakpoints ++ k.breakpoints) false false) s = wide at hwider
  generalize hnarrow : scan (Scan.find breakpoints false false) s = narrow at hwider
  rw [step_eq_dealTracking]
  cases hwider with
  | same =>
    refine .inl ?_
    unfold Tandem
    rw [step_eq_deal hr, bind_apply, bind_apply, hwide, hnarrow]
    cases wide with
    | error halt => exact .error halt
    | ok p =>
      obtain ⟨found, s1⟩ := p
      show Tandem (r.deal found) (r.dealTracking k found) s1 _
      unfold deal dealTracking
      obtain ⟨c, hc, -⟩ := scan_eq_ok.mp hnarrow
      have hmem := find_mem hc
      cases hfound : found.matched with
      | none => exact .pure ⟨rfl, hr⟩
      | some d =>
        dsimp only
        rw [handles_breakpoints hk d (hmem d hfound)]
        refine (character_tracking k _ d s1).mono ?_
        rintro p p' s2 ⟨hp, hstatements⟩
        exact ⟨hp, hstatements.trans hr⟩
  | @early before d s1 mem next others =>
    refine .inr ⟨before ++ [d], _, ?_, step_resumes hr hnarrow⟩
    refine bind_of_ok hwide ?_
    have hunmoved : k.Unmoved source (r.chain.pushText before).current s1.cursor := by
      obtain ⟨c, hc, rfl⟩ := scan_eq_ok.mp hwide
      have hmoved := (Scan.Forward.ahead _ _ _ hc).moved
      exact h.pushText hmoved (find_stopped hc).1
    have hhandles : k.handles d = true := contains_iff_mem.mpr mem
    have htrack := trackStatement_unmoved (r := tracking k { r with chain := r.chain.pushText before })
      hk hunmoved hhandles next (by rw [others]; exact hwarn)
    unfold dealTracking
    dsimp only
    rw [hhandles]
    refine bind_of_ok htrack ?_
    rw [Chain.pushText_append]
    rfl

end Markup
end Patchwork
