import Patchwork.Proofs.Fragments
import Patchwork.Proofs.Tracking

/-!
# Statements in their places

A text region buffers its text in a host, and its tracker looks back at the line that it is in. For
this the places that it looks back to must not fall inside a character. Where a region begins is
noted as a place of the document (`Tracker.Fit`), and a backslash at the end of the buffer has just
been read (`Buffer.Escapes`).

`TextHost.Placed` is what is required of hosts; `dispatch_settles` is the step of the tracker. The
fragments of statements are expanded where they stand, by either of two ways to expand them.
-/

namespace Patchwork

open Compile List Text Bool Scan Buffer

/-! ## Reading on -/

namespace Scan

variable {c c' : Cursor} {t : Text}

theorem discard_eq_ok {α : Type} {x : Scan α} {u : PUnit} (h : discard x c = .ok u c') :
    ∃ a, x c = .ok a c' := by
  obtain ⟨a, c1, hx, h⟩ := bind_eq_ok h
  cases h
  exact ⟨a, hx⟩

theorem skipBlanks_rest {comments : Bool}
    (hslash : comments = true → ∀ d ∈ (trimStart c.rest).head?, d ≠ '/')
    (h : skipBlanks comments c = .ok t c') : c'.rest = trimStart c.rest := by
  unfold skipBlanks lexeme Lexeme.blanks at h
  rw [Lexeme.blanksFrom_eq hslash] at h
  cases h
  rw [Nat.zero_add]
  calc c.rest.drop (c.rest.takeWhile Text.isBlank).length
      = (c.rest.takeWhile Text.isBlank ++ trimStart c.rest).drop
          (c.rest.takeWhile Text.isBlank).length := by
        rw [trimStart, takeWhile_append_dropWhile]
    _ = trimStart c.rest := drop_left

theorem readText_eq {found : Bool} (ht : startsWith t c.rest = true)
    (h : readText t c = .ok found c') :
    c.rest = t ++ c'.rest ∧ c'.past = t.reverse ++ c.past := by
  obtain ⟨back, hback⟩ := List.isPrefixOf_iff_prefix.mp ht
  rw [readText, if_pos ht] at h
  cases h
  constructor
  · rw [Cursor.advance, ← hback, drop_left]
  · rw [Cursor.advance, ← hback, take_left]

theorem readText_lt {found : Bool} (hne : t ≠ []) (ht : startsWith t c.rest = true)
    (h : readText t c = .ok found c') :
    c'.rest.length < c.rest.length := by
  have hpositive := length_pos_iff.mpr hne
  rw [(readText_eq ht h).1, length_append]
  omega

end Scan

/-! ## Chains -/

namespace Buffer

variable {buffer : Buffer} {c c' : Cursor} {t : Text}

/-- A backslash at the end of the buffer has just been read. -/
def Escapes (buffer : Buffer) (c : Cursor) : Prop :=
  buffer.endsWith '\\' = true → c.past.head? = some '\\'

theorem endsWith_pushText (ht : t ≠ []) (d : Char) :
    (buffer.pushText t).endsWith d = endsWithChar d t := by
  unfold pushText
  rw [if_neg fun h => ht (List.isEmpty_iff.mp h)]
  split
  next last ps =>
    show ((last ++ t).getLast? == some d) = (t.getLast? == some d)
    rw [getLast?_append, getLast?_eq_some_getLast ht, Option.some_or]
  · rfl

theorem escapes_nil (c : Cursor) : Escapes [] c := nofun

theorem escapes_pushText (ht : t ≠ []) (hpast : c'.past = t.reverse ++ c.past) :
    (buffer.pushText t).Escapes c' := by
  intro hends
  rw [endsWith_pushText ht, endsWithChar, beq_iff_eq] at hends
  rw [hpast, head?_append, head?_reverse, hends]
  rfl

theorem Escapes.pushText (h : buffer.Escapes c) (hpast : c'.past = t.reverse ++ c.past) :
    (buffer.pushText t).Escapes c' := by
  by_cases ht : t = []
  · subst ht
    intro hends
    rw [hpast]
    exact h hends
  · exact escapes_pushText ht hpast

end Buffer

section

variable {b : Bounds} {r : Stretch b} {E E' : Expansion} {s : Session} (hexpands : Expands r E E')

theorem readMarker_settles (hpeek : s.cursor.peek? = some '{') (marker : Char) (tracked : Bool) :
    hexpands.Settles (@readMarker · marker tracked) s fun _ _ => True := by
  refine .position (.holding fun hs => .bind (.readEnclosed hpeek rfl) ?_)
  rintro inner s1 - ⟨d, -, hrest⟩
  have hhas : r.Has (s.cursor.position + 1) inner := by
    refine ⟨s.cursor.past.reverse ++ ['{'], d :: s1.cursor.rest, ?_, ?_⟩
    · rw [hs.cursor.text_eq, hrest, append_assoc]
      rfl
    · rw [hs.cursor.position_eq, bytes_append]
      rfl
  refine .bind (hexpands.direct rfl hhas) fun e _ _ _ => .output ?_
  split
  · exact .pure trivial
  split
  · exact .pure trivial
  · exact .pure trivial

theorem Chain.flush_settles {chain : Chain} :
    r.Rests chain.flush s fun chain' s' => s'.cursor = s.cursor ∧ chain'.current = [] :=
  .output (.bind .emit fun _ _ _ h => .pure ⟨h, rfl⟩)

theorem Chain.textMarker_settles (chain : Chain) {marker : Char} {past : Text}
    (hpast : s.cursor.past = marker :: past) (tracked : Bool) :
    hexpands.Settles (@textMarker · chain marker tracked) s
      fun chain' s' => chain'.current.Escapes s'.cursor := by
  have hpushed : ∀ buffer : Buffer, (buffer.pushText [marker]).Escapes s.cursor := fun buffer =>
    escapes_pushText (c := { s.cursor with past }) nofun hpast
  refine .cursor ?_
  split
  · exact .pure (hpushed _)
  next hpeek =>
    have hpeek : s.cursor.peek? = some '{' := by
      rwa [not_eq_true, bne_eq_false_iff_eq] at hpeek
    split
    · exact .pure (hpushed _)
    refine .bind (readMarker_settles hexpands hpeek marker tracked) fun e _ _ _ => ?_
    split
    · exact .output (.pure (escapes_nil _))
    · exact .pure nofun

/-! ## Hosts -/

/-- What is required of a host: what it has noted lies before the cursor, and to flush it is to empty
its buffer. -/
class TextHost.Placed (H : Type) [TextHost H] where
  Noted : H → Nat → Prop
  mono : ∀ {host : H} {p q : Nat}, Noted host p → p ≤ q → Noted host q
  buffer_setBuffer : ∀ (host : H) (buffer : Buffer),
    TextHost.buffer (TextHost.setBuffer host buffer) = buffer
  noted_setBuffer : ∀ {host : H} {p : Nat} (buffer : Buffer), Noted host p →
    Noted (TextHost.setBuffer host buffer) p
  flush_settles : ∀ {b : Bounds} {r : Stretch b} {s : Session} {host : H},
    Noted host s.cursor.position → r.Rests (TextHost.flush host) s fun host' s' =>
      s'.cursor = s.cursor ∧ TextHost.buffer host' = [] ∧ ∀ p, Noted host' p

instance : TextHost.Placed Chain where
  Noted _ _ := True
  mono _ _ := trivial
  buffer_setBuffer _ _ := rfl
  noted_setBuffer _ _ := trivial
  flush_settles _ := Chain.flush_settles.mono fun _ _ _ h => ⟨h.1, h.2, fun _ => trivial⟩

theorem StyleBuffer.flush_settles {buffer : StyleBuffer}
    (hnoted : ∀ start ∈ buffer.start, start ≤ s.cursor.position) :
    r.Rests buffer.flush s fun buffer' s' => s'.cursor = s.cursor ∧ buffer' = {} := by
  unfold flush
  split
  · exact .bind .emit fun _ s1 _ h1 => .pure ⟨h1, rfl⟩
  refine .position (.holding fun hs => .fail (Fault.upto_of_le ?_ hs.cursor.position_le))
  cases hstart : buffer.start with
  | none => exact Nat.le_refl _
  | some start => exact hnoted start hstart

instance : TextHost.Placed StyleBuffer where
  Noted buffer p := ∀ start ∈ buffer.start, start ≤ p
  mono h hle start hstart := Nat.le_trans (h start hstart) hle
  buffer_setBuffer _ _ := rfl
  noted_setBuffer _ h := h
  flush_settles hnoted := by
    refine (StyleBuffer.flush_settles hnoted).mono ?_
    rintro _ s1 - ⟨h1, rfl⟩
    exact ⟨h1, rfl, fun _ => nofun⟩

namespace TextHost

variable {H : Type} [TextHost H] [Placed H] {host : H} {c c' : Cursor} {t : Text}

/-- The host fits the cursor. -/
structure Fit (host : H) (c : Cursor) : Prop where
  escapes : (buffer host).Escapes c
  noted : Placed.Noted host c.position

/-- The host has nothing to remember. -/
structure Cleared (host : H) : Prop where
  empty : buffer host = []
  noted : ∀ p, Placed.Noted host p

theorem Cleared.fit (h : Cleared host) (c : Cursor) : Fit host c :=
  ⟨h.empty ▸ escapes_nil c, h.noted _⟩

/-- Text is added that has just been read. -/
theorem Fit.pushText (h : Fit host c) (hmoved : c.Moved c') (hrest : c.rest = t ++ c'.rest) :
    Fit (pushText host t) c' where
  escapes := by
    rw [TextHost.pushText, Placed.buffer_setBuffer]
    exact h.escapes.pushText (hmoved.past_eq hrest)
  noted := Placed.noted_setBuffer _ (Placed.mono h.noted hmoved.position_le)

/-- A backslash is replaced by what has just been read. -/
theorem Fit.unescape (h : Fit host c) (hmoved : c.Moved c') (ht : t ≠ [])
    (hrest : c.rest = t ++ c'.rest) : Fit (unescape host t) c' where
  escapes := by
    rw [TextHost.unescape, Placed.buffer_setBuffer]
    exact escapes_pushText ht (hmoved.past_eq hrest)
  noted := Placed.noted_setBuffer _ (Placed.mono h.noted hmoved.position_le)

theorem boundary_settles (hnoted : Placed.Noted host s.cursor.position) :
    r.Rests (boundary host) s fun host' s' => s'.cursor = s.cursor ∧ Cleared host' := by
  refine .bind (Placed.flush_settles (Placed.noted_setBuffer _ hnoted)) ?_
  rintro host1 s1 - ⟨h1, hbuffer, hnoted1⟩
  exact .bind .emit fun _ s2 _ h2 => .pure ⟨h2.trans h1, hbuffer, hnoted1⟩

end TextHost

/-! ## The head of a `foreach` -/

namespace Foreach

variable {head : Stretch b} {c : Cursor}

theorem onHead_settles {α : Type} {step : Scan α} [hforward : step.Forward] [htidy : step.Tidy]
    (hc : head.Reads c) :
    r.Rests (onHead step c) s fun p s' => s' = s ∧ head.Reads p.2 ∧ step c = .ok p.1 p.2 := by
  unfold onHead
  cases hstep : step c with
  | error h c' => exact .throw (hc.halts (htidy.halts _ _ _ hstep))
  | ok a c' =>
    obtain ⟨hparens, hclosed⟩ := htidy.kept _ _ _ hstep
    exact .pure ⟨rfl, hc.moved (hforward.ahead _ _ _ hstep).moved hparens hclosed, rfl⟩

instance (w : Text) : (skipWord w).Forward := by
  unfold skipWord
  infer_instance

instance (w : Text) : (skipWord w).Tidy := by
  unfold skipWord
  infer_instance

theorem skipWord_head {w : Text} {c' : Cursor} (h : skipWord w c = .ok () c') :
    ∀ d ∈ c'.rest.head?, Text.isBlank d = false := by
  obtain ⟨_, c1, -, h⟩ := bind_eq_ok h
  obtain ⟨_, hskip⟩ := discard_eq_ok h
  exact skipBlanks_head hskip

variable (hpart : ∀ at_ t, head.Has at_ t → r.Has at_ t)
include hpart

/-- An expression of the head, which begins with no blank, is expanded where it stands. -/
theorem readExpanded_settles (hc : head.Reads c) (hhead : ∀ d ∈ c.rest.head?, Text.isBlank d = false) :
    hexpands.Settles (@readExpanded · c) s fun p s' => s'.cursor = s.cursor ∧ head.Reads p.2.2 := by
  refine .bind (onHead_settles hc) ?_
  rintro ⟨text, c1⟩ _ - ⟨rfl, hc1, hread⟩
  have hhas : head.Has c.position text := by
    obtain ⟨read, back, hrest, rfl⟩ := readExpression_eq hread
    obtain ⟨back', hsplit⟩ := eq_trim_append hrest hhead
    exact ⟨c.past.reverse, back', hc.text_eq.trans (congrArg _ hsplit), hc.position_eq⟩
  exact .bind (hexpands.direct rfl (hpart _ _ hhas)) fun e s1 _ h1 => .pure ⟨h1, hc1⟩

/-- The head is followed by a parenthesis, which a fault may point to. -/
theorem readSubject_settles (hnext : head.base + bytes head.text < b.limit) (hc : head.Reads c)
    (hhead : ∀ d ∈ c.rest.head?, Text.isBlank d = false) :
    hexpands.Settles (@readSubject · c) s fun p s' => s'.cursor = s.cursor ∧ head.Reads p.2 := by
  have hword : ∀ {w : Text} {c : Cursor} {s : Session}, head.Reads c →
      r.Rests (onHead (skipWord w) c) s fun p s' =>
        s' = s ∧ head.Reads p.2 ∧ ∀ d ∈ p.2.rest.head?, Text.isBlank d = false := fun hc =>
    (onHead_settles hc).mono fun _ _ _ h => ⟨h.1, h.2.1, skipWord_head h.2.2⟩
  unfold readSubject
  split
  · refine .bind (hword hc) ?_
    rintro ⟨_, c1⟩ _ - ⟨rfl, hc1, hhead1⟩
    refine .bind (readExpanded_settles hexpands hpart hc1 hhead1) ?_
    rintro ⟨_, first, c2⟩ s2 - ⟨h2, hc2⟩
    refine .bind (onHead_settles hc2) ?_
    rintro ⟨_, c3⟩ _ - ⟨rfl, hc3, -⟩
    dsimp only at hc3 ⊢
    split
    · have hadd := hc3.position_add
      refine .bind (.fail (Q := fun _ _ => False) (Fault.upto_of_le (Nat.le_succ _) ?_))
        fun _ _ _ h => h.elim
      omega
    · refine .bind (hword hc3) ?_
      rintro ⟨_, c4⟩ _ - ⟨rfl, hc4, hhead4⟩
      refine .bind (readExpanded_settles hexpands hpart hc4 hhead4) ?_
      rintro ⟨_, last, c5⟩ s5 - ⟨h5, hc5⟩
      exact .pure ⟨h5.trans h2, hc5⟩
  · split
    · refine .bind (hword hc) ?_
      rintro ⟨_, c1⟩ _ - ⟨rfl, hc1, hhead1⟩
      exact .bind (readExpanded_settles hexpands hpart hc1 hhead1) fun _ _ _ h => .pure h
    · exact .bind (readExpanded_settles hexpands hpart hc hhead) fun _ _ _ h => .pure h

omit hpart in
theorem readHead_settles (head : Stretch b) (hpart : ∀ at_ t, head.Has at_ t → r.Has at_ t)
    (hnext : head.base + bytes head.text < b.limit) :
    hexpands.Settles (@readHead · head.text head.base) s s.Stood := by
  have hc : head.Reads (.ofText head.text head.base) := ⟨rfl, rfl, nofun, nofun⟩
  refine .bind (onHead_settles hc) ?_
  rintro ⟨_, c1⟩ _ - ⟨rfl, hc1, hread⟩
  refine .bind (readSubject_settles hexpands hpart hnext hc1 (skipBlanks_head hread)) ?_
  rintro ⟨subject, c2⟩ s2 - ⟨h2, hc2⟩
  refine .bind (onHead_settles hc2) ?_
  rintro ⟨_, c3⟩ _ - ⟨rfl, hc3, -⟩
  dsimp only at hc3 ⊢
  split
  · exact .pure h2
  split
  · exact .pure h2
  have hadd := hc3.position_add
  exact .fail (Fault.upto_of_le (by omega) head.fits)

end Foreach

/-! ## Trackers -/

/-- A position is one of the stretch, between two characters. -/
def Stretch.Place (r : Stretch b) (index : Nat) : Prop :=
  ∃ front back, r.text = front ++ back ∧ index = r.base + bytes front

theorem Stretch.Reads.place {c : Cursor} (h : r.Reads c) : r.Place c.position :=
  ⟨c.past.reverse, c.rest, h.text_eq, h.position_eq⟩

theorem Stretch.Reads.slice?_places {c : Cursor} (h : r.Reads c) {i j : Nat} (hi : r.Place i)
    (hj : r.Place j) (hle : i ≤ j) : ∃ middle, c.slice? i j = some middle := by
  obtain ⟨front, back, htext, rfl⟩ := hi
  obtain ⟨front', back', htext', rfl⟩ := hj
  obtain ⟨middle, rfl, -⟩ := exists_append_of_bytes_le (htext.symm.trans htext')
    (Nat.le_of_add_le_add_left hle)
  exact ⟨middle, h.slice? (htext'.trans (append_assoc ..))⟩

def Open.braced : Open → Bool
  | .statement st => !st.last.inline
  | .block _ _ => true

/-- What has been opened with a brace has one of its own, before a place and behind the braces of what
is open around it. -/
def Stretch.Braces (r : Stretch b) : List Open → Nat → Prop
  | [], _ => True
  | o :: below, stop => ∃ p ≤ stop, (o.braced = true → p < stop ∧ r.Has p ['{']) ∧ r.Braces below p

theorem Stretch.Braces.mono {opened : List Open} {p q : Nat} (h : r.Braces opened p) (hle : p ≤ q) :
    r.Braces opened q := by
  cases opened with
  | nil => trivial
  | cons o below =>
    obtain ⟨brace, hbrace, hhas, hbelow⟩ := h
    refine ⟨brace, Nat.le_trans hbrace hle, fun ho => ?_, hbelow⟩
    exact ⟨Nat.lt_of_lt_of_le (hhas ho).1 hle, (hhas ho).2⟩

theorem Stretch.Braces.push {opened : List Open} {c c' : Cursor} (h : r.Braces opened c.position)
    (hc : r.Reads c) (hmoved : c.Moved c') {o : Open}
    (hread : o.braced = true → c.rest = '{' :: c'.rest) : r.Braces (o :: opened) c'.position := by
  refine ⟨_, hmoved.position_le, fun ho => ⟨?_, c.past.reverse, c'.rest, ?_, hc.position_eq⟩, h⟩
  · rw [hmoved.position_eq (t := ['{']) (hread ho)]
    exact Nat.lt_succ_self _
  · rw [hc.text_eq, hread ho]
    rfl

/-- What a tracker has noted up to a place: where its region begins, the blocks of the host, and the
braces. -/
structure Tracker.Fit (r : Stretch b) (p : Nat) (k : Tracker) : Prop where
  start : r.Place k.regionStart
  blocks : ∀ id span, Open.block id span ∈ k.opened → span.Upto b.limit
  braces : r.Braces k.opened p

theorem Tracker.Fit.mono {k : Tracker} {p q : Nat} (h : k.Fit r p) (hle : p ≤ q) : k.Fit r q :=
  ⟨h.start, h.blocks, h.braces.mono hle⟩

namespace Tracker

open TextHost

variable {H : Type} [TextHost H] [Placed H] {host : H} {k : Tracker}

theorem atLineStart_settles (hk : r.Place k.regionStart) {index : Nat} (hindex : r.Place index) :
    r.Rests (scan (k.atLineStart index)) s s.Stood := by
  refine .holding fun hs => ?_
  have hmin : r.Place (min k.regionStart index) := by
    rcases Nat.le_total k.regionStart index with hle | hle
    · rw [Nat.min_eq_left hle]
      exact hk
    · rw [Nat.min_eq_right hle]
      exact hindex
  obtain ⟨before, hbefore⟩ := hs.cursor.slice?_places hmin hindex (Nat.min_le_right ..)
  have hstep : k.atLineStart index s.cursor =
      Scan.whole (some (allBlank (lastLine before))) s.cursor := by
    unfold atLineStart
    rw [get_bind, hbefore]
    rfl
  exact (Stretch.Settles.scanWhole hstep nofun).mono fun _ _ _ h => h.1

variable {word : Text} {keyword : Keyword}

theorem declaration_settles (hnoted : Placed.Noted host s.cursor.position) (hne : word ≠ [])
    (hword : startsWith word s.cursor.rest = true) (closing : List Char) :
    hexpands.Settles (@declaration H _ · host word closing) s fun host' s' =>
      Cleared host' ∧ s'.cursor.rest.length < s.cursor.rest.length := by
  refine .bind (boundary_settles hnoted) ?_
  rintro host s1 - ⟨h1, hhost⟩
  refine .bind .skip ?_
  rintro _ s2 - ⟨_, hread⟩
  rw [h1] at hread
  have hdone : ∀ {s'}, r.Goes s2 s' →
      Cleared host ∧ s'.cursor.rest.length < s.cursor.rest.length := fun h =>
    ⟨hhost, Nat.lt_of_le_of_lt h.moved.length_le (readText_lt hne hword hread)⟩
  refine .bind .emit fun _ s3 h3 _ => .bind .scan fun found s4 h4 _ => .bind .emit fun _ s5 h5 _ => ?_
  have h5 := (h3.trans h4).trans h5
  split
  · refine .bind .skip fun _ s6 h6 _ => .bind .emit fun _ s7 h7 _ => ?_
    refine .bind .scan fun blanks s8 h8 hblanks => .bind .emit fun _ s9 h9 hcursor => ?_
    have hline := readWhile_stops hblanks
    rw [← hcursor] at hline
    refine .position (.bind .scan fun value s10 h10 hvalue => ?_)
    obtain ⟨read, back, hrest, rfl⟩ := readExpression_eq hvalue
    obtain ⟨blanks', more, hsplit, hblank, hhead, -⟩ := exists_eq_trim read
    have hh := h9.holds.cursor
    have hahead : s9.cursor.rest = blanks' ++ (trim read ++ (more ++ back)) := by
      rw [hrest, ← append_assoc (trim read), ← append_assoc blanks']
      exact congrArg (· ++ back) hsplit
    have htext := hh.text_eq
    rw [hahead] at htext hline
    have h10 := ((((h5.trans h6).trans h7).trans h8).trans h9).trans h10
    rw [hh.position_eq]
    refine .bind (hexpands.initializer htext hblank hhead hline) fun e s11 h11 _ => ?_
    refine .bind .emit fun _ s12 h12 _ => .bind .scan fun semicolon s13 h13 _ => ?_
    have h13 := ((h10.trans h11).trans h12).trans h13
    split
    · exact .bind .emit fun _ s14 h14 _ => .pure (hdone (h13.trans h14))
    · exact .pure (hdone h13)
  · split
    · refine .bind .skip fun _ s6 h6 _ => .bind .emit fun _ s7 h7 _ => ?_
      exact .pure (hdone ((h5.trans h6).trans h7))
    · exact .pure (hdone h5)
  · exact .pure (hdone h5)

/-! ### Branches -/

/-- What must come next for a branch to be read: its keyword, and the parenthesis of its head. -/
def Ready (rest : Text) : Keyword → Prop
  | .otherwise => startsWith "else" rest = true
  | .elseIf =>
    startsWith "else" rest = true ∧
      startsWith "if" (trimStart (rest.drop 4)) = true ∧
      startsWith "(" (trimStart ((trimStart (rest.drop 4)).drop 2)) = true
  | keyword =>
    startsWith keyword.text rest = true ∧
      startsWith "(" (trimStart (rest.drop keyword.text.length)) = true

instance (keyword : Keyword) : (readKeyword keyword).Tidy := by
  unfold readKeyword
  infer_instance

theorem readKeyword_ready {c c' : Cursor} (hready : Ready c.rest keyword)
    (h : readKeyword keyword c = .ok () c') :
    c'.rest.length < c.rest.length ∧
      (keyword ≠ .otherwise → startsWith "(" (trimStart c'.rest) = true) := by
  have hone : ∀ w : Text, w ≠ [] → readKeyword keyword c = discard (Scan.readText w) c →
      startsWith w c.rest = true →
      c'.rest.length < c.rest.length ∧ c.rest.drop w.length = c'.rest := by
    intro w hne hkeyword hw
    rw [hkeyword] at h
    obtain ⟨_, hread⟩ := discard_eq_ok h
    refine ⟨readText_lt hne hw hread, ?_⟩
    rw [(readText_eq hw hread).1, drop_left]
  have hblock : ∀ w : Text, w ≠ [] → readKeyword keyword c = discard (Scan.readText w) c →
      startsWith w c.rest = true ∧
        startsWith "(" (trimStart (c.rest.drop w.length)) = true →
      c'.rest.length < c.rest.length ∧
        (keyword ≠ .otherwise → startsWith "(" (trimStart c'.rest) = true) := by
    intro w hne hkeyword hw
    obtain ⟨hlt, hrest⟩ := hone w hne hkeyword hw.1
    exact ⟨hlt, fun _ => hrest ▸ hw.2⟩
  cases keyword with
  | otherwise => exact ⟨(hone "else".toList nofun rfl hready).1, fun hne => absurd rfl hne⟩
  | elseIf =>
    obtain ⟨helse, hif, hparen⟩ := hready
    obtain ⟨_, c1, h1, h⟩ := bind_eq_ok h
    obtain ⟨_, c2, h2, h⟩ := bind_eq_ok h
    obtain ⟨_, h1⟩ := discard_eq_ok h1
    obtain ⟨_, h2⟩ := discard_eq_ok h2
    obtain ⟨_, h3⟩ := discard_eq_ok h
    have hrest1 : c.rest.drop 4 = c1.rest := by
      rw [(readText_eq helse h1).1]
      rfl
    rw [hrest1] at hif hparen
    have hrest2 : c2.rest = trimStart c1.rest := by
      refine skipBlanks_rest (fun _ d hd => ?_) h2
      obtain ⟨back, hback⟩ := List.isPrefixOf_iff_prefix.mp hif
      rw [← hback] at hd
      cases hd
      decide
    rw [← hrest2] at hif hparen
    have hrest3 := (readText_eq hif h3).1
    refine ⟨?_, fun _ => ?_⟩
    · have hlt := readText_lt (t := "else".toList) nofun helse h1
      have hlt' := readText_lt (t := "if".toList) nofun hif h3
      have hle : c2.rest.length ≤ c1.rest.length := by
        rw [hrest2]
        exact (dropWhile_sublist _).length_le
      omega
    · rw [hrest3] at hparen
      exact hparen
  | ifTrue => exact hblock "if".toList nofun rfl hready
  | forLoop => exact hblock "for".toList nofun rfl hready
  | whileLoop => exact hblock "while".toList nofun rfl hready
  | switch => exact hblock "switch".toList nofun rfl hready
  | foreach => exact hblock "foreach".toList nofun rfl hready

theorem branchHead_settles
    (hparen : keyword ≠ .otherwise → startsWith "(" (trimStart s.cursor.rest) = true) :
    hexpands.Settles (@branchHead · keyword) s fun _ _ => True := by
  unfold branchHead
  split
  · exact .done .addSlot
  next hother =>
    have hparen := hparen fun heq => hother (by rw [heq]; rfl)
    refine .bind .scan fun skipped s1 h1 hskip => ?_
    have hpeek : s1.cursor.peek? = some '(' := by
      obtain ⟨back, hback⟩ := List.isPrefixOf_iff_prefix.mp hparen
      have hrest := skipBlanks_rest (fun _ d hd => by
        rw [← hback] at hd
        cases hd
        decide) hskip
      rw [Cursor.peek?, hrest, ← hback]
      rfl
    refine .position (.bind (.readEnclosed hpeek rfl) ?_)
    rintro inner s2 - ⟨d, hd, hrest⟩
    have htext : r.text = (s1.cursor.past.reverse ++ ['(']) ++ (inner ++ d :: s2.cursor.rest) := by
      rw [h1.holds.cursor.text_eq, hrest, append_assoc]
      rfl
    have hstart : s1.cursor.position + 1 = r.base + bytes (s1.cursor.past.reverse ++ ['(']) := by
      rw [h1.holds.cursor.position_eq, bytes_append]
      rfl
    have hhas : r.Has (s1.cursor.position + 1) inner := ⟨_, _, htext, hstart⟩
    split
    · have hnext : s1.cursor.position + 1 + bytes inner < b.limit := by
        have hle := h1.holds.cursor.position_add_le
        have hsize := d.utf8Size_pos
        rw [hrest, bytes, bytes_append, bytes] at hle
        have hone : Char.utf8Size '(' = 1 := rfl
        omega
      let head : Stretch b := ⟨_, inner, Nat.le_of_lt hnext, hhas.plain⟩
      refine .bind (Foreach.readHead_settles hexpands head (fun _ _ hpart => hhas.sub hpart) hnext) ?_
      rintro ⟨subject, binding⟩ s3 - -
      exact .output (.bind .addSlot fun decl s4 _ _ => .done .addSlot)
    · exact .bind (hexpands.direct rfl hhas) fun e s3 _ _ => .done .addSlot

/-- A branch begins with its keyword. The host is empty then. -/
theorem openPart_settles (hk : k.Fit r s.cursor.position)
    (hnoted : Placed.Noted host s.cursor.position) (hready : Ready s.cursor.rest keyword)
    (continued : Option Statement) :
    hexpands.Settles (@openPart H _ · k host keyword continued) s fun p s' =>
      p.1.Fit r s'.cursor.position ∧ Cleared p.2 ∧ s'.cursor.rest.length < s.cursor.rest.length := by
  refine .bind (boundary_settles hnoted) ?_
  rintro host s1 h1 ⟨hcursor, hhost⟩
  refine .position (.bind .scan fun _ s2 h2 hread => ?_)
  rw [hcursor] at hread
  obtain ⟨hlt, hparen⟩ := readKeyword_ready hready hread
  refine .position ?_
  have hspan : Fault.Upto b.limit
      ⟨.statementOpen keyword.text, ⟨s1.cursor.position, s2.cursor.position⟩⟩ :=
    Fault.upto_of_le h2.moved.position_le h2.holds.cursor.position_le
  extract_lets span rest rest'
  -- the rest is the same for a new statement and for one that goes on
  have hrest : ∀ start s3, r.Goes s2 s3 → s3.cursor = s2.cursor →
      r.Settles (rest start) (rest' start) s3 fun p s' =>
        p.1.Fit r s'.cursor.position ∧ Cleared p.2 ∧
          s'.cursor.rest.length < s.cursor.rest.length := by
    intro start s3 h3 hcursor3
    refine .output (.bind (.addPendingSlot hspan) fun declStart s4 h4 hcursor4 => ?_)
    have hparen4 := (hcursor4.trans hcursor3) ▸ hparen
    refine .bind (branchHead_settles hexpands hparen4) fun head s5 h5 _ => ?_
    refine .bind .scan fun blanks s6 h6 _ => .bind .emit fun _ s7 h7 _ => ?_
    refine .bind .scan fun braced s8 h8 hbraced => .bind .emit fun _ s9 h9 hcursor9 => ?_
    have h7 := (((h3.trans h4).trans h5).trans h6).trans h7
    refine .pure ⟨⟨hk.start, fun id block hblock => ?_, ?_⟩, hhost,
      Nat.lt_of_le_of_lt ((h7.trans h8).trans h9).moved.length_le hlt⟩
    · cases hblock with
      | tail _ hblock => exact hk.blocks id block hblock
    · have hbefore := hk.braces.mono ((h1.trans h2).trans h7).moved.position_le
      rw [hcursor9]
      refine hbefore.push h7.holds.cursor h8.moved fun ho => ?_
      rcases readIf_eq hbraced with ⟨-, hrest⟩ | ⟨rfl, -⟩
      · exact hrest
      · cases continued <;> cases ho
  cases continued with
  | some statement => exact hrest statement.start s2 h2.holds.goes rfl
  | none => exact .bind .addSlot hrest

/-- Where the text goes on with a branch, its keyword comes next after the blanks. -/
theorem ready_of_continuation? {rest : Text} (h : continuation? rest = some keyword) :
    Ready (trimStart rest) keyword := by
  unfold continuation? at h
  dsimp only at h
  split at h
  next helse =>
    have helse := (and_eq_true_iff.mp helse).1
    split at h
    next hif =>
      cases h
      obtain ⟨hif, hparen⟩ := and_eq_true_iff.mp hif
      exact ⟨helse, (and_eq_true_iff.mp hif).1, hparen⟩
    cases h
    exact helse
  · cases h

theorem closePart_settles {statement : Statement} : r.Rests (closePart statement) s s.Stood :=
  .bind .edit fun _ _ _ h1 => .bind .addSlot fun _ _ _ h2 => .pure (h2.trans h1)

theorem close_settles (hk : k.Fit r s.cursor.position) (hnoted : Placed.Noted host s.cursor.position)
    (atLineBreak : Bool) :
    hexpands.Settles (@close H _ · _ k host atLineBreak) s fun p s' =>
      p.1.Fit r s'.cursor.position ∧ TextHost.Fit p.2.1 s'.cursor := by
  refine .bind (boundary_settles hnoted) ?_
  rintro host s1 h1 ⟨-, hhost⟩
  cases hopened : k.opened with
  | nil => exact .pure ⟨hk.mono h1.moved.position_le, hhost.fit _⟩
  | cons innermost opened =>
    have hk : ∀ closed {s'}, r.Goes s s' → Fit r s'.cursor.position { k with opened, closed } := by
      intro _ s' h
      obtain ⟨brace, hle, -, hbelow⟩ : r.Braces (innermost :: opened) _ := hopened ▸ hk.braces
      refine ⟨hk.start, fun id span hspan => ?_, hbelow.mono (Nat.le_trans hle h.moved.position_le)⟩
      exact hk.blocks id span (hopened ▸ mem_cons_of_mem _ hspan)
    cases innermost with
    | block id span => exact .pure ⟨hk _ h1, hhost.fit _⟩
    | statement statement =>
      dsimp only
      refine .bind closePart_settles fun statement s2 h2 _ => .cursor ?_
      have h2 := h1.trans h2
      have hfit : ∀ c, TextHost.Fit (if atLineBreak then pushText host "\n" else host) c := by
        intro c
        split
        · refine ⟨fun hends => ?_, Placed.noted_setBuffer _ (hhost.noted _)⟩
          rw [TextHost.pushText, Placed.buffer_setBuffer,
            endsWith_pushText (t := "\n".toList) nofun] at hends
          exact absurd hends (by decide)
        · exact hhost.fit c
      split
      next keyword hcontinued =>
        refine .bind .scan fun blanks s3 h3 hskip => ?_
        have hready : Ready s3.cursor.rest keyword := by
          rw [skipBlanks_rest (fun h => by cases h) hskip]
          split at hcontinued
          · exact ready_of_continuation? hcontinued
          · cases hcontinued
        refine .bind (openPart_settles hexpands (hk _ (h2.trans h3))
          (Placed.noted_setBuffer _ (hfit _).noted) hready (some statement)) ?_
        rintro ⟨k', host''⟩ s4 - ⟨hk', hhost', -⟩
        exact .pure ⟨hk', hhost'.fit _⟩
      · exact .pure ⟨hk _ h2, hfit _⟩

/-! ### Characters -/

/-- Is a keyword of the table written as the branch that it begins? -/
def spells (word : Text) : Form → Bool
  | .declaration _ => !word.isEmpty
  | .block keyword =>
    keyword.text == word && !word.isEmpty && keyword != .otherwise && keyword != .elseIf

theorem keywords_spells : keywords.all (fun p => spells p.1 p.2) = true := by decide

theorem ne_nil_of_spells {form : Form} (h : spells word form = true) : word ≠ [] := by
  rintro rfl
  cases form with
  | declaration closing => cases h
  | block keyword =>
    simp [spells] at h

theorem ready_of_spells {rest : Text} (h : spells word (.block keyword) = true)
    (hword : startsWith word rest = true)
    (hparen : startsWith "(" (trimStart (rest.drop word.length)) = true) :
    Ready rest keyword := by
  simp only [spells, and_eq_true, beq_iff_eq] at h
  obtain ⟨⟨⟨rfl, -⟩, hother⟩, helse⟩ := h
  cases keyword with
  | otherwise => cases hother
  | elseIf => cases helse
  | _ => exact ⟨hword, hparen⟩

/-- The tracker has read on, and it and its host fit the cursor. -/
structure Took (r : Stretch b) (s s' : Session) (k : Tracker) (host : H) : Prop where
  tracker : k.Fit r s'.cursor.position
  host : TextHost.Fit host s'.cursor
  reads : s'.cursor.rest.length < s.cursor.rest.length

variable (hk : k.Fit r s.cursor.position) (hhost : TextHost.Fit host s.cursor)
include hk hhost

/-- A keyword that counts is read, and otherwise nothing is. -/
theorem keyword?_settles : hexpands.Settles (@keyword? H _ · k host) s fun p s' =>
    (p = none → s'.cursor = s.cursor) ∧ ∀ p' ∈ p, Took r s s' p'.1 p'.2 := by
  have hnone : ∀ {s' : Session}, s'.cursor = s.cursor →
      ((none : Option (Tracker × H)) = none → s'.cursor = s.cursor) ∧
        ∀ p' ∈ (none : Option (Tracker × H)), Took r s s' p'.1 p'.2 := fun h => ⟨fun _ => h, nofun⟩
  have hsome : ∀ {s' : Session} {p : Tracker × H}, Took r s s' p.1 p.2 →
      (some p = none → s'.cursor = s.cursor) ∧ ∀ p' ∈ some p, Took r s s' p'.1 p'.2 := by
    refine fun h => ⟨nofun, ?_⟩
    rintro _ ⟨⟩
    exact h
  refine .cursor (.holding fun hs => ?_)
  dsimp only
  split
  · exact .pure (hnone rfl)
  next word form hfind =>
    have hspells : spells word form = true :=
      all_eq_true.mp keywords_spells _ (mem_of_find?_eq_some hfind)
    have hword : startsWith word s.cursor.rest = true := by
      have hword := find?_some hfind
      exact (and_eq_true_iff.mp hword).1
    have hne := ne_nil_of_spells hspells
    refine .bindEither (P := s.Stood) (fun hescaped => ?_) (fun _ => .pure rfl) ?_
    · -- the backslash is the last character that was read
      refine atLineStart_settles hk.start ?_
      have hends := (and_eq_true_iff.mp hescaped).2
      obtain ⟨past, hpast⟩ := head?_eq_some_iff.mp (hhost.escapes hends)
      refine ⟨past.reverse, '\\' :: s.cursor.rest, ?_, ?_⟩
      · rw [hs.cursor.text_eq, hpast, reverse_cons, append_assoc]
        rfl
      · rw [Cursor.position, hpast, hs.cursor.base, bytes_reverse]
        show _ + (1 + _) - 1 = _
        omega
    intro kept s1 h1 hcursor1
    split
    · refine .bind .skip ?_
      rintro _ s2 h2 ⟨_, hread⟩
      rw [hcursor1] at hread
      have h2 := h1.trans h2
      exact .pure (hsome ⟨hk.mono h2.moved.position_le,
        hhost.unescape h2.moved hne (readText_eq hword hread).1, readText_lt hne hword hread⟩)
    · refine .bind (atLineStart_settles hk.start (hcursor1 ▸ hs.cursor.place)) fun atStart s2 h2 hc => ?_
      have hc : s2.cursor = s.cursor := hc.trans hcursor1
      split
      · exact .pure (hnone hc)
      cases form with
      | declaration closing =>
        refine .bind (declaration_settles hexpands (hc ▸ hhost.noted) hne (hc ▸ hword) closing) ?_
        rintro host3 s3 h3 ⟨hhost3, hlt⟩
        have hk3 := hk.mono ((h1.trans h2).trans h3).moved.position_le
        exact .pure (hsome ⟨⟨hk3.start, hk3.blocks, hk3.braces⟩, hhost3.fit _, hc ▸ hlt⟩)
      | block keyword =>
        dsimp only
        split
        next hparen =>
          refine .bind (openPart_settles (k := { k with recognized := k.recognized + 1 }) hexpands
            ⟨hk.start, hk.blocks, hc ▸ hk.braces⟩ (hc ▸ hhost.noted)
            (hc ▸ ready_of_spells hspells hword hparen) none) ?_
          rintro ⟨k3, host3⟩ s3 - ⟨hk3, hhost3, hlt⟩
          exact .pure (hsome ⟨hk3, hhost3.fit _, hc ▸ hlt⟩)
        · exact .pure (hnone hc)

theorem dispatch_settles {c : Char} (hpeek : s.cursor.peek? = some c) :
    hexpands.Settles (@dispatch H _ · _ k host c) s fun p s' => Took r s s' p.1 p.2.1 := by
  have hlt : ∀ {s' : Session}, s.cursor.rest = c :: s'.cursor.rest →
      s'.cursor.rest.length < s.cursor.rest.length := by
    intro s' hrest
    rw [hrest]
    exact Nat.lt_succ_self _
  -- the character is kept as text, or taken to close something
  have hpush : ∀ {s'}, r.Goes s s' → s.cursor.rest = c :: s'.cursor.rest →
      Took r s s' k (pushText host [c]) := fun h hrest =>
    ⟨hk.mono h.moved.position_le, hhost.pushText h.moved hrest, hlt hrest⟩
  have hclose : ∀ {s'} (atLineBreak : Bool), r.Goes s s' → s.cursor.rest = c :: s'.cursor.rest →
      hexpands.Settles (@close H _ · _ k host atLineBreak) s' fun p s'' => Took r s s'' p.1 p.2.1 := by
    intro s' atLineBreak h hrest
    have hle := h.moved.position_le
    refine (close_settles hexpands (hk.mono hle) (Placed.mono hhost.noted hle) atLineBreak).mono ?_
    rintro ⟨k', host', closed⟩ s'' h' ⟨hk', hhost'⟩
    exact ⟨hk', hhost', Nat.lt_of_le_of_lt h'.moved.length_le (hlt hrest)⟩
  unfold dispatch
  split
  next hc =>
    obtain rfl := eq_of_beq hc
    refine .bind (.read hpeek) fun _ s1 h1 hrest => ?_
    split
    · have hk1 := hk.mono h1.moved.position_le
      exact .pure ⟨hk1, hhost.unescape h1.moved nofun hrest, hlt hrest⟩
    split
    · exact .pure (hpush h1 hrest)
    exact .bind (hclose false h1 hrest) fun _ _ _ h2 => .pure h2
  · split
    next hc =>
      obtain rfl := eq_of_beq hc
      refine .bind (.read hpeek) fun _ s1 h1 hrest => ?_
      split
      · exact .bind (hclose true h1 hrest) fun _ _ _ h2 => .pure h2
      · exact .pure (hpush h1 hrest)
    · refine .bind (keyword?_settles hexpands hk hhost) ?_
      rintro answer s1 h1 ⟨hnone, hsome⟩
      cases answer with
      | some p => exact .pure (hsome p rfl)
      | none =>
        refine .bind (.read (hnone rfl ▸ hpeek)) fun _ s2 h2 hrest => ?_
        exact .pure (hpush (h1.trans h2) (hnone rfl ▸ hrest))

omit hk hhost

theorem makeReactive_settles {statement : Statement} : r.Rests statement.makeReactive s s.Stood :=
  .output (.forM rfl fun _ _ _ h1 => Stretch.Settles.edit.mono fun _ _ _ h => h.trans h1)

/-- Where a region ends, no block of the host is open, or there is a fault at its place. -/
theorem finish_settles {p : Nat} (hk : k.Fit r p) : r.Rests k.finish s s.Stood := by
  unfold finish
  split
  next span hspan =>
    obtain ⟨o, ho, hblock⟩ := exists_of_findSome?_eq_some hspan
    cases o with
    | statement statement => cases hblock
    | block id span' =>
      cases hblock
      exact .fail ((hk.blocks id span (mem_reverse.mp ho)).fault _)
  · split
    · refine .bind (.forM (I := s.Stood ()) rfl fun statement _ s1 h1 => ?_) fun _ _ _ h => .pure h
      exact makeReactive_settles.mono fun _ _ _ h => h.trans h1
    · exact .pure rfl

end Tracker

end

end Patchwork
