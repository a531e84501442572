import Patchwork.Proofs.StatementPlaces

/-!
# Regions in their places

What a region has noted of the document stays true while it is read: where its tracker begins, where
the style statement begins that is being read, and the blocks that are open (`Region.Noted`). A region
that reads on looks back at most over a backslash, which it has just read; a region that waits for a
child to end has none (`Region.step_settles`).

Every step but the last one reads a character.
-/

namespace Patchwork

open Compile TextHost Text Bool Scan Buffer Chain

variable {b : Bounds} {r : Stretch b} {E E' : Expansion} {s : Session} (hexpands : Expands r E E')

theorem Stretch.Settles.warnStray {inText : Bool} {at_ : Nat} {closed : Option Closed}
    (h : at_ + 1 ≤ b.limit) : r.Rests (Tracker.warnStray inText at_ closed) s s.Stood := by
  unfold Tracker.warnStray
  split
  · refine .session ?_
    split
    · exact .warn (Fault.upto_of_le (Nat.le_succ _) h)
    · exact .pure rfl
  · exact .pure rfl

/-! ## Comments and scripts -/

theorem Comment.step_settles (comment : Comment) :
    hexpands.Settles (@Comment.step · comment) s fun p s' => s.Reads s' "-->" p.2 := by
  refine .bind .find fun found s1 _ hfound => ?_
  rcases hfound with ⟨hnone, hend⟩ | ⟨d, -, hd, ⟨past, hpast, -⟩, hrest, hlt⟩
  · rw [hnone]
    exact .pure (.of_end hend (.refl _))
  rw [hd]
  split
  next hcase => cases hcase
  next hcase =>
    cases hcase
    refine .bind .scan fun closes s2 h2 hread => ?_
    rcases readText_cases hread with ⟨rfl, hends⟩ | ⟨rfl, -⟩
    · refine .pure ⟨by rintro ⟨⟩, fun _ => Nat.lt_of_le_of_lt h2.moved.length_le hlt, by rintro ⟨⟩,
        fun _ => ⟨found.before, ?_⟩⟩
      rw [hrest, hends]
      rfl
    · exact .pure (.next hlt h2.moved)
  next hcase =>
    cases hcase
    exact .bind (textMarker_settles hexpands _ hpast true) fun _ _ h2 _ => .pure (.next hlt h2.moved)

theorem Script.create_settles {attributes : Attributes} :
    r.Rests (create attributes) s fun _ _ => True := by
  unfold create
  split
  · exact .done (.onOutput rfl id)
  · exact .pure trivial

theorem Script.step_settles (script : Script) :
    hexpands.Settles (@Script.step · script) s fun p s' => s.Reads s' "<" p.2 := by
  refine .bind .find fun found s1 _ hfound => ?_
  rcases hfound with ⟨hnone, hend⟩ | ⟨d, -, hd, ⟨past, hpast, -⟩, hrest, hlt⟩
  · rw [hnone]
    exact .pure (.of_end hend (.refl _))
  rw [hd]
  split
  next hcase => cases hcase
  next hcase =>
    cases hcase
    refine .cursor ?_
    split
    · exact .pure (.tag hrest (by rintro ⟨⟩))
    · exact .pure (.next hlt (.refl _))
  next hcase =>
    cases hcase
    exact .bind (textMarker_settles hexpands _ hpast false) fun _ _ h2 _ => .pure (.next hlt h2.moved)

/-! ## Text -/

namespace Markup

variable {region : Markup}

theorem create_settles {children : Bool} {attributes : Attributes} :
    r.Rests (create children attributes) s fun m s' =>
      (∀ k ∈ m.statements, k.Fit r s'.cursor.position) ∧ m.chain.current = [] := by
  refine .position (.holding fun hs => .pure ⟨?_, rfl⟩)
  intro k hk
  split at hk
  · cases hk
    exact ⟨hs.cursor.place, nofun, trivial⟩
  · cases hk

/-- What a step leaves: the region fits the cursor, unless it ends or waits. -/
structure Stepped (r : Stretch b) (s s' : Session) (region : Markup) (step : Step) : Prop
    extends s.Reads s' "<" step where
  statements : ∀ k ∈ region.statements, k.Fit r s'.cursor.position
  escapes : step = .next → region.chain.current.Escapes s'.cursor
  calm : step = .child → region.chain.current.endsWith '\\' = false

theorem trackStatement_settles (region : Markup) {k : Tracker} (hk : k.Fit r s.cursor.position)
    (hhost : TextHost.Fit region.chain s.cursor) {c : Char} (hpeek : s.cursor.peek? = some c) :
    hexpands.Settles (@trackStatement · _ region k c) s fun m s' => Stepped r s s' m .next := by
  simp only [trackStatement_eq]
  refine .position (.holding fun hs => .bind (Tracker.dispatch_settles hexpands hk hhost hpeek) ?_)
  rintro ⟨k', chain, closed⟩ s1 _ h1
  refine .bind (.warnStray (hs.cursor.position_succ_le hpeek)) fun _ s2 _ h2 => .pure ?_
  refine ⟨.next h1.reads (h2 ▸ .refl _), ?_, fun _ => h2 ▸ h1.host.escapes, by rintro ⟨⟩⟩
  rintro _ ⟨⟩
  exact h2 ▸ h1.tracker

theorem character_settles (region : Markup) (hk : ∀ k ∈ region.statements, k.Fit r s.cursor.position)
    (hhost : TextHost.Fit region.chain s.cursor) {c : Char} (hpeek : s.cursor.peek? = some c) :
    hexpands.Settles (@character · region c) s fun p s' => Stepped r s s' p.1 p.2 := by
  refine .bind (.read hpeek) fun _ s1 h1 hrest => ?_
  have hlt : s1.cursor.rest.length < s.cursor.rest.length := by
    rw [hrest]
    exact Nat.lt_succ_self _
  have hk : ∀ {s2}, r.Goes s1 s2 → ∀ k ∈ region.statements, k.Fit r s2.cursor.position :=
    fun h k hmem => (hk k hmem).mono (h1.trans h).moved.position_le
  split
  · have hpast := h1.moved.past_eq (t := [c]) hrest
    refine .bind (textMarker_settles hexpands _ hpast true) fun chain s2 h2 hescapes => ?_
    exact .pure ⟨.next hlt h2.moved, hk h2, fun _ => hescapes, by rintro ⟨⟩⟩
  next hc =>
    have hc : c = '<' := by
      rwa [not_eq_true, bne_eq_false_iff_eq] at hc
    subst hc
    have hk1 := hk h1.holds.goes
    have hread : ∀ {step : Step}, step ≠ .eof → s.Reads s1 "<" step := .tag (t := []) hrest
    refine .cursor ?_
    split
    · refine .bind flush_settles ?_
      rintro chain s2 h2 ⟨hcursor, hcurrent⟩
      refine .pure ⟨.tag (t := []) (hcursor ▸ hrest) (by rintro ⟨⟩), hk h2, by rintro ⟨⟩, fun _ => ?_⟩
      rw [hcurrent]
      rfl
    · exact .output (.pure ⟨hread (by rintro ⟨⟩), hk1, by rintro ⟨⟩, fun _ => rfl⟩)
    · exact .pure ⟨hread (by rintro ⟨⟩), hk1, by rintro ⟨⟩, by rintro ⟨⟩⟩
    · exact .pure ⟨hread (by rintro ⟨⟩), hk1, fun _ => (hhost.pushText h1.moved hrest).escapes, by rintro ⟨⟩⟩

theorem step_settles (hk : ∀ k ∈ region.statements, k.Fit r s.cursor.position)
    (hescapes : region.chain.current.Escapes s.cursor) :
    hexpands.Settles (@step · _ region) s fun p s' => Stepped r s s' p.1 p.2 := by
  refine .bind .findAt ?_
  rintro found s1 h1 ⟨hbefore, hpeek⟩
  have hhost : TextHost.Fit (region.chain.pushText found.before) s1.cursor :=
    (show TextHost.Fit region.chain s.cursor from ⟨hescapes, trivial⟩).pushText h1.moved hbefore
  -- a step from where the search has stopped
  have hstepped : ∀ {s2 m step}, Stepped r s1 s2 m step → Stepped r s s2 m step := fun h =>
    ⟨.after h1.moved h.toReads, h.statements, h.escapes, h.calm⟩
  have hk : ∀ k ∈ region.statements, k.Fit r s1.cursor.position := fun k hmem =>
    (hk k hmem).mono h1.moved.position_le
  dsimp only
  cases hd : found.matched with
  | none =>
    exact .pure ⟨.of_end (List.head?_eq_none_iff.mp (hpeek.trans hd)) (.refl _), hk, by rintro ⟨⟩, by rintro ⟨⟩⟩
  | some d =>
  rw [hd] at hpeek
  have hcharacter := (character_settles hexpands { region with
    chain := region.chain.pushText found.before } hk hhost hpeek).mono fun _ _ _ h => hstepped h
  split
  next hcase => cases hcase
  next statements hcase hstatements =>
    cases hcase
    split
    · refine .bind (trackStatement_settles hexpands { region with
        chain := region.chain.pushText found.before } (hk _ hstatements) hhost hpeek) ?_
      exact fun m s2 _ h2 => .pure (hstepped h2)
    · exact hcharacter
  next hcase _ =>
    cases hcase
    exact hcharacter

theorem finish_settles {p : Nat} (hk : ∀ k ∈ region.statements, k.Fit r p) :
    r.Rests region.finish s s.Stood := by
  refine .bind flush_settles ?_
  rintro chain s1 - ⟨h1, -⟩
  cases hstatements : region.statements with
  | none => exact .pure h1
  | some k =>
    refine (Tracker.finish_settles (hk k hstatements)).discard.mono ?_
    rintro _ s2 - ⟨_, h2⟩
    exact h2.trans h1

end Markup

/-! ## Stylesheets -/

theorem Buffer.escapes_text {c c' : Cursor} {t : Text} (ps : Buffer)
    (hpast : c'.past = t.reverse ++ c.past) : Buffer.Escapes (.text t :: ps) c' := by
  intro hends
  have hends : t.getLast? = some '\\' := eq_of_beq hends
  rw [hpast, List.head?_append, List.head?_reverse, hends]
  rfl

namespace StyleBuffer

variable {buffer : StyleBuffer}

theorem noted_startAt {p at_ : Nat} (h : Placed.Noted buffer p) (hle : at_ ≤ p) :
    Placed.Noted (buffer.startAt at_) p := by
  intro start hstart
  have hstart : (buffer.start <|> some at_) = some start := hstart
  cases hold : buffer.start with
  | none =>
    rw [hold] at hstart
    cases hstart
    exact hle
  | some old =>
    rw [hold] at hstart
    cases hstart
    exact h _ hold

theorem fit_push {c c' : Cursor} {t : Text} {at_ : Nat} (h : TextHost.Fit buffer c)
    (hmoved : c.Moved c') (hrest : c.rest = t ++ c'.rest) (hle : at_ ≤ c'.position) :
    TextHost.Fit (buffer.push (.text t) at_) c' where
  escapes := escapes_text _ (hmoved.past_eq hrest)
  noted := noted_startAt (Placed.mono h.noted hmoved.position_le) hle

end StyleBuffer

namespace Stylesheet

variable {sheet : Stylesheet}

/-- What a step leaves: the region fits the cursor, unless it ends. -/
structure Stepped (r : Stretch b) (s s' : Session) (sheet : Stylesheet) (step : Step) : Prop
    extends s.Reads s' "<" step where
  statements : sheet.statements.Fit r s'.cursor.position
  noted : Placed.Noted sheet.buffer s'.cursor.position
  escapes : step = .next → sheet.buffer.pieces.Escapes s'.cursor
  childless : step ≠ .child

theorem joined_settles {pieces : List Piece} : r.Rests (joined pieces) s s.Stood :=
  .output (.pure rfl)

theorem takeStatement_settles : r.Rests sheet.takeStatement s fun p s' => s'.cursor = s.cursor ∧
      p.1 = { sheet with buffer := {} } ∧ p.2.2 = sheet.buffer.start :=
  .bind .emit fun _ _ _ h => .pure ⟨h, rfl, rfl⟩

theorem declarationValue_settles (value : List Piece) {span : Span} (hspan : span.Upto b.limit) :
    r.Rests (declarationValue value span) s s.Stood := by
  unfold declarationValue
  split
  · refine .output ?_
    split
    · exact .fail (hspan.fault _)
    · exact .fail (hspan.fault _)
    · exact .pure rfl
  · exact .bind joined_settles fun _ _ _ h => .pure h

/-- A statement is written in the region as it is. -/
structure Wrote (s s' : Session) (sheet sheet' : Stylesheet) : Prop where
  cursor : s'.cursor = s.cursor
  buffer : sheet'.buffer = sheet.buffer
  statements : sheet'.statements = sheet.statements

/-- Where the buffer is empty, the region fits the cursor. -/
theorem Wrote.fit {s' : Session} {sheet' : Stylesheet}
    (h : Wrote s s' { sheet with buffer := {} } sheet') : TextHost.Fit sheet'.buffer s'.cursor := by
  rw [h.buffer]
  exact ⟨escapes_nil _, nofun⟩

theorem writeDeclaration_settles (key value : List Piece) {span : Span} (hspan : span.Upto b.limit) :
    r.Rests (sheet.writeDeclaration key value span) s fun sheet' s' => Wrote s s' sheet sheet' := by
  refine .bind joined_settles fun keySource s1 _ h1 => ?_
  refine .bind (declarationValue_settles value hspan) ?_
  rintro ⟨valueSource, folded⟩ s2 - h2
  refine .bind .emit fun _ s3 _ h3 => ?_
  have h3 : s3.cursor = s.cursor := h3.trans (h2.trans h1)
  split
  · exact .pure ⟨h3, rfl, rfl⟩
  split
  · split
    · exact .pure ⟨h3, rfl, rfl⟩
    · exact .pure ⟨h3, rfl, rfl⟩
  · exact .pure ⟨h3, rfl, rfl⟩

theorem writeStatement_settles (body : List Piece) :
    r.Rests (sheet.writeStatement body) s fun sheet' s' => Wrote s s' sheet sheet' := by
  refine .bind joined_settles fun source s1 _ h1 => .bind .emit fun _ s2 _ h2 => ?_
  have h2 : s2.cursor = s.cursor := h2.trans h1
  split
  · split
    · exact .pure ⟨h2, rfl, rfl⟩
    · exact .pure ⟨h2, rfl, rfl⟩
  · exact .pure ⟨h2, rfl, rfl⟩

theorem endStatement_settles {stop : Nat} (hnoted : Placed.Noted sheet.buffer stop)
    (hstop : stop ≤ b.limit) :
    r.Rests (sheet.endStatement stop) s fun sheet' s' =>
      Wrote s s' { sheet with buffer := {} } sheet' := by
  refine .bind takeStatement_settles ?_
  rintro ⟨sheet1, body, start⟩ s1 - ⟨h1, hsheet, hstart⟩
  dsimp only at hsheet hstart ⊢
  subst hsheet hstart
  have hwrote : ∀ {s2 sheet'}, Wrote s1 s2 { sheet with buffer := {} } sheet' →
      Wrote s s2 { sheet with buffer := {} } sheet' := fun h =>
    ⟨h.cursor.trans h1, h.buffer, h.statements⟩
  split
  · exact .pure ⟨h1, rfl, rfl⟩
  split
  · exact .bind .emit fun _ s2 _ h2 => .pure ⟨h2.trans h1, rfl, rfl⟩
  · refine (writeDeclaration_settles _ _ ⟨?_, hstop⟩).mono fun _ _ _ h => hwrote h
    cases hstart : sheet.buffer.start with
    | none => exact Nat.le_refl _
    | some start => exact hnoted start hstart
  · exact (writeStatement_settles _).mono fun _ _ _ h => hwrote h

/-- The region fits the cursor. -/
structure Took (r : Stretch b) (s' : Session) (sheet : Stylesheet) : Prop where
  host : TextHost.Fit sheet.buffer s'.cursor
  statements : sheet.statements.Fit r s'.cursor.position

variable {at_ : Nat} (hk : sheet.statements.Fit r s.cursor.position)

section

variable (hnoted : Placed.Noted sheet.buffer s.cursor.position)
include hk hnoted

theorem pushMarker_settles (hle : at_ ≤ s.cursor.position) {marker : Char} {past : Text}
    (hpast : s.cursor.past = marker :: past) :
    hexpands.Settles (@pushMarker · sheet marker at_) s fun sheet' s' => Took r s' sheet' := by
  have hpushed : ∀ ps : Buffer, Buffer.Escapes (.text [marker] :: ps) s.cursor := fun ps =>
    escapes_text (c := { s.cursor with past }) ps hpast
  refine .cursor ?_
  split
  · exact .pure ⟨⟨hpushed _, StyleBuffer.noted_startAt hnoted hle⟩, hk⟩
  next hpeek =>
    have hpeek : s.cursor.peek? = some '{' := by
      rwa [not_eq_true, bne_eq_false_iff_eq] at hpeek
    split
    · refine .pure ⟨⟨hpushed _, ?_⟩, hk⟩
      exact StyleBuffer.noted_startAt (Placed.noted_setBuffer _ hnoted) hle
    refine .bind (readMarker_settles hexpands hpeek marker true) fun e s1 h1 _ => ?_
    have hle1 := h1.moved.position_le
    refine .pure ⟨⟨nofun, ?_⟩, hk.mono hle1⟩
    exact StyleBuffer.noted_startAt (Placed.mono hnoted hle1) (Nat.le_trans hle hle1)

theorem took_comment {s' : Session} (h : r.Goes s s') (comment : Text) : Took r s'
      { sheet with buffer := { sheet.buffer with pieces := .comment comment :: sheet.buffer.pieces } } :=
  ⟨⟨nofun, Placed.mono hnoted h.moved.position_le⟩, hk.mono h.moved.position_le⟩

theorem slash_settles (hat : s.cursor.position = at_ + 1) :
    r.Rests (sheet.slash at_) s fun sheet' s' => Took r s' sheet' := by
  refine .bind .scan fun star s1 h1 hread => ?_
  split
  next hstar =>
    have hposition : at_ + 2 ≤ s1.cursor.position := by
      rcases readIf_eq hread with ⟨-, hrest⟩ | ⟨hfalse, -⟩
      · rw [h1.moved.position_eq (t := ['*']) hrest, hat]
        exact Nat.le_refl _
      · rw [hfalse] at hstar
        cases hstar
    refine .cursor ?_
    split
    · refine .bind (.fail (Q := fun _ _ => False) (Fault.upto_of_le (Nat.le_add_right ..) ?_))
        fun _ _ _ h => h.elim
      exact Nat.le_trans hposition h1.holds.cursor.position_le
    exact .bind .scan fun _ s2 h2 _ => .pure (took_comment hk hnoted (h1.trans h2) _)
  · refine .cursor ?_
    split
    · exact .bind .scan fun _ s2 h2 _ => .pure (took_comment hk hnoted (h1.trans h2) _)
    have hle := h1.moved.position_le
    have hslash : endsWithChar '\\' ['/'] = false := by decide
    refine .pure ⟨⟨fun hends => ?_, ?_⟩, hk.mono hle⟩
    · exact absurd (hslash.symm.trans hends) false_ne_true
    · exact StyleBuffer.noted_startAt (Placed.mono hnoted hle) (by omega)

end

include hk

theorem openBlock_settles
    (hbraces : ∀ id span, r.Braces (.block id span :: sheet.statements.opened) s.cursor.position)
    (hnoted : Placed.Noted sheet.buffer at_) (hat : s.cursor.position = at_ + 1) :
    r.Rests (sheet.openBlock at_) s fun sheet' s' => Took r s' sheet' := by
  refine .holding fun hs => ?_
  have hstop : at_ + 1 ≤ b.limit := hat ▸ hs.cursor.position_le
  refine .bind takeStatement_settles ?_
  rintro ⟨sheet1, body, start⟩ s1 - ⟨h1, hsheet, hstart⟩
  subst hsheet hstart
  refine .output ?_
  split
  · exact .fail (Fault.upto_of_le (Nat.le_succ _) hstop)
  refine .bind (.onOutput rfl id) fun var s2 _ h2 => .bind .emit fun _ s3 _ h3 => ?_
  have h3 : s3.cursor = s.cursor := h3.trans (h2.trans h1)
  refine .pure ⟨⟨escapes_nil _, fun _ h => by cases h⟩, hk.start, ?_, h3 ▸ hbraces _ _⟩
  intro id span hspan
  cases hspan with
  | head =>
    refine ⟨?_, hstop⟩
    cases hstart : sheet.buffer.start with
    | none => exact Nat.le_succ _
    | some start => exact Nat.le_succ_of_le (hnoted start hstart)
  | tail _ hspan => exact hk.blocks id span hspan

variable (hhost : TextHost.Fit sheet.buffer s.cursor)
include hhost

theorem trackStatement_settles {c : Char} (hpeek : s.cursor.peek? = some c) :
    hexpands.Settles (@trackStatement · _ sheet c s.cursor.position) s fun sheet' s' =>
        Took r s' sheet' ∧ s'.cursor.rest.length < s.cursor.rest.length := by
  simp only [trackStatement_eq]
  refine .holding fun hs => .bind (Tracker.dispatch_settles hexpands hk hhost hpeek) ?_
  rintro ⟨statements, buffer, closed⟩ s1 hgoes h1
  refine .bind (.warnStray (hs.cursor.position_succ_le hpeek)) fun _ s2 _ h2 => .pure ?_
  refine ⟨⟨?_, h2 ▸ h1.tracker⟩, h2 ▸ h1.reads⟩
  have hhost : TextHost.Fit buffer s2.cursor := h2 ▸ h1.host
  unfold tracked
  split
  · exact ⟨hhost.escapes, StyleBuffer.noted_startAt hhost.noted (h2 ▸ hgoes.moved.position_le)⟩
  · exact hhost

theorem character_settles {c : Char} (hpeek : s.cursor.peek? = some c) :
    hexpands.Settles (@character · sheet c s.cursor.position) s
      fun p s' => Stepped r s s' p.1 p.2 := by
  have hposition : ∀ {s1 : Session}, r.Goes s s1 → s.cursor.rest = c :: s1.cursor.rest →
      s1.cursor.position = s.cursor.position + c.utf8Size := fun h hrest =>
    h.moved.position_eq (t := [c]) hrest
  unfold character
  split
  next hquote =>
    refine .bind .scan fun literal s1 h1 hread => ?_
    have hhost1 := StyleBuffer.fit_push hhost h1.moved (lexeme_eq hread) h1.moved.position_le
    exact .pure ⟨.next (skipString_lt (Bool.or_eq_true_iff.mpr (.inl hquote)) hpeek hread) (.refl _),
      hk.mono h1.moved.position_le, hhost1.noted, fun _ => hhost1.escapes, by rintro ⟨⟩⟩
  · refine .holding fun hs => .bind (.read hpeek) fun _ s1 h1 hrest => ?_
    have hlt : s1.cursor.rest.length < s.cursor.rest.length := by
      rw [hrest]
      exact Nat.lt_succ_self _
    have hnoted : Placed.Noted sheet.buffer s1.cursor.position :=
      Placed.mono hhost.noted h1.moved.position_le
    have hstepped : ∀ {sheet' s2}, r.Goes s1 s2 → Took r s2 sheet' → Stepped r s s2 sheet' .next :=
      fun h h2 => ⟨.next hlt h.moved, h2.statements, h2.host.noted,
        fun _ => h2.host.escapes, by rintro ⟨⟩⟩
    have hpast := h1.moved.past_eq (t := [c]) hrest
    have hk1 := hk.mono h1.moved.position_le
    refine .cursor ?_
    split
    next hc =>
      obtain rfl := eq_of_beq (Bool.and_eq_true_iff.mp hc).1
      exact .pure ⟨.tag (t := []) hrest (by rintro ⟨⟩), hk1, hnoted, by rintro ⟨⟩, by rintro ⟨⟩⟩
    split
    · refine .bind (pushMarker_settles hexpands hk1 hnoted h1.moved.position_le hpast) ?_
      exact fun _ _ h2 ht => .pure (hstepped h2 ht)
    split
    next hc =>
      obtain rfl := eq_of_beq hc
      refine .bind (slash_settles hk1 hnoted (hposition h1 hrest)) ?_
      exact fun _ _ h2 ht => .pure (hstepped h2 ht)
    split
    next hc =>
      obtain rfl := eq_of_beq hc
      have hbraces : ∀ id span, r.Braces (.block id span :: sheet.statements.opened) _ := fun _ _ =>
        hk.braces.push hs.cursor h1.moved fun _ => hrest
      refine .bind (openBlock_settles hk1 hbraces hhost.noted (hposition h1 hrest)) ?_
      exact fun _ _ h2 ht => .pure (hstepped h2 ht)
    · split
      next hc =>
        obtain rfl := eq_of_beq hc
        have hat : s1.cursor.position = s.cursor.position + 1 := hposition h1 hrest
        rw [hat] at hnoted
        have hstop : s.cursor.position + 1 ≤ b.limit := hat ▸ h1.holds.cursor.position_le
        refine .bind (endStatement_settles hnoted hstop) fun sheet' s2 h2 hw => ?_
        exact .pure (hstepped h2 ⟨hw.fit, hw.cursor ▸ hw.statements ▸ hk1⟩)
      · have hhost1 := StyleBuffer.fit_push hhost h1.moved (t := [c]) hrest h1.moved.position_le
        exact .pure (hstepped h1.holds.goes ⟨hhost1, hk1⟩)

theorem step_settles : hexpands.Settles (@step · _ sheet) s fun p s' => Stepped r s s' p.1 p.2 := by
  refine .bind .findAt ?_
  rintro found s1 h1 ⟨hbefore, hpeek⟩
  refine .position ?_
  dsimp only
  generalize hbuffer : (if allBlank found.before then
    { sheet.buffer with pieces := sheet.buffer.pieces.pushText found.before } else
    StyleBuffer.startAt { sheet.buffer with pieces := sheet.buffer.pieces.pushText found.before }
      (s1.cursor.position - bytes (trimStart found.before))) = buffer
  have hpushed : TextHost.Fit (TextHost.pushText sheet.buffer found.before) s1.cursor :=
    hhost.pushText h1.moved hbefore
  have hhost1 : TextHost.Fit buffer s1.cursor := by
    rw [← hbuffer]
    split
    · exact hpushed
    · exact ⟨hpushed.escapes, StyleBuffer.noted_startAt hpushed.noted (Nat.sub_le ..)⟩
  have hk1 := hk.mono h1.moved.position_le
  cases hd : found.matched with
  | none =>
    have hend := List.head?_eq_none_iff.mp (hpeek.trans hd)
    exact .pure ⟨.of_end hend (.refl _), hk1, hhost1.noted, by rintro ⟨⟩, by rintro ⟨⟩⟩
  | some d =>
  rw [hd] at hpeek
  refine .bindEither (P := fun sheet' s' => s'.cursor = s1.cursor ∧
    TextHost.Fit sheet'.buffer s'.cursor ∧ sheet'.statements.Fit r s'.cursor.position) (fun _ => ?_)
    (fun _ => .pure ⟨rfl, hhost1, hk1⟩) ?_
  · refine (endStatement_settles hhost1.noted h1.holds.cursor.position_le).mono fun _ _ _ h2 => ?_
    exact ⟨h2.cursor, h2.fit, h2.cursor ▸ h2.statements ▸ hk1⟩
  rintro sheet' s2 h2 ⟨hcursor, hhost2, hk2⟩
  have hpeek2 : s2.cursor.peek? = some d := hcursor ▸ hpeek
  have h2 := (h1.trans h2).moved
  rw [← hcursor]
  split
  · refine .bind (trackStatement_settles hexpands hk2 hhost2 hpeek2) ?_
    rintro sheet'' s3 - ⟨h3, hlt⟩
    exact .pure ⟨.after h2 (.next hlt (.refl _)), h3.statements, h3.host.noted,
      fun _ => h3.host.escapes, by rintro ⟨⟩⟩
  refine (character_settles hexpands hk2 hhost2 hpeek2).mono fun p s3 _ h3 => ?_
  exact ⟨.after h2 h3.toReads, h3.statements, h3.noted, h3.escapes, h3.childless⟩

omit hk hhost

theorem create_settles {attributes : Attributes} :
    r.Rests (create attributes) s fun sheet s' =>
      sheet.statements.Fit r s'.cursor.position ∧ sheet.buffer = {} :=
  .bind (.onOutput rfl id) fun _ _ h1 _ =>
    .position (.pure ⟨⟨h1.holds.cursor.place, nofun, trivial⟩, rfl⟩)

theorem start_settles : r.Rests sheet.start s fun sheet' s' => Wrote s s' sheet sheet' :=
  .bind .mark fun _ _ _ h1 => .output (.bind .emit fun _ _ _ h2 => .bind .addSlot fun _ _ _ h3 =>
    .pure ⟨h3.trans (h2.trans h1), rfl, rfl⟩)

theorem finish_settles (hk : sheet.statements.Fit r s.cursor.position)
    (hnoted : Placed.Noted sheet.buffer s.cursor.position) :
    r.Rests sheet.finish s s.Stood := by
  refine .bind (StyleBuffer.flush_settles hnoted) ?_
  rintro _ s1 - ⟨h1, -⟩
  refine .bind (Tracker.finish_settles hk) ?_
  rintro ⟨_, reactive⟩ s2 - h2
  have h2 : s2.cursor = s.cursor := h2.trans h1
  refine .session ?_
  split
  · exact Stretch.Settles.replaceSince.mono fun _ _ _ h => h.trans h2
  cases sheet.head with
  | none => exact Stretch.Settles.emit.mono fun _ _ _ h => h.trans h2
  | some head =>
    refine .bind .edit fun _ s3 _ h3 => ?_
    exact Stretch.Settles.emit.mono fun _ _ _ h => h.trans (h3.trans h2)

end Stylesheet

/-! ## Regions of any mode -/

namespace Region

def Noted (r : Stretch b) (p : Nat) : Region → Prop
  | markup m => ∀ k ∈ m.statements, k.Fit r p
  | stylesheet sheet => Placed.Noted sheet.buffer p ∧ sheet.statements.Fit r p
  | _ => True

/-- What the region ends with: the `<` of its closing tag, or the end of a comment. -/
def closer : Region → Text
  | comment _ => "-->"
  | _ => "<"

/-- Does the text that the region has buffered end in a backslash? -/
def escaped : Region → Bool
  | markup m => m.chain.current.endsWith '\\'
  | stylesheet sheet => sheet.buffer.pieces.endsWith '\\'
  | _ => false

variable {region : Region}

theorem Noted.mono {p q : Nat} (h : region.Noted r p) (hle : p ≤ q) : region.Noted r q := by
  cases region with
  | markup m => exact fun k hk => (h k hk).mono hle
  | stylesheet sheet => exact ⟨Placed.mono h.1 hle, h.2.mono hle⟩
  | _ => exact h

/-- What a step leaves: a region that reads on has just read a backslash if it has one, and a region
that waits has none. -/
structure Stepped (r : Stretch b) (s s' : Session) (region : Region) (step : Step) : Prop
    extends s.Reads s' region.closer step where
  noted : region.Noted r s'.cursor.position
  escapes : step = .next → region.escaped = true → s'.cursor.past.head? = some '\\'
  calm : step = .child → region.escaped = false

/-- A region that waits: what it has noted lies before the cursor, and it has no backslash. -/
structure Calm (r : Stretch b) (region : Region) (s : Session) : Prop where
  noted : region.Noted r s.cursor.position
  calm : region.escaped = false

theorem create_settles {spec : ModeSpec} {attributes : Attributes} :
    r.Rests (create spec attributes) s (Calm r) := by
  have hmarkup : ∀ {children s1},
      r.Rests (Markup.create children attributes >>= fun m => pure (markup m)) s1 (Calm r) := by
    refine .bind Markup.create_settles ?_
    rintro m s2 - ⟨hk, hcurrent⟩
    refine .pure ⟨hk, ?_⟩
    show m.chain.current.endsWith '\\' = false
    rw [hcurrent]
    rfl
  refine .bind .options fun _ s1 _ _ => ?_
  split
  · exact .pure ⟨trivial, rfl⟩
  · exact hmarkup
  · exact hmarkup
  · exact .bind Script.create_settles fun _ _ _ _ => .pure ⟨trivial, rfl⟩
  · refine .bind Stylesheet.create_settles ?_
    rintro sheet s2 - ⟨hk, hbuffer⟩
    refine .pure ⟨⟨?_, hk⟩, ?_⟩
    · rw [hbuffer]
      rintro _ ⟨⟩
    · show sheet.buffer.pieces.endsWith '\\' = false
      rw [hbuffer]
      rfl
  · exact .pure ⟨trivial, rfl⟩

theorem start_settles (h : region.Calm r s) : r.Rests region.start s (Calm r) := by
  cases region with
  | stylesheet sheet =>
    refine .bind Stylesheet.start_settles fun sheet' s1 _ h1 => ?_
    refine .pure ⟨⟨?_, h1.cursor ▸ h1.statements ▸ h.noted.2⟩, ?_⟩
    · rw [h1.buffer, h1.cursor]
      exact h.noted.1
    · show sheet'.buffer.pieces.endsWith '\\' = false
      rw [h1.buffer]
      exact h.calm
  | _ => exact .pure ⟨h.noted, h.calm⟩

theorem step_settles (hnoted : region.Noted r s.cursor.position)
    (hescapes : region.escaped = true → s.cursor.past.head? = some '\\') :
    hexpands.Settles (@step · _ region) s fun p s' => Stepped r s s' p.1 p.2 := by
  cases region with
  | code code =>
    refine .bind (Code.step_settles hexpands.inner code) ?_
    exact fun _ _ _ h1 => .pure ⟨h1, trivial, fun _ => nofun, fun _ => rfl⟩
  | markup m =>
    refine .bind (Markup.step_settles hexpands hnoted hescapes) ?_
    exact fun _ _ _ h1 => .pure ⟨h1.toReads, h1.statements, h1.escapes, h1.calm⟩
  | script script =>
    refine .bind (Script.step_settles hexpands script) ?_
    exact fun _ _ _ h1 => .pure ⟨h1, trivial, fun _ => nofun, fun _ => rfl⟩
  | stylesheet sheet =>
    refine .bind (Stylesheet.step_settles hexpands hnoted.2 ⟨hescapes, hnoted.1⟩) ?_
    exact fun _ _ _ h1 => .pure
      ⟨h1.toReads, ⟨h1.noted, h1.statements⟩, h1.escapes, fun h => absurd h h1.childless⟩
  | comment comment =>
    refine .bind (Comment.step_settles hexpands comment) ?_
    exact fun _ _ _ h1 => .pure ⟨h1, trivial, fun _ => nofun, fun _ => rfl⟩

theorem finish_settles (hnoted : region.Noted r s.cursor.position) :
    r.Rests region.finish s fun _ _ => True := by
  cases region with
  | code code => exact Code.commit_settles.discard.mono fun _ _ _ _ => trivial
  | markup m => exact (Markup.finish_settles hnoted).mono fun _ _ _ _ => trivial
  | script script => exact flush_settles.discard.mono fun _ _ _ _ => trivial
  | stylesheet sheet =>
    exact (Stylesheet.finish_settles hnoted.2 hnoted.1).mono fun _ _ _ _ => trivial
  | comment comment => exact .pure trivial

/-- A region that has waited goes on after the comment. -/
theorem accept_settles (h : region.Calm r s) (l : Link) : r.Rests (region.accept l) s (Calm r) := by
  have hemit : r.Rests (output >>= fun o => emit (Link.render o [l]) >>= fun _ => pure region) s
      (Calm r) :=
    .output (.bind .emit fun _ _ _ h1 => .pure ⟨h1 ▸ h.noted, h.calm⟩)
  cases region with
  | markup m => exact .output (.pure ⟨h.noted, rfl⟩)
  | _ => exact hemit

end Region

end Patchwork
