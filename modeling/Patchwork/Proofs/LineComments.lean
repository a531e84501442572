import Patchwork.Proofs.Reactive
import Patchwork.Proofs.StyleFolding

/-!
# Line comments in stylesheets

The code of a stylesheet keeps the comments of its source. A line comment ends with its line there
too, so that whatever is written after it on the same line is lost.

A line comment is read up to its line break, which is text again. So after each line comment that
has been read there is a line break, or the comment is last and a line break or nothing comes next.
This is the invariant (`Buffer.Lined`, `Stylesheet.Lined`), and it holds at every step of a document
(`Document.lined_stylesheetAfter`).

What has been read comes into the code in two ways (`Stylesheet.Copies`). Blanks and comments before
control flow, before the brace of a block and at the end of the region are copied whole, with their
line breaks. A style statement copies its leading blanks and then its comments, without what was
between and after them, and its call follows. There a line comment takes the call into its line
(`Document.line_comment_swallows_select`).
-/

namespace Patchwork

open Compile List Text Option Output Buffer

/-! ## Pieces and their line comments -/

namespace Piece

def isLineComment : Piece → Bool
  | comment c => startsWith "//" c
  | text _ | expr _ => false

def breaksLine : Piece → Bool
  | text t => t.head? == some '\n'
  | comment _ | expr _ => false

end Piece

namespace Buffer

/-- After every line comment but a last one there is text, and it begins with a line break. -/
def Lined (b : Buffer) : Prop :=
  b.IsChain fun after before => before.isLineComment = true → after.breaksLine = true

def endsInLine (b : Buffer) : Bool :=
  b.head?.any Piece.isLineComment

/-- After every line comment there is text, and it begins with a line break. -/
structure Apart (b : Buffer) : Prop where
  lined : b.Lined
  ends : b.endsInLine = false

/-- The comments, in the order they were read. -/
def comments (b : Buffer) : List Text :=
  b.pieces.filterMap Piece.comment?

variable {b : Buffer} {p : Piece} {t : Text}

theorem comments_cons (p : Piece) (b : Buffer) :
    comments (p :: b) = comments b ++ p.comment?.toList := by
  rw [comments, pieces, reverse_cons, filterMap_append]
  cases p <;> rfl

theorem comments_pushText (b : Buffer) (t : Text) : comments (b.pushText t) = comments b := by
  unfold pushText
  split
  · rfl
  split
  · rw [comments_cons, comments_cons]; rfl
  · rw [comments_cons]; exact append_nil _

theorem comments_unescape (b : Buffer) : comments b.unescape = comments b := by
  unfold unescape
  split
  · split
    · rw [comments_cons, comments_cons]; rfl
    · rfl
  · rfl

theorem endsInLine_pushText (b : Buffer) (ht : t ≠ []) : endsInLine (b.pushText t) = false := by
  unfold pushText
  split
  next h => exact absurd (List.isEmpty_iff.mp h) ht
  · split <;> rfl

theorem endsInLine_unescape (b : Buffer) : endsInLine b.unescape = endsInLine b := by
  unfold unescape
  split
  · split <;> rfl
  · rfl

theorem endsInLine_of_endsWith {c : Char} (h : b.endsWith c = true) : b.endsInLine = false := by
  unfold endsWith at h
  split at h
  · rfl
  · cases h

namespace Lined

theorem nil : Lined [] := List.IsChain.nil

theorem push (h : b.Apart) (p : Piece) : Lined (p :: b) := by
  refine isChain_cons.mpr ⟨fun before hbefore hline => ?_, h.lined⟩
  have hend := h.ends
  rw [endsInLine, mem_def.mp hbefore] at hend
  exact absurd (hend.symm.trans hline) Bool.false_ne_true

theorem replace {last : Text} (h : Lined (.text last :: b))
    (hhead : last.head? = some '\n' → t.head? = some '\n') : Lined (.text t :: b) := by
  obtain ⟨hfirst, hrest⟩ := isChain_cons.mp h
  refine isChain_cons.mpr ⟨fun before hbefore hline => ?_, hrest⟩
  exact beq_iff_eq.mpr (hhead (beq_iff_eq.mp (hfirst before hbefore hline)))

theorem pushText (h : b.Lined) (ht : b.endsInLine = true → ∀ c ∈ t.head?, c = '\n') :
    Lined (b.pushText t) := by
  unfold Buffer.pushText
  split
  · exact h
  next hne =>
    split
    next last ps =>
      refine h.replace fun hlast => ?_
      obtain ⟨last, rfl⟩ := head?_eq_some_iff.mp hlast
      rfl
    refine isChain_cons.mpr ⟨fun before hbefore hline => ?_, h⟩
    have hend : b.endsInLine = true := by
      rw [endsInLine, mem_def.mp hbefore]
      exact hline
    cases t with
    | nil => exact absurd rfl hne
    | cons c t =>
      obtain rfl := ht hend c rfl
      rfl

theorem unescape (h : b.Lined) : Lined b.unescape := by
  unfold Buffer.unescape
  split
  next last ps =>
    split
    next hends =>
      refine h.replace fun hlast => ?_
      -- a line break is no backslash, so it is not the last character
      obtain ⟨front, rfl⟩ := getLast?_eq_some_iff.mp (eq_of_beq hends)
      rw [dropLast_concat]
      cases front with
      | nil => cases hlast
      | cons c front => exact hlast
    · exact h
  · exact h

end Lined

namespace Apart

theorem nil : Apart [] := ⟨.nil, rfl⟩

theorem pushText (h : b.Apart) : Apart (b.pushText t) := by
  refine ⟨h.lined.pushText fun htrue => absurd (h.ends.symm.trans htrue) Bool.false_ne_true, ?_⟩
  cases t with
  | nil => exact h.ends
  | cons c t => exact b.endsInLine_pushText (cons_ne_nil c t)

theorem unescape (h : b.Apart) : Apart b.unescape :=
  ⟨h.lined.unescape, b.endsInLine_unescape.trans h.ends⟩

end Apart
end Buffer

/-- After every line comment there is a line break in what is copied. -/
def Followed (ps : List Piece) : Prop :=
  ∀ front c back, ps = front ++ .comment c :: back → startsWith "//" c = true →
    '\n' ∈ back.flatMap StyleBuffer.blankPiece

theorem Buffer.Apart.followed {b : Buffer} (h : b.Apart) : Followed (Buffer.pieces b) := by
  intro front c back heq hline
  have hchain : (front ++ .comment c :: back).IsChain fun before after =>
      before.isLineComment = true → after.breaksLine = true := by
    rw [← heq]
    exact isChain_reverse.mpr h.lined
  cases back with
  | nil =>
    have hend := h.ends
    rw [← reverse_reverse b, show b.reverse = _ from heq, reverse_concat] at hend
    exact absurd (hend.symm.trans hline) Bool.false_ne_true
  | cons after back =>
    have hbreaks := (isChain_cons_cons.mp (isChain_append.mp hchain).2.1).1 hline
    cases after with
    | comment | expr => cases hbreaks
    | text t =>
      obtain ⟨t, rfl⟩ := head?_eq_some_iff.mp (beq_iff_eq.mp hbreaks)
      exact mem_cons_self

/-! ## What is copied before a call -/

namespace StyleStatement

theorem comments_foldl (ps : List Piece) : ∀ parts : Parts,
    (ps.foldl Parts.add parts).comments = parts.comments ++ ps.filterMap Piece.comment? := by
  induction ps with
  | nil => exact fun parts => (append_nil _).symm
  | cons p ps ih =>
    intro parts
    rw [foldl_cons, ih]
    cases p with
    | comment c => exact append_assoc parts.comments [c] _
    | expr e => rfl
    | text t =>
      rw [Parts.add]
      split <;> rfl

theorem split_comments (b : Buffer) : (split b.pieces).comments = b.comments := comments_foldl _ {}

theorem allBlank_of_trimStart {t : Text} (h : allBlank (trimStart t) = true) :
    allBlank t = true := by
  have hall : (t.takeWhile Text.isBlank ++ t.dropWhile Text.isBlank).all Text.isBlank = true :=
    all_append.trans (Bool.and_eq_true_iff.mpr ⟨all_takeWhile, h⟩)
  rwa [takeWhile_append_dropWhile] at hall

theorem isBlank_of_body {b : Buffer} (h : (split b.pieces).body = []) :
    b.all Piece.isBlank = true := by
  rw [body_split, trimEnd, reverse_eq_nil_iff, trimBack_eq] at h
  have hend : ∀ t, allBlank (Text.trimEnd t) = true → allBlank t = true := by
    intro t ht
    rw [← t.trimEnd_append_blankEnd, allBlank, all_append]
    exact Bool.and_eq_true_iff.mpr ⟨ht, t.allBlank_blankEnd⟩
  have hblank := isBlank_of_trimHead hend (h ▸ forall_mem_nil _)
  have hall := isBlank_of_trimHead (fun _ => allBlank_of_trimStart) fun p hp =>
    hblank p (mem_reverse.mpr hp)
  refine all_eq_true.mpr fun p hp => ?_
  cases p with
  | comment => rfl
  | text | expr => exact hall _ (mem_filter.mpr ⟨mem_reverse.mpr hp, rfl⟩)

end StyleStatement

/-- What is copied before the call of a statement: the blanks that lead it, and its comments one
after the other. -/
def Buffer.lead (b : Buffer) : Text :=
  (StyleStatement.split b.pieces).leading ++ b.comments.flatten

/-! ## Text that is added -/

theorem Slot.value_of_unresolved? (slot : Slot) {fault : Fault}
    (h : slot.unresolved? = some fault) : slot.value = none := by
  unfold unresolved? at h
  split at h
  · cases h
  next hvalue =>
    rw [Bool.or_eq_true, not_or] at hvalue
    exact not_isSome_iff_eq_none.mp hvalue.2

theorem flatMap_content_modify {f : Option Text → Text} (nodes : List Node) : ∀ {i : Nat},
    (∀ slot, nodes[i]? = some (.slot slot) → f slot.value = slot.value.getD []) →
    (nodes.modify i (Node.update f)).flatMap Node.content = nodes.flatMap Node.content := by
  induction nodes with
  | nil =>
    intro i _
    rw [modify_nil]
  | cons node nodes ih =>
    intro i hi
    cases i with
    | succ i => rw [modify_succ_cons, flatMap_cons, flatMap_cons, ih hi]
    | zero =>
      rw [modify_zero_cons, flatMap_cons]
      congr 1
      cases node with
      | text t => rfl
      | slot slot =>
        rw [Node.update]
        split
        · rfl
        · exact hi slot rfl

/-- An edit of a slot that holds the same afterwards does not show in the code. -/
theorem Output.finish_edit {o : Output} {e : Edit}
    (h : ∀ slot, o.slot? e.slot = some slot → e.change.apply slot.value = slot.value.getD []) :
    (o.edit e).finish = o.finish := by
  unfold edit update
  split
  next i hplace =>
    refine flatMap_content_modify o.nodes fun slot hslot => h slot ?_
    rw [slot?, place?, hplace, bind_some, hslot]
    rfl
  · rfl

namespace Session

def Adds (s : Session) (t : Text) (s' : Session) : Prop :=
  ∃ more, s'.output.finish = s.output.finish ++ (t ++ more)

namespace Adds

variable {s s1 s' : Session} {t u : Text}

theorem of_eq (h : s'.output.finish = s.output.finish ++ t) : s.Adds t s' :=
  ⟨[], by rw [h, append_nil]⟩

theorem of_wrote (h : s.Wrote s') : s.Adds [] s' := by
  obtain ⟨t, hnodes, -⟩ := h.output
  refine ⟨t, ?_⟩
  rw [Output.finish, hnodes]
  exact finish_add _ _

theorem andThen (h : s.Adds t s1) (h' : s1.Adds [] s') : s.Adds t s' := by
  obtain ⟨more, h⟩ := h
  obtain ⟨rest, h'⟩ := h'
  exact ⟨more ++ rest, by rw [h', h]; simp⟩

theorem after (h : s.output.finish ++ t = s1.output.finish) (h' : s1.Adds u s') :
    s.Adds (t ++ u) s' := by
  obtain ⟨more, h'⟩ := h'
  exact ⟨more, by rw [h', ← h]; simp⟩

theorem read (h : s1.Adds t s') (hw : s1.written = s.written) : s.Adds t s' := by
  rw [Adds, ← (Prod.mk.inj hw).1]
  exact h

/-- Nor does reading on after. -/
theorem ended (h : s.Adds t s1) (hw : s'.written = s1.written) : s.Adds t s' := by
  rw [Adds, (Prod.mk.inj hw).1]
  exact h

theorem left (h : s.Adds (t ++ u) s') : s.Adds t s' := by
  obtain ⟨more, h⟩ := h
  exact ⟨u ++ more, by rw [h, append_assoc t]⟩

end Adds
end Session

abbrev Act.adding : List Act :=
  [.read, .text, .slot]

theorem Session.Steps.adds {s s' : Session} (h : s.Steps Act.adding s') : s.Adds [] s' := by
  induction h with
  | refl => exact .of_eq (append_nil _).symm
  | warn _ faults ih => exact ih
  | @act s1 _ _ _ hact hdoes ih =>
    refine ih.andThen ?_
    cases hdoes with
    | read => exact .of_eq (append_nil _).symm
    | text t => exact ⟨t, finish_add _ _⟩
    | slot slot =>
      refine ⟨slot.value.getD [], ?_⟩
      show (s1.output.nodes ++ [Node.slot slot]).flatMap Node.content = _
      rw [flatMap_append, flatMap_singleton]
      rfl
    | scope | freshVar | freshId | edit | mark | cut => exact absurd hact (by decide)

theorem Agree.of_adding {α : Type} (x : Compile α) [hx : Made Act.adding x] (s : Session) :
    Gives x s fun _ s' => s.Adds [] s' :=
  ⟨rfl, fun _ _ h => (hx.steps h).adds⟩

namespace Tracker

/-- Opening a branch copies all that has been read. -/
theorem openPart_adds (k : Tracker) (b : StyleBuffer) (keyword : Keyword)
    (continued : Option Statement) (s : Session) :
    Gives (k.openPart b keyword continued) s fun _ s' => b.isBlank = true ∧ s.Adds b.copy s' := by
  refine (b.boundary_copies s).bind ?_
  rintro _ _ ⟨rfl, hblank, rfl⟩
  refine Agree.mono (@Agree.of_adding _ _ ?_ _) fun _ s' h =>
    ⟨hblank, (Session.Adds.of_eq (finish_add _ _)).andThen h⟩
  cases continued with
  | none | some => exact .bind fun start => .bind fun o => inferInstance

theorem declaration_adds (b : StyleBuffer) (word : Text) (closing : List Char) (s : Session) :
    Gives (declaration b word closing) s fun _ s' => b.isBlank = true ∧ s.Adds b.copy s' := by
  refine (b.boundary_copies s).bind ?_
  rintro _ _ ⟨rfl, hblank, rfl⟩
  -- from here on it goes as it does with nothing to copy
  refine ⟨rfl, fun host s' h => ⟨hblank, ?_⟩⟩
  have hrest : declaration ({} : StyleBuffer) word closing
      { s with output := s.output.add b.copy } = .ok (host, s') := h
  exact (Session.Adds.of_eq (finish_add _ _)).andThen
    (.of_wrote (.of_made hrest))

section

variable {s : Session} {old : Moment} {front : List Node} {ids held : List SlotId}
  {waiting : List (SlotId × Fault)}

/-- Closing a branch adds its brace. The slot that it fills has waited, and holds nothing. -/
theorem closePart_adds {st : Statement} (hz : s.InZone old front ids (waiting ++ [st.waiting])) :
    Gives (closePart st) s fun _ s' => s.Adds "\x7d" s' := by
  have hfinish : (s.output.edit ⟨st.last.declStart, .set []⟩).finish = s.output.finish := by
    refine finish_edit fun slot hslot => ?_
    obtain ⟨slot', hslot', hfault⟩ :=
      hz.output.zone.unresolved (mem_append_right _ (mem_singleton_self st.waiting))
    rw [slot?_eq hz.output.placed] at hslot
    obtain rfl : slot = slot' := Option.some.inj (hslot.symm.trans hslot')
    rw [slot.value_of_unresolved? hfault]
    rfl
  have hedit : Gives (Editor.edit ⟨st.last.declStart, .set []⟩) s fun _ s1 =>
        s1.output.finish = s.output.finish := .of_eq rfl hfinish
  refine hedit.bind fun _ s1 h1 => ?_
  have hslot : Gives (onOutput (·.addSlot ('\x7d' :: st.trailer))) s1 fun _ s2 =>
        s2.output.finish = s1.output.finish ++ '\x7d' :: st.trailer := by
    refine .of_eq rfl ?_
    show (s1.output.nodes ++ [Node.slot _]).flatMap Node.content = _
    rw [flatMap_append, flatMap_singleton]
    rfl
  exact hslot.bind fun close s2 h2 => .pure ⟨st.trailer, h2.trans (by rw [h1]; rfl)⟩

/-- Closing the innermost thing that is open copies all that has been read. A branch gets its brace
right after it. -/
theorem close_adds {k : Tracker} (hk : k.Sound old front held s) (b : StyleBuffer)
    (atLineBreak : Bool) :
    Gives (k.close b atLineBreak) s fun p s' =>
      b.isBlank = true ∧ s.Adds b.copy s' ∧
      (k.inlineOpen = true → s.Adds (b.copy ++ "\x7d") s') ∧
      ∃ t, p.2.1.pieces = Buffer.pushText [] t := by
  refine (b.boundary_copies s).bind ?_
  rintro _ _ ⟨rfl, hblank, rfl⟩
  have hcopy : s.Adds b.copy { s with output := s.output.add b.copy } :=
    .of_eq (finish_add _ _)
  have hnotInline : ∀ {opened}, k.opened = opened → (∀ st rest, opened ≠ .statement st :: rest) →
      k.inlineOpen ≠ true := by
    intro opened hopened hne h
    unfold inlineOpen at h
    split at h
    next st rest heq => exact hne st rest (hopened.symm.trans heq)
    · cases h
  split
  next heq =>
    refine .pure ⟨hblank, hcopy, fun h => absurd h (hnotInline heq ?_), [], rfl⟩
    exact fun _ _ h => by cases h
  next heq =>
    refine .pure ⟨hblank, hcopy, fun h => absurd h (hnotInline heq ?_), [], rfl⟩
    exact fun _ _ h => by cases h
  next st opened heq =>
    have hcons : k = { k with opened := .statement st :: opened } := by rw [← heq]
    rw [hcons] at hk
    obtain ⟨-, -, -, hz⟩ := sound_cons_statement.mp hk
    have hz1 : ({ s with output := s.output.add b.copy } : Session).InZone _ _ _ _ :=
      hz.wrote ⟨.add _ _, .refl _⟩
    extract_lets k' b'
    refine (closePart_adds hz1).bind fun st' s2 h2 => ?_
    have hbrace : s.Adds (b.copy ++ "\x7d") s2 := h2.after (finish_add _ _).symm
    refine (Agree.of_adding cursor s2).bind fun cur s3 h3 => ?_
    have hb' : ∃ t, b'.pieces = Buffer.pushText [] t := by
      unfold b'
      split
      · exact ⟨"\n", rfl⟩
      · exact ⟨[], rfl⟩
    have hdone : ∀ {s'}, s3.Adds [] s' → b.isBlank = true ∧ s.Adds b.copy s' ∧
        (k.inlineOpen = true → s.Adds (b.copy ++ "\x7d") s') := fun h' =>
      have hall := (hbrace.andThen h3).andThen h'
      ⟨hblank, hall.left, fun _ => hall⟩
    dsimp only
    split
    next keyword _ =>
      refine (Agree.of_adding (scan _) s3).bind fun blanks s4 h4 => ?_
      refine ((openPart_adds _ _ _ _ s4).and (openPart_empties _ _ _ _)).bind ?_
      rintro ⟨k'', b''⟩ s5 ⟨⟨-, h5⟩, rfl⟩
      obtain ⟨hblank, hcopy, hbrace⟩ := hdone (h4.andThen (h5.left))
      exact .pure ⟨hblank, hcopy, hbrace, [], rfl⟩
    · obtain ⟨hblank, hcopy, hbrace⟩ := hdone (.of_eq (append_nil _).symm)
      exact .pure ⟨hblank, hcopy, hbrace, hb'⟩

/-- What the tracker makes of the buffer of a stylesheet at a character: the character is text, or
it was escaped, or all that has been read is copied. -/
inductive Tracked (b : StyleBuffer) (s : Session) (c : Char) : StyleBuffer → Session → Prop
  | text {s' : Session} (written : s'.written = s.written) :
      Tracked b s c (TextHost.pushText b [c]) s'
  | unescaped {t : Text} {s' : Session} (written : s'.written = s.written)
      (ends : b.pieces.endsWith '\\' = true) : Tracked b s c (TextHost.unescape b t) s'
  | copied {b' : StyleBuffer} {t : Text} {s' : Session} (blank : b.isBlank = true)
      (adds : s.Adds b.copy s') (brace : c = '\n' → s.Adds (b.copy ++ "\x7d") s')
      (buffer : b'.pieces = Buffer.pushText [] t) : Tracked b s c b' s'

variable {b b' : StyleBuffer} {c : Char} {s' : Session}

theorem Tracked.ended {s1 : Session} (h : Tracked b s c b' s1) (hw : s'.written = s1.written) :
    Tracked b s c b' s' := by
  cases h with
  | text written => exact .text (hw.trans written)
  | unescaped written ends => exact .unescaped (hw.trans written) ends
  | copied blank adds brace buffer =>
    exact .copied blank (adds.ended hw) (fun hc => (brace hc).ended hw) buffer

theorem Tracked.appends (h : Tracked b s c b' s') : s.Adds [] s' := by
  cases h with
  | text written | unescaped written =>
    exact .of_eq ((congrArg (·.1.finish) written).trans (append_nil _).symm)
  | copied _ adds => exact adds.left

theorem Tracked.comments (h : Tracked b s c b' s') :
    b'.pieces.comments = b.pieces.comments ∨ b'.pieces.comments = [] := by
  cases h with
  | text => exact .inl (comments_pushText b.pieces [c])
  | unescaped =>
    exact .inl ((comments_pushText _ _).trans (comments_unescape _))
  | copied _ _ _ buffer => exact .inr (buffer ▸ comments_pushText _ _)

/-- Line comments stay apart from what follows, because only a line break comes to one. -/
theorem Tracked.apart (h : Tracked b s c b' s') (hl : b.pieces.Lined)
    (hc : b.pieces.endsInLine = true → c = '\n') : b'.pieces.Apart := by
  cases h with
  | text =>
    refine ⟨hl.pushText (t := [c]) fun hend d hd => ?_, ?_⟩
    · exact (mem_some.mp hd).symm.trans (hc hend)
    · exact endsInLine_pushText b.pieces (cons_ne_nil c [])
  | unescaped _ ends => exact .pushText (.unescape ⟨hl, endsInLine_of_endsWith ends⟩)
  | copied _ _ _ buffer => exact buffer ▸ .pushText .nil

theorem Turn.tracked {k : Tracker} {p : Tracker × StyleBuffer × Option Closed}
    (h : k.Turn b c s p s') (hk : k.Sound old front held s) : Tracked b s c p.2.1 s' := by
  cases h with
  | text read => exact .text (View.same _ read)
  | unescaped read ends => exact .unescaped (View.same _ read) ends
  | closes read line h =>
    have hw := View.same Session.written read
    obtain ⟨hblank, hadds, hbrace, t, ht⟩ := (close_adds
      ⟨hk.formed, hk.inZone.wrote (read.mono (by decide)).wrote⟩ b _).result _ _ h
    exact .copied hblank (hadds.read hw) (fun hc => (hbrace (line hc)).read hw) ht
  | declares read hc h =>
    obtain ⟨hblank, hadds⟩ := (declaration_adds b _ _ _).result _ _ h
    obtain rfl := (declaration_empties b _ _).result _ _ h
    exact .copied (t := []) hblank (hadds.read (View.same _ read)) (fun heq => absurd heq hc) rfl
  | begins read hc _ h =>
    obtain ⟨hblank, hadds⟩ := (openPart_adds _ b _ none _).result _ _ h
    rw [(openPart_empties _ b _ none).result _ _ h]
    exact .copied (t := []) hblank (hadds.read (View.same _ read)) (fun heq => absurd heq hc) rfl

end

end Tracker

/-! ## Steps of a stylesheet -/

theorem Text.startsWith_of_indexOf? {p t : Text} : ∀ {n : Nat}, indexOf? p t = some n →
    startsWith p (t.drop n) = true := by
  induction t with
  | nil =>
    intro n h
    unfold indexOf? at h
    split at h
    next hp =>
      rw [List.isEmpty_iff.mp hp]
      rfl
    · cases h
  | cons c t ih =>
    intro n h
    unfold indexOf? at h
    split at h
    next hstarts =>
      cases h
      exact hstarts
    obtain ⟨m, hm, rfl⟩ := map_eq_some_iff.mp h
    exact ih hm

namespace Scan

variable {c c' : Cursor}

/-- A search for a line break comes to one, or to the end. -/
theorem head?_of_findText {t : Text} (h : findText "\n" false c = .ok t c') :
    ∀ d ∈ c'.rest.head?, d = '\n' := by
  unfold findText at h
  split at h
  next n hn =>
    cases h
    have hstarts : ("\n" : Text).isPrefixOf (c.rest.drop n) = true := startsWith_of_indexOf? hn
    obtain ⟨rest, hrest⟩ := List.isPrefixOf_iff_prefix.mp hstarts
    intro d hd
    have hd : d ∈ (c.rest.drop n).head? := hd
    rw [← hrest] at hd
    exact (mem_some.mp hd).symm
  · cases h
    intro d hd
    have hd : d ∈ (c.rest.drop c.rest.length).head? := hd
    rw [drop_length] at hd
    cases hd

end Scan

namespace Stylesheet

/-- Line comments are kept apart from what follows: after each of them that has been read there is a
line break, or it is the last thing that has been read and a line break, or nothing, comes next. -/
structure Lined (r : Stylesheet) (s : Session) : Prop where
  pieces : r.buffer.pieces.Lined
  next : r.buffer.pieces.endsInLine = true → ∀ d ∈ s.cursor.rest.head?, d = '\n'

theorem Lined.of_apart {r : Stylesheet} {s : Session} (h : r.buffer.pieces.Apart) : r.Lined s :=
  ⟨h.lined, fun htrue => absurd (h.ends.symm.trans htrue) Bool.false_ne_true⟩

/-- How what has been read comes into the code when a step has come to a character: it stays in the
buffer, or it is taken for a statement, or it is copied whole. The innermost scope is in the
variable `var`. -/
inductive Copies (var : Text) (b : Buffer) (next : Option Char) (s : Session) (b' : Buffer)
    (s' : Session) : Prop
  | kept (written : s'.output.finish = s.output.finish) (comments : b.comments <+: b'.comments)
  | statement {leading : Text} (hnext : next ∈ [some '\x7b', some ';', some '\x7d'])
      (comments : b'.comments = []) (hleading : allBlank leading = true)
      (adds : b.all Piece.isBlank = true ∧ s.Adds (leading ++ b.comments.flatten) s' ∨
        ∃ front ∈ [s.output.declare ++ " ", var ++ "."],
          s.Adds (leading ++ b.comments.flatten ++ front) s')
  | whole (comments : b'.comments = []) (blank : b.all Piece.isBlank = true)
      (adds : s.Adds (b.pieces.flatMap StyleBuffer.blankPiece) s')
      (followed : Followed b.pieces ∨ b.endsInLine = true ∧ next = some '\n' ∧
        s.Adds (b.pieces.flatMap StyleBuffer.blankPiece ++ "\x7d") s')

variable {r : Stylesheet} {s s1 s' : Session}

theorem Copies.read {var : Text} {b b' : Buffer} {next : Option Char}
    (h : Copies var b next s1 b' s') (hw : s1.written = s.written) : Copies var b next s b' s' := by
  have ho : s1.output = s.output := (Prod.mk.inj hw).1
  cases h with
  | kept written comments => exact .kept (written.trans (congrArg Output.finish ho)) comments
  | statement hnext comments hleading adds =>
    rw [ho] at adds
    refine .statement hnext comments hleading (adds.imp (And.imp_right (·.read hw)) ?_)
    rintro ⟨front, hfront, h⟩
    exact ⟨front, hfront, h.read hw⟩
  | whole comments blank adds followed =>
    exact .whole comments blank (adds.read hw)
      (followed.imp_right (And.imp_right (And.imp_right (·.read hw))))

/-! ### Statements -/

theorem ScopeCall.receiver_prefix (c : ScopeCall) : (c.receiver ++ "." : Text) <+: c.code := by
  cases c with
  | value | stat | spread =>
    simp only [code, append_assoc]
    exact (prefix_append_right_inj _).mpr ⟨_, rfl⟩

theorem finish_taken (r : Stylesheet) (s : Session) :
    s.output.finish ++ r.buffer.pieces.lead = (r.taken s).output.finish := by
  rw [Buffer.lead, ← StyleStatement.split_comments]
  exact (finish_add _ _).symm

/-- Ending a statement takes what has been read for it, and its call follows directly. -/
theorem endStatement_adds (r : Stylesheet) (stop : Nat) (s : Session) :
    Gives (r.endStatement stop) s fun _ s' =>
      r.buffer.isBlank = true ∧ s.Adds r.buffer.pieces.lead s' ∨
        s.Adds (r.buffer.pieces.lead ++ (r.current.var ++ ".")) s' := by
  refine (r.endStatement_ends stop s).mono fun r' s' h => ?_
  cases h with
  | blank body => exact .inl ⟨StyleStatement.isBlank_of_body body, .of_eq (r.finish_taken s).symm⟩
  | @call c _ _ receiver _ =>
    obtain ⟨more, hcode⟩ := c.receiver_prefix
    rw [receiver] at hcode
    exact .inr (.after (r.finish_taken s) ⟨more, hcode ▸ finish_add _ _⟩)

theorem openBlock_adds (r : Stylesheet) (at_ : Nat) (s : Session) :
    Gives (r.openBlock at_) s fun _ s' =>
      s.Adds (r.buffer.pieces.lead ++ (s.output.declare ++ " ")) s' := by
  refine (r.openBlock_opens at_ s).mono ?_
  rintro _ _ ⟨selector, _, _, _, -, rfl⟩
  have hdeclare : (r.taken s).output.declare = s.output.declare :=
    congrArg (·.declare) (fork_add s.output _)
  have hcode : (s.output.declare ++ " " : Text) <+: selectCode (r.taken s).output
      (r.taken s).output.freshVar.2 r.current.var selector := by
    simp only [selectCode, hdeclare, append_assoc]
    exact (prefix_append_right_inj _).mpr ⟨_, rfl⟩
  obtain ⟨more, hcode⟩ := hcode
  exact .after (r.finish_taken s) ⟨more, hcode ▸ finish_add _ _⟩

/-! ### Characters -/

/-- A step has come to a character, what was read before it is accounted for, and line comments are
kept apart from what follows. -/
structure Advances (var : Text) (b : Buffer) (next : Option Char) (s : Session) (r' : Stylesheet)
    (s' : Session) : Prop where
  copies : Copies var b next s r'.buffer.pieces s'
  lined : r'.Lined s'

variable {var : Text} {b : Buffer} {next : Option Char} {r' : Stylesheet}

theorem Advances.push {b1 : Buffer} (hcomments : b1.comments = b.comments) (h : b1.Apart)
    {p : Piece} (hbuffer : r'.buffer.pieces = p :: b1)
    (hw : s'.written = s.written)
    (hnext : p.isLineComment = true → ∀ d ∈ s'.cursor.rest.head?, d = '\n') :
    Advances var b next s r' s' := by
  refine ⟨.kept (congrArg (·.1.finish) hw) ?_, ?_, ?_⟩
  · rw [hbuffer, comments_cons, hcomments]
    exact prefix_append ..
  · rw [hbuffer]
    exact .push h p
  · rw [hbuffer]
    exact hnext

theorem Advances.statement (hnext : next ∈ [some '\x7b', some ';', some '\x7d'])
    (hcomments : r'.buffer.pieces.comments = []) (h : r'.buffer.pieces.Apart)
    (hadds : b.all Piece.isBlank = true ∧ s.Adds b.lead s' ∨
      ∃ front ∈ [s.output.declare ++ " ", var ++ "."], s.Adds (b.lead ++ front) s') :
    Advances var b next s r' s' :=
  ⟨.statement hnext hcomments (StyleStatement.leading_foldl_blank _ rfl) hadds, .of_apart h⟩

theorem endStatement_advances (r : Stylesheet) (stop : Nat)
    (hnext : next ∈ [some '\x7b', some ';', some '\x7d']) :
    Gives (r.endStatement stop) s fun r' s' =>
      r'.buffer = {} ∧ Advances r.current.var r.buffer.pieces next s r' s' := by
  refine ((r.endStatement_adds stop s).and (r.endStatement_empties stop)).mono ?_
  rintro r' s' ⟨hadds, hempty⟩
  refine ⟨hempty, .statement hnext (hempty ▸ rfl) (hempty ▸ .nil) ?_⟩
  exact hadds.imp_right fun h => ⟨_, mem_cons_of_mem _ (mem_singleton_self _), h⟩

theorem openBlock_advances (r : Stylesheet) (at_ : Nat) :
    Gives (r.openBlock at_) s fun r' s' => Advances var r.buffer.pieces (some '\x7b') s r' s' := by
  refine ((r.openBlock_adds at_ s).and (r.openBlock_empties at_)).mono ?_
  rintro r' s' ⟨hadds, hempty⟩
  exact .statement mem_cons_self (hempty ▸ rfl) (hempty ▸ .nil)
    (.inr ⟨_, mem_cons_self, hadds⟩)

theorem character_advances (hr : r.buffer.pieces.Apart) (c : Char) (at_ : Nat) :
    Gives (r.character c at_) s fun p s' =>
      Advances r.current.var r.buffer.pieces (some c) s p.1 s' ∧
        (p.2 = .next ∨ p.2 = .close ∧ p.1.buffer.pieces.endsInLine = false) := by
  refine (r.character_turn c at_ s).mono fun p s' hp => ?_
  have hread : ∀ {s1 r'}, s.Steps [.read] s1 →
      Advances r.current.var r.buffer.pieces (some c) s1 r' s' →
      Advances r.current.var r.buffer.pieces (some c) s r' s' ∧
        (Step.next = .next ∨ Step.next = .close ∧ r'.buffer.pieces.endsInLine = false) :=
    fun read h => ⟨⟨h.copies.read (View.same _ read), h.lined⟩, .inl rfl⟩
  cases hp with
  | string _ h =>
    exact ⟨.push rfl hr rfl (Keeps.same Session.written h) nofun, .inl rfl⟩
  | closing _ read =>
    have hkept : Copies r.current.var r.buffer.pieces (some c) s r.buffer.pieces s' :=
      .kept (congrArg (·.1.finish) (Keeps.same Session.written read)) (prefix_refl _)
    exact ⟨⟨hkept, .of_apart hr⟩, .inr ⟨rfl, hr.ends⟩⟩
  | text read kept =>
    rcases kept with rfl | rfl
    · exact ⟨.push rfl hr rfl (View.same _ read) nofun, .inl rfl⟩
    · exact ⟨.push (comments_unescape _) hr.unescape rfl (View.same _ read) nofun, .inl rfl⟩
  | expr read => exact ⟨.push rfl hr rfl (View.same _ read) nofun, .inl rfl⟩
  | comment read =>
    refine ⟨.push rfl hr rfl (View.same _ read) fun hline => ?_, .inl rfl⟩
    cases hline
  | line read hline =>
    -- a line comment is read up to its line break
    obtain ⟨cur, hfind, rfl⟩ := scan_eq_ok.mp hline
    exact ⟨.push rfl hr rfl (View.same _ read) fun _ => Scan.head?_of_findText hfind, .inl rfl⟩
  | block hc read h =>
    subst hc
    exact hread read ((r.openBlock_advances at_).result _ _ h)
  | ends hc read h =>
    subst hc
    exact hread read ((r.endStatement_advances _ (by decide)).result _ _ h).2

theorem trackStatement_tracked {old : Moment} {front : List Node} (hr : r.Sound old front s)
    (c : Char) (at_ : Nat) :
    Gives (r.trackStatement c at_) s fun r' s' =>
      ∃ b, Tracker.Tracked r.buffer s c b s' ∧ r'.buffer.pieces = b.pieces := by
  refine (r.trackStatement_turn c at_ s).mono ?_
  rintro _ s' ⟨k, b, closed, s1, hdispatch, hread, start, rfl⟩
  have hturn := (r.statements.dispatch_turn r.buffer c s).result _ _ hdispatch
  exact ⟨b, (hturn.tracked hr.tracked).ended (View.same _ hread), rfl⟩

theorem Advances.of_tracked {b b' : StyleBuffer} {c : Char} (h : Tracker.Tracked b s c b' s')
    (hbuffer : r'.buffer.pieces = b'.pieces) (hl : b.pieces.Lined)
    (hc : b.pieces.endsInLine = true → c = '\n') :
    Advances var b.pieces (some c) s r' s' := by
  refine ⟨?_, .of_apart (hbuffer ▸ h.apart hl hc)⟩
  rw [hbuffer]
  cases h with
  | text written =>
    refine .kept (congrArg (·.1.finish) written) ?_
    exact (comments_pushText b.pieces [c]).symm ▸ prefix_refl _
  | @unescaped t _ written =>
    refine .kept (congrArg (·.1.finish) written) ?_
    have hcomments : (TextHost.unescape b t).pieces.comments = b.pieces.comments :=
      (comments_pushText _ _).trans (comments_unescape _)
    exact hcomments ▸ prefix_refl _
  | copied blank adds brace buffer =>
    refine .whole (buffer ▸ comments_pushText _ _) blank adds ?_
    cases hend : b.pieces.endsInLine with
    | false => exact .inl (Apart.followed ⟨hl, hend⟩)
    | true => exact .inr ⟨rfl, congrArg some (hc hend), brace (hc hend)⟩

/-- Going on to the next character keeps line comments apart from what follows. -/
theorem find_lined (hl : r.Lined s) {chars : List Char} {found : Found} {cur : Cursor}
    (h : Scan.find chars false false s.cursor = .ok found cur) :
    (r.buffer.pieces.pushText found.before).Lined ∧
      ((r.buffer.pieces.pushText found.before).endsInLine = true →
        ∀ c ∈ found.matched, c = '\n') := by
  obtain ⟨hrest, hnext⟩ := Scan.find_stopped h
  have hnext : cur.rest.head? = found.matched := hnext
  refine ⟨hl.pieces.pushText fun hend d hd => hl.next hend d ?_, fun hend c hc => ?_⟩
  · rw [hrest]
    exact List.mem_head?_append_of_mem_head? hd
  · cases hbefore : found.before with
    | nil =>
      rw [hbefore] at hend hrest
      exact hl.next hend c (hrest ▸ hnext ▸ hc)
    | cons d t =>
      rw [hbefore, endsInLine_pushText _ (cons_ne_nil d t)] at hend
      cases hend

theorem step_advances {old : Moment} {front : List Node} (hr : r.Sound old front s)
    (hl : r.Lined s) :
    Gives r.step s fun p s' => ∃ found cur,
      Scan.find (breakpoints ++ r.statements.breakpoints) false false s.cursor = .ok found cur ∧
      Advances r.current.var (r.buffer.pieces.pushText found.before) found.matched s p.1 s' ∧
      (p.2 = .next ∨ p.2 = .close ∧ p.1.buffer.pieces.endsInLine = false ∨ p.2 = .eof) := by
  refine (r.step_deals s).mono ?_
  rintro p s' ⟨found, start, s1, hfind, hdeals⟩
  obtain ⟨cur, hscan, hs1⟩ := scan_eq_ok.mp hfind
  obtain ⟨hl1, hline⟩ := find_lined hl hscan
  have hw1 := Session.Wrote.of_made hfind
  have hr1 : (r.arrived found start).Sound old front s1 := (hr.keeps hw1 (r.keeps_of_text ..)).1
  -- what has been read does not show in the code
  suffices h : Advances r.current.var (r.arrived found start).buffer.pieces found.matched s1 p.1 s' ∧
      (p.2 = .next ∨ p.2 = .close ∧ p.1.buffer.pieces.endsInLine = false ∨ p.2 = .eof) from
    ⟨found, _, hscan, ⟨h.1.copies.read (Keeps.same Session.written hfind), h.1.lined⟩, h.2⟩
  generalize hc : found.matched = next at hdeals
  cases hdeals with
  | eof =>
    refine ⟨⟨.kept rfl (prefix_refl _), hl1, fun _ d hd => ?_⟩, .inr (.inr rfl)⟩
    have hend : cur.rest.head? = none := (Scan.find_stopped hscan).2.trans hc
    rw [← hs1] at hd
    exact absurd (hend ▸ hd) (not_mem_none _)
  | tracks _ h =>
    obtain ⟨b, htracked, hb⟩ := (trackStatement_tracked hr1 _ _).result _ _ h
    exact ⟨.of_tracked htracked hb hl1 fun hend => hline hend _ hc, .inl rfl⟩
  | ends h2 h3 =>
    have hadds := (endStatement_adds _ _ s1).result _ _ h2
    have hk := ((endStatement_ends _ _ _).result _ _ h2).keeps
    obtain ⟨b, htracked, hb⟩ := (trackStatement_tracked (hr1.keeps (.of_made h2) hk).1 _ _).result _ _ h3
    rw [(endStatement_empties _ _).result _ _ h2] at htracked
    have hapart := htracked.apart .nil fun h => absurd h Bool.false_ne_true
    have hcomments : b.pieces.comments = [] := htracked.comments.elim id id
    refine ⟨.statement (by decide) (hb ▸ hcomments) (hb ▸ hapart) ?_, .inl rfl⟩
    refine hadds.imp (And.imp_right (·.andThen htracked.appends)) fun h => ?_
    exact ⟨_, mem_cons_of_mem _ (mem_singleton_self _), h.andThen htracked.appends⟩
  | @leaves c _ _ hhandles h =>
    refine ((character_advances ⟨hl1, Bool.eq_false_iff.mpr fun hend => ?_⟩ c _).result _ _ h).imp_right
      (·.imp_right .inl)
    -- the tracker sees to a line break, where one is looked for
    obtain rfl := hline hend c hc
    have hmem := (mem_append.mp (Scan.find_mem hscan _ hc)).resolve_left (by decide)
    exact Bool.false_ne_true (hhandles.symm.trans (contains_iff_mem.mpr hmem))

end Stylesheet

/-! ## The end of a stylesheet -/

theorem Output.finish_editAll_add (o : Output) (t : Text) (es : List Edit) :
    ((o.add t).editAll es).finish = (o.editAll es).finish ++ t := by
  have hedited : (o.add t).edited es = o.edited es := by
    unfold edited place?
    rw [add_slots]
  have hlast : ∀ (nodes : List Node) (u : Text),
      ((nodes ++ [Node.text u]).mapIdx (o.edited es)).flatMap Node.content =
        (nodes.mapIdx (o.edited es)).flatMap Node.content ++ u := by
    intro nodes u
    rw [mapIdx_concat, edited_text, flatMap_append, flatMap_singleton]
    rfl
  rw [editAll_eq, editAll_eq, finish, finish, hedited]
  unfold add
  split
  next hempty => rw [List.isEmpty_iff.mp hempty, append_nil]
  split
  next last hnodes =>
    obtain ⟨nodes, hnodes⟩ := getLast?_eq_some_iff.mp hnodes
    rw [hnodes, dropLast_concat, hlast, hlast, append_assoc]
  · exact hlast _ _

namespace Stylesheet

variable {r : Stylesheet} {s s' : Session}

/-- The end of a region that does not fold copies what has been read, and the end of the builder
follows directly. -/
theorem finish_code (hfolds : r.folds = false) (hfinish : r.finish s = .ok ((), s')) :
    r.buffer.isBlank = true ∧ ∃ (code : Text) (reactive : Bool),
      s'.output.finish =
        code ++ r.buffer.copy ++ (builder s.output r.root.var reactive).2 ++ ");" := by
  obtain ⟨hblank, p, s1, htracker, built, rfl, hs'⟩ := finish_eq_ok hfolds hfinish
  obtain ⟨-, rfl⟩ := Tracker.finish_eq_ok htracker
  have hcode : ∀ es es', (((s.output.add r.buffer.copy).editAll es).editAll es').finish =
      (s.output.editAll (es ++ es')).finish ++ r.buffer.copy := fun es es' => by
    rw [← finish_editAll_add, Output.editAll, Output.editAll, Output.editAll, foldl_append]
  have hfinish := congrArg Output.finish hs'
  rw [finish_add, hcode, ← append_assoc] at hfinish
  exact ⟨hblank, _, _, hfinish⟩

end Stylesheet

/-! ## Documents -/

namespace Document

variable {s : Session}

theorem lined_stylesheetAfter {registry : Registry} {settings : Settings} {source : Text} {n : Nat}
    {r : Stylesheet} (hn : stylesheetAfter registry settings source n = some (r, s)) :
    r.Lined s := by
  refine forall_stylesheetAfter (fun _ _ _ _ _ _ => .of_apart .nil) (fun hsound hl => ?_) hn
  refine (Stylesheet.step_advances hsound hl).mono ?_
  rintro p s' ⟨_, _, -, hadvances, -⟩
  exact hadvances.lined

end Document

end Patchwork
