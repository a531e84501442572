import Mathlib.Data.List.Chain
import Patchwork.Proofs.Invariants
import Patchwork.Proofs.Searching
import Patchwork.Proofs.Turns

/-!
# Where the text of a stylesheet is cut

A stylesheet reads on to the next character that needs a look, and what such a character leads to may
be a piece of its own. So of two texts in a row the second begins with such a character, and a percent
sign stands at the front of its text, unless it is inside of a string (`Cut`).

Every way to add to the buffer of a region keeps this (`Buffer.IsCut`), so it holds in every state
that a document comes to (`Document.isCut_stylesheetAfter`).
-/

namespace Patchwork

open Compile Lexeme List

/-! ## Texts with quotes in them -/

namespace Lexeme.Quoted

variable {p : Char} {t u : Text}

theorem of_append_right (h : Quoted p (t ++ u)) : Quoted p u := by
  rintro front back rfl
  exact h (t ++ front) back (append_assoc ..).symm

theorem of_append_left (h : Quoted p (t ++ u)) (hu : ∀ c ∈ u, isQuote c = false) : Quoted p t := by
  rintro front back rfl
  obtain ⟨q, hq, hquote⟩ := h front (back ++ u) (by simp)
  rcases mem_append.mp hq with hq | hq
  · exact ⟨q, hq, hquote⟩
  · rw [hu q hq] at hquote
    cases hquote

end Lexeme.Quoted

/-! ## Cuts in a buffer -/

/-- A text that follows a text begins with a character that needs a look. -/
def Piece.Breaks (before after : Piece) : Prop :=
  ∀ t u, before = .text t → after = .text u → ∃ d ∈ Stylesheet.breakpoints, u.head? = some d

/-- Pieces are cut where they must be: at percent signs, strings aside, and at other characters that
need a look. -/
structure Cut (ps : List Piece) : Prop where
  quoted : ∀ t, .text t ∈ ps → Quoted '%' t.tail
  breaks : ps.IsChain Piece.Breaks

namespace Buffer

/-- The pieces of the buffer are cut where they must be. -/
structure IsCut (b : Buffer) : Prop where
  quoted : ∀ t, .text t ∈ b → Quoted '%' t.tail
  breaks : b.IsChain fun after before => before.Breaks after

theorem isCut_iff {b : Buffer} : b.IsCut ↔ Cut (Buffer.pieces b) := by
  refine ⟨fun h => ⟨fun t ht => ?_, ?_⟩, fun h => ⟨fun t ht => ?_, ?_⟩⟩
  · exact h.quoted t (mem_reverse.mp ht)
  · exact isChain_reverse.mpr h.breaks
  · exact h.quoted t (mem_reverse.mpr ht)
  · exact isChain_reverse.mp h.breaks

namespace IsCut

variable {b : Buffer} {p : Piece} {t : Text}

theorem nil : IsCut [] := ⟨nofun, .nil⟩

theorem push (h : b.IsCut) (hp : ∀ t, p ≠ .text t) : IsCut (p :: b) where
  quoted t ht := h.quoted t ((mem_cons.mp ht).resolve_left (hp t).symm)
  breaks := isChain_cons.mpr ⟨fun _ _ _ t _ ht => absurd ht (hp t), h.breaks⟩

theorem pushPiece (h : b.IsCut) {d : Char} (hd : d ∈ Stylesheet.breakpoints)
    (ht : Quoted '%' t) : IsCut (.text (d :: t) :: b) where
  quoted u hu := by
    rcases mem_cons.mp hu with heq | hu
    · cases heq
      exact ht
    · exact h.quoted u hu
  breaks := by
    refine isChain_cons.mpr ⟨fun before _ => ?_, h.breaks⟩
    rintro _ _ - ⟨⟩
    exact ⟨d, hd, rfl⟩

theorem replace {last : Text} (h : IsCut (.text last :: b)) (hquoted : Quoted '%' t.tail)
    (hhead : ∀ d ∈ Stylesheet.breakpoints, last.head? = some d → t.head? = some d) :
    IsCut (.text t :: b) where
  quoted u hu := by
    rcases mem_cons.mp hu with heq | hu
    · cases heq
      exact hquoted
    · exact h.quoted u (mem_cons_of_mem _ hu)
  breaks := by
    obtain ⟨hfirst, hrest⟩ := isChain_cons.mp h.breaks
    refine isChain_cons.mpr ⟨fun before hbefore => ?_, hrest⟩
    rintro v _ hv ⟨⟩
    obtain ⟨d, hd, hlast⟩ := hfirst before hbefore v last hv rfl
    exact ⟨d, hd, hhead d hd hlast⟩

theorem pushText (h : b.IsCut) (ht : Quoted '%' t) : IsCut (Buffer.pushText b t) := by
  have htail : Quoted '%' t.tail := by
    cases t with
    | nil => exact ht
    | cons c t => exact ht.of_append_right (t := [c])
  unfold Buffer.pushText
  split
  · exact h
  split
  next last ps =>
    refine h.replace ?_ fun d _ hlast => ?_
    · cases last with
      | nil => exact htail
      | cons c last => exact (h.quoted _ mem_cons_self).append ht
    · obtain ⟨last, rfl⟩ := head?_eq_some_iff.mp hlast
      rfl
  next hnone =>
    refine ⟨fun u hu => ?_, isChain_cons.mpr ⟨fun before hbefore => ?_, h.breaks⟩⟩
    · rcases mem_cons.mp hu with heq | hu
      · cases heq
        exact htail
      · exact h.quoted u hu
    · rintro v _ rfl -
      obtain ⟨ps, rfl⟩ := head?_eq_some_iff.mp hbefore
      exact absurd rfl (hnone v ps)

theorem unescape (h : b.IsCut) : IsCut (Buffer.unescape b) := by
  unfold Buffer.unescape
  split
  next last ps =>
    split
    next hends =>
      obtain ⟨front, rfl⟩ := getLast?_eq_some_iff.mp (eq_of_beq hends)
      rw [dropLast_concat]
      refine h.replace ?_ fun d hd hlast => ?_
      · have hquoted := h.quoted _ mem_cons_self
        cases front with
        | nil => exact .of_not_mem nofun
        | cons c front =>
          refine hquoted.of_append_left fun d hd => ?_
          rw [mem_singleton.mp hd]
          rfl
      · -- a backslash needs no look, so it is not the first character
        cases front with
        | nil =>
          obtain rfl : '\\' = d := Option.some.inj hlast
          exact absurd hd (by decide)
        | cons c front => exact hlast
    · exact h
  · exact h

end IsCut
end Buffer

/-! ## Statements in a stylesheet -/

namespace StyleBuffer

variable {b : StyleBuffer} {s : Session}

/-- The pieces of the statement that is being read are cut where they must be. -/
def IsCut (b : StyleBuffer) : Prop :=
  Buffer.IsCut b.pieces

theorem IsCut.empty : IsCut {} := Buffer.IsCut.nil

theorem IsCut.pushText (h : b.IsCut) {t : Text} (ht : '%' ∉ t) : (TextHost.pushText b t).IsCut :=
  Buffer.IsCut.pushText h (.of_not_mem ht)

theorem IsCut.unescape (h : b.IsCut) {t : Text} (ht : '%' ∉ t) : (TextHost.unescape b t).IsCut :=
  Buffer.IsCut.pushText (Buffer.IsCut.unescape h) (.of_not_mem ht)

/-- The buffer as it is copied, when there are only blanks and comments in it. -/
def copy (b : StyleBuffer) : Text :=
  b.pieces.pieces.flatMap blankPiece

theorem flush_copies (b : StyleBuffer) (s : Session) : Gives b.flush s fun b' s' =>
    b' = {} ∧ b.isBlank = true ∧ s' = { s with output := s.output.add b.copy } := by
  unfold flush
  split
  next hblank =>
    refine .emit ?_
    exact .pure ⟨rfl, hblank, rfl⟩
  · exact .after fun _ _ => .fail ..

/-- The blanks at the end of the last text are cut off before the boundary, and follow after it. -/
theorem trimEnd_copy (b : StyleBuffer)
    (hblank : StyleBuffer.isBlank { b with pieces := b.pieces.trimEnd } = true) :
    b.isBlank = true ∧
      copy { b with pieces := b.pieces.trimEnd } ++ b.pieces.blankEnd = b.copy := by
  obtain ⟨ps, start⟩ := b
  have hnone : StyleBuffer.isBlank ⟨ps, start⟩ = true → StyleBuffer.isBlank ⟨ps, start⟩ = true ∧
      copy ⟨ps, start⟩ ++ [] = copy ⟨ps, start⟩ := fun h => ⟨h, List.append_nil _⟩
  cases ps with
  | nil => exact hnone hblank
  | cons p ps =>
    cases p with
    | expr | comment => exact hnone hblank
    | text last =>
      obtain ⟨hlast, hps⟩ := Bool.and_eq_true_iff.mp hblank
      constructor
      · refine Bool.and_eq_true_iff.mpr ⟨?_, hps⟩
        show Text.allBlank last = true
        rw [← last.trimEnd_append_blankEnd, Text.allBlank, List.all_append]
        exact Bool.and_eq_true_iff.mpr ⟨hlast, last.allBlank_blankEnd⟩
      · simp only [copy, Buffer.pieces, Buffer.trimEnd, Buffer.blankEnd, List.reverse_cons,
          List.flatMap_append, List.append_assoc, List.flatMap_singleton, blankPiece,
          Text.trimEnd_append_blankEnd]

/-- A boundary copies all that has been read, and there must be nothing but blanks and comments. -/
theorem boundary_copies (b : StyleBuffer) (s : Session) : Gives (TextHost.boundary b) s fun b' s' =>
      b' = {} ∧ b.isBlank = true ∧ s' = { s with output := s.output.add b.copy } := by
  unfold TextHost.boundary
  extract_lets blanks
  refine (flush_copies _ s).bind ?_
  rintro _ _ ⟨rfl, hblank, rfl⟩
  refine .emit ?_
  obtain ⟨hblank, hcopy⟩ := b.trimEnd_copy hblank
  refine .pure ⟨rfl, hblank, ?_⟩
  rw [← hcopy, Output.add_add]
  rfl

end StyleBuffer

namespace Tracker

open TextHost

variable {b : StyleBuffer} {s : Session} [Expansion]

theorem declaration_empties (b : StyleBuffer) (word : Text) (closing : List Char) :
    Gives (declaration b word closing) s fun b' _ => b' = {} := by
  refine (b.boundary_copies s).bind ?_
  rintro _ _ ⟨rfl, -, rfl⟩
  refine .after fun _ s2 => .after fun _ s3 => .after fun found s4 => .after fun _ s5 => ?_
  extract_lets rest
  have hrest : ∀ u s6, Gives (rest u) s6 fun b' _ => b' = {} := fun _ _ => .pure rfl
  split
  · refine .after fun _ s6 => .after fun _ s7 => .after fun blanks s8 => .after fun _ s9 => ?_
    refine .after fun start s10 => .after fun value s11 => .after fun e s12 => ?_
    refine .after fun _ s13 => .after fun ended s14 => ?_
    split
    · exact .after hrest
    · exact hrest () s14
  · split
    · exact .after fun _ s6 => .after hrest
    · exact hrest () s5
  · exact hrest () s5

theorem openPart_empties (k : Tracker) (b : StyleBuffer) (keyword : Keyword)
    (continued : Option Statement) :
    Gives (k.openPart b keyword continued) s fun r _ => r.2 = {} := by
  refine (k.openPart_opens b keyword continued s).mono ?_
  rintro r _ ⟨-, s1, -, h1, -⟩
  exact ((b.boundary_copies s).result _ _ h1).1

omit [Expansion] in
theorem percent_not_mem_keywords : ∀ word ∈ ['}'] :: keywords.map Prod.fst, '%' ∉ word := by
  decide

omit [Expansion] in
theorem handles_percent (k : Tracker) : k.handles '%' = false := by
  unfold handles breakpoints
  split <;> decide

variable [Editor]

theorem close_isCut (k : Tracker) (b : StyleBuffer) (atLineBreak : Bool) :
    Gives (k.close b atLineBreak) s fun r _ => r.2.1.IsCut := by
  refine (b.boundary_copies s).bind ?_
  rintro _ _ ⟨rfl, -, rfl⟩
  split
  · exact .pure .empty
  · exact .pure .empty
  next st opened heq =>
    extract_lets k' b'
    refine .after fun st' s2 => .after fun cur s3 => ?_
    have hb' : b'.IsCut := by
      unfold b'
      split
      · exact StyleBuffer.IsCut.empty.pushText (by decide)
      · exact .empty
    dsimp only
    split
    next keyword _ =>
      refine .after fun blanks s4 => ?_
      refine (openPart_empties _ _ _ _).bind ?_
      rintro ⟨k'', b''⟩ s5 rfl
      exact .pure .empty
    · exact .pure hb'

theorem Turn.isCut {k : Tracker} {c : Char} {p : Tracker × StyleBuffer × Option Closed}
    {s' : Session} (h : k.Turn b c s p s') (hb : b.IsCut) (hc : c ≠ '%') : p.2.1.IsCut := by
  cases h with
  | text => exact hb.pushText fun hmem => hc (mem_singleton.mp hmem).symm
  | unescaped _ _ hmem => exact hb.unescape (percent_not_mem_keywords _ hmem)
  | closes _ _ h => exact (close_isCut k b _).result _ _ h
  | declares _ _ h => exact (declaration_empties b _ _).result _ _ h ▸ .empty
  | begins _ _ _ h => exact (openPart_empties _ b _ none).result _ _ h ▸ .empty

end Tracker

/-! ## Steps of a stylesheet -/

namespace Stylesheet

variable {r : Stylesheet} {s : Session}

theorem endStatement_empties (r : Stylesheet) (stop : Nat) :
    Gives (r.endStatement stop) s fun r' _ => r'.buffer = {} := by
  refine (r.endStatement_ends stop s).mono fun r' _ h => ?_
  cases h <;> rfl

theorem openBlock_empties (r : Stylesheet) (at_ : Nat) :
    Gives (r.openBlock at_) s fun r' _ => r'.buffer = {} := by
  refine (r.openBlock_opens at_ s).mono ?_
  rintro _ _ ⟨_, _, _, _, rfl, -⟩
  rfl

variable (hr : r.buffer.IsCut)
include hr

theorem character_isCut {c : Char} (at_ : Nat)
    (hc : c ∈ breakpoints) (hnext : s.cursor.rest.head? = some c) :
    Gives (r.character c at_) s fun p _ => p.1.buffer.IsCut := by
  refine (r.character_turn c at_ s).mono fun p s' h => ?_
  cases h with
  | string hquote hread =>
    obtain ⟨cur, hread, -⟩ := scan_eq_ok.mp hread
    have hisQuote : isQuote c = true := Bool.or_eq_true_iff.mpr (.inl hquote)
    obtain ⟨body, rfl⟩ := Scan.skipString_spec hisQuote hnext hread
    exact Buffer.IsCut.pushPiece hr hc (.concat hisQuote (by decide) body)
  | closing => exact hr
  | text _ kept =>
    refine Buffer.IsCut.pushPiece ?_ hc (.of_not_mem nofun)
    rcases kept with rfl | rfl
    · exact hr
    · exact Buffer.IsCut.unescape hr
  | expr | comment | line => exact Buffer.IsCut.push hr nofun
  | block _ _ h => exact (r.openBlock_empties at_).result _ _ h ▸ .empty
  | ends _ _ h => exact (r.endStatement_empties _).result _ _ h ▸ .empty

/-- Reading on to the next character that needs a look keeps the pieces cut. -/
theorem find_isCut {found : Found} {c c' : Cursor}
    (h : Scan.find (breakpoints ++ r.statements.breakpoints) false false c = .ok found c') :
    Buffer.IsCut (r.buffer.pieces.pushText found.before) := by
  have hmem : ∀ c ∈ breakpoints, c ∈ breakpoints ++ r.statements.breakpoints := fun c =>
    mem_append_left _
  exact Buffer.IsCut.pushText hr
    (Scan.find_spec (hmem '%' (by decide)) (by decide) (hmem '/' (by decide)) h)

theorem trackStatement_isCut {c : Char} (hc : c ≠ '%') (at_ : Nat) :
    Gives (r.trackStatement c at_) s fun r' _ => r'.buffer.IsCut := by
  refine (r.trackStatement_turn c at_ s).mono ?_
  rintro _ s' ⟨k, b, closed, s1, hdispatch, -, start, rfl⟩
  exact ((r.statements.dispatch_turn r.buffer c s).result _ _ hdispatch).isCut hr hc

theorem step_isCut : Gives r.step s fun p _ => p.1.buffer.IsCut := by
  refine (r.step_deals s).mono ?_
  rintro p s' ⟨found, start, s1, hfind, hdeals⟩
  obtain ⟨cur, hscan, rfl⟩ := scan_eq_ok.mp hfind
  have hnext : cur.rest.head? = found.matched := (Scan.find_stopped hscan).2
  have hr1 : (r.arrived found start).buffer.IsCut := find_isCut hr hscan
  generalize hc : found.matched = next at hdeals
  cases hdeals with
  | eof => exact hr1
  | tracks hhandles h =>
    refine (trackStatement_isCut hr1 ?_ _).result _ _ h
    rintro rfl
    rw [Tracker.handles_percent] at hhandles
    cases hhandles
  | ends hends h =>
    have hempty := (endStatement_empties _ _).result _ _ hends
    exact (trackStatement_isCut (hempty ▸ .empty) (by decide) _).result _ _ h
  | @leaves c _ _ hhandles h =>
    refine (character_isCut hr1 _ ?_ (hnext.trans hc)).result _ _ h
    -- a character that the tracker leaves alone is one of the others
    refine (mem_append.mp (Scan.find_mem hscan c hc)).resolve_right fun hmem => ?_
    exact Bool.false_ne_true (hhandles.symm.trans (contains_iff_mem.mpr hmem))

end Stylesheet

theorem Document.isCut_stylesheetAfter {registry : Registry} {settings : Settings} {source : Text}
    {n : Nat} {r : Stylesheet} {s : Session}
    (hn : stylesheetAfter registry settings source n = some (r, s)) : r.buffer.IsCut :=
  forall_stylesheetAfter (P := fun r _ => r.buffer.IsCut) (fun _ _ _ _ _ _ => .empty)
    (fun _ hr => Stylesheet.step_isCut hr) hn

end Patchwork
