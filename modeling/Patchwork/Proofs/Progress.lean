import Patchwork.Proofs.DocumentPlaces
import Patchwork.Proofs.Invariants

/-!
# Progress

Why a document is read to its end.

A fragment of code is expanded in the same way as the text around it, and the text that is read of a
chained read, the name of the value and the chain, may be longer than the text it was taken from. What
becomes less is the number of markers: a fragment stands behind the marker that it belongs to, and the
name of the value has none (`Inner.of_nested`). So an expansion that halts at any fragment with no fewer
markers than the text around it comes to the same, and no bound is ever reached.

The document itself is read by a cursor that only moves on. Every step of a region reads a character,
unless it finds the end of the document (`progress_stateAfter`), and so there are no more steps than
characters (`stateAfter_length`).
-/

namespace Patchwork

open Compile List Text

/-! ## Fragments in fragments -/

namespace Expansion

/-- Expand the fragments of a text that have fewer markers than the text, and halt at any other. -/
def dwindling (text : Text) (h : Halt) : Purpose → Expander := fun _ part base tracked =>
  if part.countP isMarker < text.countP isMarker then Patchwork.expand part base tracked
  else throw h

end Expansion

section

variable {b : Bounds} {r : Stretch b} {s : Session} {inner inner' : Purpose → Expander}

/-- There is room for the fragments in a stretch, however deep they lie in each other. -/
def Stretch.Roomy (r : Stretch b) : Prop :=
  ∀ depth, b.Room depth r.base r.text

/-- Every fragment in a stretch has fewer markers, if the name of the value has none. -/
theorem Inner.of_nested (hplain : ¬b.plain) (hvalue : b.value.any isMarker = false) (hroom : r.Roomy)
    (h : ∀ part : Stretch b, part.Roomy → part.text.countP isMarker < r.text.countP isMarker →
      ∀ {purpose : Purpose} {tracked : Bool} {s : Session},
        r.Settles (inner purpose part.text part.base tracked)
          (inner' purpose part.text part.base tracked) s s.Stood) :
    Inner r inner inner' where
  direct := by
    intro purpose text at_ tracked s _ hhas
    obtain ⟨front, m, gap, back, hm, htext, rfl⟩ := hhas
    have hpart : ∀ depth, b.Room depth (r.base + bytes (front ++ m :: gap)) text := by
      intro depth
      exact (hroom depth).part (front ++ m :: gap) []
        (htext.trans (append_assoc front (m :: gap) _).symm)
    refine h ⟨_, text, (hpart 0).fits, fun hp => absurd hp hplain⟩ hpart ?_
    rw [htext]
    simp only [countP_append, countP_cons_of_pos hm]
    omega
  chain := by
    intro chain at_ tracked s hhas
    obtain ⟨front, gap, back, hgap, htext, rfl⟩ := hhas
    have hpart : ∀ depth, b.Room depth
        (r.base + bytes (front ++ '*' :: gap) - bytes b.value) (b.value ++ chain) :=
      fun depth => (hroom (depth + 1)).chain hgap htext
    refine h ⟨_, b.value ++ chain, (hpart 0).fits, fun hp => absurd hp hplain⟩ hpart ?_
    have hnone : b.value.countP isMarker = 0 := by
      rw [countP_eq_zero]
      exact List.any_eq_false.mp hvalue
    rw [htext]
    simp only [countP_append, countP_cons_of_pos (show isMarker '*' = true from rfl)]
    omega

variable (hplain : ¬b.plain) (hvalue : b.value.any isMarker = false)

include hplain hvalue

/-- Fragments need no more depth than the text around them has markers. -/
theorem expandAt_inner {depth depth' : Nat} (hle : depth ≤ depth') (r : Stretch b) (hroom : r.Roomy)
    (hcount : r.text.countP isMarker ≤ depth) :
    Inner r (fun _ => expandAt depth) (fun _ => expandAt depth') := by
  induction depth generalizing depth' r with
  | zero =>
    refine .of_nested hplain hvalue hroom fun part _ hlt => ?_
    exact absurd hlt (by omega)
  | succ depth ih =>
    obtain ⟨depth', rfl⟩ : ∃ d, depth' = d + 1 := ⟨depth' - 1, by omega⟩
    refine .of_nested hplain hvalue hroom fun part hpart hlt => ?_
    exact expandWith_settles part (ih (by omega) part hpart (by omega)) _

theorem dwindling_inner (r : Stretch b) (hroom : r.Roomy) (h : Halt) :
    Inner r (Expansion.dwindling r.text h) fun _ => expandAt (r.text.countP isMarker) := by
  refine .of_nested hplain hvalue hroom fun part hpart hlt _ tracked s => ?_
  obtain ⟨depth, hdepth⟩ : ∃ d, r.text.countP isMarker = d + 1 :=
    ⟨r.text.countP isMarker - 1, by omega⟩
  rw [hdepth, Expansion.dwindling, if_pos hlt]
  exact expandWith_settles part
    (expandAt_inner hplain hvalue (by omega : _ ≤ depth) part hpart (Nat.le_refl _)) tracked

end

theorem Cursor.Moved.position_lt {c c' : Cursor} (h : c.Moved c')
    (hlt : c'.rest.length < c.rest.length) : c.position < c'.position := by
  obtain ⟨read, hrest, -, -⟩ := h.exists_read
  rw [h.position_eq hrest]
  cases read with
  | nil =>
    rw [hrest] at hlt
    exact absurd hlt (Nat.lt_irrefl _)
  | cons d read =>
    have hsize := d.utf8Size_pos
    rw [bytes]
    omega

/-- A step goes to the next character that needs a look, and ends the code where there is none. -/
theorem Code.step_found (code : Code) (s : Session) :
    Gives (code.step Expansion.expand) s fun p s' => ∃ found s1,
      scan (Scan.find breakpoints false true) s = .ok (found, s1) ∧ s1.Wrote s' ∧
        (p.2 = .eof ↔ found.matched = none) := by
  refine .given fun found s1 hfind => ?_
  dsimp only
  cases hd : found.matched with
  | none => exact .wrote fun _ _ hw => .pure ⟨found, s1, hfind, hw, fun _ => hd, fun _ => rfl⟩
  | some d =>
    -- whatever is done about the character, the code goes on
    have hgoes : ∀ {code' : Code} {step : Step} {s'}, s1.Wrote s' → step ≠ .eof →
        Gives (Pure.pure (code', step)) s' fun p s' => ∃ found s1,
          scan (Scan.find breakpoints false true) s = .ok (found, s1) ∧ s1.Wrote s' ∧
            (p.2 = .eof ↔ found.matched = none) := by
      refine fun hw hstep => .pure ⟨found, s1, hfind, hw, fun h => absurd h hstep, fun h => ?_⟩
      rw [hd] at h
      cases h
    split
    next heq => cases heq
    · exact .wrote fun _ _ hw => hgoes hw (by rintro ⟨⟩)
    · exact .wrote fun _ _ hw => hgoes hw (by rintro ⟨⟩)
    · refine .wrote fun params s2 hw2 => .wrote fun code s3 hw3 => ?_
      refine .known rfl (hgoes ((hw2.trans hw3).trans ⟨?_, .refl _⟩) (by rintro ⟨⟩))
      cases params <;> exact .of_eq rfl rfl
    · refine .wrote fun code s2 hw2 => ?_
      split
      · exact .wrote fun _ _ hw => hgoes (hw2.trans hw) (by rintro ⟨⟩)
      · exact hgoes hw2 (by rintro ⟨⟩)
    · exact .wrote fun _ _ hw => hgoes hw (by rintro ⟨⟩)
    · exact .wrote fun _ _ hw => hgoes hw (by rintro ⟨⟩)
    · exact .wrote fun _ _ hw => hgoes hw (by rintro ⟨⟩)
    · exact .wrote fun _ _ hw => hgoes hw (by rintro ⟨⟩)
    split
    · exact hgoes (.refl _) (by rintro ⟨⟩)
    refine .wrote fun entry s2 hw2 => ?_
    split
    · exact .wrote fun _ _ hw => hgoes (hw2.trans hw) (by rintro ⟨⟩)
    · exact .wrote fun _ _ hw => hgoes (hw2.trans hw) (by rintro ⟨⟩)
    · exact .wrote fun _ _ hw => hgoes (hw2.trans hw) (by rintro ⟨⟩)
    · exact hgoes hw2 (by rintro ⟨⟩)

theorem Code.step_reads {code code' : Code} {step : Step} {s s' : Session}
    (h : code.step Expansion.expand s = .ok ((code', step), s')) :
    (step ≠ .eof → s.cursor.position < s'.cursor.position) ∧
      (step = .eof → s'.cursor.rest = []) := by
  have hmoved := (Session.Wrote.of_made h).forward
  obtain ⟨found, s1, hfind, hwrote, heof⟩ := (step_found code s).result _ _ h
  have hle := hwrote.forward.length_le
  obtain ⟨c, hc, rfl⟩ := scan_eq_ok.mp hfind
  rcases Scan.find_consumed hc with ⟨hnone, hend⟩ | ⟨d, hsome, hread, -⟩
  · refine ⟨fun hne => absurd (heof.mpr hnone) hne, fun _ => ?_⟩
    rw [show c.rest.length = 0 from congrArg length hend] at hle
    exact length_eq_zero_iff.mp (Nat.le_zero.mp hle)
  · refine ⟨fun _ => hmoved.position_lt ?_, fun hstep => ?_⟩
    · rw [hread, length_append, length_cons]
      exact Nat.lt_add_left _ (Nat.lt_succ_of_le hle)
    · rw [heof.mp hstep] at hsome
      cases hsome

/-- The expansion of a fragment ends. It is the same if every fragment in it that has no fewer markers
than the text around it brings it to a halt, and it reaches no bound. While it is read, every step but
the last reads a character. -/
theorem nested_fragments_dwindle (text : Text) (base : Nat) (tracked : Bool) (s : Session)
    (hvalue : s.output.names.value.any isMarker = false) (h : Halt) :
    expand text base tracked s = expandWith (Expansion.dwindling text h) text base tracked s ∧
      expand text base tracked s ≠ .error .spent ∧
      ∀ {code code' : Code} {step : Step} {s₁ s₂ : Session},
        code.step Expansion.expand s₁ = .ok ((code', step), s₂) →
          (step ≠ .eof → s₁.cursor.position < s₂.cursor.position) ∧
            (step = .eof → s₂.cursor.rest = []) := by
  let value := s.output.names.value
  have hstar : '*' ∉ value := fun hmem => List.any_eq_false.mp hvalue '*' hmem rfl
  let b : Bounds := ⟨base + Text.bytes text + Text.bytes value, value, False⟩
  have hroom : ∀ depth, b.Room depth base text := by
    refine fun _ => ⟨Text.bytes value, Nat.le_refl _, fun hs => absurd hs hstar, fun _ _ _ _ => ?_⟩
    show Text.bytes value ≤ base + Text.bytes value + _ + 2
    omega
  let r : Stretch b := ⟨base, text, (hroom 0).fits, False.elim⟩
  have hinner := dwindling_inner id hvalue r hroom h
  have hexpand := expandWith_result r hinner rfl tracked
  refine ⟨hexpand.same.symm, fun hspent => ?_, Code.step_reads⟩
  exact Bool.false_ne_true (hvalue.symm.trans (hexpand.halts .spent hspent))

/-- In `*x.y(*z.w)` the chain is expanded as `__value.y(*z.w)`, which is longer, but has one marker
less. -/
theorem nested_fragments_dwindle_chained :
    let s := Session.start {} []
    let text : Text := "*x.y(*z.w)"
    s.output.names.value.any isMarker = false ∧
      text.length < (s.output.names.value ++ ".y(*z.w)").length ∧
      expand text 0 true s = expandWith (Expansion.dwindling text .split) text 0 true s ∧
      expand text 0 true s ≠ .error .spent := by
  have hvalue : (Session.start {} []).output.names.value.any isMarker = false := by
    decide
  have hends := nested_fragments_dwindle "*x.y(*z.w)" 0 true (Session.start {} []) hvalue .split
  exact ⟨hvalue, by decide, hends.1, hends.2.1⟩

/-! ## Documents -/

namespace Document

variable {registry : Registry} {settings : Settings} {source : Text} {n : Nat}

/-- A cursor stands between two characters of a document, or at one of its ends. -/
def Between (source : Text) (c : Cursor) : Prop :=
  ∃ front, source = front ++ c.rest ∧ c.position = bytes front

/-- A cursor of a document has gone on, or stands where it was. -/
structure Onward (source : Text) (c c' : Cursor) : Prop where
  between : Between source c'
  forward : c.position ≤ c'.position

/-- From a state of a run the cursor goes on, in the step of the innermost region and in what the step
leads to. The step reads a character, unless it finds the end of the document. -/
structure Progress (registry : Registry) (source : Text) (frame : Frame) (outer : List Frame)
    (s : Session) : Prop where
  here : Between source s.cursor
  step : ∀ {region : Region} {step : Step} {s1 : Session},
    frame.region.step s = .ok ((region, step), s1) →
      Onward source s.cursor s1.cursor ∧
        (step ≠ .eof → s.cursor.position < s1.cursor.position) ∧
        (step = .eof → s1.cursor.rest = [])
  opens : ∀ {region : Region} {child : Option Frame} {s1 s2 : Session},
    frame.region.step s = .ok ((region, .child), s1) →
      openChild registry { frame with region } s1 = .ok (child, s2) →
        Onward source s1.cursor s2.cursor
  closes : ∀ {region : Region} {closed : List Frame × List Fault} {s1 s2 : Session},
    frame.region.step s = .ok ((region, .close), s1) →
      closeRegion { frame with region } outer s1 = .ok (closed, s2) →
        Onward source s1.cursor s2.cursor
  ends : ∀ {region : Region} {faults : List Fault} {s1 s2 : Session},
    frame.region.step s = .ok ((region, .eof), s1) →
      endDocument { frame with region } s1 = .ok (faults, s2) →
        Onward source s1.cursor s2.cursor

variable {s : Session}

theorem onward_of_goes {s' : Session} (h : (stretch settings source).Goes s s') :
    Onward source s.cursor s'.cursor := by
  have hc := h.holds.cursor
  refine ⟨⟨s'.cursor.past.reverse, hc.text_eq, ?_⟩, h.moved.position_le⟩
  rw [hc.position_eq]
  exact Nat.zero_add _

theorem framed_stateAfter {frames : List Frame}
    (hn : stateAfter registry settings source n = some (frames, s)) :
    (stretch settings source).Holds s ∧ Framed (stretch settings source) s.cursor frames := by
  refine forall_stateAfter
    (P := fun frames s => (stretch settings source).Holds s ∧
      Framed (stretch settings source) s.cursor frames)
    (fun root s hroot => ?_) (fun n frame outer s r s' _ hs hadvance => ?_) hn
  · obtain ⟨hgoes, hwaits⟩ :=
      (enterRoot_settles registry (stretch_holds settings source)).result _ _ hroot
    exact ⟨hgoes.holds, framed_of_waits (forall_mem_singleton.mpr hwaits)⟩
  · obtain ⟨hgoes, hadvanced⟩ := (advance_settles (stretch_expands settings source .split) registry
      hs.2 hs.1).result _ _ hadvance
    exact ⟨hgoes.holds, hadvanced.framed⟩

/-- Every step reads a character, as long as a region is open. -/
theorem stateAfter_length {frame : Frame} {outer : List Frame}
    (hn : stateAfter registry settings source n = some (frame :: outer, s)) :
    n + s.cursor.rest.length ≤ source.length := by
  induction n generalizing frame outer s with
  | zero =>
    have hle := (framed_stateAfter hn).1.cursor.text_eq
    have hlength : source.length = s.cursor.past.reverse.length + s.cursor.rest.length := by
      rw [← length_append, ← hle]
      rfl
    omega
  | succ n ih =>
    obtain ⟨frame0, outer0, s0, faults, hbefore, hadvance⟩ := stateAfter_succ.mp hn
    obtain ⟨hholds, hframed⟩ := framed_stateAfter hbefore
    obtain ⟨-, hadvanced⟩ := (advance_settles (stretch_expands settings source .split) registry
      hframed hholds).result _ _ hadvance
    have hlt := hadvanced.reads (cons_ne_nil _ _)
    have hle := ih hbefore
    omega

theorem progress_stateAfter {frame : Frame} {outer : List Frame}
    (hn : stateAfter registry settings source n = some (frame :: outer, s)) :
    Progress registry source frame outer s := by
  obtain ⟨hholds, hframe, houter⟩ := framed_stateAfter hn
  have hexpands := stretch_expands settings source .split
  have hstepped : ∀ {region : Region} {step : Step} {s1 : Session},
      frame.region.step s = .ok ((region, step), s1) → (stretch settings source).Goes s s1 ∧
        Region.Stepped (stretch settings source) s s1 region step := fun h =>
    (Region.step_settles hexpands hframe.noted hframe.escapes hholds).result _ _ h
  refine ⟨(onward_of_goes hholds.goes).between, fun hstep => ?_, fun hstep hopen => ?_,
    fun hstep hclose => ?_, @fun region _ _ _ hstep hend => ?_⟩
  all_goals obtain ⟨hgoes, h1⟩ := hstepped hstep
  · exact ⟨onward_of_goes hgoes, fun hne => hgoes.moved.position_lt (h1.reads hne), h1.ended⟩
  · exact onward_of_goes ((openChild_settles hexpands registry _ hgoes.holds).result _ _ hopen).1
  · have hwaits : ∀ f ∈ outer, Waits (stretch settings source) _ f := fun f hf =>
      (houter f hf).mono hgoes.moved.position_le
    exact onward_of_goes ((closeRegion_settles h1.noted hwaits hgoes.holds).result _ _ hclose).1
  · exact onward_of_goes ((endDocument_settles { frame with region } h1.noted hframe.tag
      hgoes.holds).result _ _ hend).1

/-- A document is read from its start to its end: the cursor only goes on, every step of a region reads
a character unless it finds the end of the document, and so there are no more steps than characters. No
other bound is reached either, if the name of the value has no marker. -/
theorem read_onward (registry : Registry) (settings : Settings) (source : Text) :
    (∀ {n : Nat} {frame : Frame} {outer : List Frame} {s : Session},
      stateAfter registry settings source n = some (frame :: outer, s) →
        n ≤ source.length ∧ Progress registry source frame outer s) ∧
      (settings.names.value.any isMarker = false →
        ∀ faults, process registry settings source ≠ .halted .spent faults) := by
  refine ⟨fun hn => ?_, fun hvalue faults hspent => ?_⟩
  · have hlength := stateAfter_length hn
    exact ⟨by omega, progress_stateAfter hn⟩
  · have hfit := (process_settles registry settings source .split).2
    rw [hspent] at hfit
    exact Bool.false_ne_true (hvalue.symm.trans hfit.1)

/-- After the first step the element is open, and its text lies ahead. -/
theorem read_onward_element :
    let source : Text := "<p>a</p>"
    (∃ frame outer s, stateAfter .standard {} source 1 = some (frame :: outer, s) ∧
        1 ≤ source.length ∧ Progress .standard source frame outer s) ∧
      ({} : Settings).names.value.any isMarker = false ∧
      ∀ faults, process .standard {} source ≠ .halted .spent faults := by
  have hopen : (stateAfter .standard {} "<p>a</p>" 1).any (!·.1.isEmpty) = true := by
    decide +kernel
  have hvalue : ({} : Settings).names.value.any isMarker = false := by
    decide
  have honward := read_onward .standard {} "<p>a</p>"
  refine ⟨?_, hvalue, honward.2 hvalue⟩
  obtain ⟨⟨frames, s⟩, hstate, hne⟩ := (Option.any_eq_true _ _).mp hopen
  cases frames with
  | nil => cases hne
  | cons frame outer => exact ⟨frame, outer, s, hstate, honward.1 hstate⟩

end Document
end Patchwork
