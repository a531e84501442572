import Patchwork.Document
import Patchwork.Proofs.Openings
import Patchwork.Proofs.Regions

/-!
# The stack of regions

While a document is read, the regions that are open lie in one another, and so do the parts of the
output that they have written: each region has begun behind all that the region around it had
written by then (`Stacked`). So whatever happens in a region, and also its end, leaves the slots of
the regions around it alone.

`Document.Sound` is the invariant of the loop. It holds once the document has been entered
(`enterRoot_agree`), and every step keeps it (`advance_agree`), so it holds in every state that a
run comes to (`Reached.sound`).
-/

namespace Patchwork

open Compile List Option Region

namespace Document

def held (frames : List Frame) : List SlotId :=
  frames.flatMap (·.region.slots)

/-- How the open regions lie in the nodes, when the cursor has come to a position. Behind `front`,
which is all that the regions around it see, the innermost one has what it has written. Only the
document itself has no region around it. -/
inductive Stacked (position : Nat) : List Frame → List Node → Prop where
  | nil (nodes : List Node) : Stacked position [] nodes
  | cons {frame : Frame} {outer : List Frame} {front nodes : List Node}
      (mark : frame.mark = front.length) (formed : frame.region.Formed front.length)
      (zone : Zone front frame.region.slots frame.region.waiting nodes)
      (inOrder : InOrder frame.region.waiting position)
      (root : frame.tag = none → outer = []) (outside : Stacked position outer front) :
      Stacked position (frame :: outer) nodes

theorem take_mark {front nodes : List Node} {ids : List SlotId} {waiting : List (SlotId × Fault)}
    (h : Zone front ids waiting nodes) : nodes.take front.length = front := by
  obtain ⟨back, -, rfl, -⟩ := h.split
  exact take_left

namespace Stacked

variable {position : Nat} {frames : List Frame} {nodes : List Node}

section

variable (h : Stacked position frames nodes)
include h

/-- What follows may belong to the innermost region. -/
theorem extend {more : List Node} (hmore : (slotsOf more).filterMap Slot.unresolved? = []) :
    Stacked position frames (nodes ++ more) := by
  cases h with
  | nil => exact .nil _
  | cons mark formed zone inOrder root outside =>
    exact .cons mark formed (zone.extend hmore) inOrder root outside

theorem mono {position' : Nat} (hle : position ≤ position') : Stacked position' frames nodes := by
  induction h with
  | nil nodes => exact .nil nodes
  | cons mark formed zone inOrder root outside ih =>
    exact .cons mark formed zone (inOrder.mono hle) root ih

theorem opened {id : SlotId} (hid : id ∈ held frames) :
    ∃ s, (slotsOf nodes)[id.index]? = some s ∧ s.frozen = false := by
  induction h with
  | nil => cases hid
  | cons mark formed zone inOrder root outside ih =>
    rcases mem_append.mp hid with hid | hid
    · exact zone.opened id hid
    · obtain ⟨s, hs, hf⟩ := ih hid
      obtain ⟨back, -, rfl, -⟩ := zone.split
      refine ⟨s, ?_, hf⟩
      rw [slotsOf_append, getElem?_append_left (List.getElem?_eq_some_iff.mp hs).1]
      exact hs

theorem unresolved {w : SlotId × Fault} (hw : w ∈ frames.flatMap (·.region.waiting)) :
    ∃ s, (slotsOf nodes)[w.1.index]? = some s ∧ s.unresolved? = some w.2 := by
  induction h with
  | nil => cases hw
  | cons mark formed zone inOrder root outside ih =>
    rcases mem_append.mp hw with hw | hw
    · exact zone.unresolved hw
    · obtain ⟨s, hs, hf⟩ := ih hw
      obtain ⟨back, -, rfl, -⟩ := zone.split
      refine ⟨s, ?_, hf⟩
      rw [slotsOf_append, getElem?_append_left (List.getElem?_eq_some_iff.mp hs).1]
      exact hs

theorem index_lt {id : SlotId} (hid : id ∈ held frames) : id.index < (slotsOf nodes).length := by
  obtain ⟨s, hs, -⟩ := h.opened hid
  exact (List.getElem?_eq_some_iff.mp hs).1

end

/-- The innermost region may change as long as it holds the same. -/
theorem replace {frame : Frame} {outer : List Frame}
    (h : Stacked position (frame :: outer) nodes)
    {region : Region} (hslots : region.slots = frame.region.slots)
    (hwaiting : region.waiting = frame.region.waiting)
    (hformed : ∀ n, frame.region.Formed n → region.Formed n) :
    Stacked position ({ frame with region } :: outer) nodes := by
  cases h with
  | cons mark formed zone inOrder root outside =>
    rw [← hwaiting] at inOrder
    rw [← hslots, ← hwaiting] at zone
    exact .cons mark (hformed _ formed) zone inOrder root outside

/-- No two purposes share a slot, in one region or in several. -/
theorem nodup (h : Stacked position frames nodes) : (held frames).Nodup := by
  induction h with
  | nil => exact nodup_nil
  | cons mark formed zone inOrder root outside ih =>
    refine nodup_append.mpr ⟨zone.nodup, ih, fun a ha b hb hab => ?_⟩
    have hge := zone.since a ha
    have hlt := outside.index_lt hb
    rw [hab] at hge
    exact absurd hlt (Nat.not_lt.mpr hge)

theorem mark_le (h : Stacked position frames nodes) :
    ∀ frame ∈ frames.head?, frame.mark ≤ nodes.length := by
  cases h with
  | nil => exact fun _ h => absurd h (not_mem_none _)
  | cons mark formed zone =>
    rintro _ ⟨⟩
    rw [mark]
    exact zone.front_isPrefix.length_le

end Stacked

/-- The invariant of the loop. -/
structure Sound (frames : List Frame) (s : Session) : Prop where
  placed : s.output.Placed
  stacked : Stacked s.cursor.position frames s.output.nodes

variable {s : Session} {frames : List Frame} {n : Nat}

/-- The innermost region can be read on, behind what the regions around it see. -/
theorem Sound.uncons {frame : Frame} {outer : List Frame} (hs : Sound (frame :: outer) s) :
    ∃ front, frame.mark = front.length ∧ frame.region.Sound s.now front s ∧
      (frame.tag = none → outer = []) ∧ Stacked s.cursor.position outer front := by
  cases hs.stacked with
  | cons mark formed zone inOrder root outside =>
    refine ⟨_, mark, ⟨formed, ?_, inOrder, Nat.le_refl _⟩, root, outside⟩
    exact ⟨hs.placed, prefix_refl _, zone⟩

/-- When a region has ended, the regions around it go on. -/
theorem Stacked.resume {old : Moment} {front : List Node} (h : Stacked old.position frames front)
    (hz : s.InZone old.forget front [] []) :
    Sound frames s := by
  obtain ⟨back, -, ho, hw⟩ := hz.output.zone.split
  refine ⟨hz.output.placed, ?_⟩
  rw [ho]
  refine (h.mono hz.forward).extend ?_
  rw [← map_snd_waitingFrom _ (slotsOf front).length, hw]
  rfl

def Entered (s : Session) (frame : Frame) (s' : Session) : Prop :=
  ∃ s1, s.Wrote s1 ∧ frame.mark = s1.output.nodes.length ∧
    frame.region.Sound s.now s1.output.nodes s'

section Steps

variable {h : Halt} {s : Session} {frame : Frame} {outer : List Frame} {front : List Node}
  {old : Moment}

theorem enter_agree {spec : ModeSpec} {attributes : Attributes} {dialect : Option Dialect}
    {tag : Option OpenTag} {before : Region → Compile Unit} [∀ r, Made Act.writing (before r)]
    (hs : s.output.Placed) :
    Gives (enter spec attributes dialect tag before) s
      fun frame s' => Entered s frame s' ∧ frame.tag = tag := by
  have hdialect : s.Wrote (s.inDialect dialect) := ⟨.of_eq rfl rfl, .refl _⟩
  refine enter_of ((create_fresh _ _ _).mono ?_)
  rintro region s1 ⟨hw1, hregion⟩
  refine Agree.of_made.mono fun _ s2 hw2 => ?_
  have hw := hdialect.trans (hw1.trans hw2)
  -- the mark is an empty text, which keeps later text apart from what was before
  have hz : s2.marked.InZone s.now s2.output.nodes [] [] := by
    refine ⟨⟨(hw.output.placed hs).mark, ?_, Zone.empty _⟩, .nil _, hw.position_le⟩
    exact hw.output.slots_eq ▸ prefix_refl _
  exact (start_agree hregion hz s2.length_marked).mono fun region s3 hr =>
    ⟨⟨s2, hw, rfl, hr⟩, rfl⟩

theorem Entered.of_wrote {s1 s' : Session} (hw : s.Wrote s1) (he : Entered s1 frame s') :
    Entered s frame s' := by
  obtain ⟨s2, hw2, hmark, hr⟩ := he
  refine ⟨s2, hw.trans hw2, hmark, hr.formed, ⟨?_, hr.inZone.inOrder, ?_⟩⟩
  · have hz := hr.inZone.output
    rw [show s1.now.places = s.now.places from hw.output.slots_eq] at hz
    exact hz
  · exact Nat.le_trans hw.position_le hr.inZone.forward

theorem enterRoot_agree (registry : Registry) (hs : s.output.Placed) :
    Gives (enterRoot registry) s fun root s' => Sound [root] s' := by
  refine enterRoot_of fun spec _ => ?_
  refine (enter_agree hs).mono fun root s' ⟨⟨s1, _, hmark, hr⟩, _⟩ => ?_
  refine ⟨hr.inZone.output.placed, ?_⟩
  exact .cons hmark hr.formed hr.inZone.output.zone hr.inZone.inOrder (fun _ => rfl) (.nil _)

/-- The end of a region leaves nothing that waits, and its faults are those it waited with. -/
theorem leave_agree (hmark : frame.mark = front.length)
    (hr : frame.region.Sound old front s) :
    Agree (@leave (.strict h) frame) (@leave .direct frame) s fun faults s' =>
      s'.InZone old.forget front [] [] ∧ faults = frame.region.waiting.map Prod.snd := by
  rw [leave_eq, @leave_eq (.strict h)]
  refine (finish_agree hr).bind fun _ s1 hz1 => .writing hz1 fun o s2 hz2 => ?_
  refine .writing hz2 fun _ s3 hz3 => ?_
  -- the end of the region freezes its slots, so nothing waits behind the front any more
  have hend : Gives (onOutput (·.endRegion frame.mark)) s3 fun faults s' =>
      s'.InZone old.forget front [] [] ∧ faults = frame.region.waiting.map Prod.snd := by
    rw [hmark]
    exact .of_eq rfl ⟨⟨hz3.output.endRegion, .nil _, hz3.forward⟩, hz3.output.endRegion_faults⟩
  refine hend.bind fun faults s4 ⟨hz4, hfaults⟩ => .writing hz4 fun o s5 hz5 => ?_
  refine .writing hz5 fun _ s6 hz6 => ?_
  refine .known rfl (.pure ⟨hz6.wrote ⟨.of_eq rfl rfl, ?_⟩, hfaults⟩)
  exact (Cursor.Moved.refl _).congr rfl rfl rfl

/-- What a tag leads to: a region that has been entered, or none for an empty element. -/
def Opened (s : Session) : Option Frame → Session → Prop
  | none, s' => s.Wrote s'
  | some child, s' => Entered s child s' ∧ child.tag ≠ none

theorem openChild_agree (registry : Registry) (parent : Frame) (hs : s.output.Placed) :
    Gives (openChild registry parent) s fun child s' => Opened s child s' := by
  refine (openChild_opening registry parent s).mono fun child s' h => ?_
  have hopened {spec attributes dialect tag front s1 child} [∀ r, Made Act.writing (front r)]
      (hsteps : s.Steps Act.writing s1)
      (henter : enter spec attributes dialect (some tag) front s1 = .ok (child, s')) :
      Opened s (some child) s' := by
    have hw := hsteps.wrote
    obtain ⟨he, htag⟩ := (enter_agree (hw.output.placed hs)).result _ _ henter
    exact ⟨he.of_wrote hw, by rw [htag]; exact nofun⟩
  cases h with
  | comment hread _ henter =>
    exact hopened (Made.steps inferInstance hread) henter
  | element hread htag _ henter =>
    exact hopened
      ((Made.steps inferInstance hread).trans (Made.steps inferInstance htag)) henter
  | empty h => exact (h.mono (by decide)).wrote

theorem closeRegion_agree (hmark : frame.mark = front.length)
    (hr : frame.region.Sound old front s) (houter : Stacked old.position outer front) :
    Agree (@closeRegion (.strict h) frame outer) (@closeRegion .direct frame outer) s fun r s' =>
      s'.InZone old.forget front [] [] ∧ Stacked old.position r.1 front ∧ held r.1 = held outer ∧
        r.2 = frame.region.waiting.map Prod.snd := by
  unfold closeRegion
  split
  · exact .after fun start s1 => .after fun name s2 => .after fun stop s3 => .fail ..
  next tag _ =>
    split
    · refine .wrote fun _ s1 hw1 => ?_
      refine (leave_agree hmark ⟨hr.formed, hr.inZone.wrote hw1⟩).bind ?_
      rintro faults s2 ⟨hz2, hfaults⟩
      refine .writing hz2 fun _ s3 hz3 => ?_
      exact .writing hz3 fun _ s4 hz4 => .pure ⟨hz4, houter, rfl, hfaults⟩
    · refine .wrote fun o s1 hw1 => ?_
      refine (leave_agree hmark ⟨hr.formed, hr.inZone.wrote hw1⟩).bind ?_
      rintro faults s2 ⟨hz2, hfaults⟩
      split
      next link parent frames _ =>
        -- the link goes to the region around the comment, which holds the same slots afterwards
        refine (parent.region.accept_keeps link s2).bind ?_
        rintro region s3 ⟨hw3, hslots, hwaiting, hformed⟩
        refine .pure ⟨hz2.wrote hw3, houter.replace hslots hwaiting hformed, ?_, hfaults⟩
        show region.slots ++ _ = _
        rw [hslots]
        rfl
      · exact .pure ⟨hz2, houter, rfl, hfaults⟩

theorem endDocument_agree (hmark : frame.mark = front.length)
    (hr : frame.region.Sound old front s) :
    Agree (@endDocument (.strict h) frame) (@endDocument .direct frame) s fun faults s' =>
      s'.InZone old.forget front [] [] ∧ faults = frame.region.waiting.map Prod.snd ∧
        frame.tag = none := by
  unfold endDocument
  split
  next htag => exact (leave_agree hmark hr).mono fun faults s' ⟨hz, hf⟩ => ⟨hz, hf, htag⟩
  · exact .fail ..

def endsRegion : Step → Bool
  | .close | .eof => true
  | .next | .child => false

/-- What a step of the loop does to the slots of open regions. Those of the regions around the
innermost one stay as they are, and no slot of which a region still speaks has moved. -/
structure Steady (frame : Frame) (outer frames : List Frame) (o o' : Output) : Prop where
  outside : ∀ id ∈ held outer, id ∈ held frames ∧ o'.slot? id = o.slot? id
  places : ∀ id ∈ held frames, id ∈ held (frame :: outer) → o'.place? id = o.place? id

/-- A step in which no region ends. -/
theorem Steady.of_kept {position : Nat} {frames : List Frame} {o' : Output}
    (hs : Sound (frame :: outer) s) (ho : Stacked position outer front)
    (hp : front <+: s.output.nodes) (h' : o'.Placed) (hp' : front <+: o'.nodes)
    (hkept : s.output.slots <+: o'.slots) (hframes : held outer ⊆ held frames) :
    Steady frame outer frames s.output o' where
  outside id hid :=
    ⟨hframes hid, (Output.slot?_of_isPrefix hs.placed h' hp hp' (ho.index_lt hid)).1⟩
  places id _ hid := by
    have hlt : id.index < s.output.slots.length := by
      rw [hs.placed, length_placesFrom]
      exact hs.stacked.index_lt hid
    obtain ⟨more, hmore⟩ := hkept
    rw [Output.place?, Output.place?, ← hmore, getElem?_append_left hlt]

/-- One step of the innermost region keeps the invariant, whatever it leads to. -/
theorem advance_agree (registry : Registry) (hs : Sound (frame :: outer) s) :
    Agree (@advance _ (.strict h) registry frame outer) (@advance _ .direct registry frame outer) s
      fun r s' => Sound r.1 s' ∧ Steady frame outer r.1 s.output s'.output ∧
        ∃ region step s1, @Region.step _ .direct frame.region s = .ok ((region, step), s1) ∧
          InOrder region.waiting s1.cursor.position ∧
          r.2 = if endsRegion step then region.waiting.map Prod.snd else [] := by
  obtain ⟨front, mark, hr, root, outside⟩ := hs.uncons
  have hfront := hr.inZone.output.zone.front_isPrefix
  refine (step_agree hr).bindOf ?_
  rintro ⟨region, step⟩ s1 hstep ⟨hr1, -⟩
  have hmark : ({ frame with region } : Frame).mark = front.length := mark
  -- the innermost region goes on, after some more text perhaps
  have hgoesOn : ∀ s2, s1.Wrote s2 →
      Stacked s1.cursor.position ({ frame with region } :: outer) s2.output.nodes :=
    fun s2 hw2 => .cons hmark hr1.formed (hr1.inZone.wrote hw2).output.zone
      hr1.inZone.inOrder root (outside.mono hr1.inZone.forward)
  have hheld : held outer ⊆ held ({ frame with region } :: outer) := fun id hid =>
    mem_append_right _ hid
  cases step with
  | next =>
    refine .pure ⟨⟨hr1.inZone.output.placed, hgoesOn s1 (.refl s1)⟩, ?_, region, .next, s1, hstep,
      hr1.inZone.inOrder, rfl⟩
    exact .of_kept hs outside hfront hr1.inZone.output.placed
      hr1.inZone.output.zone.front_isPrefix hr1.inZone.output.kept hheld
  | child =>
    refine (openChild_agree registry _ hr1.inZone.output.placed).bind fun child s2 hopened => ?_
    cases child with
    | none =>
      have hz2 := hr1.inZone.wrote hopened
      refine .pure ⟨⟨hz2.output.placed, (hgoesOn s2 hopened).mono hopened.position_le⟩, ?_,
        region, .child, s1, hstep, hr1.inZone.inOrder, rfl⟩
      exact .of_kept hs outside hfront hz2.output.placed
        hz2.output.zone.front_isPrefix hz2.output.kept hheld
    | some child =>
      -- the child begins behind everything, so all that was there is a front of the output
      obtain ⟨⟨s3, hw3, hmark3, hchild⟩, htag⟩ := hopened
      have hz3 := hr1.inZone.wrote hw3
      refine .pure ⟨⟨hchild.inZone.output.placed, ?_⟩, ?_, region, .child, s1, hstep,
        hr1.inZone.inOrder, rfl⟩
      · exact .cons hmark3 hchild.formed hchild.inZone.output.zone hchild.inZone.inOrder
          (fun h => absurd h htag) ((hgoesOn s3 hw3).mono hchild.inZone.forward)
      · refine .of_kept hs outside hfront hchild.inZone.output.placed ?_ ?_ ?_
        · exact hz3.output.zone.front_isPrefix.trans hchild.inZone.output.zone.front_isPrefix
        · exact hr1.inZone.output.kept.trans hchild.inZone.output.kept
        · exact fun id hid => mem_append_right _ (hheld hid)
  | close =>
    refine (closeRegion_agree hmark hr1 outside).mono ?_
    rintro ⟨frames, faults⟩ s2 ⟨hz, hstacked, hsameHeld, hfaults⟩
    -- what the outer regions hold lies before the mark of the region that has ended
    have hsame : ∀ id ∈ held outer, s2.output.slot? id = s.output.slot? id ∧
        s2.output.place? id = s.output.place? id := fun id hid =>
      Output.slot?_of_isPrefix hs.placed hz.output.placed hfront
        hz.output.zone.front_isPrefix (outside.index_lt hid)
    refine ⟨hstacked.resume hz, ⟨fun id hid => ⟨?_, (hsame id hid).1⟩, fun id hid _ => ?_⟩,
      region, .close, s1, hstep, hr1.inZone.inOrder, hfaults⟩
    · exact hsameHeld ▸ hid
    · exact (hsame id (hsameHeld ▸ hid)).2
  | eof =>
    refine (endDocument_agree hmark hr1).bind ?_
    rintro faults s2 ⟨hz, hfaults, htag⟩
    -- only the document itself has no tag, and nothing is around it
    obtain rfl := root htag
    exact .pure ⟨⟨hz.output.placed, .nil _⟩, ⟨nofun, nofun⟩, region, .eof, s1, hstep,
      hr1.inZone.inOrder, hfaults⟩

end Steps

/-! ## Runs -/

/-- The open regions and the session after a number of steps, if the run comes that far. -/
def stateAfter (registry : Registry) (settings : Settings) (source : Text) :
    Nat → Option (List Frame × Session)
  | 0 =>
    match enterRoot registry (Session.start settings source) with
    | .ok (root, s) => some ([root], s)
    | .error _ => none
  | n + 1 =>
    match stateAfter registry settings source n with
    | some (frame :: outer, s) =>
      match advance registry frame outer s with
      | .ok ((frames, _), s) => some (frames, s)
      | .error _ => none
    | _ => none

/-- The region that comes to its end with the next step and the session, as they are then. -/
def ending? (frame : Frame) (s : Session) : Option (Region × Session) :=
  match frame.region.step s with
  | .ok ((region, step), s') => if endsRegion step then some (region, s') else none
  | .error _ => none

def endingAt (registry : Registry) (settings : Settings) (source : Text) (n : Nat) :
    Option (Region × Session) :=
  match stateAfter registry settings source n with
  | some (frame :: _, s) => ending? frame s
  | _ => none

variable {registry : Registry} {settings : Settings} {source : Text}

theorem sound_enterRoot {root : Frame}
    (hroot : enterRoot registry (Session.start settings source) = .ok (root, s)) :
    Sound [root] s :=
  (enterRoot_agree registry (show (Session.start settings source).output.Placed from rfl)).result
    _ _ hroot

theorem stateAfter_zero : stateAfter registry settings source 0 = some (frames, s) ↔
    ∃ root, enterRoot registry (Session.start settings source) = .ok (root, s) ∧
      frames = [root] := by
  constructor
  · intro h
    unfold stateAfter at h
    split at h
    next root s1 hroot =>
      cases h
      exact ⟨root, hroot, rfl⟩
    · cases h
  · rintro ⟨root, hroot, rfl⟩
    rw [stateAfter, hroot]

theorem stateAfter_succ :
    stateAfter registry settings source (n + 1) = some (frames, s) ↔
      ∃ frame outer s0 faults, stateAfter registry settings source n = some (frame :: outer, s0) ∧
        advance registry frame outer s0 = .ok ((frames, faults), s) := by
  constructor
  · intro h
    unfold stateAfter at h
    split at h
    next frame outer s0 hbefore =>
      split at h
      next frames' faults s' hadvance =>
        cases h
        exact ⟨frame, outer, s0, faults, hbefore, hadvance⟩
      · cases h
    · cases h
  · rintro ⟨frame, outer, s0, faults, hbefore, hadvance⟩
    rw [stateAfter, hbefore]
    dsimp only
    rw [hadvance]

/-- What holds once the document has been entered, and is kept by every step, holds in every state
that a run comes to. -/
theorem forall_stateAfter {P : List Frame → Session → Prop}
    (hroot : ∀ root s, enterRoot registry (Session.start settings source) = .ok (root, s) →
      P [root] s) (hstep : ∀ n frame outer s r s',
      stateAfter registry settings source n = some (frame :: outer, s) → P (frame :: outer) s →
        advance registry frame outer s = .ok (r, s') → P r.1 s') : ∀ {frames : List Frame} {s : Session},
      stateAfter registry settings source n = some (frames, s) → P frames s := by
  induction n with
  | zero =>
    intro frames s hn
    obtain ⟨root, hentered, rfl⟩ := stateAfter_zero.mp hn
    exact hroot root s hentered
  | succ n ih =>
    intro frames s hn
    obtain ⟨frame, outer, s0, faults, hbefore, hadvance⟩ := stateAfter_succ.mp hn
    exact hstep n frame outer s0 _ s hbefore (ih hbefore) hadvance

theorem process_stateAfter (hn : stateAfter registry settings source n = some (frames, s))
    (hle : n ≤ source.length + 1) :
    ∃ faults, process registry settings source =
      run registry (source.length + 1 - n) frames faults s := by
  induction n generalizing frames s with
  | zero =>
    obtain ⟨root, hroot, rfl⟩ := stateAfter_zero.mp hn
    unfold process
    rw [hroot]
    exact ⟨[], rfl⟩
  | succ n ih =>
    obtain ⟨frame, outer, s0, more, hbefore, hadvance⟩ := stateAfter_succ.mp hn
    obtain ⟨faults, hrun⟩ := ih hbefore (Nat.le_of_succ_le hle)
    refine ⟨faults ++ more, ?_⟩
    rw [hrun, ← Nat.succ_sub_succ, Nat.succ_sub hle, run, hadvance]

theorem stateAfter_of_run {fuel : Nat} {faults faults' : List Fault} {s' : Session}
    (hn : stateAfter registry settings source n = some (frames, s))
    (hrun : run registry fuel frames faults s = .done s' faults') :
    ∃ m, stateAfter registry settings source m = some ([], s') := by
  fun_induction run registry fuel frames faults s generalizing n with
  | case1 =>
    cases hrun
    exact ⟨n, hn⟩
  | case2 | case3 => cases hrun
  | case4 fuel frame outer faults s frames more s1 hadvance ih =>
    exact ih (stateAfter_succ.mpr ⟨frame, outer, s, more, hn, hadvance⟩) hrun

theorem stateAfter_of_done {faults : List Fault}
    (h : process registry settings source = .done s faults) :
    ∃ n, stateAfter registry settings source n = some ([], s) := by
  unfold process at h
  split at h
  · cases h
  next root s0 hroot =>
    exact stateAfter_of_run (stateAfter_zero.mpr ⟨root, hroot, rfl⟩) h

/-- The invariant holds in every state that a run comes to. -/
theorem sound_stateAfter (hn : stateAfter registry settings source n = some (frames, s)) :
    Sound frames s :=
  forall_stateAfter (fun _ _ hroot => sound_enterRoot hroot)
    (fun _ _ _ _ _ _ _ hs hstep =>
      ((advance_agree (h := .spent) registry hs).result _ _ hstep).1) hn

theorem sound_endingAt {region : Region}
    (hend : endingAt registry settings source n = some (region, s)) :
    ∃ old front, region.Sound old front s := by
  unfold endingAt at hend
  split at hend
  next frame outer s0 hn =>
    obtain ⟨front, -, hr, -⟩ := (sound_stateAfter hn).uncons
    unfold ending? at hend
    split at hend
    next r step s' hstep =>
      split at hend
      · cases hend
        exact ⟨_, front, ((step_agree (h := .spent) hr).result _ _ hstep).1⟩
      · cases hend
    · cases hend
  · cases hend

/-- A statement that was closed in a region which has come to its end, found by a test. -/
theorem exists_closed_of_any {test : Statement → Bool}
    (h : ((endingAt registry settings source n).any fun e =>
      e.1.tracker?.any fun k => k.closed.any test) = true) :
    ∃ region s k st, endingAt registry settings source n = some (region, s) ∧
      region.tracker? = some k ∧ st ∈ k.closed ∧ test st = true := by
  obtain ⟨⟨region, s⟩, hend, h⟩ := (any_eq_true _ _).mp h
  obtain ⟨k, hk, h⟩ := (any_eq_true _ _).mp h
  obtain ⟨st, hst, h⟩ := any_eq_true.mp h
  exact ⟨region, s, k, st, hend, hk, hst, h⟩

/-- A run goes the same way with an editor that halts where an edit would be lost. -/
theorem run_strict {h : Halt} {fuel : Nat} {faults : List Fault} (hs : Sound frames s) :
    @run _ (.strict h) registry fuel frames faults s =
      @run _ .direct registry fuel frames faults s := by
  induction fuel generalizing frames faults s with
  | zero => cases frames <;> rfl
  | succ fuel ih =>
    cases frames with
    | nil => rfl
    | cons frame outer =>
      have hstep := advance_agree (h := h) registry hs
      unfold run
      rw [hstep.same]
      split
      · rfl
      next frames more s' hok => exact ih (hstep.result _ _ hok).1

end Document
end Patchwork
