import Patchwork.Proofs.Dialects
import Patchwork.Proofs.Invariants
import Patchwork.Proofs.Layout
import Patchwork.Proofs.Turns

/-!
# Recording what a region writes

A region whose statements are tracked keeps a log: its code is a list of items, and the statements of
the tracker lie among them (`Tracker.Recorded`). Each operation on statements adds its items, and
all else that a region does only adds text (`Agree.recording`).

The log is kept up to the end of the region also while children of it are read. What a child writes
is text to the region around it (`Recorded.extend`).

Main result: `recorded_stateAfter`. After any number of steps of a document, every region that is
open has a log.
-/

namespace Patchwork

open Compile List Output Region

/-! ## Computations that only add text -/

theorem Session.Alike.refl (s : Session) : s.Alike s :=
  ⟨rfl, rfl, ⟨s.settings.dialect, rfl⟩, rfl, rfl⟩

/-- What runs alike beside itself keeps the names. -/
theorem Parallel.named {α : Type} {x : Compile α} {P : α → α → Prop} (hx : Parallel x x P)
    {N : Names} {s s' : Session} {a : α} (hn : s.output.Named N) (ha : x s = .ok (a, s')) :
    P a a ∧ s'.output.Named N := by
  have hends := hx N s s (.refl s) hn
  rw [ha] at hends
  cases hends with
  | ok hq _ hn => exact ⟨hq, hn⟩

theorem Session.Steps.named {N : Names} {s s' : Session} (h : s.Steps [.read, .text] s')
    (hn : s.output.Named N) : s'.output.Named N := by
  induction h with
  | refl => exact hn
  | warn _ faults ih => exact ih
  | act _ hact hdoes ih =>
    cases hdoes with
    | read => exact ih
    | text t => exact ih.of_fork (fork_add _ t)
    | scope | freshVar | freshId | slot | edit | mark | cut => exact absurd hact (by decide)

/-! ## The log of a region -/

/-- The slots and braces that a region has written behind `front`, between texts. -/
def LogOf (front : List Node) (items : List Item) (nodes : List Node) : Prop :=
  ∃ log, marks log = items ∧ Written front log nodes

theorem LogOf.extend {front nodes : List Node} {items : List Item} (h : LogOf front items nodes)
    (more : List Node) : LogOf front items (nodes ++ more) := by
  obtain ⟨log, rfl, hw⟩ := h
  refine ⟨_, ?_, hw.extend more⟩
  rw [marks_append]
  exact append_nil _

/-- The code of a region that is being read is known by its statements. -/
structure Logged (N : Names) (front : List Node) (items : List Item) (s : Session) : Prop where
  placed : s.output.Placed
  named : s.output.Named N
  log : LogOf front items s.output.nodes

section

variable {N : Names} {front : List Node} {items : List Item} {s : Session}

theorem LogOf.wrote {o o' : Output} (h : LogOf front items o.nodes) (hw : o.Wrote o') :
    LogOf front items o'.nodes := by
  obtain ⟨log, rfl, hlog⟩ := h
  obtain ⟨t, hnodes, -⟩ := hw
  refine ⟨log ++ [.text t], ?_, ?_⟩
  · rw [marks_append]
    exact append_nil _
  · rw [hnodes]
    exact hlog.add rfl fun _ => rfl

section

variable (h : Logged N front items s)
include h

theorem Logged.wrote {s' : Session} (hw : s.Wrote s')
    (hn : s'.output.Named N) : Logged N front items s' :=
  ⟨hw.output.placed h.placed, hn, h.log.wrote hw.output⟩

/-- Text that is added between the items does not show among them. -/
theorem Agree.recording {α β : Type} {x : Compile α} {f g : α → Compile β}
    {Q : β → Session → Prop} [hx : Made [.read, .text] x]
    (hf : ∀ a s', Logged N front items s' → Agree (f a) (g a) s' Q) :
    Agree (x >>= f) (x >>= g) s Q := by
  refine .given fun a s' ha => hf a s' ?_
  have hsteps := hx.steps ha
  exact h.wrote (hsteps.mono (by decide)).wrote (hsteps.named h.named)

theorem pushSlot_logged {slot : Slot} (hs : slot.frozen = false) (given : List Text) :
    Gives (onOutput (·.pushSlot slot)) s fun id s' =>
      Logged N front (items ++ [.slot id (slot.value.getD []) given]) s' := by
  obtain ⟨log, rfl, hlog⟩ := h.log
  refine .of_eq rfl ⟨h.placed.pushSlot slot, h.named.of_fork rfl, _, ?_,
    hlog.pushSlot h.placed hs given⟩
  rw [marks_append]
  rfl

theorem addSlot_logged (initial : Text) (given : List Text) :
    Gives (onOutput (·.addSlot initial)) s fun id s' =>
      Logged N front (items ++ [.slot id initial given]) s' :=
  pushSlot_logged h rfl given

theorem emitBrace_logged :
    Gives (emit "\x7b") s fun _ s' => Logged N front (items ++ [.brace]) s' := by
  obtain ⟨log, rfl, hlog⟩ := h.log
  refine .of_eq rfl ⟨h.placed.add _, h.named.of_fork (fork_add _ _), log ++ [.brace], ?_,
    hlog.add rfl fun _ => rfl⟩
  rw [marks_append]
  rfl

theorem fillEmpty_logged {id : SlotId} (hid : Item.slot id [] [] ∈ items) :
    Gives (Editor.edit ⟨id, .set []⟩) s fun _ s' => Logged N front items s' := by
  obtain ⟨log, rfl, hlog⟩ := h.log
  have hid := slot_mem_marks.mp hid
  refine .of_eq rfl ⟨h.placed.edit _, h.named.of_fork (fork_edit _ _), log, rfl,
    hlog.edit h.placed (mem_slotIds.mpr ⟨_, _, hid⟩) fun id' t given hitem => ?_⟩
  unfold Edit.on
  split
  next heq =>
    -- a slot holds one text
    obtain ⟨slot, hslot, -, hempty⟩ := hlog.holds _ _ _ hid
    obtain ⟨slot', hslot', -, hheld⟩ := hlog.holds _ _ _ hitem
    have heq : id = id' := heq
    rw [heq, hslot'] at hslot
    cases hslot
    exact hempty.symm.trans hheld
  · rfl

end

/-! ## Statements -/

namespace Tracker

theorem branchHead_logged (keyword : Keyword) (h : Logged N front items s) :
    Gives (branchHead keyword) s fun head s' =>
      ∃ more, HeadItems N keyword head more ∧ Logged N front (items ++ more) s' := by
  unfold branchHead
  split
  next hk =>
    refine (addSlot_logged h "else" []).bind fun decl s1 h1 => .pure ⟨_, ?_, h1⟩
    rw [eq_of_beq hk]
    exact .otherwise decl
  next hk =>
    refine .recording h fun skipped s1 h1 => ?_
    refine .recording h1 fun start s2 h2 => ?_
    refine .recording h2 fun group s3 h3 => ?_
    split
    next he =>
      refine .recording h3 fun head s4 h4 => ?_
      obtain ⟨subject, binding⟩ := head
      have houtput : Gives output s4 fun o s' => o.Named N ∧ Logged N front items s' :=
        .of_eq rfl ⟨h4.named, h4⟩
      refine houtput.bind fun o s5 ⟨ho, h5⟩ => ?_
      rw [eq_of_beq he]
      generalize hcall : Foreach.call o subject binding = call
      obtain ⟨call, params, each⟩ := call
      refine (addSlot_logged h5 call subject.sources).bind fun decl s6 h6 => ?_
      refine (addSlot_logged h6 (callbackHead o.dialect params) [params]).bind fun slot s7 h7 => ?_
      rw [append_assoc] at h7
      exact .pure ⟨_, .foreach ho subject binding decl slot hcall, h7⟩
    next he =>
      refine .recording h3 fun e s4 h4 => ?_
      refine (addSlot_logged h4 _ [skipped, e.source]).bind fun decl s5 h5 => ?_
      refine .pure ⟨_, .condition ?_ decl skipped e.source e.reactive, h5⟩
      cases keyword with
      | otherwise => exact absurd rfl hk
      | foreach => exact absurd rfl he
      | ifTrue | elseIf | forLoop | whileLoop | switch => rfl

theorem openPart_logged (k : Tracker) (chain : Chain) (keyword : Keyword)
    (continued : Option Statement) (h : Logged N front items s) :
    Gives (openPart k chain keyword continued) s fun r s' =>
      ∃ st more, r.1 = { k with opened := .statement st :: k.opened } ∧
        BranchItems N keyword continued st more ∧ Logged N front (items ++ more) s' := by
  refine .recording h fun chain s1 h1 => ?_
  refine .recording h1 fun at_ s2 h2 => ?_
  refine .recording h2 fun _ s3 h3 => ?_
  refine .recording h3 fun stop s4 h4 => ?_
  extract_lets span rest
  -- behind the slot before the statement, a new one and one that goes on are read alike
  have hrest : ∀ start made s5, Logged N front (items ++ made) s5 →
      made = (if continued.isSome then [] else [.slot start [] []]) →
      Gives (rest start) s5 fun r s' =>
        ∃ st more, r.1 = { k with opened := .statement st :: k.opened } ∧
          BranchItems N keyword continued st more ∧ Logged N front (items ++ more) s' := by
    intro start made s5 h5 hmade
    have houtput : Gives output s5 fun o s' =>
        o.context = N.context ∧ Logged N front (items ++ made) s' :=
      .of_eq rfl ⟨h5.named.context, h5⟩
    refine houtput.bind fun o s6 ⟨ho, h6⟩ => ?_
    refine (pushSlot_logged h6 rfl []).bind fun declStart s7 h7 => ?_
    refine (branchHead_logged keyword h7).bind fun head s8 ⟨more, hhead, h8⟩ => ?_
    refine .recording h8 fun blanks s9 h9 => ?_
    refine .recording h9 fun _ s10 h10 => ?_
    refine .recording h10 fun braced s11 h11 => ?_
    refine (emitBrace_logged h11).bind fun _ s12 h12 => .pure ?_
    simp only [append_assoc] at h12
    rw [ho]
    cases continued with
    | none =>
      refine ⟨_, _, rfl, .begins hhead span (!braced) start declStart, ?_⟩
      rw [hmade] at h12
      exact h12
    | some st =>
      refine ⟨_, _, rfl, .goesOn st hhead span (!braced) declStart, ?_⟩
      rw [hmade] at h12
      exact h12
  cases continued with
  | none => exact (addSlot_logged h4 [] []).bind fun start s5 h5 => hrest start _ s5 h5 rfl
  | some st =>
    refine hrest st.start [] s4 ?_ rfl
    rw [append_nil]
    exact h4

/-- The nodes behind `front` are known by the statements of a tracker, which has no blocks of a
host. -/
def Recorded (N : Names) (front nodes : List Node) (k : Tracker) : Prop :=
  ∃ opened items, k.opened = opened.map .statement ∧ Laid N opened k.closed items ∧
    LogOf front items nodes

def Records (N : Names) (front : List Node) (k : Tracker) (s : Session) : Prop :=
  ∃ opened items, k.opened = opened.map .statement ∧ Laid N opened k.closed items ∧
    Logged N front items s

variable {k : Tracker} {s' : Session}

theorem Records.recorded (h : k.Records N front s) : k.Recorded N front s.output.nodes := by
  obtain ⟨opened, items, hk, hlaid, hlog⟩ := h
  exact ⟨opened, items, hk, hlaid, hlog.log⟩

theorem Recorded.records (h : k.Recorded N front s.output.nodes) (hplaced : s.output.Placed)
    (hnamed : s.output.Named N) : k.Records N front s := by
  obtain ⟨opened, items, hk, hlaid, hlog⟩ := h
  exact ⟨opened, items, hk, hlaid, hplaced, hnamed, hlog⟩

theorem Recorded.wrote (h : k.Recorded N front s.output.nodes) (hw : s.Wrote s') :
    k.Recorded N front s'.output.nodes := by
  obtain ⟨opened, items, hk, hlaid, hlog⟩ := h
  exact ⟨opened, items, hk, hlaid, hlog.wrote hw.output⟩

theorem Records.steps (h : k.Records N front s) (hsteps : s.Steps [.read, .text] s') :
    k.Records N front s' := by
  obtain ⟨opened, items, hk, hlaid, hlog⟩ := h
  exact ⟨opened, items, hk, hlaid,
    hlog.wrote (hsteps.mono (by decide)).wrote (hsteps.named hlog.named)⟩

/-- Closing a branch writes the slot after it. -/
theorem closePart_logged {st : Statement} (h : Logged N front items s)
    (hmem : Item.slot st.last.declStart [] [] ∈ items) :
    Gives (closePart st) s fun st' s' =>
      ∃ c, st' = st.closeLast c ∧
        Logged N front (items ++ [.slot c ('}' :: st.trailer) []]) s' := by
  refine (fillEmpty_logged h hmem).bind fun _ s1 h1 => ?_
  exact (addSlot_logged h1 _ []).bind fun c s2 h2 => .pure ⟨c, rfl, h2⟩

theorem close_records (chain : Chain) (atLineBreak : Bool) (h : k.Records N front s) :
    Gives (close k chain atLineBreak) s fun r s' => r.1.Records N front s' := by
  obtain ⟨opened, items, hk, hlaid, hlog⟩ := h
  refine .recording hlog fun chain s1 h1 => ?_
  cases opened with
  | nil =>
    rw [show k.opened = [] from hk]
    exact .pure ⟨[], items, hk, hlaid, h1⟩
  | cons st opened =>
    rw [show k.opened = .statement st :: opened.map .statement from hk]
    have hst := hlaid.made.1 st mem_cons_self
    refine (closePart_logged h1 (hst.parts _ st.last_mem_parts).declStart).bind ?_
    rintro _ s2 ⟨c, rfl, h2⟩
    refine .recording h2 fun cur s3 h3 => ?_
    dsimp only
    split
    next keyword hnext =>
      obtain ⟨hcont, hbegins⟩ := goesOn_of_continuation? hnext
      refine .recording h3 fun blanks s4 h4 => ?_
      refine (openPart_logged _ _ keyword (some (st.closeLast c)) h4).bind ?_
      rintro ⟨_, chain⟩ s5 ⟨st', more, rfl, hopens, h5⟩
      refine .pure ⟨st' :: opened, _, rfl, .goesOn c hlaid hcont hbegins hopens, ?_⟩
      rw [append_assoc] at h5
      exact h5
    · exact .pure ⟨opened, _, rfl, hlaid.closes c, h3⟩

/-- Whatever character it deals with, the region is known by the statements of the tracker. -/
theorem Turn.records {chain : Chain} {c : Char} {p : Tracker × Chain × Option Closed}
    (h : k.Turn chain c s p s') (hk : k.Records N front s) :
    p.1.Records N front s' := by
  have hread : ∀ {s1}, s.Steps [.read] s1 → k.Records N front s1 := fun read =>
    hk.steps (read.mono (by decide))
  cases h with
  | text read | unescaped read => exact hread read
  | closes read _ h => exact (close_records chain _ (hread read)).result _ _ h
  | declares read _ h => exact (hread read).steps (Made.steps inferInstance h)
  | begins read _ hmem h =>
    obtain ⟨opened, items, hk, hlaid, hlog⟩ := hread read
    obtain ⟨st, more, hp, hopens, hlog'⟩ := (openPart_logged _ chain _ none hlog).result _ _ h
    refine ⟨st :: opened, _, ?_, ?_, hlog'⟩
    · rw [hp]
      exact congrArg (.statement st :: ·) hk
    · rw [hp]
      exact hlaid.begins (begins_of_mem hmem) hopens

end Tracker

/-! ## Text regions -/

namespace Markup

/-- The code of a text region is known by its statements, if these are recognized in it. -/
def Recorded (N : Names) (front nodes : List Node) (r : Markup) : Prop :=
  ∀ k, r.statements = some k → k.Recorded N front nodes

variable {r : Markup}

theorem trackStatement_recorded {k : Tracker} (c : Char) (h : k.Records N front s) :
    Gives (r.trackStatement k c) s fun r' s' => r'.Recorded N front s'.output.nodes := by
  rw [trackStatement_eq]
  refine .position ((k.dispatch_turn r.chain c s).bind ?_)
  rintro ⟨k', chain, closed⟩ s2 hturn
  refine .wrote fun _ s3 hw3 => .pure ?_
  rintro _ ⟨⟩
  exact (hturn.records h).recorded.wrote hw3

theorem step_recorded (hplaced : s.output.Placed) (hnamed : s.output.Named N)
    (h : r.Recorded N front s.output.nodes) :
    Gives r.step s fun r' s' => r'.1.Recorded N front s'.output.nodes := by
  unfold step
  refine Agree.bindOf .of_made fun found s1 hfound hw1 => ?_
  have hnamed1 := Session.Steps.named (Made.steps inferInstance hfound) hnamed
  extract_lets r1
  have h1 : ∀ k, r.statements = some k → k.Records N front s1 := fun k hk =>
    ((h k hk).wrote hw1).records (hw1.output.placed hplaced) hnamed1
  -- a character that no statement deals with is text of the region
  have hcharacter : ∀ c, Gives (r1.character c) s1 fun r' s' =>
      r'.1.Recorded N front s'.output.nodes := by
    intro c
    refine (r1.character_keeps c s1).mono ?_
    rintro r' s' ⟨hw, hsame⟩ k hk
    exact (h1 k (hsame.symm.trans hk)).recorded.wrote hw
  split
  · exact .pure fun k hk => (h1 k hk).recorded
  next c k _ hk =>
    split
    · exact (trackStatement_recorded c (h1 k hk)).bind fun r' s2 h2 => .pure h2
    · exact hcharacter c
  next c _ _ => exact hcharacter c

end Markup

end

namespace Region

def Recorded (N : Names) (front nodes : List Node) : Region → Prop
  | markup r => r.Recorded N front nodes
  | code _ | script _ | stylesheet _ | comment _ => True

variable {N : Names} {front : List Node} {s : Session} {r : Region}

theorem Recorded.wrote {s' : Session} (h : r.Recorded N front s.output.nodes) (hw : s.Wrote s') :
    r.Recorded N front s'.output.nodes := by
  cases r with
  | markup r => exact fun k hk => (h k hk).wrote hw
  | code | script | stylesheet | comment => trivial

theorem Recorded.extend {nodes : List Node} (h : r.Recorded N front nodes) (more : List Node) :
    r.Recorded N front (nodes ++ more) := by
  cases r with
  | markup r =>
    intro k hk
    obtain ⟨opened, items, hopened, hlaid, hlog⟩ := h k hk
    exact ⟨opened, items, hopened, hlaid, hlog.extend more⟩
  | code | script | stylesheet | comment => trivial

theorem step_recorded (hplaced : s.output.Placed) (hnamed : s.output.Named N)
    (h : r.Recorded N front s.output.nodes) :
    Gives r.step s fun r' s' => r'.1.Recorded N front s'.output.nodes := by
  have hother : ∀ {R : Type} {x : Compile (R × Step)} (wrap : R → Region),
      (∀ r nodes, (wrap r).Recorded N front nodes) →
      Gives (do let (r, step) ← x; return (wrap r, step)) s
        fun r' s' => r'.1.Recorded N front s'.output.nodes := fun wrap hwrap =>
    Agree.bind ⟨rfl, fun _ _ _ => trivial⟩ fun _ _ _ => .pure (hwrap _ _)
  cases r with
  | markup r => exact (Markup.step_recorded hplaced hnamed h).bind fun r' s' h' => .pure h'
  | code r => exact hother code fun _ _ => trivial
  | script r => exact hother script fun _ _ => trivial
  | stylesheet r => exact hother stylesheet fun _ _ => trivial
  | comment r => exact hother comment fun _ _ => trivial

theorem start_recorded (hr : r.Fresh) (hnodes : s.output.nodes = front ++ [.text []]) :
    Gives r.start s fun r' s' =>
      r'.Recorded N (s'.output.nodes.take front.length) s'.output.nodes := by
  cases r with
  | markup r =>
    refine .pure fun k hk => ?_
    rw [hnodes, take_left]
    obtain ⟨hopened, hclosed⟩ := hr k hk
    refine ⟨[], [], hopened, ?_, [], rfl, .empty _⟩
    rw [hclosed]
    exact .start
  | stylesheet r =>
    exact Agree.bind ⟨rfl, fun _ _ _ => trivial⟩ fun _ _ _ => .pure trivial
  | code | script | comment => exact .pure trivial

theorem accept_recorded (l : Link) {nodes : List Node} (h : r.Recorded N front nodes) :
    Gives (r.accept l) s fun r' _ => r'.Recorded N front nodes := by
  cases r with
  | markup r => exact .after fun _ _ => .pure h
  | code | script | stylesheet | comment =>
    refine .after fun _ _ => ?_
    exact .after fun _ _ => .pure trivial

end Region

/-! ## Documents -/

def Frame.Recorded (N : Names) (nodes : List Node) (frame : Frame) : Prop :=
  frame.region.Recorded N (nodes.take frame.mark) nodes

namespace Document

/-- The code of every open region is known by its statements, as far as it lies in front of the
region in it. -/
def Recorded (N : Names) : List Frame → List Node → Prop
  | [], _ => True
  | frame :: outer, nodes => frame.Recorded N nodes ∧ Recorded N outer (nodes.take frame.mark)

variable {N : Names} {s : Session} {frame : Frame} {outer : List Frame}

variable {frames : List Frame}

/-- What follows is text to the innermost region. -/
theorem Recorded.extend {nodes : List Node} (h : Recorded N frames nodes)
    (hmark : ∀ frame ∈ frames.head?, frame.mark ≤ nodes.length) (more : List Node) :
    Recorded N frames (nodes ++ more) := by
  cases frames with
  | nil => trivial
  | cons frame outer =>
    rw [Recorded, Frame.Recorded, take_append_of_le_length (hmark frame rfl)]
    exact ⟨h.1.extend more, h.2⟩

/-- A region that has been entered has written nothing. -/
theorem enter_recorded (spec : ModeSpec) (attributes : Attributes) (dialect : Option Dialect)
    (tag : Option OpenTag) (front : Region → Compile Unit) (s : Session) :
    Gives (enter spec attributes dialect tag front) s
      fun frame s' => frame.Recorded N s'.output.nodes :=
  enter_of <| (create_fresh _ _ _).mono fun _ s1 ⟨_, hregion⟩ =>
    (Agree.any _ s1).mono fun _ _ _ => start_recorded hregion rfl

/-- The end of a region leaves the statements of the regions around it as they are. -/
theorem closeRegion_recorded {nodes : List Node} (h : Recorded N outer nodes) :
    Gives (closeRegion frame outer) s fun r _ => Recorded N r.1 nodes := by
  refine closeRegion_frames (P := (Recorded N · nodes)) h ?_
  rintro link parent frames s rfl
  exact (accept_recorded link h.1).mono fun _ _ hregion => ⟨hregion, h.2⟩

/-- One step of the innermost region keeps the code of all regions known. -/
theorem advance_recorded (registry : Registry) (hs : Sound (frame :: outer) s)
    (hn : s.output.Named N) (h : Recorded N (frame :: outer) s.output.nodes) :
    Gives (advance registry frame outer) s fun r s' => Recorded N r.1 s'.output.nodes := by
  obtain ⟨front, mark, hr, root, outside⟩ := hs.uncons
  have hstep := (step_agree (h := .spent) hr).right.and
    (step_recorded hs.placed hn h.1)
  have houter := h.2
  rw [mark, take_mark hr.inZone.output.zone] at hstep houter
  refine hstep.bind ?_
  rintro ⟨region, step⟩ s1 ⟨⟨hr1, -⟩, h1⟩
  have hmark : ({ frame with region } : Frame).mark = front.length := mark
  -- the innermost region goes on, after some more text perhaps
  have hgoesOn : ∀ s2, s1.Wrote s2 →
      Recorded N ({ frame with region } :: outer) s2.output.nodes := by
    intro s2 hw2
    rw [Recorded, Frame.Recorded, hmark, take_mark (hr1.inZone.wrote hw2).output.zone]
    exact ⟨h1.wrote hw2, houter⟩
  cases step with
  | next => exact .pure (hgoesOn s1 (.refl s1))
  | child =>
    refine ((openChild_agree registry _ hr1.inZone.output.placed).and
      (openChild_entered (fun spec attributes dialect tag front s _ =>
        enter_recorded (N := N) spec attributes dialect tag front s) registry _)).bind ?_
    rintro child s2 ⟨hopened, hchild⟩
    cases child with
    | none => exact .pure (hgoesOn s2 hopened)
    | some child =>
      obtain ⟨⟨s3, hw3, hmark3, hsound⟩, -⟩ := hopened
      refine .pure ⟨hchild child rfl, ?_⟩
      rw [hmark3, take_mark hsound.inZone.output.zone]
      exact hgoesOn s3 hw3
  | close =>
    refine ((closeRegion_agree (h := .spent) hmark hr1 outside).right.and
      (closeRegion_recorded houter)).mono ?_
    rintro ⟨frames, faults⟩ s2 ⟨⟨hz, hstacked, -⟩, hframes⟩
    -- what the region that has ended wrote is text to the region around it
    obtain ⟨back, -, hnodes, -⟩ := hz.output.zone.split
    rw [hnodes]
    exact hframes.extend hstacked.mark_le back
  | eof => exact Agree.after fun _ _ => .pure trivial

/-! ## Runs -/

variable {registry : Registry} {settings : Settings} {source : Text}

theorem named_stateAfter {n : Nat} {s : Session}
    (hn : stateAfter registry settings source n = some (frames, s)) :
    List.Forall₂ Frame.Alike frames frames ∧ s.output.Named settings.names := by
  refine forall_stateAfter (P := fun frames s =>
    List.Forall₂ Frame.Alike frames frames ∧ s.output.Named settings.names) ?_ ?_ hn
  · intro root s hroot
    have hstart : (Session.start settings source).output.Named settings.names := ⟨rfl, nofun⟩
    obtain ⟨halike, hnamed⟩ := (enterRoot_parallel registry).named hstart hroot
    exact ⟨.cons halike .nil, hnamed⟩
  · rintro n frame outer s r s' _ ⟨halike, hnamed⟩ hstep
    obtain ⟨hframe, houter⟩ := forall₂_cons.mp halike
    exact (advance_parallel registry hframe houter).named hnamed hstep

/-- The code of all open regions is known in every state that a run comes to. -/
theorem recorded_stateAfter {n : Nat} {s : Session}
    (hn : stateAfter registry settings source n = some (frames, s)) :
    Recorded settings.names frames s.output.nodes := by
  refine forall_stateAfter (P := fun frames s => Recorded settings.names frames s.output.nodes)
    ?_ ?_ hn
  · intro root s hroot
    exact ⟨(enterRoot_of fun _ _ => enter_recorded _ _ _ _ _ _).result _ _ hroot, trivial⟩
  · intro n frame outer s r s' hbefore hrecorded hstep
    exact (advance_recorded registry (sound_stateAfter hbefore) (named_stateAfter hbefore).2
      hrecorded).result _ _ hstep

end Document
end Patchwork
