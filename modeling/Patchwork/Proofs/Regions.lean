import Patchwork.Region.Basic
import Patchwork.Proofs.Tracking

/-!
# The slots of regions

What a region holds of the output, whatever its mode: the slots it may still edit (`Region.slots`)
and those that wait for a value (`Region.waiting`). Only text regions with statements and
stylesheets hold any. `Region.Sound` is the invariant of a region that is being read: it is there
once the region has been started (`Region.start_agree`), every step keeps it (`Region.step_agree`),
and it is what the end of the region needs (`Region.finish_agree`).

A stylesheet may fold at its end, and then everything it has written is cut away, slots included. It
does so only if no statement has been recognized in it, so none of those slots matters any more.
-/

namespace Patchwork

open Compile

/-! ## Stylesheets -/

namespace Stylesheet

/-- What the style statements of a region leave alone: its control flow and where it was started. It
may turn out that the region does not fold. -/
structure Keeps (r r' : Stylesheet) : Prop where
  opened : r'.statements.openStatements = r.statements.openStatements
  closed : r'.statements.closed = r.statements.closed
  mark : r'.mark = r.mark
  head : r'.head = r.head
  folds : r'.folds = true → r.folds = true

variable (r : Stylesheet)

theorem keeps_of_text (buffer : StyleBuffer) (sheet : Style.Sheet) (reactive : Bool) :
    r.Keeps { r with buffer, sheet, reactive } :=
  ⟨rfl, rfl, rfl, rfl, id⟩

theorem Ends.keeps {r r' : Stylesheet} {s s' : Session} (h : r.Ends s r' s') : r.Keeps r' := by
  cases h with
  | blank => exact r.keeps_of_text ..
  | call _ still => exact ⟨rfl, rfl, rfl, rfl, still⟩

/-- The slots of a region: that of its front, and those of its statements. -/
def slots : List SlotId :=
  r.head.toList ++ r.statements.slots

/-- The region begins right behind the mark `n`, its front has a slot, and it folds only without
statements. -/
structure Formed (n : Nat) : Prop where
  statements : r.statements.Formed
  mark : r.mark = n + 1
  head : r.head.isSome = true
  folding : r.folds = true → r.statements.statements = []

/-- The invariant of a stylesheet. -/
structure Sound (old : Moment) (front : List Node) (s : Session) : Prop where
  formed : r.Formed front.length
  inZone : s.InZone old front r.slots r.statements.waiting

variable {r} {r' : Stylesheet} {h : Halt} {s : Session} {old : Moment} {front : List Node}

theorem Sound.tracked (hr : r.Sound old front s) :
    r.statements.Sound old front r.head.toList s :=
  ⟨hr.formed.statements, hr.inZone⟩

theorem Sound.keeps {s' : Session} (hr : r.Sound old front s) (hw : s.Wrote s')
    (hk : r.Keeps r') : r'.Sound old front s' ∧ r.slots ⊆ r'.slots := by
  have hsame : r'.statements.statements = r.statements.statements := by
    rw [Tracker.statements, Tracker.statements, hk.opened, hk.closed]
  have hslots : r'.slots = r.slots := by
    rw [slots, slots, Tracker.slots, Tracker.slots, hsame, hk.head]
  have htracked : r'.statements.Sound old front r.head.toList s' :=
    Tracker.Sound.congr ⟨hr.formed.statements, hr.inZone.wrote hw⟩ hk.opened hk.closed
  refine ⟨⟨⟨htracked.formed, hk.mark.trans hr.formed.mark, ?_, fun hf => ?_⟩, ?_⟩, ?_⟩
  · rw [hk.head]
    exact hr.formed.head
  · rw [hsame]
    exact hr.formed.folding (hk.folds hf)
  · rw [slots, hk.head]
    exact htracked.inZone
  · rw [hslots]
    exact fun _ hid => hid

theorem character_keeps (c : Char) (at_ : Nat) (s : Session) :
    Gives (r.character c at_) s fun r' _ => r.Keeps r'.1 := by
  refine (r.character_turn c at_ s).mono fun p s' h => ?_
  cases h with
  | string | closing | text | comment | line => exact r.keeps_of_text ..
  | expr => exact ⟨rfl, rfl, rfl, rfl, nofun⟩
  | block _ _ h =>
    obtain ⟨_, _, _, _, rfl, -⟩ := (r.openBlock_opens at_ _).result _ _ h
    exact ⟨Tracker.openStatements_cons_block .., rfl, rfl, rfl, id⟩
  | ends _ _ h => exact ((r.endStatement_ends _ _).result _ _ h).keeps

theorem trackStatement_agree (c : Char) (at_ : Nat) (hr : r.Sound old front s) :
    Agree (@trackStatement _ (.strict h) r c at_) (@trackStatement _ .direct r c at_) s fun r' s' =>
      r'.Sound old front s' ∧ r.slots ⊆ r'.slots := by
  rw [trackStatement_eq, @trackStatement_eq _ (.strict h)]
  refine (Tracker.dispatch_agree r.buffer c hr.tracked).bind ?_
  rintro ⟨k, buffer, closed⟩ s1 ⟨hk, hgrows⟩
  have hslots : r.slots ⊆ r.head.toList ++ k.slots := fun id hid =>
    List.mem_append.mpr ((List.mem_append.mp hid).imp_right fun hid => hgrows.slots hid)
  refine .writing hk.inZone fun _ s2 hz2 => .pure ⟨⟨⟨hk.formed, hr.formed.mark, hr.formed.head, ?_⟩,
    hz2⟩, hslots⟩
  -- once a statement is recognized the stylesheet folds no more
  intro hfolds
  obtain ⟨hfolds, hsame⟩ := Bool.and_eq_true_iff.mp hfolds
  exact hgrows.idle (eq_of_beq hsame) (hr.formed.folding hfolds)

theorem step_agree (hr : r.Sound old front s) :
    Agree (@step _ (.strict h) r) (@step _ .direct r) s fun r' s' =>
      r'.1.Sound old front s' ∧ r.slots ⊆ r'.1.slots := by
  refine .wrote fun found s1 hw1 => ?_
  refine .wrote fun at_ s2 hw2 => ?_
  extract_lets text src pushed buffer r1
  have hr1 : r1.Sound old front s2 ∧ r.slots ⊆ r1.slots :=
    hr.keeps (hw1.trans hw2) (r.keeps_of_text ..)
  split
  · exact .pure hr1
  next c _ =>
    extract_lets ends rest restDirect
    have hrest : ∀ r2 s3, r2.Sound old front s3 ∧ r.slots ⊆ r2.slots →
        Agree (rest r2) (restDirect r2) s3 fun r' s' =>
          r'.1.Sound old front s' ∧ r.slots ⊆ r'.1.slots := by
      rintro r2 s3 ⟨hr2, hslots⟩
      unfold rest restDirect
      split
      · refine (trackStatement_agree c at_ hr2).bind fun r3 s4 hr3 => .pure ?_
        exact ⟨hr3.1, fun id hid => hr3.2 (hslots hid)⟩
      refine (Agree.of_made.and (r2.character_keeps c at_ s3)).mono fun r3 s4 hwrote => ?_
      obtain ⟨hr3, hslots3⟩ := hr2.keeps hwrote.1 hwrote.2
      exact ⟨hr3, fun id hid => hslots3 (hslots hid)⟩
    split
    · refine (Agree.of_made.and (r1.endStatement_ends at_ s2)).bind fun r2 s3 hwrote => ?_
      obtain ⟨hr2, hslots2⟩ := hr1.1.keeps hwrote.1 hwrote.2.keeps
      exact hrest r2 s3 ⟨hr2, fun id hid => hslots2 (hr1.2 hid)⟩
    · exact Agree.bind (.pure hr1) hrest

/-- A stylesheet that folds cuts away all it has written; one that does not fills the slot of its
front. -/
theorem finish_agree (hr : r.Sound old front s) :
    Agree (@finish (.strict h) r) (@finish .direct r) s fun _ s' =>
      s'.InZone old.forget front [] r.statements.waiting := by
  refine .writing hr.inZone fun _ s1 hz1 => ?_
  have hk1 : r.statements.Sound old front r.head.toList s1 := ⟨hr.formed.statements, hz1⟩
  refine (Tracker.finish_agree hk1).bind fun (_, reactive) s2 hk2 => ?_
  have hz3 := hk2.inZone
  refine .session ?_
  split
  next hfolds =>
    -- what is cut away holds no slot of a statement, since a stylesheet that folds has none
    have hwaiting : r.statements.waiting = [] := by
      have hnone := (List.append_eq_nil_iff.mp (hr.formed.folding hfolds)).1
      rw [Tracker.waiting, hnone, List.map_nil]
    rw [hwaiting] at hz3 ⊢
    refine .of_eq rfl ⟨?_, .nil _, hz3.forward⟩
    rw [hr.formed.mark]
    exact hz3.output.replaceSince _
  · cases hhead : r.head with
    | none => exact Agree.of_made.mono fun _ s4 hw => hz3.release.wrote hw
    | some head =>
      have hid : head ∈ r.head.toList := by simp [hhead]
      refine (edit_agree hz3 (List.mem_append_left _ hid)).bind fun _ s4 hz4 => ?_
      rw [hk2.filter_waiting_of_held hid] at hz4
      exact Agree.of_made.mono fun _ s5 hw => hz4.release.wrote hw

/-- A stylesheet in which nothing has been read. -/
structure Fresh (r : Stylesheet) : Prop where
  opened : r.statements.opened = []
  closed : r.statements.closed = []
  reactive : r.reactive = false

theorem create_fresh (attributes : Attributes) (s : Session) :
    Gives (create attributes) s fun r _ => r.Fresh :=
  .after fun _ _ => .after fun _ _ => .pure ⟨rfl, rfl, rfl⟩

theorem start_agree (hr : r.Fresh) (hz : s.InZone old front [] [])
    (hsize : s.output.nodes.length = front.length + 1) :
    Gives r.start s fun r' s' => r'.Sound old front s' := by
  have hmark : Gives (onOutput Output.mark) s fun mark s1 =>
      mark = front.length + 1 ∧ s1.InZone old front [] [] :=
    .of_eq rfl ⟨hsize, hz.output.mark, hz.inOrder, hz.forward⟩
  refine hmark.bind ?_
  rintro _ s1 ⟨rfl, hz1⟩
  refine .writing hz1 fun o s2 hz2 => ?_
  refine .writing hz2 fun _ s3 hz3 => ?_
  refine (addSlot_agree hz3).bind fun head s4 ⟨hz4, _, _⟩ => .pure ?_
  have hk : r.statements.Sound old front [head] s4 := .idle hr.opened hr.closed hz4
  refine ⟨⟨hk.formed, rfl, rfl, fun _ => ?_⟩, hk.inZone⟩
  rw [Tracker.statements, Tracker.openStatements, hr.opened, hr.closed]
  rfl

end Stylesheet

/-! ## Text regions -/

namespace Markup

variable {r : Markup} {h : Halt} {s : Session} {old : Moment} {front : List Node}

def slots (r : Markup) : List SlotId :=
  (r.statements.map Tracker.slots).getD []

def waiting (r : Markup) : List (SlotId × Fault) :=
  (r.statements.map Tracker.waiting).getD []

/-- The invariant of a text region. -/
structure Sound (old : Moment) (front : List Node) (r : Markup) (s : Session) : Prop where
  formed : ∀ k ∈ r.statements, k.Formed
  inZone : s.InZone old front r.slots r.waiting

theorem trackStatement_agree {k : Tracker} (c : Char) (hk : k.Sound old front [] s) :
    Agree (@trackStatement _ (.strict h) r k c) (@trackStatement _ .direct r k c) s fun r' s' =>
      r'.Sound old front s' ∧ k.slots ⊆ r'.slots := by
  rw [trackStatement_eq, @trackStatement_eq _ (.strict h)]
  refine .writing hk.inZone fun at_ s1 hz1 => ?_
  have hk1 : k.Sound old front [] s1 := ⟨hk.formed, hz1⟩
  refine (Tracker.dispatch_agree r.chain c hk1).bind ?_
  rintro ⟨k', chain, closed⟩ s2 ⟨hk2, hgrows⟩
  refine .writing hk2.inZone fun _ s3 hz3 => .pure ⟨⟨?_, hz3⟩, hgrows.slots⟩
  rintro _ ⟨⟩
  exact hk2.formed

theorem character_keeps (c : Char) (s : Session) :
    Gives (r.character c) s fun r' s' => s.Wrote s' ∧ r'.1.statements = r.statements := by
  refine .and .of_made (.after fun _ s1 => ?_)
  split
  · exact .after fun _ s2 => .pure rfl
  refine .after fun cur s2 => ?_
  split
  · exact .after fun _ s3 => .pure rfl
  · exact .after fun _ s3 => .pure rfl
  · exact .pure rfl
  · exact .pure rfl

/-- Only the statements count. -/
theorem Sound.congr {r' : Markup} (hr : r.Sound old front s)
    (hs : r'.statements = r.statements) : r'.Sound old front s ∧ r.slots ⊆ r'.slots := by
  refine ⟨⟨?_, ?_⟩, ?_⟩
  · rw [hs]
    exact hr.formed
  · rw [slots, waiting, hs]
    exact hr.inZone
  · rw [slots, slots, hs]
    exact fun _ hid => hid

theorem Sound.wrote {s' : Session} (hr : r.Sound old front s) (hw : s.Wrote s') :
    r.Sound old front s' :=
  ⟨hr.formed, hr.inZone.wrote hw⟩

theorem Sound.tracked {k : Tracker} (hr : r.Sound old front s)
    (hk : r.statements = some k) : k.Sound old front [] s := by
  have hz := hr.inZone
  rw [slots, waiting, hk] at hz
  exact ⟨hr.formed k hk, hz⟩

theorem step_agree (hr : r.Sound old front s) :
    Agree (@step _ (.strict h) r) (@step _ .direct r) s fun r' s' =>
      r'.1.Sound old front s' ∧ r.slots ⊆ r'.1.slots := by
  unfold step
  refine .wrote fun found s1 hw1 => ?_
  extract_lets r1
  have hr1 : r1.Sound old front s1 := ⟨hr.formed, hr.inZone.wrote hw1⟩
  -- a character that no statement deals with is text of the region
  have hcharacter : ∀ c, Gives (r1.character c) s1 fun r' s' =>
      r'.1.Sound old front s' ∧ r.slots ⊆ r'.1.slots := fun c =>
    (r1.character_keeps c s1).mono fun _ _ ⟨hw, hs⟩ => (hr1.wrote hw).congr hs
  split
  · exact .pure ⟨hr1, fun _ hid => hid⟩
  next c k _ hk =>
    have hslots : r.slots = k.slots := by
      rw [slots, show r.statements = some k from hk]
      rfl
    split
    · rw [hslots]
      exact (trackStatement_agree c (hr1.tracked hk)).bind fun r' s2 hr2 => .pure hr2
    · exact hcharacter c
  next c _ _ => exact hcharacter c

/-- At its end a text region edits the slots of its statements. -/
theorem finish_agree (hr : r.Sound old front s) :
    Agree (@finish (.strict h) r) (@finish .direct r) s fun _ s' =>
      s'.InZone old.forget front [] r.waiting := by
  refine .wrote fun _ s1 hw1 => ?_
  have hr1 := hr.wrote hw1
  cases hk : r.statements with
  | none => exact .pure hr1.inZone.release
  | some k =>
    rw [waiting, hk]
    refine Agree.discard ((Tracker.finish_agree (hr1.tracked hk)).mono fun _ s2 hk2 => ?_)
    exact hk2.inZone.release

end Markup

/-! ## All regions -/

namespace Region

variable {r : Region} {h : Halt} {s : Session} {old : Moment} {front : List Node}

def tracker? : Region → Option Tracker
  | markup r => r.statements
  | stylesheet r => some r.statements
  | code _ | script _ | comment _ => none

def slots : Region → List SlotId
  | markup r => r.slots
  | stylesheet r => r.slots
  | code _ | script _ | comment _ => []

def waiting (r : Region) : List (SlotId × Fault) :=
  (r.tracker?.map Tracker.waiting).getD []

/-- The statements of the region have their shape, and a stylesheet is marked at the region's own
mark `n`. -/
def Formed (n : Nat) : Region → Prop
  | markup r => ∀ k ∈ r.statements, k.Formed
  | stylesheet r => r.Formed n
  | code _ | script _ | comment _ => True

/-- The invariant of a region that is being read. -/
structure Sound (old : Moment) (front : List Node) (r : Region) (s : Session) : Prop where
  formed : r.Formed front.length
  inZone : s.InZone old front r.slots r.waiting

theorem Sound.tracked {k : Tracker} (hr : r.Sound old front s) (hk : r.tracker? = some k) :
    ∃ held, k.Sound old front held s := by
  cases r with
  | markup r =>
    have hr : r.Sound old front s := ⟨hr.formed, hr.inZone⟩
    exact ⟨[], hr.tracked hk⟩
  | stylesheet r =>
    have hr : r.Sound old front s := ⟨hr.formed, hr.inZone⟩
    cases hk
    exact ⟨r.head.toList, hr.tracked⟩
  | code | script | comment => cases hk

theorem step_agree (hr : r.Sound old front s) :
    Agree (@step _ (.strict h) r) (@step _ .direct r) s fun r' s' =>
      r'.1.Sound old front s' ∧ r.slots ⊆ r'.1.slots := by
  cases r with
  | code r | script r | comment r =>
    refine .writing hr.inZone fun r' s' hz => .pure ?_
    exact ⟨⟨trivial, hz⟩, List.Subset.refl _⟩
  | markup r =>
    have hr : r.Sound old front s := ⟨hr.formed, hr.inZone⟩
    refine (Markup.step_agree hr).bind fun r' s' ⟨hr', hslots⟩ => .pure ?_
    exact ⟨⟨hr'.formed, hr'.inZone⟩, hslots⟩
  | stylesheet r =>
    have hr : r.Sound old front s := ⟨hr.formed, hr.inZone⟩
    refine (Stylesheet.step_agree hr).bind fun r' s' ⟨hr', hslots⟩ => .pure ?_
    exact ⟨⟨hr'.formed, hr'.inZone⟩, hslots⟩

/-- The end of a region leaves nothing behind but what waits. -/
theorem finish_agree (hr : r.Sound old front s) :
    Agree (@finish (.strict h) r) (@finish .direct r) s fun _ s' =>
      s'.InZone old.forget front [] r.waiting := by
  cases r with
  | code r => exact (Agree.of_made (x := discard r.commit)).mono fun _ _ => hr.inZone.release.wrote
  | markup r => exact Markup.finish_agree ⟨hr.formed, hr.inZone⟩
  | script r => exact (Agree.of_made (x := r.finish)).mono fun _ _ => hr.inZone.release.wrote
  | stylesheet r => exact Stylesheet.finish_agree ⟨hr.formed, hr.inZone⟩
  | comment r => exact .pure hr.inZone.release

def Fresh : Region → Prop
  | markup r => ∀ k ∈ r.statements, k.opened = [] ∧ k.closed = []
  | stylesheet r => r.Fresh
  | code _ | script _ | comment _ => True

theorem create_fresh (spec : ModeSpec) (attributes : Attributes) (s : Session) :
    Gives (create spec attributes) s fun r s' => s.Wrote s' ∧ r.Fresh := by
  have hmarkup : ∀ children s, Gives (Markup.create children attributes) s fun r _ =>
      ∀ k ∈ r.statements, k.opened = [] ∧ k.closed = [] := by
    refine fun children s => .after fun at_ s1 => .pure fun k hk => ?_
    split at hk
    · cases hk
      exact ⟨rfl, rfl⟩
    · cases hk
  have hw : s.Wrote { s with cursor.options := spec.options } :=
    ⟨.refl _, (Cursor.Moved.refl _).congr rfl rfl rfl⟩
  refine .known rfl ?_
  split
  · exact .pure ⟨hw, trivial⟩
  · exact (Agree.of_made.and (hmarkup true _)).bind fun r _ h => .pure ⟨hw.trans h.1, h.2⟩
  · exact (Agree.of_made.and (hmarkup false _)).bind fun r _ h => .pure ⟨hw.trans h.1, h.2⟩
  · exact .wrote fun r _ h => .pure ⟨hw.trans h, trivial⟩
  · refine (Agree.of_made.and (Stylesheet.create_fresh _ _)).bind fun r _ h => .pure ?_
    exact ⟨hw.trans h.1, h.2⟩
  · exact .pure ⟨hw, trivial⟩

theorem start_agree (hr : r.Fresh) (hz : s.InZone old front [] [])
    (hsize : s.output.nodes.length = front.length + 1) :
    Gives r.start s fun r' s' => r'.Sound old front s' := by
  cases r with
  | code | script | comment => exact .pure ⟨trivial, hz⟩
  | markup r =>
    have hidle : ∀ k ∈ r.statements, k.Sound old front [] s := fun k hk =>
      .idle (hr k hk).1 (hr k hk).2 hz
    refine .pure ⟨fun k hk => (hidle k hk).formed, ?_⟩
    show s.InZone old front r.slots r.waiting
    rw [Markup.slots, Markup.waiting]
    cases hk : r.statements with
    | none => exact hz
    | some k => exact (hidle k hk).inZone
  | stylesheet r =>
    refine (Stylesheet.start_agree hr hz hsize).bind fun r' s' hr' => .pure ?_
    exact ⟨hr'.formed, hr'.inZone⟩

theorem accept_keeps (r : Region) (l : Link) (s : Session) : Gives (r.accept l) s fun r' s' =>
    s.Wrote s' ∧ r'.slots = r.slots ∧ r'.waiting = r.waiting ∧ ∀ n, r.Formed n → r'.Formed n := by
  refine .and .of_made ?_
  cases r with
  | markup r => exact .after fun o s1 => .pure ⟨rfl, rfl, fun _ hf => hf⟩
  | code | script | stylesheet | comment =>
    exact .after fun o s1 => .after fun _ s2 => .pure ⟨rfl, rfl, fun _ hf => hf⟩

end Region
end Patchwork
