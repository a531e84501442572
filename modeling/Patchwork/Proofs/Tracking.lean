import Patchwork.Proofs.Turns
import Patchwork.Proofs.Writing

/-!
# The slots of statements

A statement owns the slots that were made for it: one before it, and for each branch one before the
branch, those of its head, and one after it (`Statement.slots`). This module follows them through
the tracker, from the keyword that opens a branch to the end of the region.

`Tracker.Sound` is the invariant. All slots of all statements are different and open; they lie in
the part of the output that the region writes; and the slots without a value are those of the last
branches of the statements that are open, in order. Every step of the tracker keeps it
(`dispatch_agree`), and so does the end of the region (`finish_agree`); on the way every edit finds
its slot, whichever editor carries it out.
-/

namespace Patchwork

open Compile TextHost List Option Statement

/-! ## What a statement owns -/

/-- The slots of a branch in the order they were made. -/
def Part.slots (p : Part) : List SlotId :=
  p.declStart :: p.decl :: ((p.params.map Prod.fst).toList ++ p.close.toList)

namespace Statement

def slots (s : Statement) : List SlotId :=
  s.start :: s.parts.flatMap Part.slots

/-- What is wrong with a statement that is never closed: it names the last branch. -/
def unclosed (s : Statement) : Fault :=
  ⟨.statementOpen s.last.keyword.text, s.last.span⟩

def waiting (s : Statement) : SlotId × Fault :=
  (s.last.declStart, s.unclosed)

def closeLast (s : Statement) (close : SlotId) : Statement :=
  { s with last := { s.last with close := some close } }

variable (s : Statement)

theorem slots_eq : s.slots = s.start :: (s.earlier.flatMap Part.slots ++ s.last.slots) := by
  simp only [slots, parts, flatMap_append, flatMap_singleton]

theorem parts_addPart (p : Part) : (s.addPart p).parts = s.parts ++ [p] := rfl

theorem slots_addPart (p : Part) : (s.addPart p).slots = s.slots ++ p.slots := by
  rw [slots_eq, slots, addPart, cons_append]

theorem slots_closeLast {s : Statement} (h : s.last.close = none) (close : SlotId) :
    (s.closeLast close).slots = s.slots ++ [close] := by
  rw [slots_eq, slots_eq]
  simp only [closeLast, Part.slots, h, toList_some, toList_none, append_nil,
    cons_append, append_assoc]

theorem declStart_mem_slots : s.last.declStart ∈ s.slots := by
  rw [slots_eq]
  exact mem_cons_of_mem _ (mem_append_right _ (mem_cons_self ..))

end Statement

namespace Keyword

def begins : Keyword → Bool
  | elseIf | otherwise => false
  | _ => true

def hasCondition : Keyword → Bool
  | otherwise | foreach => false
  | _ => true

end Keyword

/-- The shape of a statement. Its slots were made in order. Its first branch has its own keyword,
which can begin a statement; a branch that another one follows is closed and is one of an `if`, and
what follows it begins with `else`. -/
structure Statement.Formed (s : Statement) : Prop where
  ascending : s.slots.Pairwise fun a b => a.index < b.index
  begins : s.keyword.begins = true
  first : (s.earlier.headD s.last).keyword = s.keyword
  earlier : ∀ p ∈ s.earlier, p.close.isSome = true ∧ p.keyword.continuable = true
  later : ∀ p ∈ s.parts.tail, p.keyword.begins = false
  condition : ∀ p ∈ s.parts, p.condition.isSome = p.keyword.hasCondition
  each : s.each.isSome = (s.keyword == .foreach)
  reactive : s.reactive = s.parts.any Part.reactive

namespace Statement.Formed

variable {s : Statement}

theorem begin (hasc : s.slots.Pairwise fun a b => a.index < b.index) (he : s.earlier = [])
    (hb : s.keyword.begins = true) (hk : s.last.keyword = s.keyword)
    (hc : s.last.condition.isSome = s.keyword.hasCondition)
    (hi : s.each.isSome = (s.keyword == .foreach)) (hr : s.reactive = s.last.reactive) :
    s.Formed where
  ascending := hasc
  begins := hb
  first := by rw [he]; exact hk
  earlier := by simp [he]
  later := by simp [parts, he]
  condition := by simpa [parts, he, hk] using hc
  each := hi
  reactive := by simp [parts, he, hr]

/-- Another branch after a closed one of an `if`. -/
theorem addPart (h : s.Formed) (hclosed : s.last.close.isSome = true)
    (hcont : s.last.keyword.continuable = true) {p : Part}
    (hasc : (s.addPart p).slots.Pairwise fun a b => a.index < b.index)
    (hb : p.keyword.begins = false) (hc : p.condition.isSome = p.keyword.hasCondition) :
    (s.addPart p).Formed where
  ascending := hasc
  begins := h.begins
  first := by
    refine Eq.trans ?_ h.first
    cases he : s.earlier <;> simp [Statement.addPart, parts, he]
  earlier := forall_mem_append.mpr ⟨h.earlier, forall_mem_singleton.mpr ⟨hclosed, hcont⟩⟩
  later := by
    have hne : s.parts ≠ [] := by simp [parts]
    rw [parts_addPart, tail_append_of_ne_nil hne, forall_mem_append, forall_mem_singleton]
    exact ⟨h.later, hb⟩
  condition := forall_mem_append.mpr ⟨h.condition, forall_mem_singleton.mpr hc⟩
  each := h.each
  reactive := by
    show (s.reactive || p.reactive) = (s.parts ++ [p]).any Part.reactive
    rw [h.reactive]
    simp

theorem closeLast (h : s.Formed) (ho : s.last.close = none) {c : SlotId}
    (hc : ∀ a ∈ s.slots, a.index < c.index) : (s.closeLast c).Formed where
  ascending := by
    rw [slots_closeLast ho]
    refine pairwise_append.mpr ⟨h.ascending, pairwise_singleton _ _, fun a ha b hb => ?_⟩
    rw [mem_singleton.mp hb]
    exact hc a ha
  begins := h.begins
  first := by
    refine Eq.trans ?_ h.first
    cases he : s.earlier <;> simp [Statement.closeLast, he]
  earlier := h.earlier
  later := by
    have hlater := h.later
    rw [parts] at hlater ⊢
    cases he : s.earlier with
    | nil => simp [Statement.closeLast, he]
    | cons p ps =>
      rw [he, cons_append, tail_cons, forall_mem_append] at hlater
      rw [Statement.closeLast, he, cons_append, tail_cons, forall_mem_append]
      exact ⟨hlater.1, forall_mem_singleton.mpr (hlater.2 s.last (mem_singleton_self _))⟩
  condition := by
    obtain ⟨hearlier, hlast⟩ := forall_mem_append.mp h.condition
    refine forall_mem_append.mpr ⟨hearlier, forall_mem_singleton.mpr ?_⟩
    exact hlast s.last (mem_singleton_self _)
  each := h.each
  reactive := by
    refine h.reactive.trans ?_
    simp [Statement.closeLast, parts]

end Statement.Formed

def Open.statement? : Open → Option Statement
  | statement s => some s
  | block .. => none

namespace Tracker

def openStatements (k : Tracker) : List Statement :=
  k.opened.reverse.filterMap Open.statement?

def statements (k : Tracker) : List Statement :=
  k.openStatements ++ k.closed

def slots (k : Tracker) : List SlotId :=
  k.statements.flatMap Statement.slots

def waiting (k : Tracker) : List (SlotId × Fault) :=
  k.openStatements.map Statement.waiting

/-- Every statement has its shape, and the last branch is closed in those that are closed only. -/
structure Formed (k : Tracker) : Prop where
  formed : ∀ s ∈ k.statements, s.Formed
  opened : ∀ s ∈ k.openStatements, s.last.close = none
  closed : ∀ s ∈ k.closed, s.last.close.isSome = true

/-- A region has written the output behind `front`. It holds there the slots of its statements
besides those of `held`. -/
structure Sound (old : Moment) (front : List Node) (held : List SlotId) (k : Tracker)
    (s : Session) : Prop where
  formed : k.Formed
  inZone : s.InZone old front (held ++ k.slots) k.waiting

theorem openStatements_cons_block (k : Tracker) (id : Nat) (span : Span) (opened : List Open) :
    openStatements { k with opened := .block id span :: opened } =
      openStatements { k with opened } := by
  simp [openStatements, Open.statement?]

theorem openStatements_cons_statement (k : Tracker) (s : Statement) (opened : List Open) :
    openStatements { k with opened := .statement s :: opened } =
      openStatements { k with opened } ++ [s] := by
  simp [openStatements, Open.statement?]

theorem waiting_cons_statement (k : Tracker) (s : Statement) (opened : List Open) :
    waiting { k with opened := .statement s :: opened } =
      waiting { k with opened } ++ [s.waiting] := by
  rw [waiting, waiting, openStatements_cons_statement, map_append, map_singleton]

theorem slots_cons_statement_perm (k : Tracker) (s : Statement) (opened : List Open) :
    (slots { k with opened := .statement s :: opened }).Perm
      (slots { k with opened } ++ s.slots) := by
  simp only [slots, statements, openStatements_cons_statement, flatMap_append,
    flatMap_singleton, append_assoc]
  exact List.Perm.append_left _ perm_append_comm

theorem slots_closed_append (k : Tracker) (s : Statement) :
    slots { k with closed := k.closed ++ [s] } = slots k ++ s.slots := by
  simp only [slots, statements, flatMap_append, flatMap_singleton, append_assoc]
  rfl

section

variable {old : Moment} {front : List Node} {held : List SlotId} {s : Session} {k k' : Tracker}
  {opened : List Open} {st : Statement}

theorem Sound.congr (h : k.Sound old front held s) (ho : k'.openStatements = k.openStatements)
    (hc : k'.closed = k.closed) : k'.Sound old front held s where
  formed :=
    { formed := by
        rw [statements, ho, hc]
        exact h.formed.formed
      opened := by
        rw [ho]
        exact h.formed.opened
      closed := by
        rw [hc]
        exact h.formed.closed }
  inZone := by
    rw [slots, statements, waiting, ho, hc]
    exact h.inZone

/-- A tracker that has met no statement holds nothing. -/
theorem Sound.idle (ho : k.opened = []) (hc : k.closed = []) (hz : s.InZone old front held []) :
    k.Sound old front held s := by
  have hopen : k.openStatements = [] := by
    rw [openStatements, ho]
    rfl
  have hnone : k.statements = [] := by
    rw [statements, hopen, hc]
    rfl
  refine ⟨⟨?_, ?_, ?_⟩, ?_⟩
  · rw [hnone]
    exact forall_mem_nil _
  · rw [hopen]
    exact forall_mem_nil _
  · rw [hc]
    exact forall_mem_nil _
  · rw [slots, hnone, waiting, hopen]
    exact (append_nil held).symm ▸ hz

theorem formed_cons_statement : Formed { k with opened := .statement st :: opened } ↔
    Formed { k with opened } ∧ st.Formed ∧ st.last.close = none := by
  have hopen := openStatements_cons_statement k st opened
  constructor
  · rintro ⟨hf, ho, hc⟩
    rw [statements, hopen, forall_mem_append, forall_mem_append, forall_mem_singleton] at hf
    rw [hopen, forall_mem_append, forall_mem_singleton] at ho
    exact ⟨⟨forall_mem_append.mpr ⟨hf.1.1, hf.2⟩, ho.1, hc⟩, hf.1.2, ho.2⟩
  · rintro ⟨⟨hf, ho, hc⟩, hst, hclose⟩
    obtain ⟨hopened, hclosed⟩ := forall_mem_append.mp hf
    refine ⟨?_, ?_, hc⟩
    · rw [statements, hopen, forall_mem_append, forall_mem_append, forall_mem_singleton]
      exact ⟨⟨hopened, hst⟩, hclosed⟩
    · rw [hopen, forall_mem_append, forall_mem_singleton]
      exact ⟨ho, hclose⟩

theorem sound_cons_statement : Sound old front held { k with opened := .statement st :: opened } s ↔
    Formed { k with opened } ∧ st.Formed ∧ st.last.close = none ∧
      s.InZone old front (held ++ (slots { k with opened } ++ st.slots))
        (waiting { k with opened } ++ [st.waiting]) := by
  have hslots := (slots_cons_statement_perm k st opened).append_left held
  have hwaiting := waiting_cons_statement k st opened
  constructor
  · rintro ⟨hf, hz⟩
    obtain ⟨hf, hst, ho⟩ := formed_cons_statement.mp hf
    rw [hwaiting] at hz
    exact ⟨hf, hst, ho, hz.perm hslots.symm⟩
  · rintro ⟨hf, hst, ho, hz⟩
    refine ⟨formed_cons_statement.mpr ⟨hf, hst, ho⟩, ?_⟩
    rw [hwaiting]
    exact hz.perm hslots

theorem Sound.close (hf : k.Formed) (hst : st.Formed) (hclosed : st.last.close.isSome = true)
    (hz : s.InZone old front (held ++ (k.slots ++ st.slots)) k.waiting) :
    Sound old front held { k with closed := k.closed ++ [st] } s where
  formed :=
    { formed := by
        rw [statements, ← append_assoc, forall_mem_append, forall_mem_singleton]
        exact ⟨hf.formed, hst⟩
      opened := hf.opened
      closed := by
        rw [forall_mem_append, forall_mem_singleton]
        exact ⟨hf.closed, hclosed⟩ }
  inZone := by
    rw [slots_closed_append]
    exact hz

end

/-! ## Opening a branch -/

def BranchHead.slots (head : BranchHead) : List SlotId :=
  head.decl :: (head.params.map Prod.fst).toList

/-- The head has a condition or an iteration as its keyword says. -/
structure BranchHead.Formed (keyword : Keyword) (head : BranchHead) : Prop where
  condition : head.condition.isSome = keyword.hasCondition
  each : head.each.isSome = (keyword == .foreach)

section

variable {s : Session} {old : Moment} {front : List Node} {ids : List SlotId}
  {waiting : List (SlotId × Fault)}

theorem branchHead_agree (keyword : Keyword) (hz : s.InZone old front ids waiting) :
    Gives (branchHead keyword) s fun head s' =>
      s'.InZone old front (ids ++ head.slots) waiting ∧ Follows ids head.slots ∧
        head.Formed keyword := by
  unfold branchHead
  split
  next hk =>
    refine (addSlot_agree hz).bind fun decl s1 ⟨hz1, _, hf1⟩ => .pure ⟨hz1, hf1, ?_⟩
    rw [eq_of_beq hk]
    exact ⟨rfl, rfl⟩
  next hk =>
    refine .writing hz fun skipped s1 hz1 => ?_
    refine .writing hz1 fun start s2 hz2 => ?_
    refine .writing hz2 fun group s3 hz3 => ?_
    split
    next he =>
      refine .writing hz3 fun head s4 hz4 => ?_
      refine .writing hz4 fun o s5 hz5 => ?_
      refine (addSlot_agree hz5).bind fun decl s6 ⟨hz6, _, hf6⟩ => ?_
      refine (addSlot_agree hz6).bind fun slot s7 ⟨hz7, _, hf7⟩ => .pure ?_
      rw [append_assoc] at hz7
      refine ⟨hz7, hf6.append hf7, ?_⟩
      rw [eq_of_beq he]
      exact ⟨rfl, rfl⟩
    next he =>
      refine .writing hz3 fun e s4 hz4 => ?_
      refine (addSlot_agree hz4).bind fun decl s5 ⟨hz5, _, hf5⟩ => .pure ⟨hz5, hf5, ?_⟩
      cases keyword with
      | otherwise => exact absurd rfl hk
      | foreach => exact absurd rfl he
      | ifTrue | elseIf | forLoop | whileLoop | switch => exact ⟨rfl, rfl⟩

/-- How a new branch makes a statement, or adds to one that goes on. -/
inductive Opens (keyword : Keyword) : Option Statement → Statement → Prop
  | begin {st : Statement} (hk : st.keyword = keyword) (he : st.earlier = [])
      (hr : st.reactive = st.last.reactive) (hi : st.each.isSome = (keyword == .foreach))
      (hl : st.last.keyword = keyword) (hc : st.last.condition.isSome = keyword.hasCondition)
      (ho : st.last.close = none) : Opens keyword none st
  | continue (st : Statement) {p : Part} (hl : p.keyword = keyword)
      (hc : p.condition.isSome = keyword.hasCondition) (ho : p.close = none) :
      Opens keyword (some st) (st.addPart p)

variable {keyword : Keyword} {k : Tracker} {held : List SlotId}

/-- A branch that is opened where it may be leaves a statement of the right shape. -/
theorem Opens.formed {continued : Option Statement} {st : Statement}
    (h : Opens keyword continued st) (hasc : st.slots.Pairwise fun a b => a.index < b.index)
    (hnew : continued = none → keyword.begins = true)
    (hmore : ∀ c, continued = some c → c.Formed ∧ c.last.close.isSome = true ∧
      c.last.keyword.continuable = true ∧ keyword.begins = false) :
    st.Formed ∧ st.last.close = none := by
  cases h with
  | begin hk he hr hi hl hc ho =>
    subst hk
    exact ⟨.begin hasc he (hnew rfl) hl hc hi hr, ho⟩
  | «continue» c hl hc ho =>
    subst hl
    obtain ⟨hf, hclosed, hcont, hb⟩ := hmore c rfl
    exact ⟨hf.addPart hclosed hcont hasc hb hc, ho⟩

theorem slots_of_head {p : Part} (head : BranchHead) (hd : p.decl = head.decl)
    (hp : p.params = head.params) (ho : p.close = none) :
    p.slots = p.declStart :: head.slots := by
  rw [Part.slots, BranchHead.slots, hd, hp, ho, toList_none, append_nil]

def slotsBefore (continued : Option Statement) : List SlotId :=
  (continued.map Statement.slots).getD []

/-- Opening a branch puts its statement on the stack. The slots it makes are the statement's, after
those it had, and one of them waits for the branch to be closed. -/
theorem openPart_agree {H : Type} [TextHost H] [Lawful H] (k : Tracker) (host : H)
    (keyword : Keyword) (continued : Option Statement) (hz : s.InZone old front ids waiting) :
    Gives (openPart k host keyword continued) s fun r s' =>
      ∃ st new, r.1 = { k with opened := .statement st :: k.opened } ∧
        Opens keyword continued st ∧ st.slots = slotsBefore continued ++ new ∧
        Follows ids new ∧ s'.InZone old front (ids ++ new) (waiting ++ [st.waiting]) := by
  refine .writing hz fun host s1 hz1 => .position ?_
  refine .wrote fun _ s3 hw3 => .wrote fun stop s4 hw4 => ?_
  have hz4 := hz1.wrote (hw3.trans hw4)
  have hle : s1.cursor.position ≤ s4.cursor.position := (hw3.trans hw4).position_le
  extract_lets span rest
  -- from the slot before the statement on, a new statement and one that goes on are read alike
  have hrest : ∀ start made s5, Follows ids made → s5.InZone old front (ids ++ made) waiting →
      s1.cursor.position ≤ s5.cursor.position → made = (if continued.isSome then [] else [start]) →
      Gives (rest start) s5 fun r s' =>
        ∃ st new, r.1 = { k with opened := .statement st :: k.opened } ∧
          Opens keyword continued st ∧ st.slots = slotsBefore continued ++ new ∧
          Follows ids new ∧ s'.InZone old front (ids ++ new) (waiting ++ [st.waiting]) := by
    intro start made s5 hf5 hz5 hle5 hmade
    refine .wrote fun o s6 hw6 => ?_
    refine (addPendingSlot_agree (hz5.wrote hw6) hz1.inOrder
      (Nat.le_trans hle5 hw6.position_le) rfl).bind fun declStart s7 ⟨hz7, hf7⟩ => ?_
    refine (branchHead_agree keyword hz7).bind fun head s8 ⟨hz8, hf8, hhead⟩ => ?_
    refine .writing hz8 fun blanks s9 hz9 => ?_
    refine .writing hz9 fun _ s10 hz10 => ?_
    refine .writing hz10 fun braced s11 hz11 => ?_
    refine .writing hz11 fun _ s12 hz12 => .pure ?_
    have hnew : Follows ids (made ++ declStart :: head.slots) := hf5.append (hf7.append hf8)
    rw [append_assoc, append_assoc] at hz12
    cases continued with
    | none =>
      refine ⟨_, _, rfl, .begin rfl rfl rfl hhead.each rfl hhead.condition rfl, ?_, hnew, hz12⟩
      rw [slots_eq, slots_of_head head rfl rfl rfl, hmade]
      rfl
    | some st =>
      refine ⟨_, _, rfl, .continue st rfl hhead.condition rfl, ?_, hnew, hz12⟩
      rw [slots_addPart, slots_of_head head rfl rfl rfl, hmade]
      rfl
  cases continued with
  | none =>
    refine (addSlot_agree hz4).bind fun start s5 ⟨hz5, hc5, hf5⟩ => ?_
    exact hrest start [start] s5 hf5 hz5 (hc5 ▸ hle) rfl
  | some st =>
    refine hrest st.start [] s4 ⟨.nil, by simp⟩ ?_ hle rfl
    rw [append_nil]
    exact hz4

/-- Opening a branch where it may be keeps the invariant, the statement that goes on being apart
from the others before. -/
theorem openPart_sound {H : Type} [TextHost H] [Lawful H] (host : H) (continued : Option Statement)
    (hk : k.Formed) (hz : s.InZone old front (held ++ (k.slots ++ slotsBefore continued)) k.waiting)
    (hnew : continued = none → keyword.begins = true)
    (hmore : ∀ c, continued = some c → c.Formed ∧ c.last.close.isSome = true ∧
      c.last.keyword.continuable = true ∧ keyword.begins = false) :
    Gives (openPart k host keyword continued) s fun r s' =>
      r.1.Sound old front held s' ∧ r.1.recognized = k.recognized ∧
        k.slots ++ slotsBefore continued ⊆ r.1.slots := by
  refine (openPart_agree k host keyword continued hz).mono ?_
  rintro ⟨_, _⟩ s' ⟨st, new, rfl, hopens, hslots, hfollows, hz'⟩
  have hbefore : (slotsBefore continued).Pairwise fun a b => a.index < b.index := by
    cases continued with
    | none => exact .nil
    | some c => exact (hmore c rfl).1.ascending
  have hasc : st.slots.Pairwise fun a b => a.index < b.index := by
    rw [hslots]
    refine pairwise_append.mpr ⟨hbefore, hfollows.ascending, fun a ha b hb => ?_⟩
    exact hfollows.after a (mem_append_right _ (mem_append_right _ ha)) b hb
  obtain ⟨hst, ho⟩ := hopens.formed hasc hnew hmore
  rw [append_assoc, append_assoc, ← hslots] at hz'
  refine ⟨sound_cons_statement.mpr ⟨hk, hst, ho, hz'⟩, rfl, fun id hid => ?_⟩
  refine (slots_cons_statement_perm k st k.opened).symm.subset ?_
  rw [hslots, ← append_assoc]
  exact mem_append_left _ hid

/-! ## Closing a branch -/

variable {h : Halt}

/-- Closing a branch fills the slot that waits for it and makes one after the branch. -/
theorem closePart_agree {st : Statement} (hz : s.InZone old front ids (waiting ++ [st.waiting]))
    (hmem : st.last.declStart ∈ ids) :
    Agree (@closePart (.strict h) st) (@closePart .direct st) s fun st' s' =>
      ∃ c, st' = st.closeLast c ∧ s'.InZone old front (ids ++ [c]) waiting ∧ Follows ids [c] := by
  refine (edit_agree hz hmem).bind fun _ s1 hz1 => ?_
  have hfilled : (waiting ++ [st.waiting]).filter (·.1 != st.last.declStart) = waiting :=
    hz.output.zone.filter_waiting_concat
  rw [hfilled] at hz1
  refine (addSlot_agree hz1).bind fun c s2 ⟨hz2, _, hf2⟩ => .pure ?_
  exact ⟨c, rfl, hz2, hf2⟩

/-- What a step of the tracker leaves: no slot is given up, and there are statements only once one
has been recognized. -/
structure Grows (k k' : Tracker) : Prop where
  slots : k.slots ⊆ k'.slots
  idle : k'.recognized = k.recognized → k.statements = [] → k'.statements = []

theorem Grows.refl (k : Tracker) : Grows k k := ⟨fun _ hid => hid, fun _ h => h⟩

/-- A branch follows one that may go on, and does not begin a statement. -/
theorem goesOn_of_continuation? {rest : Text} {continuable : Bool}
    (h : (if continuable then continuation? rest else none) = some keyword) :
    continuable = true ∧ keyword.begins = false := by
  split at h
  next hcont =>
    refine ⟨hcont, ?_⟩
    unfold continuation? at h
    dsimp only at h
    split at h
    · split at h <;> cases h <;> rfl
    · cases h
  · cases h

theorem close_agree {H : Type} [TextHost H] [Lawful H] (host : H) (atLineBreak : Bool)
    (hk : k.Sound old front held s) :
    Agree (@close H _ _ (.strict h) k host atLineBreak) (@close H _ _ .direct k host atLineBreak) s
      fun r s' => r.1.Sound old front held s' ∧ Grows k r.1 := by
  refine .writing hk.inZone fun host s1 hz1 => ?_
  have hk1 : k.Sound old front held s1 := ⟨hk.formed, hz1⟩
  split
  · exact .pure ⟨hk1, .refl k⟩
  next id span opened heq =>
    -- a block of the host owns no slots
    have hsame : openStatements { k with opened } = k.openStatements := by
      rw [← openStatements_cons_block k id span, ← heq]
    refine .pure ⟨hk1.congr hsame rfl, ?_, fun _ hidle => ?_⟩
    · rw [slots, slots, statements, statements, hsame]
      exact fun _ hid => hid
    · rw [statements, hsame]
      exact hidle
  next st opened heq =>
    -- the innermost statement is taken from the stack, and its slots are counted apart from then on
    have hcons : k = { k with opened := .statement st :: opened } := by rw [← heq]
    have hslots := slots_cons_statement_perm k st opened
    rw [← hcons] at hslots
    have hsome : k.statements ≠ [] := by
      rw [hcons, statements, openStatements_cons_statement]
      simp
    have hkept : ∀ st' : Statement, st.slots ⊆ st'.slots →
        k.slots ⊆ slots { k with opened } ++ st'.slots := fun st' hsub id hid =>
      mem_append.mpr ((mem_append.mp (hslots.subset hid)).imp_right fun hid => hsub hid)
    rw [hcons] at hk1
    obtain ⟨hf, hst, ho, hz⟩ := sound_cons_statement.mp hk1
    have hmem : st.last.declStart ∈ held ++ (slots { k with opened } ++ st.slots) :=
      mem_append_right _ (mem_append_right _ st.declStart_mem_slots)
    refine (closePart_agree hz hmem).bind ?_
    rintro _ s2 ⟨c, rfl, hz2, hc⟩
    have hst2 : (st.closeLast c).Formed := hst.closeLast ho fun a ha =>
      hc.after a (mem_append_right _ (mem_append_right _ ha)) c (mem_singleton_self c)
    have hclosed : st.slots ⊆ (st.closeLast c).slots := by
      rw [slots_closeLast ho]
      exact subset_append_left ..
    rw [append_assoc, append_assoc, ← slots_closeLast ho] at hz2
    refine .writing hz2 fun cur s3 hz3 => ?_
    dsimp only
    split
    next keyword hnext =>
      -- the statement goes on with a branch and comes back to the stack
      refine .writing hz3 fun blanks s4 hz4 => ?_
      refine (openPart_sound _ (some (st.closeLast c)) hf hz4 (by rintro ⟨⟩) ?_).bind ?_
      · rintro _ ⟨⟩
        exact ⟨hst2, rfl, goesOn_of_continuation? hnext⟩
      rintro ⟨_, _⟩ s5 ⟨hk5, -, hslots5⟩
      refine .pure ⟨hk5, fun id hid => hslots5 (hkept _ hclosed hid), fun _ hidle => ?_⟩
      exact absurd hidle hsome
    next hnext =>
      refine .pure ⟨.close hf hst2 rfl hz3, ?_, fun _ hidle => absurd hidle hsome⟩
      exact fun id hid => slots_closed_append { k with opened } (st.closeLast c) ▸
        hkept _ hclosed hid

/-! ## Steps of the tracker -/

theorem begins_of_mem {word : Text} (h : (word, .block keyword) ∈ keywords) :
    keyword.begins = true := by
  have hall : ∀ entry ∈ keywords, ∀ keyword, entry.2 = .block keyword → keyword.begins = true := by
    simp [keywords, Keyword.begins]
  exact hall _ h keyword rfl

theorem Turn.sound {H : Type} [TextHost H] [Lawful H] {host : H} {c : Char}
    {p : Tracker × H × Option Closed} {s' : Session} (h : k.Turn host c s p s')
    (hk : k.Sound old front held s) : p.1.Sound old front held s' ∧ Grows k p.1 := by
  have hread : ∀ {s1}, s.Steps [.read] s1 → k.Sound old front held s1 := fun read =>
    ⟨hk.formed, hk.inZone.wrote (read.mono (by decide)).wrote⟩
  have hrecognized : ∀ {s1}, s.Steps [.read] s1 →
      Sound old front held { k with recognized := k.recognized + 1 } s1 := fun read =>
    (hread read).congr rfl rfl
  cases h with
  | text read | unescaped read => exact ⟨hread read, .refl k⟩
  | closes read _ h => exact (close_agree (h := .spent) host _ (hread read)).result _ _ h
  | declares read _ h =>
    obtain ⟨hf, hz⟩ := hrecognized read
    exact ⟨⟨hf, hz.wrote (.of_made h)⟩, fun _ hid => hid, fun _ hidle => hidle⟩
  | begins read _ hmem h =>
    obtain ⟨hf, hz⟩ := hrecognized read
    rw [← append_nil (slots _)] at hz
    obtain ⟨hk', hn, hslots⟩ := (openPart_sound host none hf hz
      (fun _ => begins_of_mem hmem) (fun _ h => by cases h)).result _ _ h
    refine ⟨hk', fun id hid => hslots (mem_append_left _ hid), fun hsame => ?_⟩
    -- one more keyword has been recognized, so the tracker is not idle
    exact absurd (hn.symm.trans hsame) (Nat.succ_ne_self _)

theorem dispatch_agree {H : Type} [TextHost H] [Lawful H] (host : H) (c : Char)
    (hk : k.Sound old front held s) :
    Agree (@dispatch H _ _ (.strict h) k host c) (@dispatch H _ _ .direct k host c) s fun r s' =>
      r.1.Sound old front held s' ∧ Grows k r.1 := by
  unfold dispatch
  split
  · refine .writing hk.inZone fun _ s1 hz1 => ?_
    have hk1 : k.Sound old front held s1 := ⟨hk.formed, hz1⟩
    split
    · exact .pure ⟨hk1, .refl k⟩
    split
    · exact .pure ⟨hk1, .refl k⟩
    · exact (close_agree host false hk1).bind fun r s2 hr => .pure hr
  · split
    · refine .writing hk.inZone fun _ s1 hz1 => ?_
      have hk1 : k.Sound old front held s1 := ⟨hk.formed, hz1⟩
      split
      · exact (close_agree host true hk1).bind fun r s2 hr => .pure hr
      · exact .pure ⟨hk1, .refl k⟩
    next hbreak =>
      refine (keyword?_turn k host (fun hc => hbreak (beq_iff_eq.mpr hc)) s).bind fun r s1 hr => ?_
      cases r with
      | some r => exact .pure (hr.sound hk)
      | none =>
        -- no keyword: the character is text
        have hz1 := hk.inZone.wrote (hr.mono (by decide)).wrote
        refine .writing hz1 fun _ s2 hz2 => ?_
        exact .pure ⟨⟨hk.formed, hz2⟩, .refl k⟩

/-! ## The end of the region -/

end

end Tracker

namespace Statement

variable {st : Statement} {o : Output} {e : Edit}

theorem mem_slots_of_part {p : Part} (hp : p ∈ st.parts) {id : SlotId} (hid : id ∈ p.slots) :
    id ∈ st.slots :=
  mem_cons_of_mem _ (mem_flatMap.mpr ⟨p, hp, hid⟩)

theorem last_mem_parts (st : Statement) : st.last ∈ st.parts :=
  mem_append_right _ (mem_singleton_self _)

theorem headD_mem_parts (st : Statement) : st.parts.headD st.last ∈ st.parts := by
  cases hp : st.parts with
  | nil => exact absurd hp (by simp [parts])
  | cons p ps => exact mem_cons_self ..

variable {close : SlotId}

theorem close_mem_slots (hclose : st.last.close = some close) :
    close ∈ st.slots :=
  mem_slots_of_part st.last_mem_parts (by simp [Part.slots, hclose])

theorem slot_mem_of_mem_armEdits {dialect : Dialect} {context : Text} {p : Part}
    (he : e ∈ armEdits dialect context p) : e.slot ∈ p.slots := by
  rcases mem_cons.mp he with rfl | he
  · exact mem_cons_self ..
  rcases mem_cons.mp he with rfl | he
  · exact mem_cons_of_mem _ (mem_cons_self ..)
  split at he
  next hclose _ _ =>
    rw [mem_singleton.mp he]
    simp [Part.slots, hclose]
  · cases he

theorem slot_mem_of_mem_flowEdits (hclose : st.last.close = some close)
    (he : e ∈ st.flowEdits close o) : e.slot ∈ st.slots := by
  have hends : e.slot = st.start ∨ e.slot = close := by
    unfold flowEdits at he
    split at he <;>
    · rcases mem_cons.mp he with rfl | he
      · exact .inl rfl
      · rw [mem_singleton.mp he]
        exact .inr rfl
  rcases hends with hstart | hend
  · rw [hstart]
    exact mem_cons_self ..
  · rw [hend]
    exact close_mem_slots hclose

theorem slot_mem_of_mem_eachEdits {each : Each} (he : e ∈ st.eachEdits each o) :
    e.slot ∈ st.slots := by
  refine mem_slots_of_part st.headD_mem_parts ?_
  rcases mem_cons.mp he with rfl | he
  · exact mem_cons_of_mem _ (mem_cons_self ..)
  split at he
  next hparams =>
    rw [mem_singleton.mp he, Part.slots, hparams]
    simp
  · cases he

theorem slot_mem_of_mem_choiceEdits (hclose : st.last.close = some close)
    (he : e ∈ st.choiceEdits close o) : e.slot ∈ st.slots := by
  rcases mem_append.mp he with he | he
  · obtain ⟨p, hp, he⟩ := mem_flatMap.mp he
    exact mem_slots_of_part hp (slot_mem_of_mem_armEdits he)
  rcases mem_cons.mp he with rfl | he
  · exact mem_cons_self ..
  · rw [mem_singleton.mp he]
    exact close_mem_slots hclose

theorem slot_mem_of_mem_edits (he : e ∈ st.edits o) : e.slot ∈ st.slots := by
  unfold edits at he
  split at he
  · cases he
  next close hclose =>
    split at he
    · exact slot_mem_of_mem_choiceEdits hclose he
    next each _ _ =>
      split at he
      · exact slot_mem_of_mem_flowEdits hclose he
      · exact slot_mem_of_mem_eachEdits he
    · exact slot_mem_of_mem_flowEdits hclose he

end Statement

namespace Tracker

variable {h : Halt} {s : Session} {old : Moment} {front : List Node} {held : List SlotId}
  {k : Tracker}

variable {id : SlotId} {st : Statement}

theorem filter_waiting (hid : id ∉ k.openStatements.flatMap Statement.slots) :
    k.waiting.filter (·.1 != id) = k.waiting := by
  refine filter_eq_self.mpr fun w hw => bne_iff_ne.mpr ?_
  rintro rfl
  obtain ⟨st, hst, rfl⟩ := mem_map.mp hw
  exact hid (mem_flatMap.mpr ⟨st, hst, st.declStart_mem_slots⟩)

theorem Sound.filter_waiting_of_closed (hk : k.Sound old front held s) (hst : st ∈ k.closed)
    (hid : id ∈ st.slots) :
    k.waiting.filter (·.1 != id) = k.waiting := by
  have hnodup := hk.inZone.output.zone.nodup
  rw [slots, statements, flatMap_append] at hnodup
  have hdisj := (nodup_append.mp (nodup_append.mp hnodup).2.1).2.2
  exact filter_waiting fun hopen => hdisj id hopen id (mem_flatMap.mpr ⟨st, hst, hid⟩) rfl

theorem Sound.filter_waiting_of_held (hk : k.Sound old front held s) (hid : id ∈ held) :
    k.waiting.filter (·.1 != id) = k.waiting := by
  have hdisj := (nodup_append.mp hk.inZone.output.zone.nodup).2.2
  rw [slots, statements, flatMap_append] at hdisj
  exact filter_waiting fun hopen => hdisj id hid id (mem_append_left _ hopen) rfl

theorem mem_slots_of_closed (hst : st ∈ k.closed) (hid : id ∈ st.slots) : id ∈ k.slots :=
  mem_flatMap.mpr ⟨st, mem_append_right _ hst, hid⟩

/-- The edits of a closed statement find its slots. -/
theorem makeReactive_agree (hk : k.Sound old front held s) (hst : st ∈ k.closed) :
    Agree (@Statement.makeReactive (.strict h) st) (@Statement.makeReactive .direct st) s
      fun _ s' => k.Sound old front held s' := by
  refine .writing hk.inZone fun o s1 hz1 => ?_
  refine .forM ⟨hk.formed, hz1⟩ fun e he s2 hk2 => ?_
  have hid := slot_mem_of_mem_edits he
  have hmem := mem_append_right held (mem_slots_of_closed hst hid)
  refine (edit_agree hk2.inZone hmem).mono fun _ s3 hz3 => ⟨hk.formed, ?_⟩
  rw [hk2.filter_waiting_of_closed hst hid] at hz3
  exact hz3

/-- At the end of a region the statements that read reactive values are edited. -/
theorem finish_agree (hk : k.Sound old front held s) :
    Agree (@finish (.strict h) k) (@finish .direct k) s fun _ s' =>
      k.Sound old front held s' := by
  unfold finish
  split
  · exact .fail ..
  split
  · refine Agree.bind (.forM hk fun st hst s1 hk1 => ?_) fun _ s2 hk2 => .pure hk2
    exact makeReactive_agree hk1 (mem_filter.mp hst).1
  · exact .pure hk

end Tracker
end Patchwork
