import Patchwork.Proofs.FlowEdits
import Patchwork.Proofs.Recording

/-!
# Control flow is balanced

At the end of a region the edits of its statements are made. Each slot belongs to one statement, so
what it holds in the end is what the edits of that statement make of what it held
(`Sound.onAll_endEdits`), and every statement fits. The code of the region, read along its log, then
closes what it opens.

The log of a region is not unique: text may be cut into items in many ways. A `Transcript` is any
list of items that has the statements of the region in it and reads as its code.

Main result: `control_flow_balanced`. It asks that the texts which a transcript names as read or
expanded are balanced, each on its own.
-/

namespace Patchwork

open Brackets List Output Statement Region

/-! ## The code of a region -/

namespace Output

def valueOf (o : Output) (id : SlotId) : Text :=
  ((o.slot? id).bind Slot.value).getD []

def codeSince (o : Output) (mark : Nat) : Text :=
  (o.nodes.drop mark).flatMap Node.content

end Output

section Values

variable {o : Output} {front : List Node} {log : List Item} {id : SlotId} {t : Text}

theorem Held.valueOf (h : Held o.nodes id t) (ho : o.Placed) : o.valueOf id = t := by
  obtain ⟨s, hs, -, rfl⟩ := h
  rw [Output.valueOf, slot?_eq ho, hs]
  rfl

theorem Held.editAll (h : Held o.nodes id t) (ho : o.Placed) (es : List Edit) :
    Held (o.editAll es).nodes id (Edit.onAll es id t) := by
  induction es generalizing o t with
  | nil => exact h
  | cons e es ih => exact ih (h.edit ho e) (ho.edit e)

theorem Written.spells_editAll (h : Written front log o.nodes) (ho : o.Placed) {es : List Edit}
    (hes : ∀ e ∈ es, e.slot ∈ slotIds log) : Spells front log (o.editAll es).nodes := by
  have hlt : ∀ id ∈ slotIds log, id.index < (slotsOf o.nodes).length := fun id => h.index_lt
  have hsince := h.since
  replace h := h.spelled
  induction es generalizing o with
  | nil => exact h
  | cons e es ih =>
    rw [forall_mem_cons] at hes
    refine ih (ho.edit e) hes.2 ?_ (h.edit ho hes.1 (hsince _ hes.1) (hlt _ hes.1))
    rw [slotsOf_edit ho, length_modify]
    exact hlt

/-- The code of a region is what its log says, read with the values that its slots hold. -/
theorem Spells.codeSince (h : Spells front log o.nodes) (ho : o.Placed) :
    o.codeSince front.length = log.flatMap (Item.read o.valueOf) := by
  obtain ⟨back, -, hnodes, hspell⟩ := h
  rw [← hspell, Output.codeSince, hnodes, drop_left, spell_of_holds]
  intro i s hs _
  rw [Output.valueOf, slot?_eq ho, hnodes, slotsOf_append,
    getElem?_append_right (Nat.le_add_right _ _), Nat.add_sub_cancel_left, hs]
  rfl

end Values

def Item.HeldBy (o : Output) : Item → Prop
  | slot id t _ => o.valueOf id = t
  | text _ | brace => True

instance (o : Output) : (item : Item) → Decidable (item.HeldBy o)
  | .slot id t _ => inferInstanceAs (Decidable (o.valueOf id = t))
  | .text _ | .brace => inferInstanceAs (Decidable True)

/-- A log of the code of a region that has come to its end with all statements closed. They lie
among its items; the slots held what it says before the end; and read with the values that the
slots have after the end, it is the code of the region. -/
structure Transcript (N : Names) (closed : List Statement) (mark : Nat) (before after : Output)
    (log : List Item) : Prop where
  laid : Laid N [] closed (marks log)
  held : ∀ item ∈ log, item.HeldBy before
  code : after.codeSince mark = log.flatMap (Item.read after.valueOf)

def Statement.endEdits (k : Tracker) (o : Output) (st : Statement) : List Edit :=
  if k.wraps && st.reactive then st.edits o else []

namespace Tracker

variable {old : Moment} {front : List Node} {held : List SlotId} {s : Session} {k : Tracker}

theorem Sound.nodup_closed (hk : k.Sound old front held s) : k.closed.Nodup := by
  refine (pairwise_append.mp hk.apart).2.1.imp fun {x y} hxy => ?_
  rintro rfl
  exact hxy x.start mem_cons_self x.start mem_cons_self rfl

theorem Sound.onAll_endEdits (hk : k.Sound old front held s) {st : Statement}
    (hst : st ∈ k.closed) {id : SlotId} (hid : id ∈ st.slots) (o : Output) (t : Text) :
    Edit.onAll (k.endEdits o) id t = Edit.onAll (st.endEdits k o) id t := by
  unfold endEdits Statement.endEdits
  cases k.wraps with
  | false => rfl
  | true =>
    have hmem : st ∈ k.statements := mem_append_right _ hst
    -- the edits of other statements do not show
    have hothers : ∀ sts : List Statement,
        (∀ other ∈ sts, other ∈ k.statements ∧ other ≠ st) → ∀ t,
        Edit.onAll (sts.flatMap fun other => other.edits o) id t = t := by
      intro sts hsts t
      refine Edit.onAll_of_forall_ne fun e he => ?_
      obtain ⟨other, hother, he⟩ := mem_flatMap.mp he
      obtain ⟨hin, hne⟩ := hsts other hother
      exact hk.slot_ne hin hmem hne (slot_mem_of_mem_edits he) hid
    have hin : ∀ other ∈ k.closed.filter (·.reactive), other ∈ k.statements := fun other hother =>
      mem_append_right _ (mem_filter.mp hother).1
    cases hr : st.reactive with
    | false =>
      refine hothers _ (fun other hother => ⟨hin other hother, ?_⟩) t
      rintro rfl
      rw [(mem_filter.mp hother).2] at hr
      cases hr
    | true =>
      obtain ⟨before, after, hsplit⟩ := append_of_mem (mem_filter.mpr ⟨hst, hr⟩)
      have hnodup := hk.nodup_closed.filter (·.reactive)
      rw [hsplit] at hnodup hin
      obtain ⟨-, hafter, hbefore⟩ := nodup_append.mp hnodup
      rw [if_pos rfl, hsplit, flatMap_append, flatMap_cons, Edit.onAll_append,
        Edit.onAll_append, hothers before, hothers after]
      · rfl
      · refine fun other hother => ⟨hin other ?_, ?_⟩
        · exact mem_append_right _ (mem_cons_of_mem _ hother)
        · rintro rfl
          exact (nodup_cons.mp hafter).1 hother
      · refine fun other hother => ⟨hin other (mem_append_left _ hother), ?_⟩
        exact hbefore other hother st mem_cons_self

/-- A slot of a statement can still be edited, so it holds the text that it has. -/
theorem Sound.holds (hk : k.Sound old front held s) {st : Statement} (hst : st ∈ k.closed)
    {id : SlotId} (hid : id ∈ st.slots) : Held s.output.nodes id (s.output.valueOf id) := by
  have hmem := mem_append_right held (mem_slots_of_closed hst hid)
  obtain ⟨slot, hslot, hfrozen⟩ := hk.inZone.output.zone.opened id hmem
  refine ⟨slot, hslot, hfrozen, ?_⟩
  rw [Output.valueOf, slot?_eq hk.inZone.output.placed, hslot]
  rfl

end Tracker

variable {k : Tracker}

/-- The code of a region is balanced if the names of the code are, and the texts that its log has
from the document. -/
theorem Transcript.balanced {N : Names} {kinds : Kinds} {mark : Nat} {before after o : Output}
    {log : List Item} (h : Transcript N k.closed mark before after log) (hformed : k.Formed)
    (ho : o.Named N) (hafter : ∀ st ∈ k.closed, ∀ id ∈ st.slots,
      after.valueOf id = Edit.onAll (st.endEdits k o) id (before.valueOf id))
    (hN : N.Balanced kinds) (hgiven : ∀ item ∈ log, ∀ t ∈ item.given, Balanced kinds t) :
    Balanced kinds (after.codeSince mark) := by
  have hheld : ∀ id t given, Item.slot id t given ∈ marks log → before.valueOf id = t :=
    fun id t given hitem => h.held _ (slot_mem_marks.mp hitem)
  have hgivenMarks : ∀ item ∈ marks log, ∀ t ∈ item.given, Balanced kinds t := by
    intro item hitem
    cases item with
    | slot id t given => exact hgiven _ (slot_mem_marks.mp hitem)
    | brace => exact forall_mem_nil _
    | text t =>
      obtain ⟨other, -, hmark⟩ := mem_filterMap.mp hitem
      cases other <;> cases hmark
  have hfits : ∀ st ∈ k.closed, ∃ f, st.Fits kinds after.valueOf f := by
    intro st hst
    have hmade := h.laid.made.2 st hst
    have hshape := hformed.formed st (mem_append_right _ hst)
    obtain ⟨close, hclose⟩ := Option.isSome_iff_exists.mp (hformed.closed st hst)
    have hv := hafter st hst
    unfold Statement.endEdits at hv
    split at hv
    · exact hmade.fits_edited hshape hN ho hgivenMarks hheld hclose hv
    -- nothing has been edited
    exact ⟨_, (hmade.fits hshape hN hgivenMarks hheld).congr hv⟩
  have hturns := h.laid.turns hfits .nil
  rw [h.code]
  exact after_of_marks (fun t ht => hgiven _ ht t (mem_singleton_self _)) hturns

def Region.flow? : Region → Option Tracker
  | markup r => r.statements
  | code _ | script _ | stylesheet _ | comment _ => none

theorem Region.Recorded.tracked {N : Names} {old : Moment} {front : List Node} {s : Session}
    {region : Region} (h : region.Recorded N front s.output.nodes)
    (hsound : region.Sound old front s) (hk : region.flow? = some k) :
    k.Sound old front [] s ∧ k.Recorded N front s.output.nodes := by
  cases region with
  | code | script | stylesheet | comment => cases hk
  | markup r =>
    have hr : r.Sound old front s := ⟨hsound.formed, hsound.inZone⟩
    exact ⟨hr.tracked hk, h k hk⟩

/-- A text region that ends writes what it has buffered, and edits the slots of its statements. -/
theorem Region.finish_flow {region : Region} (hk : region.flow? = some k)
    (hblock : k.openBlock? = none) (s : Session) :
    ∃ s1, s.Wrote s1 ∧ (∀ N, s.output.Named N → s1.output.Named N) ∧
      region.finish s =
        .ok ((), { s1 with output := s1.output.editAll (k.endEdits s1.output) }) := by
  cases region with
  | code | script | stylesheet | comment => cases hk
  | markup r =>
    obtain ⟨chain, s1, hflush⟩ : ∃ chain s1, r.chain.flush s = .ok (chain, s1) := ⟨_, _, rfl⟩
    have hfinish := Tracker.finish_eq hblock s1
    refine ⟨s1, .of_made hflush, fun N hn => ?_, ?_⟩
    · exact Session.Steps.named (Made.steps inferInstance hflush) hn
    · show (r.chain.flush >>= fun _ => _) s = _
      rw [Compile.bind_apply, hflush]
      rw [show r.statements = some k from hk]
      show (k.finish >>= fun _ => pure ()) s1 = _
      rw [Compile.bind_apply, hfinish]
      rfl

namespace Document

variable {registry : Registry} {settings : Settings} {source : Text} {n : Nat} {frame : Frame}
  {outer : List Frame} {s0 s : Session} {region : Region} {k : Tracker}

/-- What is known of a text region that comes to its end. -/
theorem recorded_ending
    (hn : stateAfter registry settings source n = some (frame :: outer, s0))
    (hend : ending? frame s0 = some (region, s)) :
    ∃ front, frame.mark = front.length ∧ region.Sound s0.now front s ∧
      s.output.Named settings.names ∧ region.Recorded settings.names front s.output.nodes := by
  have hs := sound_stateAfter hn
  obtain ⟨halike, hnamed⟩ := named_stateAfter hn
  have hrecorded := recorded_stateAfter hn
  unfold ending? at hend
  split at hend
  next region' step s' hstep =>
    split at hend
    · cases hend
      obtain ⟨front, mark, hr, root, outside⟩ := hs.uncons
      have hfirst := hrecorded.1
      rw [Frame.Recorded, mark, take_mark hr.inZone.output.zone] at hfirst
      obtain ⟨hframe, -⟩ := forall₂_cons.mp halike
      refine ⟨front, mark, ((step_agree (h := .spent) hr).result _ _ hstep).1, ?_, ?_⟩
      · exact ((step_parallel hframe.region).named hnamed hstep).2
      · exact (step_recorded hs.placed hnamed hfirst).result _ _ hstep
    · cases hend
  · cases hend

/-- What the head of the `foreach` in `nestedFlow` gives. -/
def nestedHead : Tracker.BranchHead :=
  { decl := ⟨5⟩, reactive := true, params := some (⟨6⟩, "x"), trailer := ".bind(this));"
    each := some ⟨.array, "*b", "__tracker.a(b)"⟩ }

/-- A `foreach` in the first branch of an `if`, and the `if` with its `else`. -/
def nestedFlow : List Statement :=
  let condition : Tracker.BranchHead :=
    { decl := ⟨2⟩, condition := some "__tracker.a(a)", reactive := true }
  let first : Part := .opening .ifTrue ⟨0, 2⟩ false ⟨1⟩ condition
  let inner : Part := .opening .foreach ⟨10, 17⟩ false ⟨4⟩ nestedHead
  let second : Part := .opening .otherwise ⟨39, 43⟩ false ⟨9⟩ { decl := ⟨10⟩ }
  [(Statement.opening inner ⟨3⟩ "__context" nestedHead).closeLast ⟨7⟩,
   (((Statement.opening first ⟨0⟩ "__context" condition).closeLast ⟨8⟩).addPart second).closeLast
     ⟨11⟩]

/-- The log of a region with the statements `nestedFlow`. -/
def nestedLog : List Item :=
  [.slot ⟨0⟩ [] [], .slot ⟨1⟩ [] [],
   .slot ⟨2⟩ "if (__tracker.a(a))" [" ", "__tracker.a(a)"], .text " ", .brace,
   .text "\n",
   .slot ⟨3⟩ [] [], .slot ⟨4⟩ [] [],
   .slot ⟨5⟩ "__rt.forEachArray(__tracker.a(b), " ["__tracker.a(b)"],
   .slot ⟨6⟩ "function(x)" ["x"], .text " ", .brace,
   .text "__rt.chain(__context, [__rt.text, \"\" + \"\\n\" + (x)]);\n",
   .slot ⟨7⟩ "\x7d.bind(this));" [],
   .text "\n",
   .slot ⟨8⟩ "\x7d" [], .text " ", .slot ⟨9⟩ [] [], .slot ⟨10⟩ "else" [], .text " ", .brace,
   .text "__rt.chain(__context, [__rt.text, \"\" + \"\\nno\"]);\n",
   .slot ⟨11⟩ "\x7d" []]

theorem laid_nestedFlow : Laid {} [] nestedFlow (marks nestedLog) := by
  have hnamed : (Output.empty { dialect := .legacy }).Named {} := ⟨rfl, nofun⟩
  have hcondition : HeadItems {} .ifTrue _ _ := .condition rfl ⟨2⟩ " " "__tracker.a(a)" true
  have hif := Laid.start.begins rfl (.begins hcondition ⟨0, 2⟩ false ⟨0⟩ ⟨1⟩)
  have heach := hif.begins rfl
    (.begins (.foreach hnamed (.iterated "*b" ⟨"__tracker.a(b)", true⟩) "x" ⟨5⟩ ⟨6⟩ rfl) ⟨10, 17⟩
      false ⟨3⟩ ⟨4⟩)
  have helse := (heach.closes ⟨7⟩).goesOn ⟨8⟩ rfl rfl
    (.goesOn _ (.otherwise ⟨10⟩) ⟨39, 43⟩ false ⟨9⟩)
  exact helse.closes ⟨11⟩

end Document
end Patchwork
