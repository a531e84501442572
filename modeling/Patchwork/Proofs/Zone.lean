import Patchwork.Proofs.Arena

/-!
# The part of the output that a region writes

A region writes behind everything that stood in the output when it began. `Zone front ids waiting`
describes an output in terms of such a region: `front` is what stood there before, `ids` are slots
that the region has made and that can still change, all of them different, and `waiting` are the
slots it has made that have no value yet, in order, each with the fault it stands for.

Writing text, making a slot and editing a slot of the region keep the zone (`InZone.add`,
`InZone.pushSlot`, `InZone.edit`); `front` stays the same list throughout, which is what the regions
around this one rely on. When the region ends, its faults are those of the waiting slots
(`InZone.endRegion_faults`), and for the region around it nothing is left to wait for
(`Zone.extend`).
-/

namespace Patchwork

open List Option

/-- The slots that have no value and are not frozen, with the faults they stand for. The first slot
has the number `n`. -/
def waitingFrom (n : Nat) : List Slot → List (SlotId × Fault)
  | [] => []
  | s :: slots => (s.unresolved?.map (Prod.mk ⟨n⟩)).toList ++ waitingFrom (n + 1) slots

theorem waitingFrom_append (a b : List Slot) :
    ∀ n, waitingFrom n (a ++ b) = waitingFrom n a ++ waitingFrom (n + a.length) b := by
  induction a with
  | nil => intro n; simp [waitingFrom]
  | cons s a ih =>
    intro n
    rw [cons_append, waitingFrom, waitingFrom, ih, append_assoc, length_cons,
      Nat.add_right_comm, Nat.add_assoc n]

theorem mem_waitingFrom {slots : List Slot} :
    ∀ {n : Nat} {w : SlotId × Fault}, w ∈ waitingFrom n slots →
      n ≤ w.1.index ∧ w.1.index < n + slots.length := by
  induction slots with
  | nil => intro n w h; cases h
  | cons s slots ih =>
    intro n w h
    rw [length_cons]
    rcases mem_append.mp h with h | h
    · obtain ⟨f, -, rfl⟩ := map_eq_some_iff.mp (mem_toList.mp h)
      show n ≤ n ∧ n < n + (slots.length + 1)
      omega
    · have := ih h
      omega

theorem unresolved_of_mem_waitingFrom {slots : List Slot} :
    ∀ {n : Nat} {w : SlotId × Fault}, w ∈ waitingFrom n slots →
      ∃ s, slots[w.1.index - n]? = some s ∧ s.unresolved? = some w.2 := by
  induction slots with
  | nil => intro n w h; cases h
  | cons s slots ih =>
    intro n w h
    rcases mem_append.mp h with h | h
    · obtain ⟨f, hf, rfl⟩ := map_eq_some_iff.mp (mem_toList.mp h)
      exact ⟨s, by simp, hf⟩
    · have hle := (mem_waitingFrom h).1
      obtain ⟨s', hs', hf⟩ := ih h
      refine ⟨s', ?_, hf⟩
      rw [show w.1.index - n = (w.1.index - (n + 1)) + 1 by omega]
      exact hs'

variable (slots : List Slot)

theorem waitingFrom_pairwise :
    ∀ n, (waitingFrom n slots).Pairwise fun a b => a.1.index < b.1.index := by
  induction slots with
  | nil => intro n; exact .nil
  | cons s slots ih =>
    intro n
    refine pairwise_append.mpr ⟨?_, ih (n + 1), ?_⟩
    · cases s.unresolved? with
      | none => exact .nil
      | some f => exact pairwise_singleton _ _
    · intro a ha b hb
      obtain ⟨f, -, rfl⟩ := map_eq_some_iff.mp (mem_toList.mp ha)
      exact (mem_waitingFrom hb).1

theorem map_snd_waitingFrom :
    ∀ n, (waitingFrom n slots).map Prod.snd = slots.filterMap Slot.unresolved? := by
  induction slots with
  | nil => intro n; rfl
  | cons s slots ih =>
    intro n
    rw [waitingFrom, map_append, ih, filterMap_cons]
    cases s.unresolved? <;> rfl

theorem Slot.unresolved?_freeze (s : Slot) : s.freeze.unresolved? = none := rfl

/-- A slot that has been changed waits no longer. -/
theorem Slot.unresolved?_update (f : Option Text → Text) (s : Slot) :
    (s.update f).unresolved? = none := by
  unfold Slot.update Slot.unresolved?
  cases hs : s.frozen with
  | true => simp [hs]
  | false => simp

theorem filterMap_unresolved_freeze : (slots.map Slot.freeze).filterMap Slot.unresolved? = [] := by
  rw [filterMap_map]
  exact filterMap_eq_nil_iff.mpr fun s _ => s.unresolved?_freeze

theorem waitingFrom_modify (f : Option Text → Text) (slots : List Slot) :
    ∀ n k, waitingFrom n (slots.modify k (Slot.update f)) =
      (waitingFrom n slots).filter (·.1 != ⟨n + k⟩) := by
  induction slots with
  | nil => intro n k; rw [modify_nil]; rfl
  | cons s slots ih =>
    intro n k
    -- nothing after the first slot has its number
    have hrest : ∀ w ∈ waitingFrom (n + 1) slots, w.1 ≠ ⟨n⟩ := by
      intro w hw he
      have := (mem_waitingFrom hw).1
      rw [he] at this
      exact absurd this (Nat.not_succ_le_self n)
    cases k with
    | zero =>
      have hkept :
          (waitingFrom (n + 1) slots).filter (·.1 != ⟨n + 0⟩) = waitingFrom (n + 1) slots :=
        filter_eq_self.mpr fun w hw => bne_iff_ne.mpr (hrest w hw)
      rw [modify_zero_cons, waitingFrom, waitingFrom, Slot.unresolved?_update, filter_append, hkept]
      cases s.unresolved? with
      | none => rfl
      | some f => simp
    | succ k =>
      rw [modify_succ_cons, waitingFrom, waitingFrom, ih, filter_append,
        show n + (k + 1) = n + 1 + k by omega]
      cases s.unresolved? with
      | none => rfl
      | some f =>
        have hne : (⟨n⟩ : SlotId) ≠ ⟨n + 1 + k⟩ := by
          intro he
          have := SlotId.mk.inj he
          omega
        simp [hne]

/-- What a region holds of the nodes: behind `front` there are the slots `ids`, which are different
and can change, and those of `waiting` have no value yet. -/
structure Zone (front : List Node) (ids : List SlotId) (waiting : List (SlotId × Fault))
    (nodes : List Node) : Prop where
  split : ∃ back, back ≠ [] ∧ nodes = front ++ back ∧
    waitingFrom (slotsOf front).length (slotsOf back) = waiting
  since : ∀ id ∈ ids, (slotsOf front).length ≤ id.index
  opened : ∀ id ∈ ids, ∃ s, (slotsOf nodes)[id.index]? = some s ∧ s.frozen = false
  nodup : ids.Nodup

namespace Zone

variable {front nodes : List Node} {ids ids' : List SlotId} {waiting : List (SlotId × Fault)}

/-- A region that begins has nothing yet. -/
theorem empty (nodes : List Node) : Zone nodes [] [] (nodes ++ [.text []]) where
  split := ⟨[.text []], by simp, rfl, rfl⟩
  since := by simp
  opened := by simp
  nodup := nodup_nil

section

variable (h : Zone front ids waiting nodes)
include h

theorem front_isPrefix : front <+: nodes := by
  obtain ⟨back, -, rfl, -⟩ := h.split
  exact prefix_append ..

/-- The slots have numbers among those given out. -/
theorem index_lt {id : SlotId} (hid : id ∈ ids) : id.index < (slotsOf nodes).length := by
  obtain ⟨s, hs, -⟩ := h.opened id hid
  exact (List.getElem?_eq_some_iff.mp hs).1

theorem unresolved {w : SlotId × Fault} (hw : w ∈ waiting) :
    ∃ s, (slotsOf nodes)[w.1.index]? = some s ∧ s.unresolved? = some w.2 := by
  obtain ⟨back, -, rfl, rfl⟩ := h.split
  obtain ⟨s, hs, hf⟩ := unresolved_of_mem_waitingFrom hw
  refine ⟨s, ?_, hf⟩
  rw [slotsOf_append, getElem?_append_right (mem_waitingFrom hw).1]
  exact hs

/-- Only some of the slots may be of interest. -/
theorem restrict (hsub : ids' ⊆ ids) (hnd : ids'.Nodup) : Zone front ids' waiting nodes where
  split := h.split
  since id hid := h.since id (hsub hid)
  opened id hid := h.opened id (hsub hid)
  nodup := hnd

theorem perm (hp : ids'.Perm ids) : Zone front ids' waiting nodes :=
  h.restrict hp.subset (hp.nodup_iff.mpr h.nodup)

end

theorem filter_waiting_concat {w : SlotId × Fault} (h : Zone front ids (waiting ++ [w]) nodes) :
    (waiting ++ [w]).filter (·.1 != w.1) = waiting := by
  obtain ⟨back, -, -, hw⟩ := h.split
  have hasc := waitingFrom_pairwise (slotsOf back) (slotsOf front).length
  rw [hw] at hasc
  have hkept : waiting.filter (·.1 != w.1) = waiting := by
    refine filter_eq_self.mpr fun v hv => bne_iff_ne.mpr fun he => ?_
    have hlt := (pairwise_append.mp hasc).2.2 v hv w (mem_singleton_self w)
    rw [he] at hlt
    exact Nat.lt_irrefl _ hlt
  rw [filter_append, hkept]
  simp

theorem extend (h : Zone front ids waiting nodes) {more : List Node}
    (hmore : (slotsOf more).filterMap Slot.unresolved? = []) :
    Zone front ids waiting (nodes ++ more) where
  split := by
    obtain ⟨back, hb, rfl, hw⟩ := h.split
    refine ⟨back ++ more, by simp [hb], append_assoc _ _ _, ?_⟩
    -- a slot that waits has a fault, and the new ones have none
    have hnone :
        waitingFrom ((slotsOf front).length + (slotsOf back).length) (slotsOf more) = [] := by
      rw [← map_snd_waitingFrom _ ((slotsOf front).length + (slotsOf back).length)] at hmore
      exact map_eq_nil_iff.mp hmore
    rw [slotsOf_append, waitingFrom_append, hw, hnone, append_nil]
  since := h.since
  opened id hid := by
    obtain ⟨s, hs, hf⟩ := h.opened id hid
    refine ⟨s, ?_, hf⟩
    rw [slotsOf_append, getElem?_append_left (h.index_lt hid)]
    exact hs
  nodup := h.nodup

end Zone

/-- An output whose places are right, described in terms of a region. The slots that were known at
some time still have their places of then, `old`. -/
structure Output.InZone (old : List Nat) (front : List Node) (ids : List SlotId)
    (waiting : List (SlotId × Fault)) (o : Output) : Prop where
  placed : o.Placed
  kept : old <+: o.slots
  zone : Zone front ids waiting o.nodes

namespace Output.InZone

variable {o o' : Output} {old : List Nat} {front : List Node} {ids ids' : List SlotId}
  {waiting : List (SlotId × Fault)}

section

variable (h : o.InZone old front ids waiting)
include h

theorem congr (hn : o'.nodes = o.nodes)
    (hs : o'.slots = o.slots) : o'.InZone old front ids waiting where
  placed := by
    unfold Placed
    rw [hn, hs]
    exact h.placed
  kept := by
    rw [hs]
    exact h.kept
  zone := by
    rw [hn]
    exact h.zone

theorem perm (hp : ids'.Perm ids) : o.InZone old front ids' waiting :=
  ⟨h.placed, h.kept, h.zone.perm hp⟩

/-- A region that is about to end gives up its slots. -/
theorem release : o.InZone [] front [] waiting :=
  ⟨h.placed, nil_prefix, h.zone.restrict (nil_subset _) nodup_nil⟩

theorem isOpen {id : SlotId} (hid : id ∈ ids) : o.isOpen id = true :=
  (isOpen_iff h.placed id).mpr (h.zone.opened id hid)

theorem add (t : Text) : (o.add t).InZone old front ids waiting where
  placed := h.placed.add t
  kept := by
    rw [add_slots]
    exact h.kept
  zone :=
    { split := by
        obtain ⟨back, hb, ho, hw⟩ := h.zone.split
        obtain ⟨back', hb', ho', hs⟩ := add_nodes_append t ho hb
        exact ⟨back', hb', ho', by rw [hs]; exact hw⟩
      since := h.zone.since
      opened := by
        rw [slotsOf_add]
        exact h.zone.opened
      nodup := h.zone.nodup }

theorem index_lt_pushSlot (s : Slot) {id : SlotId}
    (hid : id ∈ ids) : id.index < (o.pushSlot s).2.index := by
  rw [pushSlot_index h.placed]
  exact h.zone.index_lt hid

theorem pushSlot {s : Slot} (hs : s.frozen = false) :
    (o.pushSlot s).1.InZone old front (ids ++ [(o.pushSlot s).2])
      (waiting ++ (s.unresolved?.map (Prod.mk (o.pushSlot s).2)).toList) where
  placed := h.placed.pushSlot s
  kept := h.kept.trans (prefix_append ..)
  zone := by
    have hindex := pushSlot_index h.placed s
    obtain ⟨back, hb, ho, hw⟩ := h.zone.split
    have hlen : (slotsOf o.nodes).length = (slotsOf front).length + (slotsOf back).length := by
      rw [ho, slotsOf_append, length_append]
    refine ⟨⟨back ++ [.slot s], by simp, ?_, ?_⟩, ?_, ?_, ?_⟩
    · rw [pushSlot_nodes, ho, append_assoc]
    · rw [slotsOf_append, waitingFrom_append, hw, ← hlen, ← hindex]
      exact congrArg (waiting ++ ·) (append_nil _)
    · intro id hid
      rcases mem_append.mp hid with hid | hid
      · exact h.zone.since id hid
      · rw [mem_singleton.mp hid, hindex, hlen]
        exact Nat.le_add_right _ _
    · intro id hid
      rw [slotsOf_pushSlot]
      rcases mem_append.mp hid with hid | hid
      · obtain ⟨s', hs', hf⟩ := h.zone.opened id hid
        exact ⟨s', by rw [getElem?_append_left (h.zone.index_lt hid)]; exact hs', hf⟩
      · refine ⟨s, ?_, hs⟩
        rw [mem_singleton.mp hid, hindex, getElem?_concat_length]
    · refine nodup_append.mpr ⟨h.zone.nodup, pairwise_singleton _ _, ?_⟩
      intro id hid id' hid' he
      have hlt := h.index_lt_pushSlot s hid
      rw [he, mem_singleton.mp hid'] at hlt
      exact Nat.lt_irrefl _ hlt

/-- An edit of one of the region's slots keeps the zone, and the slot waits no longer. -/
theorem edit {e : Edit} (he : e.slot ∈ ids) :
    (o.edit e).InZone old front ids (waiting.filter (·.1 != e.slot)) where
  placed := h.placed.edit e
  kept := by
    rw [edit_slots]
    exact h.kept
  zone := by
    have hsince := h.zone.since _ he
    obtain ⟨back, hb, ho, hw⟩ := h.zone.split
    obtain ⟨back', hb', ho', hs⟩ := edit_nodes_append h.placed ho hb hsince
    refine ⟨⟨back', hb', ho', ?_⟩, h.zone.since, ?_, h.zone.nodup⟩
    · rw [hs, waitingFrom_modify, hw, Nat.add_sub_cancel' hsince]
    · intro id hid
      obtain ⟨s, hs, hf⟩ := h.zone.opened id hid
      rw [slotsOf_edit h.placed, getElem?_modify, hs]
      by_cases hk : e.slot.index = id.index
      · refine ⟨s.update e.change.apply, by simp [hk], ?_⟩
        simp [Slot.update, hf]
      · exact ⟨s, by simp [hk], hf⟩

theorem mark : o.mark.1.InZone old front ids waiting :=
  ⟨h.placed.mark, h.kept, h.zone.extend rfl⟩

theorem endRegion_faults : (o.endRegion front.length).2 = waiting.map Prod.snd := by
  obtain ⟨back, -, ho, hw⟩ := h.zone.split
  rw [Output.endRegion_faults ho, ← hw, map_snd_waitingFrom]

theorem endRegion : (o.endRegion front.length).1.InZone old front [] [] := by
  obtain ⟨back, hb, ho, -⟩ := h.zone.split
  refine ⟨h.placed.endRegion _, h.kept,
    ⟨back.map Node.freeze, ?_, endRegion_nodes ho, ?_⟩, ?_, ?_, ?_⟩
  · simpa using hb
  · have hnone := filterMap_unresolved_freeze (slotsOf back)
    rw [← map_snd_waitingFrom _ (slotsOf front).length] at hnone
    rw [slotsOf_freeze]
    exact map_eq_nil_iff.mp hnone
  · simp
  · simp
  · exact nodup_nil

end

/-- A region that waits for nothing can put a text in place of all it has made after its mark. -/
theorem replaceSince (h : o.InZone old front ids []) (t : Text) :
    (o.replaceSince (front.length + 1) t).InZone [] front [] [] := by
  obtain ⟨back, hb, ho, hw⟩ := h.zone.split
  obtain ⟨first, rest, rfl⟩ := exists_cons_of_ne_nil hb
  have hnodes : o.nodes = (front ++ [first]) ++ rest := by
    rw [ho, append_assoc]
    rfl
  have hsize : (front ++ [first]).length = front.length + 1 := by simp
  rw [← hsize, replaceSince_eq h.placed hnodes]
  refine InZone.add ?_ t
  refine ⟨rfl, nil_prefix, ⟨[first], by simp, rfl, ?_⟩, by simp, by simp, nodup_nil⟩
  rw [← singleton_append, slotsOf_append, waitingFrom_append] at hw
  exact (append_eq_nil_iff.mp hw).1

end Output.InZone
end Patchwork
