import Patchwork.Output

/-!
# The slots of an output

An output keeps its slots among the nodes and, beside them, the list of their places. This module
gives the view that the other proofs work with: `slotsOf nodes` is the list of the slots alone, and
a slot's number is its index in that list. The view is right as long as the places are those of the
slots (`Placed`), which every operation preserves.

Each operation is then described by what it does to the nodes and to the view:

- text leaves the slots alone (`slotsOf_add`) and changes nothing before the last node
  (`add_nodes_append`);
- a new slot gets the number after the last one (`slotsOf_pushSlot`);
- an edit changes the slot with its number and no other node (`slotsOf_edit`, `update_getElem?`);
- the end of a region freezes what was made since its mark, and a replacement drops it.

Where the slots stand depends on the nodes without what their slots hold (`Node.shape`), and
`spellWith` is the code when the slots hold something else.
-/

namespace Patchwork

open List

def Node.slot? : Node → Option Slot
  | text _ => none
  | slot s => some s

namespace Slot

def unresolved? (s : Slot) : Option Fault :=
  if s.frozen || s.value.isSome then none else s.pending

/-- Does the slot have a value, or a fault that is reported without one? -/
def pledged (s : Slot) : Bool :=
  s.value.isSome || s.pending.isSome

def update (f : Option Text → Text) (s : Slot) : Slot :=
  if s.frozen then s else { s with value := some (f s.value) }

/-- A slot that cannot change any more. -/
def freeze (s : Slot) : Slot :=
  { s with frozen := true }

end Slot

theorem Node.update_slot (f : Option Text → Text) (s : Slot) :
    Node.update f (.slot s) = .slot (s.update f) := by
  simp only [Node.update, Slot.update]
  split <;> rfl

def Node.shape : Node → Option Text
  | text t => some t
  | slot _ => none

def slotsOf (nodes : List Node) : List Slot :=
  nodes.filterMap Node.slot?

/-- The places of the slots among nodes of which the first has the number `n`. -/
def placesFrom (n : Nat) : List Node → List Nat
  | [] => []
  | .text _ :: nodes => placesFrom (n + 1) nodes
  | .slot _ :: nodes => n :: placesFrom (n + 1) nodes

theorem slotsOf_append (a b : List Node) : slotsOf (a ++ b) = slotsOf a ++ slotsOf b :=
  filterMap_append

theorem slotsOf_cons_text (t : Text) (nodes : List Node) :
    slotsOf (.text t :: nodes) = slotsOf nodes := rfl

theorem slotsOf_cons_slot (s : Slot) (nodes : List Node) :
    slotsOf (.slot s :: nodes) = s :: slotsOf nodes := rfl

theorem placesFrom_append (a b : List Node) :
    ∀ n, placesFrom n (a ++ b) = placesFrom n a ++ placesFrom (n + a.length) b := by
  induction a with
  | nil => intro n; simp [placesFrom]
  | cons node a ih =>
    intro n
    have hlen : n + (node :: a).length = n + 1 + a.length := by
      rw [length_cons]; omega
    rw [hlen]
    cases node with
    | text t => exact ih (n + 1)
    | slot s => exact congrArg (n :: ·) (ih (n + 1))

variable (nodes : List Node)

theorem length_placesFrom : ∀ n, (placesFrom n nodes).length = (slotsOf nodes).length := by
  induction nodes with
  | nil => intro n; rfl
  | cons node nodes ih =>
    intro n
    cases node with
    | text t => exact ih (n + 1)
    | slot s => exact congrArg (· + 1) (ih (n + 1))

theorem mem_placesFrom {nodes : List Node} :
    ∀ {n i : Nat}, i ∈ placesFrom n nodes → n ≤ i ∧ i < n + nodes.length := by
  induction nodes with
  | nil => intro n i h; cases h
  | cons node nodes ih =>
    intro n i h
    rw [length_cons]
    cases node with
    | text t =>
      have := ih h
      omega
    | slot s =>
      rcases mem_cons.mp h with rfl | h
      · omega
      · have := ih h
        omega

theorem placesFrom_pairwise : ∀ n, (placesFrom n nodes).Pairwise (· < ·) := by
  induction nodes with
  | nil => intro n; exact List.Pairwise.nil
  | cons node nodes ih =>
    intro n
    cases node with
    | text t => exact ih (n + 1)
    | slot s =>
      refine List.Pairwise.cons (fun i hi => ?_) (ih (n + 1))
      have := (mem_placesFrom hi).1
      omega

theorem placesFrom_getElem? {nodes : List Node} :
    ∀ {n k : Nat} {s : Slot}, (slotsOf nodes)[k]? = some s →
      ∃ i, (placesFrom n nodes)[k]? = some (n + i) ∧ nodes[i]? = some (.slot s) := by
  induction nodes with
  | nil => intro n k s h; simp [slotsOf] at h
  | cons node nodes ih =>
    intro n k s h
    cases node with
    | text t =>
      obtain ⟨i, hp, hi⟩ := ih h
      exact ⟨i + 1, by rw [show n + (i + 1) = n + 1 + i by omega]; exact hp, hi⟩
    | slot s0 =>
      cases k with
      | zero =>
        exact ⟨0, rfl, by rw [getElem?_cons_zero, Option.some.inj h]⟩
      | succ k =>
        obtain ⟨i, hp, hi⟩ := ih h
        exact ⟨i + 1, by rw [show n + (i + 1) = n + 1 + i by omega]; exact hp, hi⟩

theorem placesFrom_of_shape {a b : List Node} (h : a.map Node.shape = b.map Node.shape) :
    ∀ n, placesFrom n a = placesFrom n b := by
  induction a generalizing b with
  | nil => intro n; rw [map_eq_nil_iff.mp h.symm]
  | cons x a ih =>
    intro n
    obtain ⟨y, b, rfl, hy, hb⟩ := map_eq_cons_iff.mp h.symm
    cases x <;> cases y <;> simp_all [Node.shape, placesFrom, ih hb.symm (n + 1)]

/-- The code of nodes of which the first slot has the number `n`, when slots hold `held`. -/
def spellWith (held : SlotId → Slot → Text) : (n : Nat) → List Node → Text
  | _, [] => []
  | n, .text t :: nodes => t ++ spellWith held n nodes
  | n, .slot s :: nodes => held ⟨n⟩ s ++ spellWith held (n + 1) nodes

section Spell

variable {held held' : SlotId → Slot → Text}

theorem spellWith_append (a b : List Node) : ∀ n, spellWith held n (a ++ b) =
    spellWith held n a ++ spellWith held (n + (slotsOf a).length) b := by
  induction a with
  | nil => intro n; rfl
  | cons node a ih =>
    intro n
    cases node with
    | text t => rw [cons_append, spellWith, spellWith, ih, append_assoc, slotsOf_cons_text]
    | slot s =>
      rw [cons_append, spellWith, spellWith, ih, append_assoc, slotsOf_cons_slot, length_cons,
        Nat.add_right_comm, Nat.add_assoc n]

theorem spellWith_congr : ∀ {n : Nat},
    (∀ i s, (slotsOf nodes)[i]? = some s → held ⟨n + i⟩ s = held' ⟨n + i⟩ s) →
    spellWith held n nodes = spellWith held' n nodes := by
  induction nodes with
  | nil => intro n _; rfl
  | cons node nodes ih =>
    intro n h
    cases node with
    | text t => rw [spellWith, spellWith, ih h]
    | slot s =>
      have hnodes : spellWith held (n + 1) nodes = spellWith held' (n + 1) nodes := ih fun i s hs => by
        rw [Nat.add_assoc, Nat.add_comm 1]
        exact h (i + 1) s hs
      rw [spellWith, spellWith, hnodes, show held ⟨n⟩ s = _ from h 0 s rfl]
      rfl

theorem spellWith_value :
    ∀ n, spellWith (fun _ s => s.value.getD []) n nodes = nodes.flatMap Node.content := by
  induction nodes with
  | nil => intro n; rfl
  | cons node nodes ih => intro n; cases node <;> rw [spellWith, ih] <;> rfl

end Spell

def Output.Placed (o : Output) : Prop :=
  o.slots = placesFrom 0 o.nodes

namespace Output

def place? (o : Output) (id : SlotId) : Option Nat :=
  o.slots[id.index]?

def slot? (o : Output) (id : SlotId) : Option Slot :=
  (o.place? id).bind fun i => (o.nodes[i]?).bind Node.slot?

def isOpen (o : Output) (id : SlotId) : Bool :=
  (o.slot? id).any (!·.frozen)

variable {o : Output}

theorem slot?_eq (h : o.Placed) (id : SlotId) : o.slot? id = (slotsOf o.nodes)[id.index]? := by
  unfold slot? place?
  rw [h]
  cases hs : (slotsOf o.nodes)[id.index]? with
  | some s =>
    obtain ⟨i, hp, hi⟩ := placesFrom_getElem? hs
    rw [hp, Option.bind_some, Nat.zero_add, hi]
    rfl
  | none =>
    have hlen := List.getElem?_eq_none_iff.mp hs
    rw [getElem?_eq_none (by rw [length_placesFrom]; exact hlen)]
    rfl

theorem isOpen_iff (h : o.Placed) (id : SlotId) :
    o.isOpen id = true ↔ ∃ s, (slotsOf o.nodes)[id.index]? = some s ∧ s.frozen = false := by
  unfold isOpen
  rw [slot?_eq h, Option.any_eq_true]
  simp only [Bool.not_eq_eq_eq_not, Bool.not_true]

/-- Slots that come one after the other stand one behind the other. -/
theorem Placed.place?_lt (h : o.Placed) {a b : SlotId} {i j : Nat} (ha : o.place? a = some i)
    (hb : o.place? b = some j) (hab : a.index < b.index) : i < j := by
  rw [place?, h] at ha hb
  obtain ⟨hia, rfl⟩ := List.getElem?_eq_some_iff.mp ha
  obtain ⟨hjb, rfl⟩ := List.getElem?_eq_some_iff.mp hb
  exact pairwise_iff_getElem.mp (placesFrom_pairwise o.nodes 0) _ _ hia hjb hab

theorem Placed.place?_inj (h : o.Placed) {a b : SlotId} {i : Nat} (ha : o.place? a = some i)
    (hb : o.place? b = some i) : a = b := by
  rcases Nat.lt_trichotomy a.index b.index with hlt | heq | hlt
  · exact absurd (h.place?_lt ha hb hlt) (Nat.lt_irrefl i)
  · cases a
    exact congrArg SlotId.mk heq
  · exact absurd (h.place?_lt hb ha hlt) (Nat.lt_irrefl i)

/-- Outputs that begin with the same nodes have the same slots there, in the same places. -/
theorem slot?_of_isPrefix {o' : Output} {front : List Node} (h : o.Placed) (h' : o'.Placed)
    (hp : front <+: o.nodes) (hp' : front <+: o'.nodes) {id : SlotId}
    (hid : id.index < (slotsOf front).length) :
    o'.slot? id = o.slot? id ∧ o'.place? id = o.place? id := by
  obtain ⟨back, hb⟩ := hp
  obtain ⟨back', hb'⟩ := hp'
  constructor
  · rw [slot?_eq h, slot?_eq h', ← hb, ← hb', slotsOf_append, slotsOf_append,
      getElem?_append_left hid, getElem?_append_left hid]
  · have hlen : id.index < (placesFrom 0 front).length := by
      rw [length_placesFrom]
      exact hid
    rw [place?, place?, h, h', ← hb, ← hb', placesFrom_append, placesFrom_append,
      getElem?_append_left hlen, getElem?_append_left hlen]

/-! ## Text -/

/-- How added text shows in the nodes: the last one grows, or there is a new one. -/
theorem add_nodes_cases (o : Output) (t : Text) :
    (o.add t).nodes = o.nodes ∨
    (∃ front last, o.nodes = front ++ [.text last] ∧
      (o.add t).nodes = front ++ [.text (last ++ t)]) ∨
    (o.add t).nodes = o.nodes ++ [.text t] := by
  unfold add
  split
  · exact Or.inl rfl
  split
  next last hlast =>
    obtain ⟨front, hfront⟩ := getLast?_eq_some_iff.mp hlast
    refine Or.inr (Or.inl ⟨front, last, hfront, ?_⟩)
    rw [hfront, dropLast_concat]
  · exact Or.inr (Or.inr rfl)

@[simp] theorem add_slots (o : Output) (t : Text) : (o.add t).slots = o.slots := by
  unfold add
  split
  · rfl
  · split <;> rfl

/-- Text leaves the names, the scopes and the dialect alone. -/
theorem fork_add (o : Output) (t : Text) : (o.add t).fork = o.fork := by
  unfold add
  split
  · rfl
  · split <;> rfl

theorem spellWith_add (o : Output) (t : Text) (held : SlotId → Slot → Text) (n : Nat) :
    spellWith held n (o.add t).nodes = spellWith held n o.nodes ++ t := by
  unfold add
  split
  next h => rw [List.isEmpty_iff.mp h, append_nil]
  split
  next last hlast =>
    obtain ⟨front, hfront⟩ := getLast?_eq_some_iff.mp hlast
    rw [hfront, dropLast_concat]
    simp only [spellWith_append, spellWith, append_assoc, append_nil]
  · simp only [spellWith_append, spellWith, append_nil]

theorem finish_add (o : Output) (t : Text) : (o.add t).finish = o.finish ++ t := by
  rw [finish, finish, ← spellWith_value _ 0, ← spellWith_value _ 0, spellWith_add]

@[simp] theorem slotsOf_add (o : Output) (t : Text) :
    slotsOf (o.add t).nodes = slotsOf o.nodes := by
  rcases o.add_nodes_cases t with h | ⟨front, last, ho, h⟩ | h
  · rw [h]
  · rw [h, ho, slotsOf_append, slotsOf_append]; rfl
  · rw [h, slotsOf_append]; exact append_nil _

theorem Placed.add (h : o.Placed) (t : Text) : (o.add t).Placed := by
  unfold Placed at h ⊢
  rw [add_slots, h]
  rcases o.add_nodes_cases t with h | ⟨front, last, ho, h⟩ | h
  · rw [h]
  · rw [h, ho, placesFrom_append, placesFrom_append]; rfl
  · rw [h, placesFrom_append]; exact (append_nil _).symm

theorem add_nodes_append {front back : List Node} (t : Text) (h : o.nodes = front ++ back)
    (hb : back ≠ []) :
    ∃ back', back' ≠ [] ∧ (o.add t).nodes = front ++ back' ∧ slotsOf back' = slotsOf back := by
  rcases o.add_nodes_cases t with h' | ⟨init, last, ho, h'⟩ | h'
  · exact ⟨back, hb, h'.trans h, rfl⟩
  · obtain ⟨b, node, hbn⟩ := (eq_nil_or_concat back).resolve_left hb
    rw [concat_eq_append] at hbn
    subst hbn
    rw [h, ← append_assoc] at ho
    obtain ⟨hinit, hnode⟩ := append_inj' ho rfl
    obtain ⟨rfl, -⟩ := hnode
    refine ⟨b ++ [.text (last ++ t)], by simp, ?_, ?_⟩
    · rw [h', ← hinit, append_assoc]
    · rw [slotsOf_append, slotsOf_append]; rfl
  · refine ⟨back ++ [.text t], by simp, ?_, ?_⟩
    · rw [h', h, append_assoc]
    · rw [slotsOf_append]; exact append_nil _

theorem add_add (o : Output) (t u : Text) : (o.add t).add u = o.add (t ++ u) := by
  cases t with
  | nil => rfl
  | cons c t =>
    cases u with
    | nil => rw [append_nil]; rfl
    | cons d u =>
      unfold add
      cases hlast : o.nodes.getLast? with
      | none => simp
      | some node => cases node <;> simp

/-! ## New slots -/

@[simp] theorem pushSlot_nodes (o : Output) (s : Slot) :
    (o.pushSlot s).1.nodes = o.nodes ++ [.slot s] := rfl

theorem slotsOf_pushSlot (o : Output) (s : Slot) :
    slotsOf (o.pushSlot s).1.nodes = slotsOf o.nodes ++ [s] :=
  slotsOf_append _ _

theorem Placed.pushSlot (h : o.Placed) (s : Slot) : (o.pushSlot s).1.Placed := by
  show o.slots ++ [o.nodes.length] = placesFrom 0 (o.nodes ++ [.slot s])
  rw [placesFrom_append, Nat.zero_add, h]
  rfl

/-- A new slot gets the number after the last one. -/
theorem pushSlot_index (h : o.Placed) (s : Slot) :
    (o.pushSlot s).2.index = (slotsOf o.nodes).length := by
  show o.slots.length = _
  rw [h, length_placesFrom]

/-! ## Edits -/

theorem update_getElem? (o : Output) (id : SlotId) (f : Option Text → Text) (i : Nat) :
    (o.update id f).nodes[i]? =
      if o.place? id = some i then o.nodes[i]?.map (Node.update f) else o.nodes[i]? := by
  unfold update place?
  cases hp : o.slots[id.index]? with
  | none => simp
  | some j =>
    by_cases hij : j = i
    · subst hij; simp
    · simp [hij]

@[simp] theorem update_slots (o : Output) (id : SlotId) (f : Option Text → Text) :
    (o.update id f).slots = o.slots := by
  unfold update
  split <;> rfl

@[simp] theorem edit_slots (o : Output) (e : Edit) : (o.edit e).slots = o.slots :=
  o.update_slots _ _

theorem fork_edit (o : Output) (e : Edit) : (o.edit e).fork = o.fork := by
  unfold edit update
  split <;> rfl

theorem shape_edit (o : Output) (e : Edit) :
    (o.edit e).nodes.map Node.shape = o.nodes.map Node.shape := by
  refine ext_getElem? fun i => ?_
  rw [edit, getElem?_map, getElem?_map, update_getElem?]
  split
  · cases o.nodes[i]? with
    | none => rfl
    | some node =>
      cases node with
      | text t => rfl
      | slot s => rw [Option.map_some, Node.update_slot]; rfl
  · rfl

end Output

/-- What a change of an element leaves alone is the same after it. -/
theorem filterMap_modify {α β : Type} {f : α → α} {g : α → Option β} (h : ∀ a, g (f a) = g a)
    (l : List α) (i : Nat) : (l.modify i f).filterMap g = l.filterMap g := by
  induction l generalizing i with
  | nil => rw [modify_nil]
  | cons a l ih =>
    cases i with
    | zero => rw [modify_zero_cons, filterMap_cons, h, filterMap_cons]
    | succ i => rw [modify_succ_cons, filterMap_cons, ih, filterMap_cons]

/-- A change behind some elements leaves these as they are. -/
theorem modify_append_right {α : Type} (f : α → α) (front back : List α) (i : Nat) :
    (front ++ back).modify (front.length + i) f = front ++ back.modify i f := by
  induction front with
  | nil => rw [length_nil, Nat.zero_add]; rfl
  | cons a front ih =>
    rw [length_cons, Nat.add_right_comm, cons_append, modify_succ_cons, ih]
    rfl

theorem exists_slot_of_place {nodes : List Node} :
    ∀ {n k i}, (placesFrom n nodes)[k]? = some (n + i) →
      ∃ front s back, nodes = front ++ .slot s :: back ∧ front.length = i ∧
        (slotsOf front).length = k := by
  induction nodes with
  | nil => intro n k i h; simp [placesFrom] at h
  | cons node nodes ih =>
    intro n k i h
    -- behind the first node the places are counted from one more
    have hlater : ∀ {k}, (placesFrom (n + 1) nodes)[k]? = some (n + i) →
        ∃ front s back, nodes = front ++ .slot s :: back ∧ front.length + 1 = i ∧
          (slotsOf front).length = k := by
      intro k h
      have hi := (mem_placesFrom (mem_of_getElem? h)).1
      rw [show n + i = n + 1 + (i - 1) by omega] at h
      obtain ⟨front, s, back, hnodes, hlength, hcount⟩ := ih h
      exact ⟨front, s, back, hnodes, by omega, hcount⟩
    cases node with
    | text t =>
      obtain ⟨front, s, back, rfl, hlength, hcount⟩ := hlater h
      exact ⟨.text t :: front, s, back, rfl, hlength, hcount⟩
    | slot s =>
      cases k with
      | zero =>
        have hi := Option.some.inj h
        exact ⟨[], s, nodes, rfl, by rw [length_nil]; omega, rfl⟩
      | succ k =>
        obtain ⟨front, s', back, rfl, hlength, hcount⟩ := hlater h
        exact ⟨.slot s :: front, s', back, rfl, hlength, congrArg (· + 1) hcount⟩

theorem modify_length {α : Type} (f : α → α) (front : List α) (a : α) (back : List α) :
    (front ++ a :: back).modify front.length f = front ++ f a :: back :=
  modify_append_right f front (a :: back) 0

theorem slotsOf_modify (f : Option Text → Text) (nodes : List Node) {n k i : Nat}
    (h : (placesFrom n nodes)[k]? = some (n + i)) :
    slotsOf (nodes.modify i (Node.update f)) = (slotsOf nodes).modify k (Slot.update f) := by
  obtain ⟨front, s, back, rfl, rfl, rfl⟩ := exists_slot_of_place h
  rw [modify_length, slotsOf_append, slotsOf_append, Node.update_slot, slotsOf_cons_slot,
    slotsOf_cons_slot, modify_length]

namespace Output

variable {o : Output}

theorem Placed.edit (h : o.Placed) (e : Edit) : (o.edit e).Placed := by
  rw [Placed, edit_slots, h, placesFrom_of_shape (shape_edit o e)]

theorem slotsOf_edit (h : o.Placed) (e : Edit) :
    slotsOf (o.edit e).nodes =
      (slotsOf o.nodes).modify e.slot.index (Slot.update e.change.apply) := by
  unfold Output.edit update
  rw [h]
  split
  next i hi => exact slotsOf_modify _ _ (by rw [Nat.zero_add]; exact hi)
  next hnone =>
    have hlen := List.getElem?_eq_none_iff.mp hnone
    rw [length_placesFrom] at hlen
    rw [modify_eq_self hlen]

theorem edit_nodes_modify {front back : List Node} {e : Edit} (h : o.Placed)
    (ho : o.nodes = front ++ back) (hid : (slotsOf front).length ≤ e.slot.index)
    (hlt : e.slot.index < (slotsOf o.nodes).length) :
    ∃ j, (placesFrom front.length back)[e.slot.index - (slotsOf front).length]? =
        some (front.length + j) ∧
      (o.edit e).nodes = front ++ back.modify j (Node.update e.change.apply) := by
  rw [← length_placesFrom _ 0] at hlt
  have hi := getElem?_eq_getElem hlt
  have hplace : (placesFrom front.length back)[e.slot.index - (slotsOf front).length]? =
      some (placesFrom 0 o.nodes)[e.slot.index] := by
    rw [← hi, ho, placesFrom_append,
      getElem?_append_right (by rw [length_placesFrom]; exact hid), length_placesFrom,
      Nat.zero_add]
  generalize (placesFrom 0 o.nodes)[e.slot.index] = i at hi hplace
  have hle := (mem_placesFrom (mem_of_getElem? hplace)).1
  -- the slot was made behind the front, so the place counts from there
  obtain ⟨j, rfl⟩ : ∃ j, i = front.length + j := ⟨i - front.length, by omega⟩
  refine ⟨j, hplace, ?_⟩
  unfold Output.edit update
  rw [h, hi]
  show o.nodes.modify _ _ = _
  rw [ho, modify_append_right]

theorem edit_nodes_append {front back : List Node} {e : Edit} (h : o.Placed)
    (ho : o.nodes = front ++ back) (hb : back ≠ []) (hid : (slotsOf front).length ≤ e.slot.index) :
    ∃ back', back' ≠ [] ∧ (o.edit e).nodes = front ++ back' ∧
      slotsOf back' = (slotsOf back).modify (e.slot.index - (slotsOf front).length)
        (Slot.update e.change.apply) := by
  by_cases hlt : e.slot.index < (slotsOf o.nodes).length
  · obtain ⟨j, hplace, hnodes⟩ := edit_nodes_modify h ho hid hlt
    refine ⟨back.modify j (Node.update e.change.apply), ?_, hnodes, slotsOf_modify _ _ hplace⟩
    rw [ne_eq, modify_eq_nil_iff]
    exact hb
  · have hnone : o.slots[e.slot.index]? = none := by
      rw [h, List.getElem?_eq_none_iff, length_placesFrom]
      exact Nat.not_lt.mp hlt
    rw [ho, slotsOf_append, length_append] at hlt
    refine ⟨back, hb, ?_, ?_⟩
    · unfold Output.edit update
      rw [hnone]
      exact ho
    · rw [modify_eq_self (by omega)]

/-! ## Marks -/

theorem Placed.mark (h : o.Placed) : o.mark.1.Placed := by
  show o.slots = placesFrom 0 (o.nodes ++ [.text []])
  rw [placesFrom_append, h]
  exact (append_nil _).symm

end Output

theorem slotsOf_freeze : slotsOf (nodes.map Node.freeze) = (slotsOf nodes).map Slot.freeze := by
  induction nodes with
  | nil => rfl
  | cons node nodes ih =>
    cases node with
    | text t => exact ih
    | slot s => exact congrArg (s.freeze :: ·) ih

namespace Output

variable {o : Output} {front back : List Node}

theorem endRegion_nodes (ho : o.nodes = front ++ back) :
    (o.endRegion front.length).1.nodes = front ++ back.map Node.freeze := by
  unfold endRegion
  rw [ho, take_left, drop_left]

theorem shape_endRegion (o : Output) (mark : Nat) :
    (o.endRegion mark).1.nodes.map Node.shape = o.nodes.map Node.shape := by
  have hfreeze : Node.shape ∘ Node.freeze = Node.shape := by
    funext node
    cases node <;> rfl
  rw [endRegion, map_append, map_map, hfreeze, ← map_append, take_append_drop]

theorem Placed.endRegion (h : o.Placed) (mark : Nat) : (o.endRegion mark).1.Placed :=
  h.trans (placesFrom_of_shape (shape_endRegion o mark).symm 0)

theorem endRegion_faults (ho : o.nodes = front ++ back) :
    (o.endRegion front.length).2 = (slotsOf back).filterMap Slot.unresolved? := by
  show (o.nodes.drop front.length).filterMap Node.unresolved? = _
  rw [ho, drop_left, slotsOf, filterMap_filterMap]
  congr 1
  funext node
  cases node <;> rfl

/-- A replacement leaves what was made before the mark, with the places of its slots. -/
theorem replaceSince_eq (h : o.Placed) (ho : o.nodes = front ++ back) (t : Text) :
    o.replaceSince front.length t =
      { o with nodes := front, slots := placesFrom 0 front }.add t := by
  unfold replaceSince
  have hslots : o.slots.filter (· < front.length) = placesFrom 0 front := by
    rw [h, ho, placesFrom_append, filter_append]
    have hfront : (placesFrom 0 front).filter (· < front.length) = placesFrom 0 front := by
      refine filter_eq_self.mpr fun i hi => ?_
      have := (mem_placesFrom hi).2
      exact decide_eq_true (by omega)
    have hback : (placesFrom (0 + front.length) back).filter (· < front.length) = [] := by
      refine filter_eq_nil_iff.mpr fun i hi => ?_
      have := (mem_placesFrom hi).1
      simp only [decide_eq_true_eq]
      omega
    rw [hfront, hback, append_nil]
  simp only [ho, take_left, hslots]

end Output
end Patchwork
