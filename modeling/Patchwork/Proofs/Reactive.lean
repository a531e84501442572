import Patchwork.Proofs.Frames

/-!
# Making the statements of a region reactive

At the end of a region the statements that read reactive values are edited, one after the other in
the order they were closed. This module shows that the order does not matter and that nothing else
changes.

Both follow from what a list of edits does (`editAll_eq`): each node is changed by the edits of its
own slot, in their order, and a node that is no slot stays as it is. The slots of different
statements are different, so edits of different statements never meet at a node. The edits
themselves do not depend on what has been edited before, since they read the names and the dialect
of the output but none of its nodes.
-/

namespace Patchwork

open Compile List

/-! ## Many edits -/

namespace Output

/-- Carry out edits one after the other. -/
def editAll (o : Output) (edits : List Edit) : Output :=
  edits.foldl edit o

def edited (o : Output) (edits : List Edit) (i : Nat) (node : Node) : Node :=
  (edits.filter fun e => o.place? e.slot == some i).foldl (fun node e => node.update e.change.apply)
    node

variable (o : Output)

theorem edit_eq (e : Edit) : o.edit e = { o with nodes := (o.edit e).nodes } := by
  unfold edit update
  split <;> rfl

theorem edited_cons (e : Edit) (edits : List Edit) (i : Nat) (node : Node) :
    o.edited (e :: edits) i node =
      o.edited edits i (if o.place? e.slot = some i then node.update e.change.apply else node) := by
  unfold edited
  by_cases h : o.place? e.slot = some i
  · simp [h]
  · simp [h]

/-- Edits change each node as the edits of its slot say, and nothing else. -/
theorem editAll_eq (edits : List Edit) :
    o.editAll edits = { o with nodes := o.nodes.mapIdx (o.edited edits) } := by
  induction edits generalizing o with
  | nil =>
    have hnodes : o.nodes.mapIdx (o.edited []) = o.nodes :=
      mapIdx_eq_iff.mpr fun i => Option.map_id'.symm
    rw [hnodes]
    rfl
  | cons e edits ih =>
    have hplace : (o.edit e).edited edits = o.edited edits := by
      unfold edited place?
      rw [edit_slots]
    -- the first edit shows at the place of its slot, before the others that show there
    have hnodes : (o.edit e).nodes.mapIdx (o.edited edits) =
        o.nodes.mapIdx (o.edited (e :: edits)) := by
      refine mapIdx_eq_iff.mpr fun i => ?_
      rw [getElem?_mapIdx, edit, update_getElem?]
      cases o.nodes[i]? with
      | none => split <;> rfl
      | some node =>
        rw [Option.map_some, edited_cons]
        split <;> rfl
    show (o.edit e).editAll edits = _
    rw [ih, hplace, hnodes, edit_eq]

theorem editAll_getElem? (edits : List Edit) (i : Nat) :
    (o.editAll edits).nodes[i]? = o.nodes[i]?.map (o.edited edits i) := by
  rw [editAll_eq, getElem?_mapIdx]

theorem edited_text (edits : List Edit) (i : Nat) (t : Text) :
    o.edited edits i (.text t) = .text t := by
  unfold edited
  induction edits.filter _ with
  | nil => rfl
  | cons e edits ih => exact ih

theorem edited_of_forall_ne {o : Output} {edits : List Edit} {i : Nat}
    (h : ∀ e ∈ edits, o.place? e.slot ≠ some i) (node : Node) : o.edited edits i node = node := by
  have hnone : edits.filter (fun e => o.place? e.slot == some i) = [] :=
    filter_eq_nil_iff.mpr fun e he => by simpa using h e he
  rw [edited, hnone]
  rfl

theorem Placed.editAll {o : Output} (h : o.Placed) (edits : List Edit) :
    (o.editAll edits).Placed := by
  induction edits generalizing o with
  | nil => exact h
  | cons e edits ih => exact ih (h.edit e)

end Output

/-! ## The order of edits -/

/-- If at most one member of a list has something to give, what all of them give does not depend on
their order. -/
theorem flatMap_eq_of_perm {α β : Type} {f : α → List β} {l l' : List α} (hperm : l.Perm l')
    (hone : l.Pairwise fun x y => f x = [] ∨ f y = []) : l.flatMap f = l'.flatMap f := by
  induction hperm with
  | nil => rfl
  | cons x _ ih => rw [flatMap_cons, flatMap_cons, ih (pairwise_cons.mp hone).2]
  | swap x y l =>
    simp only [flatMap_cons]
    rcases (pairwise_cons.mp hone).1 x mem_cons_self with h | h
    · rw [h, nil_append, nil_append]
    · rw [h, nil_append, nil_append]
  | trans hfirst _ ih ih' =>
    exact (ih hone).trans (ih' (hfirst.pairwise hone fun h => h.symm))

/-- Edits of different owners, whose slots are different, can be carried out in any order of the
owners. -/
theorem Output.editAll_flatMap_perm {α : Type} {o : Output} (h : o.Placed) {edits : α → List Edit}
    {l l' : List α} (hperm : l.Perm l')
    (hapart : l.Pairwise fun x y => ∀ e ∈ edits x, ∀ e' ∈ edits y, e.slot ≠ e'.slot) :
    o.editAll (l.flatMap edits) = o.editAll (l'.flatMap edits) := by
  rw [editAll_eq, editAll_eq]
  congr 2
  funext i node
  rw [edited, edited, filter_flatMap, filter_flatMap, flatMap_eq_of_perm hperm]
  refine hapart.imp fun {x y} hxy => ?_
  -- two edits at the same place are edits of the same slot
  rw [filter_eq_nil_iff, filter_eq_nil_iff]
  by_cases hx : ∀ e ∈ edits x, ¬(o.place? e.slot == some i) = true
  · exact .inl hx
  · refine .inr fun e' he' hplace' => hx fun e he hplace => ?_
    exact hxy e he e' he' (h.place?_inj (beq_iff_eq.mp hplace) (beq_iff_eq.mp hplace'))

/-! ## Statements -/

namespace Statement

def madeReactive (o : Output) (st : Statement) : Output :=
  o.editAll (st.edits o)

theorem edits_editAll (st : Statement) (o : Output) (es : List Edit) :
    st.edits (o.editAll es) = st.edits o := by
  rw [Output.editAll_eq]
  rfl

/-- Statements that are made reactive one after the other are so by all their edits. -/
theorem foldl_madeReactive (sts : List Statement) (o : Output) :
    sts.foldl madeReactive o = o.editAll (sts.flatMap fun st => st.edits o) := by
  induction sts generalizing o with
  | nil => rfl
  | cons st sts ih =>
    rw [foldl_cons, ih, madeReactive]
    simp only [edits_editAll]
    rw [flatMap_cons, Output.editAll, Output.editAll, Output.editAll, foldl_append]

theorem forM_edit (es : List Edit) (s : Session) :
    (es.forM Editor.edit : Compile Unit) s =
      .ok ((), { s with output := s.output.editAll es }) := by
  induction es generalizing s with
  | nil => rfl
  | cons e es ih =>
    exact ih _

theorem makeReactive_eq (st : Statement) (s : Session) :
    st.makeReactive s = .ok ((), { s with output := st.madeReactive s.output }) :=
  forM_edit ..

theorem forM_makeReactive (sts : List Statement) (s : Session) :
    (sts.forM makeReactive : Compile Unit) s =
      .ok ((), { s with output := sts.foldl madeReactive s.output }) := by
  induction sts generalizing s with
  | nil => rfl
  | cons st sts ih =>
    rw [forM_eq_forM, forM_cons, bind_apply, makeReactive_eq]
    exact ih _

end Statement

/-! ## What stays as it is -/

/-- From one output to another nothing has changed but the values of some slots. -/
structure Output.KeepsBut (owned : List SlotId) (o o' : Output) : Prop where
  rest : { o' with nodes := o.nodes } = o
  nodes : ∀ i : Nat, (∀ id ∈ owned, o.place? id ≠ some i) → o'.nodes[i]? = o.nodes[i]?
  texts : ∀ (i : Nat) (t : Text), o.nodes[i]? = some (.text t) → o'.nodes[i]? = some (.text t)

namespace Output.KeepsBut

variable {owned : List SlotId} {o o' : Output}

theorem editAll (o : Output) {edits : List Edit} (h : ∀ e ∈ edits, e.slot ∈ owned) :
    KeepsBut owned o (o.editAll edits) where
  rest := by rw [editAll_eq]
  nodes i hi := by
    rw [editAll_getElem?]
    cases o.nodes[i]? with
    | none => rfl
    | some node =>
      rw [Option.map_some, edited_of_forall_ne fun e he => hi e.slot (h e he)]
  texts i t ht := by
    rw [editAll_getElem?, ht, Option.map_some, edited_text]

theorem places (h : KeepsBut owned o o') : o'.place? = o.place? := by
  rw [← h.rest]
  rfl

theorem slot? (h : KeepsBut owned o o') (ho : o.Placed) {id : SlotId} (hid : id ∉ owned) :
    o'.slot? id = o.slot? id := by
  unfold Output.slot?
  rw [h.places]
  cases hp : o.place? id with
  | none => rfl
  | some i =>
    have hne : ∀ other ∈ owned, o.place? other ≠ some i := fun other hother hplace =>
      hid (ho.place?_inj hplace hp ▸ hother)
    rw [Option.bind_some, Option.bind_some, h.nodes i hne]

end Output.KeepsBut

def Part.head (p : Part) : SlotId :=
  (p.params.map Prod.fst).getD p.decl

/-- What stands in a closed branch, between its head and the slot after it. -/
def Part.body (p : Part) (o : Output) : List Node :=
  match o.place? p.head, p.close.bind o.place? with
  | some i, some j => (o.nodes.take j).drop (i + 1)
  | _, _ => []

namespace Statement

variable {st : Statement} {p : Part}

/-- The slot after a branch follows the last one of its head. -/
theorem exists_slots_eq (hp : p ∈ st.parts) {close : SlotId} (hclose : p.close = some close) :
    ∃ before after, st.slots = before ++ p.head :: close :: after := by
  obtain ⟨earlier, later, hparts⟩ := append_of_mem hp
  have hslots : ∃ front, p.slots = front ++ [p.head, close] := by
    unfold Part.slots Part.head
    rw [hclose]
    cases p.params with
    | none => exact ⟨[p.declStart], rfl⟩
    | some params => exact ⟨[p.declStart, p.decl], rfl⟩
  obtain ⟨front, hfront⟩ := hslots
  refine ⟨st.start :: earlier.flatMap Part.slots ++ front, later.flatMap Part.slots, ?_⟩
  simp [slots, hparts, hfront]

theorem Formed.outside_body (h : st.Formed) (hp : p ∈ st.parts) {close : SlotId}
    (hclose : p.close = some close) {id : SlotId} (hid : id ∈ st.slots) :
    id = p.head ∨ id = close ∨ id.index < p.head.index ∨ close.index < id.index := by
  obtain ⟨before, after, hslots⟩ := exists_slots_eq hp hclose
  have hascending := h.ascending
  rw [hslots, pairwise_append] at hascending
  rw [hslots] at hid
  rcases mem_append.mp hid with hid | hid
  · exact .inr (.inr (.inl (hascending.2.2 id hid p.head mem_cons_self)))
  rcases mem_cons.mp hid with rfl | hid
  · exact .inl rfl
  rcases mem_cons.mp hid with rfl | hid
  · exact .inr (.inl rfl)
  · have hafter := (pairwise_cons.mp (pairwise_cons.mp hascending.2.1).2).1
    exact .inr (.inr (.inr (hafter id hid)))

theorem Formed.body_eq (h : st.Formed) {o o' : Output} (ho : o.Placed)
    (hkeeps : o.KeepsBut st.slots o') (hp : p ∈ st.parts) : p.body o' = p.body o := by
  unfold Part.body
  rw [hkeeps.places]
  split
  next i j hi hj =>
    obtain ⟨close, hclose, hj⟩ := Option.bind_eq_some_iff.mp hj
    refine ext_getElem? fun m => ?_
    rw [getElem?_drop, getElem?_drop, getElem?_take, getElem?_take]
    split
    next hm =>
      refine hkeeps.nodes _ fun id hid hplace => ?_
      -- a slot of the statement is the head or before it, or the end of the branch or behind it
      rcases h.outside_body hp hclose hid with rfl | rfl | hlt | hlt
      · have := Option.some.inj (hi.symm.trans hplace)
        omega
      · have := Option.some.inj (hj.symm.trans hplace)
        omega
      · have := ho.place?_lt hplace hi hlt
        omega
      · have := ho.place?_lt hj hplace hlt
        omega
    · rfl
  · rfl

end Statement

namespace Tracker

variable {old : Moment} {front : List Node} {held : List SlotId} {s : Session} {k : Tracker}

/-- Different statements have different slots. -/
theorem Sound.apart (hk : k.Sound old front held s) :
    k.statements.Pairwise fun x y => ∀ a ∈ x.slots, ∀ b ∈ y.slots, a ≠ b := by
  have hnodup := (nodup_append.mp hk.inZone.output.zone.nodup).2.1
  exact (pairwise_flatMap.mp hnodup).2

theorem Sound.slot_ne (hk : k.Sound old front held s) {x y : Statement} (hx : x ∈ k.statements)
    (hy : y ∈ k.statements) (hxy : x ≠ y) {a b : SlotId} (ha : a ∈ x.slots) (hb : b ∈ y.slots) :
    a ≠ b := by
  obtain ⟨before, after, hsplit⟩ := append_of_mem hx
  have hapart := hk.apart
  rw [hsplit] at hapart hy
  obtain ⟨-, hafter, hbefore⟩ := pairwise_append.mp hapart
  rcases mem_append.mp hy with hy | hy
  · exact (hbefore y hy x mem_cons_self b hb a ha).symm
  rcases mem_cons.mp hy with rfl | hy
  · exact absurd rfl hxy
  · exact (pairwise_cons.mp hafter).1 y hy a ha b hb

def endEdits (k : Tracker) (o : Output) : List Edit :=
  if k.wraps then (k.closed.filter (·.reactive)).flatMap fun st => st.edits o else []

theorem slot_mem_of_mem_endEdits {o : Output} {e : Edit} (he : e ∈ k.endEdits o) :
    ∃ st ∈ k.closed.filter (·.reactive), e.slot ∈ st.slots := by
  unfold endEdits at he
  split at he
  · obtain ⟨st, hst, he⟩ := mem_flatMap.mp he
    exact ⟨st, hst, Statement.slot_mem_of_mem_edits he⟩
  · cases he

theorem finish_eq (hblock : k.openBlock? = none) (s : Session) :
    k.finish s = .ok (({ k with closed := [] }, k.closed.any (·.reactive)),
      { s with output := s.output.editAll (k.endEdits s.output) }) := by
  unfold finish endEdits
  rw [hblock]
  dsimp only
  split
  · rw [bind_apply, Statement.forM_makeReactive, Statement.foldl_madeReactive]
    rfl
  · rfl

theorem finish_eq_ok {s' : Session} {r : Tracker × Bool} (h : k.finish s = .ok (r, s')) :
    r = ({ k with closed := [] }, k.closed.any (·.reactive)) ∧
      s' = { s with output := s.output.editAll (k.endEdits s.output) } := by
  cases hblock : k.openBlock? with
  | some span =>
    unfold finish at h
    rw [hblock] at h
    cases h
  | none =>
    rw [finish_eq hblock] at h
    cases h
    exact ⟨rfl, rfl⟩

theorem Sound.finish_perm (hk : k.Sound old front held s) {closed : List Statement}
    (hperm : closed.Perm k.closed) : finish { k with closed } s = k.finish s := by
  have hblock : openBlock? { k with closed } = k.openBlock? := rfl
  cases hopen : k.openBlock? with
  | some span =>
    unfold finish
    rw [hblock, hopen]
  | none =>
    have hapart : (k.closed.filter (·.reactive)).Pairwise fun x y =>
        ∀ e ∈ x.edits s.output, ∀ e' ∈ y.edits s.output, e.slot ≠ e'.slot := by
      have hclosed := (pairwise_append.mp hk.apart).2.1
      refine (hclosed.imp fun {x y} hxy e he e' he' => ?_).filter _
      exact hxy _ (Statement.slot_mem_of_mem_edits he) _ (Statement.slot_mem_of_mem_edits he')
    rw [finish_eq hopen, finish_eq (hblock.trans hopen), hperm.any_eq, endEdits, endEdits]
    cases k.wraps with
    | false => rfl
    | true =>
      dsimp only
      rw [if_pos rfl, if_pos rfl,
        Output.editAll_flatMap_perm hk.inZone.output.placed (hperm.symm.filter _) hapart]

end Tracker

namespace Region

variable {old : Moment} {front : List Node} {s : Session} {r : Region} {k : Tracker}

/-- The region with the statements that were closed in it in another order, say. -/
def withClosed (closed : List Statement) : Region → Region
  | markup r => markup { r with statements := r.statements.map ({ · with closed }) }
  | stylesheet r => stylesheet { r with statements := { r.statements with closed } }
  | r => r

/-- A region ends in the same way whatever the order of the statements that were closed in it. -/
theorem Sound.finish_perm (hr : r.Sound old front s) (hk : r.tracker? = some k)
    {closed : List Statement} (hperm : closed.Perm k.closed) :
    (r.withClosed closed).finish s = r.finish s := by
  cases r with
  | markup r =>
    have hr : r.Sound old front s := ⟨hr.formed, hr.inZone⟩
    have hk : r.statements = some k := hk
    refine bind_congr fun chain s1 hflush => ?_
    have htracked := (hr.wrote (.of_made hflush)).tracked hk
    rw [hk]
    show (Tracker.finish _ >>= fun _ => pure ()) s1 = (Tracker.finish _ >>= fun _ => pure ()) s1
    rw [bind_apply, bind_apply, htracked.finish_perm hperm]
  | stylesheet r =>
    cases hk
    refine bind_congr fun buffer s1 hflush => ?_
    have htracked : r.statements.Sound old front r.head.toList s1 :=
      ⟨hr.formed.statements, hr.inZone.wrote (.of_made hflush)⟩
    rw [bind_apply, bind_apply, htracked.finish_perm hperm]
  | code | script | comment => cases hk

end Region

/-! ## The end of a region -/

/-- What a statement of a region may change when it is made reactive: its own slots. What stands in
its branches stays as it is, and so do the slots of the other statements. -/
structure Statement.EditsOwn (k : Tracker) (st : Statement) (o o' : Output) : Prop where
  keeps : o.KeepsBut st.slots o'
  bodies : ∀ p ∈ st.parts, p.body o' = p.body o
  others : ∀ other ∈ k.statements, other ≠ st → ∀ id ∈ other.slots, o'.slot? id = o.slot? id

namespace Tracker

variable {old : Moment} {front : List Node} {held : List SlotId} {s : Session} {k : Tracker}

theorem Sound.editsOwn (hk : k.Sound old front held s) {st : Statement} (hst : st ∈ k.closed)
    (edits : List Edit) :
    st.EditsOwn k (s.output.editAll edits) (st.madeReactive (s.output.editAll edits)) := by
  have hplaced := hk.inZone.output.placed.editAll edits
  have hkeeps : (s.output.editAll edits).KeepsBut st.slots
      (st.madeReactive (s.output.editAll edits)) :=
    .editAll _ fun _ he => Statement.slot_mem_of_mem_edits he
  have hst : st ∈ k.statements := mem_append_right _ hst
  refine ⟨hkeeps, fun p hp => (hk.formed.formed st hst).body_eq hplaced hkeeps hp, ?_⟩
  intro other hother hne id hid
  exact hkeeps.slot? hplaced fun hown => hk.slot_ne hother hst hne hid hown rfl

/-- The end of a region changes slots of closed statements that read reactive values only. -/
theorem finish_keepsBut {s' : Session} {r : Tracker × Bool} (hfinish : k.finish s = .ok (r, s')) :
    s.output.KeepsBut ((k.closed.filter (·.reactive)).flatMap Statement.slots) s'.output := by
  obtain ⟨-, rfl⟩ := finish_eq_ok hfinish
  refine .editAll _ fun e he => ?_
  obtain ⟨st, hst, he⟩ := slot_mem_of_mem_endEdits he
  exact mem_flatMap.mpr ⟨st, hst, he⟩

end Tracker

namespace Document

variable {registry : Registry} {settings : Settings} {source : Text} {n : Nat} {region : Region}
  {s s1 : Session} {k : Tracker}

/-- When a region comes to its end, after the text that is still written then, the statements that
were closed in it may be made reactive in any order: the region ends in the same way. Each of them
changes its own slots and nothing else, whatever was made reactive before it, and in the end no text
and no slot of a statement that reads no reactive value has changed. -/
theorem reactive_edits_local_in_any_order
    (hend : endingAt registry settings source n = some (region, s)) (hk : region.tracker? = some k)
    (hwrote : s.Wrote s₁) :
    (∀ closed, closed.Perm k.closed → (region.withClosed closed).finish s₁ = region.finish s₁) ∧
    (∀ st ∈ k.closed, ∀ (done : List Statement) (s₂ : Session),
      (done.forM Statement.makeReactive : Compile Unit) s₁ = .ok ((), s₂) →
        ∃ s₃, st.makeReactive s₂ = .ok ((), s₃) ∧ st.EditsOwn k s₂.output s₃.output) ∧
    ∀ r s₂, k.finish s₁ = .ok (r, s₂) →
      s₁.output.KeepsBut ((k.closed.filter (·.reactive)).flatMap Statement.slots) s₂.output ∧
      ∀ st ∈ k.statements, st.reactive = false → ∀ id ∈ st.slots,
        s₂.output.slot? id = s₁.output.slot? id := by
  obtain ⟨old, front, hr⟩ := sound_endingAt hend
  have hr₁ : region.Sound old front s₁ := ⟨hr.formed, hr.inZone.wrote hwrote⟩
  obtain ⟨held, hk₁⟩ := hr₁.tracked hk
  refine ⟨fun closed hperm => hr₁.finish_perm hk hperm, ?_, ?_⟩
  · intro st hst done s₂ hdone
    rw [Statement.forM_makeReactive, Statement.foldl_madeReactive] at hdone
    cases hdone
    exact ⟨_, st.makeReactive_eq _, hk₁.editsOwn hst _⟩
  · intro r s₂ hfinish
    have hkeeps := Tracker.finish_keepsBut hfinish
    refine ⟨hkeeps, fun st hst hplain id hid => ?_⟩
    refine hkeeps.slot? hk₁.inZone.output.placed fun hown => ?_
    obtain ⟨other, hother, hid'⟩ := List.mem_flatMap.mp hown
    obtain ⟨hclosed, hreactive⟩ := List.mem_filter.mp hother
    have hne : st ≠ other := by
      rintro rfl
      rw [hplain] at hreactive
      cases hreactive
    exact hk₁.slot_ne hst (List.mem_append_right _ hclosed) hne hid hid' rfl

/-- Two loops in the branches of a conditional: the inner reactive one is closed first, and the
conditional around it last. -/
theorem reactive_edits_local_in_any_order_nested :
    ∃ region s k r s₂,
      endingAt .standard { rootMode := "html", attributes := { logic := true } }
        "if (*a) \x7b\nwhile (*b) \x7b\nx\n\x7d\n\x7d else \x7b\nwhile (c) \x7b\ny\n\x7d\n\x7d" 7 =
          some (region, s) ∧
      region.tracker? = some k ∧ k.closed.map (·.reactive) = [true, false, true] ∧
      (∀ st ∈ k.closed, ∀ p ∈ st.parts, p.body s.output ≠ []) ∧
      (region.withClosed k.closed.reverse).finish s = region.finish s ∧
      (∀ st ∈ k.closed, ∃ s', st.makeReactive s = .ok ((), s') ∧
        st.EditsOwn k s.output s'.output) ∧
      k.finish s = .ok (r, s₂) ∧
      s.output.KeepsBut ((k.closed.filter (·.reactive)).flatMap Statement.slots) s₂.output := by
  have hrun : ((endingAt .standard { rootMode := "html", attributes := { logic := true } }
      "if (*a) \x7b\nwhile (*b) \x7b\nx\n\x7d\n\x7d else \x7b\nwhile (c) \x7b\ny\n\x7d\n\x7d" 7).any
        fun e => e.1.tracker?.any fun k =>
          decide (k.openBlock? = none ∧ k.closed.map (·.reactive) = [true, false, true] ∧
            ∀ st ∈ k.closed, ∀ p ∈ st.parts, p.body e.2.output ≠ [])) = true := by decide +kernel
  obtain ⟨⟨region, s⟩, hend, htracked⟩ := (Option.any_eq_true _ _).mp hrun
  obtain ⟨k, hk, hshape⟩ := (Option.any_eq_true _ _).mp htracked
  obtain ⟨hblock, hreactive, hbodies⟩ := of_decide_eq_true hshape
  have hfinish := Tracker.finish_eq hblock s
  obtain ⟨horder, hown, hkept⟩ := reactive_edits_local_in_any_order hend hk (.refl s)
  exact ⟨region, s, k, _, _, hend, hk, hreactive, hbodies, horder _ (List.reverse_perm _),
    fun st hst => hown st hst [] s rfl, hfinish, (hkept _ _ hfinish).1⟩

end Document
end Patchwork
