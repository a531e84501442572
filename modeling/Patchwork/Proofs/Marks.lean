import Patchwork.Proofs.Arena
import Patchwork.Proofs.TagTexts

/-!
# What marks protect

Between a mark and its replacement anything may happen to an output: text joins the text before it,
slots come and go, and numbers of slots are given again. `Later` says which outputs can follow
another one, together with the marks taken meanwhile.

Most of what is said about later outputs is a property of a list of nodes that more nodes, a longer
last text and other values in the slots leave true (`Lasting`). Such a property holds of every later
output, and of what lies before each mark (`Later.lasts`). Two of them give the rest: that the nodes
before the mark are there with their texts, and that the code begins with a given text, whatever the
slots hold (`filled`).
-/

namespace Patchwork

open List

/-- The code of nodes of which the first slot has the number `n`, when slots hold `held`. -/
def filled (held : SlotId → Text) : (n : Nat) → List Node → Text :=
  spellWith fun id _ => held id

theorem filled_of_shape {held : SlotId → Text} {a b : List Node}
    (h : a.map Node.shape = b.map Node.shape) : ∀ n, filled held n a = filled held n b := by
  induction a generalizing b with
  | nil => intro n; rw [map_eq_nil_iff.mp h.symm]
  | cons x a ih =>
    intro n
    obtain ⟨y, b, rfl, hy, hb⟩ := map_eq_cons_iff.mp h.symm
    have hrest := ih hb.symm
    cases x <;> cases y <;> simp_all [Node.shape, filled, spellWith]

/-- A property of nodes that more nodes, a longer last text and other values leave true. -/
structure Lasting (Q : List Node → Prop) : Prop where
  append {a b : List Node} : Q a → Q (a ++ b)
  grow {front : List Node} {last t : Text} :
    Q (front ++ [.text last]) → Q (front ++ [.text (last ++ t)])
  reshape {a b : List Node} : a.map Node.shape = b.map Node.shape → Q a → Q b

namespace Output

def held (o : Output) (id : SlotId) : Text :=
  ((o.slot? id).bind Slot.value).getD []

/-- The outputs that can follow an output, with the marks taken meanwhile. What was made since one
of these marks may be replaced; the other operations are free. -/
inductive Later (o : Output) : List Nat → Output → Prop where
  | refl : Later o [] o
  | add {marks o'} (h : Later o marks o') (t : Text) :
    Later o marks (o'.add t)
  | addSlot {marks o'} (h : Later o marks o') (initial : Text) :
    Later o marks (o'.addSlot initial).1
  | addPendingSlot {marks o'} (h : Later o marks o') (fault : Fault) :
    Later o marks (o'.addPendingSlot fault).1
  | edit {marks o'} (h : Later o marks o') (e : Edit) :
    Later o marks (o'.edit e)
  | endRegion {marks o'} (h : Later o marks o') (mark : Nat) :
    Later o marks (o'.endRegion mark).1
  | mark {marks o'} (h : Later o marks o') :
    Later o (o'.mark.2 :: marks) o'.mark.1
  | replaceSince {marks o'} (h : Later o marks o') {mark}
    (hmark : mark ∈ marks) (t : Text) : Later o marks (o'.replaceSince mark t)

variable {o o' : Output} {marks : List Nat}

theorem replaceSince_take (h : o.Placed) (mark : Nat) (t : Text) :
    o.replaceSince mark t =
      { o with nodes := o.nodes.take mark, slots := placesFrom 0 (o.nodes.take mark) }.add t := by
  rw [← replaceSince_eq h (take_append_drop mark o.nodes).symm, replaceSince, replaceSince,
    length_take, ← take_eq_take_min, length_take]

theorem Later.placed (h : o.Later marks o') (ho : o.Placed) : o'.Placed := by
  induction h with
  | refl => exact ho
  | add _ t ih => exact ih.add t
  | addSlot _ initial ih | addPendingSlot _ fault ih => exact ih.pushSlot _
  | edit _ e ih => exact ih.edit e
  | endRegion _ mark ih => exact ih.endRegion mark
  | mark _ ih => exact ih.mark
  | replaceSince _ hmark t ih =>
    rw [replaceSince_take ih]
    exact .add (by rfl) t

end Output

def Lasts (Q : List Node → Prop) (marks : List Nat) (nodes : List Node) : Prop :=
  ∀ k, k ∈ marks ∨ nodes.length ≤ k → Q (nodes.take k)

namespace Lasting

variable {Q : List Node → Prop} {marks : List Nat} {nodes nodes' : List Node}

theorem append_lasts (hQ : Lasting Q) (h : Lasts Q marks nodes) (more : List Node) :
    Lasts Q marks (nodes ++ more) := by
  intro k hk
  rw [take_append]
  refine hQ.append (h k (hk.imp_right fun hlen => ?_))
  rw [length_append] at hlen
  omega

theorem reshape_lasts (hQ : Lasting Q) (hs : nodes.map Node.shape = nodes'.map Node.shape)
    (h : Lasts Q marks nodes) : Lasts Q marks nodes' := by
  intro k hk
  refine hQ.reshape ?_ (h k ?_)
  · rw [map_take, map_take, hs]
  · rwa [← length_map Node.shape, hs, length_map]

theorem add_lasts (hQ : Lasting Q) {o : Output} (h : Lasts Q marks o.nodes) (t : Text) :
    Lasts Q marks (o.add t).nodes := by
  rcases o.add_nodes_cases t with hadd | ⟨front, last, ho, hadd⟩ | hadd
  · rwa [hadd]
  · rw [ho] at h
    rw [hadd]
    intro k hk
    have hlen : k ∈ marks ∨ (front ++ [Node.text last]).length ≤ k := by
      simpa only [length_append, length_singleton] using hk
    have hbefore := h k hlen
    -- a mark inside the front does not see the last text
    rcases Nat.lt_or_ge front.length k with hlt | hle
    · rw [take_of_length_le (by rw [length_append, length_singleton]; omega)] at hbefore ⊢
      exact hQ.grow hbefore
    · rwa [take_append_of_le_length hle] at hbefore ⊢
  · rw [hadd]
    exact hQ.append_lasts h _

end Lasting

namespace Output

variable {Q : List Node → Prop} {o o' : Output} {marks : List Nat}

/-- A lasting property stays true, of all the nodes and of those before each mark. -/
theorem Later.lasts (h : o.Later marks o') (hQ : Lasting Q) (hp : o.Placed) (ho : Q o.nodes) :
    Lasts Q marks o'.nodes := by
  induction h with
  | refl =>
    intro k hk
    rw [take_of_length_le (hk.resolve_left not_mem_nil)]
    exact ho
  | add _ t ih => exact hQ.add_lasts ih t
  | addSlot _ initial ih | addPendingSlot _ fault ih => exact hQ.append_lasts ih _
  | edit _ e ih => exact hQ.reshape_lasts (shape_edit _ e).symm ih
  | endRegion _ mark ih => exact hQ.reshape_lasts (shape_endRegion _ mark).symm ih
  | @mark marks o' _ ih =>
    intro k hk
    rcases hk with hk | hk
    · rcases mem_cons.mp hk with rfl | hk
      · show Q ((o'.nodes ++ [Node.text []]).take o'.nodes.length)
        rw [take_left, ← take_length (l := o'.nodes)]
        exact ih _ (.inr Nat.le.refl)
      · exact hQ.append_lasts ih _ k (.inl hk)
    · exact hQ.append_lasts ih _ k (.inr hk)
  | @replaceSince marks o' h mark hmark t ih =>
    rw [replaceSince_take (h.placed hp)]
    refine hQ.add_lasts (o := { o' with nodes := _, slots := _ }) (fun k hk => ?_) t
    -- of two marks the earlier one counts
    rw [take_take]
    rcases Nat.lt_or_ge k mark with hlt | hle
    · rw [Nat.min_eq_left (Nat.le_of_lt hlt)]
      refine ih k (hk.imp_right fun hlen => ?_)
      rw [length_take] at hlen
      omega
    · rw [Nat.min_eq_right hle]
      exact ih mark (.inl hmark)

theorem Later.lasting (h : o.Later marks o') (hQ : Lasting Q) (hp : o.Placed) (ho : Q o.nodes) :
    Q o'.nodes := by
  have := h.lasts hQ hp ho _ (.inr Nat.le.refl)
  rwa [take_length] at this

end Output

/-- The nodes before a mark stay, but for what their slots hold. -/
theorem lasting_front (front : List Node) : Lasting fun nodes => front.length < nodes.length ∧
    (nodes.take front.length).map Node.shape = front.map Node.shape where
  append h := by
    obtain ⟨hlen, h⟩ := h
    rw [take_append_of_le_length (Nat.le_of_lt hlen), length_append]
    exact ⟨by omega, h⟩
  grow h := by
    obtain ⟨hlen, h⟩ := h
    rw [length_append, length_singleton] at hlen
    have hle := Nat.le_of_lt_succ hlen
    rw [take_append_of_le_length hle] at h ⊢
    exact ⟨by rwa [length_append, length_singleton], h⟩
  reshape hs h := by
    have hlen := congrArg length hs
    rw [length_map, length_map] at hlen
    rwa [← hlen, map_take, ← hs, ← map_take]

theorem lasting_filled (held : SlotId → Text) (code : Text) : Lasting fun nodes =>
    code <+: filled held 0 nodes where
  append h := by
    rw [filled, spellWith_append]
    exact h.trans (prefix_append _ _)
  grow h := by
    rw [filled, spellWith_append] at h ⊢
    refine h.trans ((prefix_append_right_inj _).mpr ?_)
    simp only [spellWith, append_nil, prefix_append]
  reshape hs h := by rwa [← filled_of_shape hs]

namespace Output

variable {start o o' : Output} {marks₀ marks : List Nat}

theorem filled_held (h : o.Placed) {nodes more : List Node} (ho : o.nodes = nodes ++ more) :
    filled o.held 0 nodes = nodes.flatMap Node.content := by
  refine (spellWith_congr nodes fun i s hs => ?_).trans (spellWith_value nodes 0)
  rw [held, slot?_eq h, ho, slotsOf_append, Nat.zero_add,
    getElem?_append_left (List.getElem?_eq_some_iff.mp hs).1, hs]
  rfl

/-- To replace what was made since a mark leaves the code of the nodes before it, with what their
slots hold by now, and the text behind it. The slots from before the mark are what they were. A slot
made later stands behind the text. -/
theorem replaceSince_mark (ho : start.fork.Later marks₀ o) (hlater : o.mark.1.Later marks o')
    (t : Text) :
    (o'.replaceSince o.mark.2 t).finish = filled o'.held 0 o.nodes ++ t ∧
    (∀ id i, o.place? id = some i →
      (o'.replaceSince o.mark.2 t).place? id = some i ∧
      (o'.replaceSince o.mark.2 t).slot? id = o'.slot? id) ∧
    ∀ marks' r, (o'.replaceSince o.mark.2 t).Later marks' r → ∀ s : Slot,
      ∃ i, (r.pushSlot s).1.place? (r.pushSlot s).2 = some i ∧
        (r.pushSlot s).1.slot? (r.pushSlot s).2 = some s ∧
        filled (r.pushSlot s).1.held 0 o.nodes ++ t <+:
          ((r.pushSlot s).1.nodes.take i).flatMap Node.content := by
  have hplaced : o.Placed := ho.placed rfl
  have hplaced' : o'.Placed := hlater.placed hplaced.mark
  obtain ⟨-, hshape⟩ := hlater.lasting (lasting_front o.nodes) hplaced.mark
    ⟨by simp [Output.mark], by simp [Output.mark]⟩
  have hsplit := (take_append_drop o.nodes.length o'.nodes).symm
  have hr : o'.replaceSince o.mark.2 t = _ := replaceSince_take hplaced' o.nodes.length t
  have hslots : (o'.replaceSince o.mark.2 t).slots = o.slots := by
    rw [hr, add_slots, hplaced]
    exact placesFrom_of_shape hshape 0
  have hplacedr : (o'.replaceSince o.mark.2 t).Placed := by
    rw [hr]
    exact .add (by rfl) t
  refine ⟨?_, fun id i hi => ⟨?_, ?_⟩, fun marks' r hlater s => ⟨r.nodes.length, ?_, ?_, ?_⟩⟩
  · rw [hr, finish_add, ← filled_of_shape hshape, filled_held hplaced' hsplit]
    rfl
  · rwa [place?, hslots]
  · have hid : id.index < (slotsOf (o'.nodes.take o.nodes.length)).length := by
      rw [← length_placesFrom _ 0, placesFrom_of_shape hshape, ← hplaced]
      exact (List.getElem?_eq_some_iff.mp hi).1
    rw [slot?_eq hplacedr, slot?_eq hplaced', hr, slotsOf_add]
    conv => rhs; rw [hsplit, slotsOf_append, getElem?_append_left hid]
  · exact getElem?_concat_length
  · rw [slot?_eq ((hlater.placed hplacedr).pushSlot s), pushSlot_index (hlater.placed hplacedr),
      slotsOf_pushSlot, getElem?_concat_length]
  · have hpushed := (hlater.placed hplacedr).pushSlot s
    rw [pushSlot_nodes, take_left, ← filled_held hpushed (pushSlot_nodes r s)]
    have hcode : filled (r.pushSlot s).1.held 0 (o'.replaceSince o.mark.2 t).nodes =
        filled (r.pushSlot s).1.held 0 o.nodes ++ t := by
      rw [hr, filled, spellWith_add, ← filled, ← filled_of_shape hshape]
    exact hlater.lasting (lasting_filled _ _) hplacedr (hcode ▸ prefix_rfl)

theorem replaceSince_mark_nested :
    let o := ((empty {}).addSlot "x").1.add "b"
    let inner := ((o.mark.1.add "c").addSlot "y").1
    let o' := ((inner.mark.1.add "d").set ⟨0⟩ "z").replaceSince inner.mark.2 "e"
    o.mark.1.Later [inner.mark.2] o' ∧ (o'.replaceSince o.mark.2 "t").finish = "zbt" := by
  intro o inner o'
  have ho : (empty {}).fork.Later [] o := (Later.refl.addSlot "x").add "b"
  have hlater : o.mark.1.Later [inner.mark.2] o' :=
    ((((Later.refl.add "c").addSlot "y").mark.add "d").edit ⟨⟨0⟩, .set "z"⟩).replaceSince
      (mem_singleton_self _) "e"
  exact ⟨hlater, (replaceSince_mark ho hlater "t").1.trans (by decide)⟩

end Output
end Patchwork
