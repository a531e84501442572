import Patchwork.Session
import Patchwork.Proofs.Moving
import Patchwork.Proofs.Zone

/-!
# Steps of a compilation

`Agree x y s Q` says that `x` and `y` come to the same from the session `s`, and that a result
satisfies `Q` together with the session it leaves. `x` and `y` are the same program run by two
editors, so one proof follows both of them and the state they share. Of one program alone it says
what a result satisfies (`Gives x s Q`). It goes through a program from one bind to the next
(`Agree.bind`).

Most of the compiler only reads on and adds text to the output (`Session.Wrote`): what reads the
document and expands its code touches no slot.
-/

namespace Patchwork

open List

/-- Text has been added to an output, and nothing else done to its nodes. -/
def Output.Wrote (o o' : Output) : Prop :=
  ∃ t, o'.nodes = (o.add t).nodes ∧ o'.slots = o.slots

namespace Output

variable {o o' : Output}

theorem add_nodes_congr (h : o'.nodes = o.nodes) (t : Text) :
    (o'.add t).nodes = (o.add t).nodes := by
  unfold add
  rw [h]
  split
  · exact h
  · split <;> rfl

namespace Wrote

theorem of_eq {o o' : Output} (hn : o'.nodes = o.nodes) (hs : o'.slots = o.slots) : o.Wrote o' :=
  ⟨[], hn, hs⟩

theorem refl (o : Output) : o.Wrote o := of_eq rfl rfl

theorem add (o : Output) (t : Text) : o.Wrote (o.add t) := ⟨t, rfl, add_slots o t⟩

theorem trans {a b c : Output} (hab : a.Wrote b) (hbc : b.Wrote c) : a.Wrote c := by
  obtain ⟨t, hb, hsb⟩ := hab
  obtain ⟨u, hc, hsc⟩ := hbc
  refine ⟨t ++ u, ?_, hsc.trans hsb⟩
  rw [hc, add_nodes_congr hb, add_add]

end Wrote

theorem InZone.wrote {old : List Nat} {front : List Node} {ids : List SlotId}
    {waiting : List (SlotId × Fault)} (h : o.InZone old front ids waiting) (hw : o.Wrote o') :
    o'.InZone old front ids waiting := by
  obtain ⟨t, hn, hs⟩ := hw
  exact (h.add t).congr hn (hs.trans (add_slots o t).symm)

theorem Wrote.placed (hw : o.Wrote o') (h : o.Placed) : o'.Placed := by
  obtain ⟨t, hn, hs⟩ := hw
  unfold Placed
  rw [hn, hs, ← add_slots o t]
  exact h.add t

theorem Wrote.slots_eq (hw : o.Wrote o') : o'.slots = o.slots := by
  obtain ⟨-, -, hs⟩ := hw
  exact hs

end Output

/-- The faults of slots that wait lie behind a position, in the order of the text. -/
structure InOrder (waiting : List (SlotId × Fault)) (position : Nat) : Prop where
  ordered : waiting.Pairwise fun a b => a.2.span.start ≤ b.2.span.start
  behind : ∀ w ∈ waiting, w.2.span.start ≤ position

namespace InOrder

variable {waiting : List (SlotId × Fault)} {position : Nat}

theorem nil (position : Nat) : InOrder [] position := ⟨.nil, forall_mem_nil _⟩

theorem mono (h : InOrder waiting position) {position' : Nat} (hle : position ≤ position') :
    InOrder waiting position' :=
  ⟨h.ordered, fun w hw => Nat.le_trans (h.behind w hw) hle⟩

theorem filter (h : InOrder waiting position) (p : SlotId × Fault → Bool) :
    InOrder (waiting.filter p) position :=
  ⟨h.ordered.filter p, fun w hw => h.behind w (mem_filter.mp hw).1⟩

/-- A fault that lies behind all others joins them at the end. -/
theorem concat {at_ : Nat} (h : InOrder waiting at_) (hle : at_ ≤ position) {w : SlotId × Fault}
    (hw : w.2.span.start = at_) : InOrder (waiting ++ [w]) position where
  ordered := by
    refine pairwise_append.mpr ⟨h.ordered, pairwise_singleton _ _, fun a ha b hb => ?_⟩
    rw [mem_singleton.mp hb, hw]
    exact h.behind a ha
  behind := by
    rw [forall_mem_append, forall_mem_singleton, hw]
    exact ⟨(h.mono hle).behind, hle⟩

end InOrder

namespace Session

/-- The session has read on, and text has been added to its output. -/
structure Wrote (s s' : Session) : Prop where
  output : s.output.Wrote s'.output
  forward : s.cursor.Moved s'.cursor

namespace Wrote

theorem refl (s : Session) : s.Wrote s := ⟨.refl _, .refl _⟩

theorem trans {a b c : Session} (hab : a.Wrote b) (hbc : b.Wrote c) : a.Wrote c :=
  ⟨hab.output.trans hbc.output, hab.forward.trans hbc.forward⟩

theorem position_le {s s' : Session} (h : s.Wrote s') : s.cursor.position ≤ s'.cursor.position :=
  h.forward.position_le

end Wrote

end Session

/-- A moment of a run: the places of the slots that there were, and where the cursor stood. -/
structure Moment where
  places : List Nat
  position : Nat

/-- The moment without its slots, which need not stay when a region ends. -/
def Moment.forget (m : Moment) : Moment :=
  { m with places := [] }

namespace Session

def now (s : Session) : Moment :=
  ⟨s.output.slots, s.cursor.position⟩

/-- The output in terms of a region (`Output.InZone`). The session is past an earlier moment, and
what waits in the region has been read in this order. -/
structure InZone (old : Moment) (front : List Node) (ids : List SlotId)
    (waiting : List (SlotId × Fault)) (s : Session) : Prop where
  output : s.output.InZone old.places front ids waiting
  inOrder : InOrder waiting s.cursor.position
  forward : old.position ≤ s.cursor.position

namespace InZone

variable {old : Moment} {front : List Node} {ids ids' : List SlotId}
  {waiting : List (SlotId × Fault)} {s s' : Session}

/-- A zone outlives any writing of text. -/
theorem wrote (h : s.InZone old front ids waiting) (hw : s.Wrote s') :
    s'.InZone old front ids waiting :=
  ⟨h.output.wrote hw.output, h.inOrder.mono hw.position_le, Nat.le_trans h.forward hw.position_le⟩

theorem perm (h : s.InZone old front ids waiting) (hp : ids'.Perm ids) :
    s.InZone old front ids' waiting :=
  ⟨h.output.perm hp, h.inOrder, h.forward⟩

theorem release (h : s.InZone old front ids waiting) : s.InZone old.forget front [] waiting :=
  ⟨h.output.release, h.inOrder, h.forward⟩

end InZone
end Session

namespace Compile

variable {α β : Type}

/-- A bind runs the first computation and, if that succeeds, the second from where it ended. -/
theorem bind_apply (x : Compile α) (f : α → Compile β) (s : Session) :
    (x >>= f) s = match x s with
      | .ok (a, s') => f a s'
      | .error h => .error h := by
  show (x s).bind _ = _
  cases x s <;> rfl

theorem bind_congr {x : Compile α} {f g : α → Compile β} {s : Session}
    (h : ∀ a s', x s = .ok (a, s') → f a s' = g a s') : (x >>= f) s = (x >>= g) s := by
  rw [bind_apply, bind_apply]
  split
  next hx => exact h _ _ hx
  · rfl

theorem emit_apply (t : Text) (s : Session) :
    emit t s = .ok ((), { s with output := s.output.add t }) :=
  rfl

/-- A bind succeeds when both computations do. -/
theorem bind_eq_ok {x : Compile α} {f : α → Compile β} {s s' : Session} {b : β} :
    (x >>= f) s = .ok (b, s') ↔ ∃ a s1, x s = .ok (a, s1) ∧ f a s1 = .ok (b, s') := by
  rw [bind_apply]
  cases x s with
  | error h => simp
  | ok p =>
    refine ⟨fun h => ⟨p.1, p.2, rfl, h⟩, ?_⟩
    rintro ⟨a, s1, ⟨⟩, h⟩
    exact h

theorem bind_of_ok {x : Compile α} {f : α → Compile β} {s s1 : Session} {a : α}
    {r : Except Halt (β × Session)} (hx : x s = .ok (a, s1)) (hf : f a s1 = r) :
    (x >>= f) s = r := by
  rw [bind_apply, hx]
  exact hf

theorem scan_eq_ok {step : Scan α} {s s' : Session} {a : α} :
    scan step s = .ok (a, s') ↔
      ∃ c, step s.cursor = .ok a c ∧ { s with cursor := c } = s' := by
  unfold scan
  cases hstep : step s.cursor with
  | ok b c =>
    constructor
    · rintro ⟨⟩
      exact ⟨c, rfl, rfl⟩
    · rintro ⟨_, ⟨⟩, rfl⟩
      rfl
  | error e c =>
    constructor
    · nofun
    · rintro ⟨_, ⟨⟩, -⟩

end Compile

/-- From a session two computations come to the same, and a result satisfies `Q`. -/
structure Agree {α : Type} (x y : Compile α) (s : Session) (Q : α → Session → Prop) : Prop where
  same : x s = y s
  result : ∀ a s', y s = .ok (a, s') → Q a s'

/-- From a session a computation gives only results that satisfy `Q`. -/
abbrev Gives {α : Type} (x : Compile α) (s : Session) (Q : α → Session → Prop) : Prop :=
  Agree x x s Q

namespace Agree

variable {α β : Type} {x y : Compile α} {f g : α → Compile β} {s : Session}
  {P : α → Session → Prop} {Q : β → Session → Prop}

theorem bindOf (hx : Agree x y s P)
    (hf : ∀ a s', y s = .ok (a, s') → P a s' → Agree (f a) (g a) s' Q) :
    Agree (x >>= f) (y >>= g) s Q where
  same := by
    rw [Compile.bind_apply, Compile.bind_apply, hx.same]
    cases hy : y s with
    | error h => rfl
    | ok p => exact (hf p.1 p.2 hy (hx.result _ _ hy)).same
  result b s' h := by
    obtain ⟨a, s1, h1, h2⟩ := Compile.bind_eq_ok.mp h
    exact (hf a s1 h1 (hx.result a s1 h1)).result b s' h2

theorem bind (hx : Agree x y s P) (hf : ∀ a s', P a s' → Agree (f a) (g a) s' Q) :
    Agree (x >>= f) (y >>= g) s Q :=
  hx.bindOf fun a s' _ h => hf a s' h

/-- Two ways to come to what the rest goes on from. -/
theorem bindEither {c : Prop} [Decidable c] {x' y' : Compile α} (hx : c → Agree x y s P)
    (hx' : ¬c → Agree x' y' s P) (hf : ∀ a s', P a s' → Agree (f a) (g a) s' Q) :
    Agree (if c then x >>= f else x' >>= f) (if c then y >>= g else y' >>= g) s Q := by
  split
  next hc => exact (hx hc).bind hf
  next hc => exact (hx' hc).bind hf

theorem pure {b : β} (h : Q b s) : Agree (Pure.pure b) (Pure.pure b) s Q where
  same := rfl
  result := by
    rintro _ _ ⟨⟩
    exact h

theorem fail (cause : Cause) (start stop : Nat) :
    Agree (Compile.fail cause start stop) (Compile.fail cause start stop) s Q where
  same := rfl
  result := by
    rintro _ _ ⟨⟩

theorem throw (h : Halt) : Agree (MonadExcept.throw h : Compile β) (MonadExcept.throw h) s Q where
  same := rfl
  result := by
    rintro _ _ ⟨⟩

theorem mono {Q' : α → Session → Prop} (h : Agree x y s P) (hP : ∀ a s', P a s' → Q' a s') :
    Agree x y s Q' where
  same := h.same
  result a s' hy := hP a s' (h.result a s' hy)

/-- The second computation may rely on how the first one went. -/
theorem given (hf : ∀ a s', x s = .ok (a, s') → Agree (f a) (g a) s' Q) :
    Agree (x >>= f) (x >>= g) s Q :=
  bindOf (P := fun _ _ => True) ⟨rfl, fun _ _ _ => trivial⟩ fun a s' ha _ => hf a s' ha

/-- Nothing need be known of what a computation does. -/
theorem any (x : Compile α) (s : Session) : Agree x x s fun _ _ => True :=
  ⟨rfl, fun _ _ _ => trivial⟩

theorem after (h : ∀ a s', Agree (f a) (g a) s' Q) : Agree (x >>= f) (x >>= g) s Q :=
  (any x s).bind fun a s' _ => h a s'

theorem scan {step : Scan α} {R : α → Cursor → Prop}
    (h : ∀ a cursor, step s.cursor = .ok a cursor → R a cursor) :
    Agree (Compile.scan step) (Compile.scan step) s fun a s' => R a s'.cursor where
  same := rfl
  result a s' ha := by
    obtain ⟨c, hstep, rfl⟩ := Compile.scan_eq_ok.mp ha
    exact h a c hstep

theorem right (h : Agree x y s P) : Agree y y s P := ⟨rfl, h.result⟩

theorem and {Q : α → Session → Prop} (hP : Agree x y s P) (hQ : Agree x y s Q) :
    Agree x y s fun a s' => P a s' ∧ Q a s' :=
  ⟨hP.same, fun a s' ha => ⟨hP.result a s' ha, hQ.result a s' ha⟩⟩

/-- What a computation does is known. -/
theorem of_eq {a : α} {s' : Session} (hx : x s = .ok (a, s')) (h : P a s') : Agree x x s P where
  same := rfl
  result := by
    intro b s'' hb
    rw [hx] at hb
    cases hb
    exact h

/-- The second computation goes on from what is known of the first. -/
theorem known {a : α} {s' : Session} (hx : x s = .ok (a, s')) (hf : Agree (f a) (g a) s' Q) :
    Agree (x >>= f) (x >>= g) s Q := by
  refine (of_eq (P := fun b s1 => a = b ∧ s' = s1) hx ⟨rfl, rfl⟩).bind ?_
  rintro _ _ ⟨rfl, rfl⟩
  exact hf

theorem session {f g : Session → Compile β} (hf : Agree (f s) (g s) s Q) :
    Agree (MonadState.get >>= f) (MonadState.get >>= g) s Q :=
  .known rfl hf

theorem output {f g : Output → Compile β} (hf : Agree (f s.output) (g s.output) s Q) :
    Agree (Compile.output >>= f) (Compile.output >>= g) s Q :=
  .known rfl hf

theorem position {f g : Nat → Compile β}
    (hf : Agree (f s.cursor.position) (g s.cursor.position) s Q) :
    Agree (Compile.position >>= f) (Compile.position >>= g) s Q :=
  .known rfl hf

theorem emit {t : Text} {f g : Unit → Compile β}
    (hf : Agree (f ()) (g ()) { s with output := s.output.add t } Q) :
    Agree (Compile.emit t >>= f) (Compile.emit t >>= g) s Q :=
  .known rfl hf

theorem discard {I : Session → Prop} (hx : Agree x y s fun _ s' => I s') :
    Agree (Functor.discard x) (Functor.discard y) s fun _ s' => I s' :=
  hx.bind fun _ _ h => .pure h

/-- What every step of a loop keeps, the loop keeps. -/
theorem forM {f g : α → Compile Unit} {I : Session → Prop} {xs : List α} (hs : I s)
    (hf : ∀ x ∈ xs, ∀ s, I s → Agree (f x) (g x) s fun _ s' => I s') :
    Agree (xs.forM f) (xs.forM g) s fun _ s' => I s' := by
  induction xs generalizing s with
  | nil => exact .pure hs
  | cons x xs ih =>
    refine (hf x (mem_cons_self ..) s hs).bind fun _ s1 hs1 => ih hs1 ?_
    exact fun y hy => hf y (mem_cons_of_mem _ hy)

end Agree

/-! ## Editors -/

/-- An editor that halts at an edit that finds no open slot, and otherwise does as it is asked. -/
@[reducible] def Editor.strict (h : Halt) : Editor where
  edit e := fun s => if s.output.isOpen e.slot then Editor.direct.edit e s else .error h

section Slots

variable {h : Halt} {s : Session} {old : Moment} {front : List Node} {ids : List SlotId}
  {waiting : List (SlotId × Fault)}

theorem edit_agree {e : Edit} (hz : s.InZone old front ids waiting) (he : e.slot ∈ ids) :
    Agree ((Editor.strict h).edit e) (Editor.direct.edit e) s fun _ s' =>
      s'.InZone old front ids (waiting.filter (·.1 != e.slot)) where
  same := if_pos (hz.output.isOpen he)
  result := by
    rintro _ _ ⟨⟩
    exact ⟨hz.output.edit he, hz.inOrder.filter _, hz.forward⟩

/-- The slots `new` have been made after the slots `ids`, one after the other. -/
structure Follows (ids new : List SlotId) : Prop where
  ascending : new.Pairwise fun a b => a.index < b.index
  after : ∀ a ∈ ids, ∀ b ∈ new, a.index < b.index

theorem Follows.append {new more : List SlotId} (hn : Follows ids new)
    (hm : Follows (ids ++ new) more) : Follows ids (new ++ more) where
  ascending := pairwise_append.mpr ⟨hn.ascending, hm.ascending, fun a ha b hb =>
    hm.after a (mem_append_right _ ha) b hb⟩
  after a ha b hb := by
    rcases mem_append.mp hb with hb | hb
    · exact hn.after a ha b hb
    · exact hm.after a (mem_append_left _ ha) b hb

theorem pushSlot_agree {slot : Slot} (hz : s.InZone old front ids waiting)
    (hs : slot.frozen = false) :
    Agree (Compile.onOutput (·.pushSlot slot)) (Compile.onOutput (·.pushSlot slot)) s fun id s' =>
      s'.output.InZone old.places front (ids ++ [id])
        (waiting ++ (slot.unresolved?.map (Prod.mk id)).toList) ∧
      s'.cursor = s.cursor ∧ Follows ids [id] := by
  refine .of_eq rfl ⟨hz.output.pushSlot hs, rfl, pairwise_singleton _ _, ?_⟩
  intro a ha b hb
  rw [mem_singleton.mp hb]
  exact hz.output.index_lt_pushSlot slot ha

theorem addSlot_agree {initial : Text} (hz : s.InZone old front ids waiting) :
    Agree (Compile.onOutput (·.addSlot initial)) (Compile.onOutput (·.addSlot initial)) s
      fun id s' => s'.InZone old front (ids ++ [id]) waiting ∧ s'.cursor = s.cursor ∧
        Follows ids [id] := by
  refine (pushSlot_agree hz rfl).mono fun id s' ⟨hz', hc, hf⟩ =>
    ⟨⟨?_, hc ▸ hz.inOrder, hc ▸ hz.forward⟩, hc, hf⟩
  rw [show (Slot.unresolved? { value := some initial }) = none from rfl, Option.map_none,
    Option.toList_none, append_nil] at hz'
  exact hz'

/-- A slot without a value joins the slots of the region and those that wait. Its fault lies at a
position `at_` that had been reached before, when all else that waits had been read. -/
theorem addPendingSlot_agree {fault : Fault} {at_ : Nat} (hz : s.InZone old front ids waiting)
    (hat : InOrder waiting at_) (hle : at_ ≤ s.cursor.position) (hfault : fault.span.start = at_) :
    Agree (Compile.onOutput (·.addPendingSlot fault)) (Compile.onOutput (·.addPendingSlot fault)) s
      fun id s' => s'.InZone old front (ids ++ [id]) (waiting ++ [(id, fault)]) ∧
        Follows ids [id] := by
  refine (pushSlot_agree hz rfl).mono fun id s' ⟨hz', hc, hf⟩ =>
    ⟨⟨hz', ?_, hc ▸ hz.forward⟩, hf⟩
  exact hat.concat (hc ▸ hle) hfault

end Slots
end Patchwork
