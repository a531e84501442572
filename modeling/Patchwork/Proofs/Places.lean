import Patchwork.Document
import Patchwork.Proofs.ReaderHalts
import Patchwork.Proofs.Steps

/-!
# Places in a document

A document is read by a cursor, and a fragment of it by a cursor of its own. Either is a `Stretch`: a
text with the position that it is taken to begin at. `Bounds` says what is known of all stretches of a
compilation: how far positions reach, the name that a chained read puts in front of its chain, and
whether every character is ASCII or a letter.

`Stretch.Holds` is what is kept from step to step: the session reads the stretch, its parentheses are
where it says, and what it has noted to report lies within the bounds. `r.Settles x y s Q` says that
two computations come to the same from such a session, that they go on in the stretch, with a result
that satisfies `Q`, and that a halt is one that the bounds account for (`Bounds.Halts`); for one
computation this is `r.Rests x s Q`.
-/

namespace Patchwork

open List Text Output

open Text (isAsciiOrLetter)

/-! ## Texts in texts -/

namespace Text

variable {t back whole : Text}

theorem cut?_eq_some {n : Nat} {front : Text} (h : cut? n t = some (front, back)) :
    t = front ++ back ∧ bytes front = n := by
  induction t generalizing n front with
  | nil =>
    cases n with
    | zero =>
      cases h
      exact ⟨rfl, rfl⟩
    | succ n => cases h
  | cons c t ih =>
    cases n with
    | zero =>
      cases h
      exact ⟨rfl, rfl⟩
    | succ n =>
      unfold cut? at h
      split at h
      next hle =>
        obtain ⟨⟨front', back'⟩, hcut, heq⟩ := Option.map_eq_some_iff.mp h
        cases heq
        obtain ⟨rfl, hbytes⟩ := ih hcut
        refine ⟨rfl, ?_⟩
        rw [bytes, hbytes]
        omega
      · cases h

def standsAt (offset : Nat) (t whole : Text) : Bool :=
  (cut? offset whole).any fun p => startsWith t p.2

/-- Does a text stand after the blanks at a byte offset of another one? The blanks begin with no space
or tab: where no line break or the like follows, the text stands at the offset itself. -/
def standsAfterBlanks (offset : Nat) (t whole : Text) : Bool :=
  (cut? offset whole).any fun p =>
    !p.2.head?.any (fun c => c == ' ' || c == '\t') && startsWith t (trimStart p.2)

theorem standsAt_iff {offset : Nat} :
    standsAt offset t whole = true ↔
      ∃ front back, whole = front ++ (t ++ back) ∧ bytes front = offset := by
  constructor
  · intro h
    obtain ⟨⟨front, rest⟩, hcut, hstarts⟩ := (Option.any_eq_true _ _).mp h
    obtain ⟨rfl, hbytes⟩ := cut?_eq_some hcut
    obtain ⟨back, rfl⟩ := List.isPrefixOf_iff_prefix.mp hstarts
    exact ⟨front, back, rfl, hbytes⟩
  · rintro ⟨front, back, rfl, rfl⟩
    rw [standsAt, cut?_append]
    exact List.isPrefixOf_iff_prefix.mpr (prefix_append ..)

theorem standsAt_trans {offset offset' : Nat} {part : Text} (h : standsAt offset t part = true)
    (h' : standsAt offset' part whole = true) :
    standsAt (offset' + offset) t whole = true := by
  obtain ⟨front, back, rfl, rfl⟩ := standsAt_iff.mp h
  obtain ⟨front', back', rfl, rfl⟩ := standsAt_iff.mp h'
  refine standsAt_iff.mpr ⟨front' ++ front, back ++ back', ?_, bytes_append front' front⟩
  simp only [append_assoc]

/-- A text is what remains without the blanks at its ends, and these blanks. -/
theorem exists_eq_trim (t : Text) :
    ∃ front back, t = front ++ (trim t ++ back) ∧ front.all isBlank = true ∧
      (∀ c ∈ (trim t).head?, isBlank c = false) ∧ back.all isBlank = true ∧
      ∀ c ∈ (trim t).getLast?, isBlank c = false := by
  have hfirst {c : Char} {u : Text} (h : (u.dropWhile isBlank).head? = some c) :
      isBlank c = false := by
    have hnot := head?_dropWhile_not isBlank u
    rwa [h] at hnot
  have hback : trim t ++ blankEnd (trimStart t) = trimStart t := trimEnd_append_blankEnd _
  refine ⟨t.takeWhile isBlank, _, ?_, all_takeWhile, fun c hc => hfirst (u := t) ?_,
    allBlank_blankEnd (trimStart t), fun c hc => ?_⟩
  · rw [hback]
    exact takeWhile_append_dropWhile.symm
  · obtain ⟨u, hu⟩ := head?_eq_some_iff.mp hc
    show (trimStart t).head? = _
    rw [← hback, hu]
    rfl
  · rw [trim, trimEnd, getLast?_reverse] at hc
    exact hfirst hc

theorem eq_trim_append (hwhole : whole = t ++ back) (h : ∀ c ∈ whole.head?, isBlank c = false) :
    ∃ back', whole = trim t ++ back' := by
  obtain ⟨blanks, more, hsplit, hblank, -⟩ := exists_eq_trim t
  cases blanks with
  | nil =>
    refine ⟨more ++ back, ?_⟩
    rw [hwhole, ← append_assoc]
    exact congrArg (· ++ back) hsplit
  | cons c blanks =>
    rw [all_cons, h c (by rw [hwhole, hsplit]; rfl)] at hblank
    cases hblank

theorem standsAfterBlanks_of {front blanks : Text}
    (hwhole : whole = front ++ (blanks ++ (t ++ back))) (hblanks : blanks.all isBlank = true)
    (ht : ∀ c ∈ t.head?, isBlank c = false)
    (hline : (blanks ++ (t ++ back)).head?.any (fun c => c == ' ' || c == '\t') = false) :
    standsAfterBlanks (bytes front) t whole = true := by
  subst hwhole
  rw [standsAfterBlanks, cut?_append, Option.any_some, hline]
  show startsWith t (dropWhile isBlank (blanks ++ (t ++ back))) = true
  rw [dropWhile_append_of_pos (all_eq_true.mp hblanks)]
  refine List.isPrefixOf_iff_prefix.mpr ?_
  cases t with
  | nil => exact nil_prefix
  | cons c t =>
    rw [cons_append, dropWhile_cons_of_neg (by rw [ht c rfl]; exact Bool.false_ne_true)]
    exact prefix_append (c :: t) back

end Text

/-! ## Faults that wait -/

namespace Output

/-- The faults of slots that must get a value. -/
def pendings (o : Output) : List Fault :=
  (slotsOf o.nodes).filterMap Slot.pending

variable (o : Output)

theorem pendings_add (t : Text) : (o.add t).pendings = o.pendings := by
  rw [pendings, slotsOf_add, pendings]

theorem pendings_pushSlot (slot : Slot) :
    (o.pushSlot slot).1.pendings = o.pendings ++ slot.pending.toList := by
  rw [pendings, slotsOf_pushSlot, filterMap_append]
  congr 1

theorem names_add (t : Text) : (o.add t).names = o.names := by
  show (o.add t).fork.names = o.fork.names
  rw [fork_add]

theorem pendings_mark : o.mark.1.pendings = o.pendings := by
  show (slotsOf (o.nodes ++ [.text []])).filterMap Slot.pending = _
  rw [slotsOf_append]
  exact congrArg (filterMap _) (append_nil _)

theorem pendings_replaceSince {o : Output} {mark : Nat} {t : Text} {f : Fault}
    (hf : f ∈ (o.replaceSince mark t).pendings) : f ∈ o.pendings := by
  rw [replaceSince, pendings_add] at hf
  have hsub : (slotsOf (o.nodes.take mark)).Sublist (slotsOf o.nodes) :=
    (take_sublist mark o.nodes).filterMap _
  exact (hsub.filterMap _).mem hf

theorem pendings_endRegion (mark : Nat) : (o.endRegion mark).1.pendings = o.pendings := by
  have hfreeze : Slot.pending ∘ Slot.freeze = Slot.pending := rfl
  show (slotsOf (o.nodes.take mark ++ (o.nodes.drop mark).map Node.freeze)).filterMap _ = _
  rw [slotsOf_append, filterMap_append, slotsOf_freeze, filterMap_map, hfreeze, ← filterMap_append,
    ← slotsOf_append, take_append_drop]
  rfl

theorem endRegion_pendings {o : Output} {mark : Nat} {f : Fault} (hf : f ∈ (o.endRegion mark).2) :
    f ∈ o.pendings := by
  obtain ⟨node, hnode, hunresolved⟩ := mem_filterMap.mp hf
  cases node with
  | text t => cases hunresolved
  | slot slot =>
    replace hunresolved : (if slot.frozen || slot.value.isSome then none else slot.pending) = some f :=
      hunresolved
    split at hunresolved
    · cases hunresolved
    refine mem_filterMap.mpr ⟨slot, ?_, hunresolved⟩
    exact mem_filterMap.mpr ⟨.slot slot, mem_of_mem_drop hnode, rfl⟩

theorem pendings_edit (e : Edit) : (o.edit e).pendings = o.pendings := by
  have hupdate : ∀ node : Node,
      (node.update e.change.apply).slot?.bind Slot.pending = node.slot?.bind Slot.pending := by
    intro node
    cases node with
    | text t => rfl
    | slot s =>
      rw [Node.update_slot, Slot.update]
      split <;> rfl
  rw [pendings, pendings, slotsOf, slotsOf, filterMap_filterMap, filterMap_filterMap]
  unfold edit update
  split
  · exact filterMap_modify hupdate _ _
  · rfl

end Output

/-! ## Bounds -/

/-- How far the span of a fault may lie beyond the end. What a computed function must have next is
looked for one byte further on. -/
def Cause.overrun : Cause → Nat
  | functionPartMissing _ => 1
  | _ => 0

/-- The span of a fault ends at a position at most, its overrun aside. -/
structure Fault.Upto (limit : Nat) (f : Fault) : Prop where
  ordered : f.span.start ≤ f.span.stop
  stop : f.span.stop ≤ limit + f.cause.overrun

/-- A span that ends at a position at most. -/
structure Span.Upto (limit : Nat) (span : Span) : Prop where
  ordered : span.start ≤ span.stop
  stop : span.stop ≤ limit

variable {limit : Nat}

theorem Span.Upto.fault {span : Span} (h : span.Upto limit) (cause : Cause) :
    Fault.Upto limit ⟨cause, span⟩ :=
  ⟨h.ordered, Nat.le_add_right_of_le h.stop⟩

theorem Fault.upto_of_le {cause : Cause} {start stop : Nat} (hordered : start ≤ stop)
    (hstop : stop ≤ limit) : Fault.Upto limit ⟨cause, ⟨start, stop⟩⟩ :=
  Span.Upto.fault ⟨hordered, hstop⟩ cause

theorem Fault.Between.upto {f : Fault} {start stop : Nat} (h : f.Between start stop)
    (hle : stop ≤ limit) : f.Upto limit :=
  ⟨h.ordered, Nat.le_trans h.stop (Nat.le_trans hle (Nat.le_add_right ..))⟩

/-- What is known of a compilation. -/
structure Bounds where
  /-- How far positions reach. -/
  limit : Nat
  value : Text
  /-- Is every character ASCII or a letter? -/
  plain : Prop

/-- A halt that can occur: a fault within the limit, a cut of a character where some are neither
ASCII nor letters, and a bound that is reached where the name of the value has markers of its own. -/
def Bounds.Halts (b : Bounds) : Halt → Prop
  | .fault f => f.Upto b.limit
  | .split => ¬b.plain
  | .spent => b.value.any isMarker = true

/-- A text that is read, the document or a fragment, with the position that it is taken to begin
at. -/
structure Stretch (b : Bounds) where
  base : Nat
  text : Text
  fits : base + bytes text ≤ b.limit
  plain : b.plain → ∀ c ∈ text, isAsciiOrLetter c = true

namespace Cursor

variable {c c' : Cursor}

theorem Moved.exists_read (h : c.Moved c') :
    ∃ read, c.rest = read ++ c'.rest ∧ c'.past = read.reverse ++ c.past ∧ c'.base = c.base := by
  obtain ⟨n, hbase, hpast, hrest⟩ := h
  refine ⟨c.rest.take n, ?_, hpast, hbase⟩
  rw [hrest]
  exact (take_append_drop ..).symm

/-- What has been read is known from what is left. -/
theorem Moved.past_eq (h : c.Moved c') {t : Text} (hrest : c.rest = t ++ c'.rest) :
    c'.past = t.reverse ++ c.past := by
  obtain ⟨read, hread, hpast, -⟩ := h.exists_read
  rw [hpast, append_cancel_right (hread.symm.trans hrest)]

theorem Moved.position_eq (h : c.Moved c') {t : Text} (hrest : c.rest = t ++ c'.rest) :
    c'.position = c.position + bytes t := by
  have hadd := h.position_add
  rw [hrest, bytes_append] at hadd
  omega

theorem Moved.input_eq (h : c.Moved c') : c'.input = c.input := by
  obtain ⟨read, hrest, hpast, -⟩ := h.exists_read
  rw [input, input, hpast, hrest, reverse_append, reverse_reverse, append_assoc]

end Cursor

namespace Stretch

variable {b : Bounds} {r : Stretch b} {c c' : Cursor}

def Encloses (r : Stretch b) (frame : ParenFrame) : Prop :=
  ∃ front inner back, r.text = front ++ '(' :: (inner ++ ')' :: back) ∧
    frame.opened = r.base + bytes front ∧
    frame.closed = some (r.base + bytes (front ++ '(' :: (inner ++ [')'])))

/-- A cursor in the stretch. Its parentheses stand where it has noted them. -/
structure Reads (r : Stretch b) (c : Cursor) : Prop where
  base : c.base = r.base
  input : c.input = r.text
  opened : ∀ frame ∈ c.parens, ∃ front inner, c.past.reverse = front ++ '(' :: inner ∧
    frame.opened = r.base + bytes front
  closed : ∀ frame ∈ c.lastClosed, r.Encloses frame

namespace Reads

variable (h : r.Reads c)
include h

theorem text_eq : r.text = c.past.reverse ++ c.rest := h.input.symm

theorem position_eq : c.position = r.base + bytes c.past.reverse := by
  rw [Cursor.position, h.base, bytes_reverse]

/-- What lies ahead is part of the stretch. -/
theorem position_add : c.position + bytes c.rest = r.base + bytes r.text := by
  rw [h.position_eq, h.text_eq, bytes_append, Nat.add_assoc]

theorem position_add_le : c.position + bytes c.rest ≤ b.limit :=
  h.position_add ▸ r.fits

theorem position_le : c.position ≤ b.limit :=
  Nat.le_trans (Nat.le_add_right ..) h.position_add_le

theorem position_succ_le {d : Char} (hpeek : c.peek? = some d) : c.position + 1 ≤ b.limit := by
  have hle := h.position_add_le
  have hsize := d.utf8Size_pos
  obtain ⟨back, hback⟩ := head?_eq_some_iff.mp hpeek
  rw [hback, bytes] at hle
  omega

theorem plain (hplain : b.plain) : ∀ d ∈ c.rest, isAsciiOrLetter d = true := by
  intro d hd
  refine r.plain hplain d ?_
  rw [h.text_eq]
  exact mem_append_right _ hd

/-- A halt that what lies ahead accounts for is within the bounds. -/
theorem halts {halt : Halt} (hin : halt.In c.position c.rest) : b.Halts halt := by
  cases halt with
  | fault f => exact hin.upto h.position_add_le
  | split =>
    intro hplain
    obtain ⟨d, hd, hbad⟩ := hin
    rw [h.plain hplain d hd] at hbad
    cases hbad
  | spent => exact hin.elim

/-- A cursor may go on in its stretch. -/
theorem moved (hmoved : c.Moved c') (hparens : c'.parens = c.parens)
    (hclosed : c'.lastClosed = c.lastClosed) : r.Reads c' where
  base := by
    obtain ⟨-, -, -, hbase⟩ := hmoved.exists_read
    rw [hbase, h.base]
  input := hmoved.input_eq.trans h.input
  opened := by
    obtain ⟨read, -, hpast, -⟩ := hmoved.exists_read
    intro frame hframe
    rw [hparens] at hframe
    obtain ⟨front, inner, hbehind, hopened⟩ := h.opened frame hframe
    refine ⟨front, inner ++ read, ?_, hopened⟩
    rw [hpast, reverse_append, reverse_reverse, hbehind, append_assoc]
    rfl
  closed := by
    rw [hclosed]
    exact h.closed

end Reads

/-- A session in the stretch. What it has noted to report lies within the bounds. -/
structure Holds (r : Stretch b) (s : Session) : Prop where
  cursor : r.Reads s.cursor
  value : s.output.names.value = b.value
  pendings : ∀ f ∈ s.output.pendings, f.Upto b.limit
  warnings : ∀ f ∈ s.warnings, f.Upto b.limit

/-- A session has gone on in the stretch. -/
structure Goes (r : Stretch b) (s s' : Session) : Prop where
  holds : r.Holds s'
  moved : s.cursor.Moved s'.cursor

theorem Goes.trans {s s' s'' : Session} (h : r.Goes s s') (h' : r.Goes s' s'') : r.Goes s s'' :=
  ⟨h'.holds, h.moved.trans h'.moved⟩

theorem Holds.goes {s : Session} (h : r.Holds s) : r.Goes s s := ⟨h, .refl _⟩

end Stretch

/-! ## Computations that settle -/

/-- From a session two computations come to the same, a result satisfies `Q`, and a halt is one that
the bounds account for. -/
structure Settles {α : Type} (b : Bounds) (x y : Compile α) (s : Session) (Q : α → Session → Prop) :
    Prop extends Agree x y s Q where
  halts : ∀ h, y s = .error h → b.Halts h

abbrev Session.Stood (s : Session) {α : Type} (_ : α) (s' : Session) : Prop :=
  s'.cursor = s.cursor

def Stretch.Settles {α : Type} {b : Bounds} (r : Stretch b) (x y : Compile α) (s : Session)
    (Q : α → Session → Prop) : Prop :=
  r.Holds s → Patchwork.Settles b x y s fun a s' => r.Goes s s' ∧ Q a s'

/-- One computation settles by itself. -/
abbrev Stretch.Rests {α : Type} {b : Bounds} (r : Stretch b) (x : Compile α) (s : Session)
    (Q : α → Session → Prop) : Prop :=
  r.Settles x x s Q

namespace Stretch.Settles

open Compile

variable {α β : Type} {b : Bounds} {x y : Compile α} {f g : α → Compile β} {s : Session}
  {P : α → Session → Prop} {Q : β → Session → Prop} {r : Stretch b}

theorem bind (hx : r.Settles x y s P)
    (hf : ∀ a s', r.Goes s s' → P a s' → r.Settles (f a) (g a) s' Q) :
    r.Settles (x >>= f) (y >>= g) s Q := by
  intro hs
  have hx := hx hs
  have hrest : ∀ a s', y s = .ok (a, s') →
      r.Goes s s' ∧ Patchwork.Settles b (f a) (g a) s' fun a s'' => r.Goes s' s'' ∧ Q a s'' := by
    intro a s' ha
    obtain ⟨h, hP⟩ := hx.result a s' ha
    exact ⟨h, hf a s' h hP h.holds⟩
  refine ⟨hx.toAgree.bindOf fun a s' ha _ => ?_, fun h herror => ?_⟩
  · obtain ⟨h, hrest⟩ := hrest a s' ha
    exact hrest.toAgree.mono fun _ _ h' => ⟨h.trans h'.1, h'.2⟩
  · rw [bind_apply] at herror
    cases hy : y s with
    | error h' =>
      rw [hy] at herror
      cases herror
      exact hx.halts h hy
    | ok p =>
      rw [hy] at herror
      exact (hrest p.1 p.2 hy).2.halts h herror

/-- Two ways to come to what the rest goes on from. -/
theorem bindEither {c : Prop} [Decidable c] {x' y' : Compile α} (hx : c → r.Settles x y s P)
    (hx' : ¬c → r.Settles x' y' s P)
    (hf : ∀ a s', r.Goes s s' → P a s' → r.Settles (f a) (g a) s' Q) :
    r.Settles (if c then x >>= f else x' >>= f) (if c then y >>= g else y' >>= g) s Q := by
  split
  next hc => exact (hx hc).bind hf
  next hc => exact (hx' hc).bind hf

theorem holding (h : r.Holds s → r.Settles x y s P) : r.Settles x y s P := fun hs => h hs hs

/-- What a computation does is known. -/
theorem of_eq {a : α} {s' : Session} (hx : x s = .ok (a, s')) (hs' : r.Holds s → r.Goes s s')
    (h : P a s') : r.Rests x s P := by
  refine fun hs => ⟨.of_eq hx ⟨hs' hs, h⟩, fun e he => ?_⟩
  rw [hx] at he
  cases he

theorem pure {a : β} (h : Q a s) : r.Rests (Pure.pure a) s Q := of_eq rfl Holds.goes h

theorem throw {h : Halt} (hh : b.Halts h) :
    r.Settles (MonadExcept.throw h : Compile β) (MonadExcept.throw h) s Q := by
  refine fun _ => ⟨.throw h, ?_⟩
  rintro _ ⟨⟩
  exact hh

theorem fail {cause : Cause} {start stop : Nat} (h : Fault.Upto b.limit ⟨cause, ⟨start, stop⟩⟩) :
    r.Rests (Compile.fail cause start stop) s Q :=
  throw h

theorem mono {P' : α → Session → Prop} (h : r.Settles x y s P)
    (hP : ∀ a s', r.Goes s s' → P a s' → P' a s') : r.Settles x y s P' := fun hs =>
  ⟨(h hs).toAgree.mono fun a s' ⟨hs', ha⟩ => ⟨hs', hP a s' hs' ha⟩, (h hs).halts⟩

/-- What is made of a result does not matter. -/
theorem done {f : α → β} (hx : r.Settles x y s P) :
    r.Settles (x >>= fun a => Pure.pure (f a)) (y >>= fun a => Pure.pure (f a)) s fun _ _ => True :=
  hx.bind fun _ _ _ _ => .pure trivial

theorem discard (hx : r.Settles x y s P) :
    r.Settles (Functor.discard x) (Functor.discard y) s fun _ s' => ∃ a, P a s' :=
  hx.bind fun a _ _ h => .pure ⟨a, h⟩

/-- What every step of a loop keeps, the loop keeps. -/
theorem forM {f g : α → Compile Unit} {I : Session → Prop} {xs : List α} (hs : I s)
    (hf : ∀ x ∈ xs, ∀ s, I s → r.Settles (f x) (g x) s fun _ s' => I s') :
    r.Settles (xs.forM f) (xs.forM g) s fun _ s' => I s' := by
  induction xs generalizing s with
  | nil => exact .pure hs
  | cons x xs ih =>
    refine (hf x (mem_cons_self ..) s hs).bind fun _ s1 _ hs1 => ih hs1 ?_
    exact fun y hy => hf y (mem_cons_of_mem _ hy)

/-! ### Looking at the session -/

theorem look {a : α} (hx : x s = .ok (a, s)) (h : r.Settles (f a) (g a) s Q) :
    r.Settles (x >>= f) (x >>= g) s Q := by
  have hlook : r.Rests x s fun a' s' => a' = a ∧ s' = s := of_eq hx Holds.goes ⟨rfl, rfl⟩
  refine hlook.bind ?_
  rintro _ _ - ⟨rfl, rfl⟩
  exact h

section

variable {γ : Type} {Q : γ → Session → Prop}

theorem position {f g : Nat → Compile γ}
    (h : r.Settles (f s.cursor.position) (g s.cursor.position) s Q) :
    r.Settles (Compile.position >>= f) (Compile.position >>= g) s Q :=
  look rfl h

theorem cursor {f g : Cursor → Compile γ} (h : r.Settles (f s.cursor) (g s.cursor) s Q) :
    r.Settles (Compile.cursor >>= f) (Compile.cursor >>= g) s Q :=
  look rfl h

theorem output {f g : Output → Compile γ} (h : r.Settles (f s.output) (g s.output) s Q) :
    r.Settles (Compile.output >>= f) (Compile.output >>= g) s Q :=
  look rfl h

theorem session {f g : Session → Compile γ} (h : r.Settles (f s) (g s) s Q) :
    r.Settles (get >>= f) (get >>= g) s Q :=
  look rfl h

end

end Stretch.Settles

/-! ## Steps on the cursor -/

namespace Scan

variable {α β : Type}

/-- A step that takes no note of parentheses, and halts only at what lies ahead. -/
class Tidy (step : Scan α) : Prop where
  kept : ∀ c a c', step c = .ok a c' → c'.parens = c.parens ∧ c'.lastClosed = c.lastClosed
  halts : ∀ c h c', step c = .error h c' → h.In c.position c.rest

variable {c c' : Cursor} {t : Text} {d : Char}

/-- What lies ahead of a cursor that has moved lay ahead before. -/
theorem halt_in_of_moved (hmoved : c.Moved c') {h : Halt} (hin : h.In c'.position c'.rest) :
    h.In c.position c.rest := by
  obtain ⟨read, hrest, hpast, hbase⟩ := hmoved.exists_read
  have hinside : h.In c.position (read ++ (c'.rest ++ [])) := by
    refine .inside read [] ?_
    have hposition : c'.position = c.position + bytes read := by
      rw [Cursor.position, Cursor.position, hpast, bytes_append, bytes_reverse]
      omega
    rwa [← hposition]
  rwa [append_nil, ← hrest] at hinside

namespace Tidy

theorem of_ok {step : Scan α} (h : ∀ c, ∃ a c', step c = .ok a c' ∧ c'.parens = c.parens ∧
    c'.lastClosed = c.lastClosed) : Tidy step where
  kept c a c' hc := by
    obtain ⟨_, _, hstep, hkept⟩ := h c
    cases hstep.symm.trans hc
    exact hkept
  halts c e c' hc := by
    obtain ⟨_, _, hstep, -⟩ := h c
    cases hstep.symm.trans hc

theorem bind {x : Scan α} {f : α → Scan β} (hforward : Forward x) (hx : Tidy x)
    (hf : ∀ a, Tidy (f a)) : Tidy (x >>= f) where
  kept c b c' h := by
    obtain ⟨a, c1, h1, hb⟩ := Scan.bind_eq_ok h
    obtain ⟨hparens, hclosed⟩ := (hf a).kept c1 b c' hb
    obtain ⟨hparens1, hclosed1⟩ := hx.kept c a c1 h1
    exact ⟨hparens.trans hparens1, hclosed.trans hclosed1⟩
  halts c e c' h := by
    have hb : EStateM.bind x f c = .error e c' := h
    unfold EStateM.bind at hb
    split at hb
    next a c1 h1 =>
      exact halt_in_of_moved (hforward.ahead c a c1 h1).moved ((hf a).halts c1 e c' hb)
    next e' c1 h1 =>
      cases hb
      exact hx.halts c e c' h1

instance (x : Scan α) (f : α → Scan β) [hforward : Forward x] [hx : Tidy x]
    [hf : ∀ a, Tidy (f a)] : Tidy (x >>= f) :=
  bind hforward hx hf

instance (a : α) : Tidy (pure a) := of_ok fun c => ⟨a, c, rfl, rfl, rfl⟩

instance : Tidy (get : Scan Cursor) := of_ok fun c => ⟨c, c, rfl, rfl, rfl⟩

instance (x : Scan α) [Forward x] [Tidy x] : Tidy (discard x) :=
  inferInstanceAs (Tidy (x >>= fun _ => pure ()))

instance (p : Prop) [Decidable p] (x y : Scan α) [Tidy x] [Tidy y] :
    Tidy (if p then x else y) := by
  split <;> infer_instance

theorem lexeme {reader : Lexeme.Reader}
    (h : ∀ position t s, reader position t = .error s → s.halt.In position t) :
    Tidy (lexeme reader) where
  kept c a c' hc := by
    unfold Scan.lexeme at hc
    split at hc <;> cases hc
    exact ⟨rfl, rfl⟩
  halts c e c' hc := by
    unfold Scan.lexeme at hc
    split at hc
    · cases hc
    next hs =>
      cases hc
      exact h _ _ _ hs

instance (p : Char → Bool) : Tidy (readWhile p) := of_ok fun _ => ⟨_, _, rfl, rfl, rfl⟩

instance : Tidy read := of_ok fun _ => ⟨_, _, rfl, rfl, rfl⟩

instance (d : Char) : Tidy (readIf d) := by
  refine of_ok fun c => ?_
  unfold readIf
  split <;> exact ⟨_, _, rfl, rfl, rfl⟩

instance (t : Text) : Tidy (readText t) := by
  refine of_ok fun c => ?_
  unfold readText
  split <;> exact ⟨_, _, rfl, rfl, rfl⟩

instance (t : Text) : Tidy (expect t) where
  kept c a c' hc := by
    unfold expect at hc
    split at hc <;> cases hc
    exact ⟨rfl, rfl⟩
  halts c e c' hc := by
    unfold expect at hc
    split at hc
    · cases hc
    cases hc
    refine ⟨Nat.le_refl _, Nat.le_add_right .., Nat.add_le_add_left ?_ _⟩
    unfold Cursor.peek?
    cases c.rest with
    | nil => exact Nat.le_refl _
    | cons d t => exact Nat.le_add_right ..

instance (chars : List Char) (keep consume : Bool) : Tidy (find chars keep consume) where
  kept c a c' hc := by
    unfold find at hc
    split at hc
    · cases hc
    dsimp only at hc
    split at hc <;> cases hc
    · exact ⟨rfl, rfl⟩
    · split <;> exact ⟨rfl, rfl⟩
  halts c e c' hc := by
    unfold find at hc
    split at hc
    next hs =>
      cases hc
      exact Lexeme.searchFrom_halts hs
    dsimp only at hc
    split at hc <;> cases hc

instance (t : Text) (consume : Bool) : Tidy (findText t consume) := by
  refine of_ok fun c => ?_
  unfold findText
  split <;> exact ⟨_, _, rfl, rfl, rfl⟩

instance (comments : Bool) : Tidy (skipBlanks comments) :=
  lexeme fun _ _ _ => Lexeme.blanksFrom_halts

instance : Tidy skipInlineBlanks :=
  inferInstanceAs (Tidy (readWhile _))

instance : Tidy skipString :=
  lexeme fun _ _ _ => Lexeme.string_halts

instance (chained : Bool) : Tidy (readOperand chained) :=
  lexeme fun _ _ _ => Lexeme.operand_halts

instance : Tidy readWord := by
  unfold readWord
  infer_instance

instance : Tidy readExpression where
  kept c a c' hc := by
    unfold readExpression at hc
    split at hc <;> cases hc
    exact ⟨rfl, rfl⟩
  halts c e c' hc := by
    unfold readExpression at hc
    split at hc
    · cases hc
    next hs =>
      cases hc
      exact Lexeme.expressionFrom_halts hs

end Tidy

theorem get_bind (f : Cursor → Scan α) (c : Cursor) : (get >>= f) c = f c c := rfl

theorem lexeme_eq {reader : Lexeme.Reader} (h : lexeme reader c = .ok t c') :
    c.rest = t ++ c'.rest := by
  unfold lexeme at h
  split at h <;> cases h
  exact (take_append_drop ..).symm

theorem skipString_lt (hquote : Lexeme.isQuote d = true) (hpeek : c.peek? = some d)
    (h : skipString c = .ok t c') : c'.rest.length < c.rest.length := by
  obtain ⟨body, rfl⟩ := skipString_spec hquote hpeek h
  rw [lexeme_eq h, length_append, length_cons]
  omega

theorem read_eq {a : Option Char} (hd : c.peek? = some d) (h : read c = .ok a c') :
    c.rest = d :: c'.rest ∧ c'.past = d :: c.past := by
  obtain ⟨back, hback⟩ := head?_eq_some_iff.mp hd
  cases h
  rw [Cursor.advance, hback]
  exact ⟨rfl, rfl⟩

theorem readWhile_eq {p : Char → Bool} (h : readWhile p c = .ok t c') : c.rest = t ++ c'.rest := by
  cases h
  exact (prefix_iff_eq_append.mp (List.takeWhile_prefix p)).symm

theorem readWhile_stops {p : Char → Bool} (h : readWhile p c = .ok t c') :
    c'.rest.head?.any p = false := by
  have hrest : c'.rest = c.rest.dropWhile p := by
    have hread := readWhile_eq h
    cases h
    refine append_cancel_left (hread.symm.trans ?_)
    exact takeWhile_append_dropWhile.symm
  have hstop := head?_dropWhile_not p c.rest
  rw [hrest]
  cases hhead : (c.rest.dropWhile p).head? with
  | none => rfl
  | some d =>
    rw [hhead] at hstop
    exact hstop

theorem readIf_eq {found : Bool} (h : readIf d c = .ok found c') :
    (found = true ∧ c.rest = d :: c'.rest) ∨ (found = false ∧ c' = c) := by
  unfold readIf at h
  split at h
  next hpeek =>
    cases h
    obtain ⟨back, hback⟩ := head?_eq_some_iff.mp (eq_of_beq hpeek)
    left
    rw [Cursor.advance, hback]
    exact ⟨rfl, rfl⟩
  · cases h
    exact .inr ⟨rfl, rfl⟩

theorem readText_cases {found : Bool} (h : readText t c = .ok found c') :
    (found = true ∧ c.rest = t ++ c'.rest) ∨ (found = false ∧ c' = c) := by
  unfold readText at h
  split at h
  next hstarts =>
    cases h
    exact .inl ⟨rfl, (prefix_iff_eq_append.mp (List.isPrefixOf_iff_prefix.mp hstarts)).symm⟩
  · cases h
    exact .inr ⟨rfl, rfl⟩

theorem readExpression_eq (h : readExpression c = .ok t c') :
    ∃ read back, c.rest = read ++ back ∧ t = trim read := by
  unfold readExpression at h
  split at h <;> cases h
  exact ⟨_, _, (take_append_drop ..).symm, rfl⟩

theorem skipBlanks_head {comments : Bool} (h : skipBlanks comments c = .ok t c') :
    ∀ d ∈ c'.rest.head?, Text.isBlank d = false := by
  have hblanks {u : Text} {position skip n m : Nat}
      (hm : Lexeme.blanksFrom comments position skip n u = .ok m) :
      ∃ k, m = n + k ∧ ∀ d ∈ (u.drop k).head?, Text.isBlank d = false := by
    fun_induction Lexeme.blanksFrom comments position skip n u with
    | case1 =>
      cases hm
      exact ⟨0, rfl, fun d hd => by cases hd⟩
    | case2 _ _ _ _ _ ih | case3 _ _ _ _ _ ih | case6 _ _ _ _ _ _ _ _ ih =>
      obtain ⟨k, rfl, hk⟩ := ih hm
      exact ⟨k + 1, by omega, hk⟩
    | case4 => cases hm
    | case5 _ _ _ _ hd | case7 _ _ _ _ hd =>
      cases hm
      refine ⟨0, rfl, ?_⟩
      rintro _ ⟨⟩
      exact Bool.eq_false_iff.mpr hd
  unfold skipBlanks lexeme at h
  split at h
  next n hn =>
    cases h
    obtain ⟨k, rfl, hk⟩ := hblanks hn
    rw [Nat.zero_add]
    exact hk
  · cases h

theorem readWord_lt {w : Text} (h : readWord c = .ok (some w) c') :
    c'.rest.length < c.rest.length := by
  have h : (if c.peek?.any isWordStart then
      (readWhile Text.isWordChar >>= fun t => pure (some t) : Scan (Option Text))
    else pure none) c = .ok (some w) c' := h
  split at h
  next hstart =>
    obtain ⟨d, hd, hword⟩ := (Option.any_eq_true _ _).mp hstart
    obtain ⟨t, ht⟩ := head?_eq_some_iff.mp hd
    cases h
    have hchar : Text.isWordChar d = true := by
      simp only [isWordStart, Bool.or_eq_true] at hword
      simp only [Text.isWordChar, Bool.or_eq_true]
      exact hword.imp_left (Or.imp_left Lexeme.isLetterOrNumber_of_isLetter)
    rw [Cursor.advance, ht, takeWhile_cons_of_pos hchar, length_cons, drop_succ_cons,
      length_drop, length_cons]
    omega
  · cases h

/-- A group is read from the bracket that it begins with up to the one that closes it. -/
theorem readEnclosed_cases {o : Char} (hpeek : c.peek? = some o) (ho : Lexeme.isOpening o = true) :
    (∃ t d back, c.rest = o :: (t ++ d :: back) ∧ Lexeme.opening? d = some o ∧
      readEnclosed c = .ok t (c.advance (t.length + 2))) ∨
    ∃ h c', readEnclosed c = .error h c' ∧ h.In c.position c.rest := by
  obtain ⟨rest, hrest⟩ := head?_eq_some_iff.mp hpeek
  cases hgroup : Lexeme.group c.position c.rest with
  | ok n =>
    left
    rw [hrest] at hgroup
    obtain ⟨t, d, back, rfl, rfl, hd⟩ := Lexeme.group_eq ho hgroup
    refine ⟨t, d, back, hrest, hd, ?_⟩
    have hskip : skipGroup c = .ok (o :: (t ++ [d])) (c.advance (t.length + 2)) := by
      unfold skipGroup lexeme
      rw [hrest, hgroup]
      dsimp only
      have htake : (o :: (t ++ d :: back)).take (t.length + 2) = o :: (t ++ [d]) := by
        rw [take_succ_cons, take_append, take_of_length_le (Nat.le_succ _), Nat.add_sub_cancel_left]
        rfl
      rw [htake]
    refine (Scan.bind_ok hskip _).trans ?_
    show whole (inner? (o :: (t ++ [d]))) _ = _
    rw [inner?_eq (Lexeme.utf8Size_of_isOpening ho) (Lexeme.utf8Size_of_opening? hd)]
    rfl
  | error slip =>
    right
    have hin : slip.halt.In c.position c.rest := by
      rw [hrest] at hgroup ⊢
      exact Lexeme.group_halts ho hgroup
    refine ⟨slip.halt, c.advance slip.passed, ?_, hin⟩
    show EStateM.bind skipGroup _ c = _
    have hskip : skipGroup c = .error slip.halt (c.advance slip.passed) := by
      unfold skipGroup lexeme
      rw [hgroup]
    rw [EStateM.bind, hskip]

theorem before?_last {past : Text} (hpast : c.past = d :: past) :
    c.before? (c.base + bytes past) = some past := by
  rw [Cursor.before?, Cursor.input, hpast, reverse_cons, append_assoc, Text.before?,
    Nat.add_sub_cancel_left, bytes_append, ← bytes_reverse, Nat.min_eq_left (Nat.le_add_right ..),
    cut?_append]
  exact congrArg some (reverse_reverse past)

end Scan

namespace Stretch

variable {b : Bounds} {r : Stretch b} {c : Cursor}

namespace Reads

theorem slice? (h : r.Reads c) {front middle back : Text}
    (htext : r.text = front ++ (middle ++ back)) :
    c.slice? (r.base + bytes front) (r.base + bytes (front ++ middle)) =
      some middle := by
  rw [Cursor.slice?, h.base, h.input, htext, Nat.add_sub_cancel_left, Nat.add_sub_cancel_left,
    ← append_assoc]
  exact slice?_append front middle back

end Reads

end Stretch

namespace Stretch.Settles

open Compile

variable {α : Type} {b : Bounds} {s : Session} {r : Stretch b} {step : Scan α}

theorem scanOf {R : α → Cursor → Prop}
    (hhalts : r.Holds s → ∀ h c, step s.cursor = .error h c → b.Halts h)
    (hstep : r.Holds s → ∀ a c, step s.cursor = .ok a c → s.cursor.Moved c ∧ r.Reads c ∧ R a c) :
    r.Rests (Compile.scan step) s fun a s' => R a s'.cursor := by
  refine fun hs => ⟨⟨rfl, fun a s' h => ?_⟩, fun h herror => ?_⟩
  · obtain ⟨c, hc, rfl⟩ := scan_eq_ok.mp h
    obtain ⟨hmoved, hreads, hR⟩ := hstep hs a c hc
    exact ⟨⟨⟨hreads, hs.value, hs.pendings, hs.warnings⟩, hmoved⟩, hR⟩
  · unfold Compile.scan at herror
    split at herror
    · cases herror
    next hc =>
      cases herror
      exact hhalts hs _ _ hc

theorem scan [hforward : step.Forward] [htidy : step.Tidy] :
    r.Rests (Compile.scan step) s fun a s' => step s.cursor = .ok a s'.cursor := by
  refine scanOf (R := fun a c => step s.cursor = .ok a c)
    (fun hs h c herror => hs.cursor.halts (htidy.halts _ _ _ herror)) fun hs a c hc => ?_
  obtain ⟨hparens, hclosed⟩ := htidy.kept _ _ _ hc
  have hmoved := (hforward.ahead _ _ _ hc).moved
  exact ⟨hmoved, hs.cursor.moved hmoved hparens hclosed, hc⟩

theorem skip [step.Forward] [step.Tidy] :
    r.Rests (Functor.discard (Compile.scan step)) s fun _ s' => ∃ a, step s.cursor = .ok a s'.cursor :=
  scan.discard

theorem readEnclosed {o : Char} (hpeek : s.cursor.peek? = some o) (ho : Lexeme.isOpening o = true) :
    r.Rests (Compile.scan Scan.readEnclosed) s fun t s' => ∃ d, Lexeme.opening? d = some o ∧
        s.cursor.rest = o :: (t ++ d :: s'.cursor.rest) := by
  refine scanOf (R := fun t c => ∃ d, Lexeme.opening? d = some o ∧
    s.cursor.rest = o :: (t ++ d :: c.rest)) (fun hs h c herror => ?_) fun hs a c hc => ?_
  all_goals
    rcases Scan.readEnclosed_cases hpeek ho with ⟨t, d, back, hrest, hd, hread⟩ | ⟨_, _, hread, hin⟩
  · cases hread.symm.trans herror
  · cases hread.symm.trans herror
    exact hs.cursor.halts hin
  · cases hread.symm.trans hc
    have hmoved := Cursor.Moved.advance s.cursor (a.length + 2)
    refine ⟨hmoved, hs.cursor.moved hmoved rfl rfl, d, hd, ?_⟩
    rw [Cursor.advance, hrest]
    simp
  · cases hread.symm.trans hc

theorem onOutput {step : Output → Output × α} (hnames : (step s.output).1.names = s.output.names)
    (hpendings : (∀ f ∈ s.output.pendings, f.Upto b.limit) →
      ∀ f ∈ (step s.output).1.pendings, f.Upto b.limit) :
    r.Rests (Compile.onOutput step) s s.Stood :=
  of_eq rfl (fun hs => ⟨⟨hs.cursor, (congrArg Names.value hnames).trans hs.value,
    hpendings hs.pendings, hs.warnings⟩, .refl _⟩) rfl

theorem modifyOutput {step : Output → Output} (hnames : (step s.output).names = s.output.names)
    (hpendings : (∀ f ∈ s.output.pendings, f.Upto b.limit) →
      ∀ f ∈ (step s.output).pendings, f.Upto b.limit) :
    r.Rests (Compile.modifyOutput step) s s.Stood :=
  show r.Rests (Compile.onOutput fun o => (step o, ())) s s.Stood from onOutput hnames hpendings

theorem emit {t : Text} : r.Rests (Compile.emit t) s s.Stood := by
  refine modifyOutput (names_add ..) ?_
  rw [pendings_add]
  exact id

theorem edit {e : Edit} : r.Rests (Editor.edit e) s s.Stood := by
  refine modifyOutput ?_ ?_
  · show (s.output.edit e).fork.names = s.output.fork.names
    rw [fork_edit]
  · rw [pendings_edit]
    exact id

theorem mark : r.Rests (Compile.onOutput Output.mark) s s.Stood := by
  refine onOutput rfl ?_
  rw [pendings_mark]
  exact id

theorem replaceSince {mark : Nat} {t : Text} :
    r.Rests (Compile.modifyOutput (·.replaceSince mark t)) s s.Stood :=
  modifyOutput (names_add ..) fun h f hf => h f (pendings_replaceSince hf)

theorem warn {cause : Cause} {span : Span} (h : Fault.Upto b.limit ⟨cause, span⟩) :
    r.Rests (Compile.warn cause span) s s.Stood := by
  refine of_eq rfl (fun hs => ⟨⟨hs.cursor, hs.value, hs.pendings, ?_⟩, .refl _⟩) rfl
  rw [forall_mem_append, forall_mem_singleton]
  exact ⟨hs.warnings, h⟩

theorem addSlot {initial : Text} :
    r.Rests (Compile.onOutput (·.addSlot initial)) s s.Stood := by
  refine onOutput rfl ?_
  rw [Output.addSlot, pendings_pushSlot, Option.toList_none, append_nil]
  exact id

theorem addPendingSlot {f : Fault} (hf : f.Upto b.limit) :
    r.Rests (Compile.onOutput (·.addPendingSlot f)) s s.Stood := by
  refine onOutput rfl fun h => ?_
  rw [Output.addPendingSlot, pendings_pushSlot, forall_mem_append]
  exact ⟨h, forall_mem_singleton.mpr hf⟩

theorem endRegion {mark : Nat} : r.Rests (Compile.onOutput (·.endRegion mark)) s
      fun faults _ => ∀ f ∈ faults, f.Upto b.limit := by
  refine holding fun hs => of_eq rfl (fun hs => ⟨⟨hs.cursor, hs.value, ?_, hs.warnings⟩, .refl _⟩)
    fun f hf => hs.pendings f (endRegion_pendings hf)
  show ∀ f ∈ (s.output.endRegion mark).1.pendings, f.Upto b.limit
  rw [pendings_endRegion]
  exact hs.pendings

/-- What searches pass over does not matter for where the cursor stands. -/
theorem options {options : Lexeme.ScanOptions} :
    r.Rests (modify fun s => { s with cursor := { s.cursor with options } }) s fun _ _ => True :=
  of_eq rfl (fun hs => ⟨⟨⟨hs.cursor.base, hs.cursor.input, hs.cursor.opened, hs.cursor.closed⟩,
    hs.value, hs.pendings, hs.warnings⟩, (Cursor.Moved.refl s.cursor).congr rfl rfl rfl⟩) trivial

/-! ### Looking back -/

/-- An answer that there is unless a character had to be cut. -/
theorem scanWhole {x : Option α} (hstep : step s.cursor = Scan.whole x s.cursor)
    (hx : x = none → ¬b.plain) :
    r.Rests (Compile.scan step) s fun a s' => s'.cursor = s.cursor ∧ x = some a := by
  refine scanOf (R := fun a c => c = s.cursor ∧ x = some a) (fun _ h c herror => ?_)
    fun hs a c hc => ?_
  all_goals cases x
  · cases hstep.symm.trans herror
    exact hx rfl
  · cases hstep.symm.trans herror
  · cases hstep.symm.trans hc
  · cases hstep.symm.trans hc
    exact ⟨.refl _, hs.cursor, rfl, rfl⟩

theorem pushParenAt {past : Text} (hpast : s.cursor.past = '(' :: past) {index : Nat}
    (hindex : index = s.cursor.base + bytes past) :
    r.Rests (Compile.scan (Scan.pushParenAt index)) s fun _ _ => True := by
  let c : Cursor := { s.cursor with
    parens := ⟨index, none, Lexeme.wordBefore? past⟩ :: s.cursor.parens }
  have hstep : Scan.pushParenAt index s.cursor = .ok () c := by
    show EStateM.bind (EStateM.bind (Scan.whole (s.cursor.before? index)) _) _ s.cursor = _
    rw [hindex, Scan.before?_last hpast, ← hindex]
    rfl
  refine scanOf (R := fun _ _ => True) (fun _ h c' herror => ?_) fun hs _ c' hc => ?_
  · cases hstep.symm.trans herror
  · cases hstep.symm.trans hc
    refine ⟨(Cursor.Moved.refl s.cursor).congr rfl rfl rfl, ?_, trivial⟩
    refine ⟨hs.cursor.base, hs.cursor.input, forall_mem_cons.mpr ⟨?_, hs.cursor.opened⟩,
      hs.cursor.closed⟩
    refine ⟨past.reverse, [], ?_, ?_⟩
    · rw [hpast, reverse_cons]
    · rw [bytes_reverse, ← hs.cursor.base]
      exact hindex

end Stretch.Settles

/-! ## Searches -/

def Cursor.AtMatch (c : Cursor) (d : Char) : Prop :=
  ∃ past, c.past = d :: past ∧ c.lastMatch = c.base + bytes past

theorem Scan.find_consumed {c c' : Cursor} {chars : List Char} {found : Found}
    (h : find chars false true c = .ok found c') :
    (found.matched = none ∧ c'.rest = []) ∨
      ∃ d, found.matched = some d ∧ c.rest = found.before ++ d :: c'.rest ∧ c'.AtMatch d := by
  obtain ⟨rfl, rfl⟩ | ⟨d, -, t, back, rfl, hrest, rfl⟩ := find_cases h
  · exact .inl ⟨rfl, rfl⟩
  · refine .inr ⟨d, rfl, hrest, t.reverse ++ c.past, rfl, ?_⟩
    show c.base + _ + _ = c.base + _
    rw [bytes_append, bytes_reverse]
    omega

/-- What a `<` begins is seen from the text before it, in code, and from the text behind it. -/
theorem Scan.regionEntry_last {c : Cursor} {d : Char} {past : Text} (hpast : c.past = d :: past)
    (hindex : c.lastMatch = c.base + bytes past) (code : Bool) :
    regionEntry code c = .ok (if code && !Lexeme.canStartExpression past then .none
      else TagStart.ofText c.rest) c := by
  show EStateM.bind (EStateM.bind (whole (c.before? c.lastMatch)) _) _ c = _
  rw [hindex, before?_last hpast]
  exact (congrFun (apply_ite (pure (f := Scan)) _ _ _) c).symm

def Session.ReadPast (s : Session) (t : Text) (s' : Session) : Prop :=
  ∃ before, s.cursor.rest = before ++ (t ++ s'.cursor.rest)

theorem Session.ReadPast.after {s s1 s' : Session} {t : Text} (h : s.cursor.Moved s1.cursor)
    (h' : s1.ReadPast t s') : s.ReadPast t s' := by
  obtain ⟨read, hread, -⟩ := h.exists_read
  obtain ⟨before, hbefore⟩ := h'
  refine ⟨read ++ before, ?_⟩
  rw [hread, hbefore, append_assoc]

/-- What a step in a region or a fragment does with the cursor: it goes to the end, or reads. At a tag
it goes behind the `<`, and where it closes the region, behind what closes it. -/
structure Session.Reads (s s' : Session) (closer : Text) (step : Step) : Prop where
  ended : step = .eof → s'.cursor.rest = []
  reads : step ≠ .eof → s'.cursor.rest.length < s.cursor.rest.length
  child : step = .child → s.ReadPast "<" s'
  close : step = .close → s.ReadPast closer s'

namespace Session.Reads

variable {s s1 s' : Session} {closer t : Text} {step : Step}

theorem next (hlt : s1.cursor.rest.length < s.cursor.rest.length) (h : s1.cursor.Moved s'.cursor) :
    s.Reads s' closer .next where
  ended := by rintro ⟨⟩
  reads _ := Nat.lt_of_le_of_lt h.length_le hlt
  child := by rintro ⟨⟩
  close := by rintro ⟨⟩

theorem tag (hread : s.cursor.rest = t ++ '<' :: s'.cursor.rest) (hstep : step ≠ .eof) :
    s.Reads s' "<" step where
  ended heof := absurd heof hstep
  reads _ := by
    rw [hread, length_append, length_cons]
    omega
  child _ := ⟨t, hread⟩
  close _ := ⟨t, hread⟩

theorem after (h : s.cursor.Moved s1.cursor) (h' : s1.Reads s' closer step) :
    s.Reads s' closer step where
  ended := h'.ended
  reads hstep := Nat.lt_of_lt_of_le (h'.reads hstep) h.length_le
  child hstep := (h'.child hstep).after h
  close hstep := (h'.close hstep).after h

theorem of_end (hend : s1.cursor.rest = []) (h : s1.cursor.Moved s'.cursor) :
    s.Reads s' closer .eof where
  ended _ := by
    have hle := h.length_le
    rw [hend] at hle
    exact eq_nil_of_length_eq_zero (Nat.le_zero.mp hle)
  reads h := absurd rfl h
  child := by rintro ⟨⟩
  close := by rintro ⟨⟩

end Session.Reads

namespace Stretch.Settles

variable {b : Bounds} {s : Session} {r : Stretch b}

theorem find {chars : List Char} :
    r.Rests (Compile.scan (Scan.find chars false true)) s fun found s' =>
        (found.matched = none ∧ s'.cursor.rest = []) ∨
          ∃ d ∈ chars, found.matched = some d ∧ s'.cursor.AtMatch d ∧
            s.cursor.rest = found.before ++ d :: s'.cursor.rest ∧
            s'.cursor.rest.length < s.cursor.rest.length := by
  refine scan.mono fun found s' _ h => (Scan.find_consumed h).imp_right ?_
  rintro ⟨d, hsome, hrest, hmatch⟩
  refine ⟨d, Scan.find_mem h d hsome, hsome, hmatch, hrest, ?_⟩
  rw [hrest, length_append, length_cons]
  omega

theorem findAt {chars : List Char} :
    r.Rests (Compile.scan (Scan.find chars false false)) s
      fun found s' => s.cursor.rest = found.before ++ s'.cursor.rest ∧
        s'.cursor.peek? = found.matched :=
  scan.mono fun _ _ _ h => Scan.find_stopped h

theorem read {c : Char} (hpeek : s.cursor.peek? = some c) :
    r.Rests (Functor.discard (Compile.scan Scan.read)) s fun _ s' =>
      s.cursor.rest = c :: s'.cursor.rest := by
  refine skip.mono ?_
  rintro _ s1 - ⟨_, hread⟩
  exact (Scan.read_eq hpeek hread).1

theorem pushParen (hmatch : s.cursor.AtMatch '(') :
    r.Rests (Compile.scan Scan.pushParen) s fun _ _ => True := by
  obtain ⟨past, hpast, hindex⟩ := hmatch
  exact fun hs => ⟨⟨rfl, (pushParenAt hpast hindex hs).result⟩, (pushParenAt hpast hindex hs).halts⟩

/-- A closing parenthesis that has been found goes with the one that is open. -/
theorem popParen (hmatch : s.cursor.AtMatch ')') :
    r.Rests (Compile.scan Scan.popParen) s fun _ _ => True := by
  obtain ⟨past, hpast, -⟩ := hmatch
  refine scanOf (R := fun _ _ => True) (fun _ h c herror => ?_) fun hs a c hc => ?_
  · unfold Scan.popParen at herror
    split at herror <;> cases herror
  · unfold Scan.popParen at hc
    split at hc
    · cases hc
      exact ⟨.refl _, hs.cursor, trivial⟩
    next frame parens hparens =>
      cases hc
      refine ⟨(Cursor.Moved.refl s.cursor).congr rfl rfl rfl, ?_, trivial⟩
      refine ⟨hs.cursor.base, hs.cursor.input, fun f hf => ?_, ?_⟩
      · exact hs.cursor.opened f (hparens ▸ mem_cons_of_mem _ hf)
      · rintro _ ⟨⟩
        obtain ⟨front, inner, hbehind, hopened⟩ :=
          hs.cursor.opened frame (hparens ▸ mem_cons_self ..)
        -- the closing parenthesis is the last character behind the cursor
        have hlast : front ++ '(' :: inner = past.reverse ++ [')'] := by
          rw [← hbehind, hpast, reverse_cons]
        rcases eq_nil_or_concat inner with rfl | ⟨inner, d, rfl⟩
        · have hne := (append_inj' hlast rfl).2
          cases hne
        · rw [concat_eq_append, ← cons_append, ← append_assoc] at hlast
          obtain ⟨-, hd⟩ := append_inj' hlast rfl
          cases hd
          rw [concat_eq_append] at hbehind
          refine ⟨front, inner, s.cursor.rest, ?_, hopened, ?_⟩
          · rw [hs.cursor.text_eq, hbehind]
            simp
          · show some s.cursor.position = _
            rw [hs.cursor.position_eq, hbehind]

/-- What a `<` begins that has been found. -/
theorem regionEntry {d : Char} (hmatch : s.cursor.AtMatch d) {code : Bool} :
    r.Rests (Compile.scan (Scan.regionEntry code)) s s.Stood := by
  obtain ⟨past, hpast, hindex⟩ := hmatch
  exact (scanWhole (x := some _) (Scan.regionEntry_last hpast hindex code) nofun).mono
    fun _ _ _ h => h.1

end Stretch.Settles

end Patchwork
