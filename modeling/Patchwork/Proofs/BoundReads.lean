import Patchwork.Proofs.Reactive
import Patchwork.Proofs.StyleCuts

/-!
# Where a stylesheet binds the tracker

A reactive value is read through the tracker, which is a variable of the generated code and has to
be bound there. In a stylesheet the function that builds the sheet binds it (`Stylesheet.builder`),
but only if the region has noted, by its end, that a value was read through the tracker.

What is noted is a flag here and a flag there: of the region, for the markers in its text, and of
every statement, for its heads. To say what they stand for, a region is read a second time, with
every fragment that reads through the tracker halting the reading (`Expansion.watching`). `Watches`
relates the two readings: as long as nothing is seen they are the same, and once something is seen,
a flag is set in what the other reading comes to. A step keeps this (`Stylesheet.step_watches`) and
so does any number of steps (`Stylesheet.read_watches`), so at the end of the region the flags say
whether anything was seen.

Nothing is noted of the initializers of declarations: a fragment there may read through the tracker
in a function that does not bind it.
-/

namespace Patchwork

open Compile List Output

/-- Is it noted that a fragment for this purpose reads through the tracker? -/
def Purpose.noted : Purpose → Bool
  | marker | head => true
  | _ => false

/-- Fragments are expanded as they are otherwise, but a fragment that reads through the tracker
halts the reading with `h`, where such a read is noted. -/
@[reducible] def Expansion.watching (h : Halt) : Expansion where
  expand purpose text base tracked := do
    let e ← Patchwork.expand text base tracked
    if purpose.noted && e.reactive then throw h else return e

/-- Where `y` succeeds, `x` does the same, or else it has seen something and halts with `h`. Whether
it has is added to what was noted before, and the flag of the result of `y` says what comes of it. -/
def Watches {α : Type} (h : Halt) (x y : Compile α) (noted : Bool) (flag : α → Bool) : Prop :=
  ∀ s a s', y s = .ok (a, s') →
    ∃ seen, x s = (if seen then .error h else .ok (a, s')) ∧ flag a = (noted || seen)

namespace Watches

variable {α β : Type} {h : Halt} {x y : Compile α} {f g : α → Compile β} {noted : Bool}
  {flag : α → Bool} {flag' : β → Bool}

/-- What has been seen in one part of a computation is not forgotten in the next. -/
theorem bind {p : α → Bool} (hx : Watches h x y noted p)
    (hf : ∀ a, Watches h (f a) (g a) (p a) flag') :
    Watches h (x >>= f) (y >>= g) noted flag' := by
  intro s b s' hy
  obtain ⟨a, s1, h1, h2⟩ := bind_eq_ok.mp hy
  obtain ⟨seen, hseen, hflag⟩ := hx s a s1 h1
  obtain ⟨more, hmore, hflag'⟩ := hf a s1 b s' h2
  refine ⟨seen || more, ?_, by rw [hflag', hflag, Bool.or_assoc]⟩
  rw [bind_apply, hseen]
  cases seen with
  | true => rfl
  | false => exact hmore

/-- Nothing is seen in a computation that expands no fragment. -/
theorem refl (hx : ∀ s, Gives x s fun a _ => flag a = noted) : Watches h x x noted flag :=
  fun s a s' hy => ⟨false, hy, by rw [(hx s).result a s' hy, Bool.or_false]⟩

/-- Nothing is seen in a computation that both readings have in common. -/
theorem after (x : Compile α) (hf : ∀ a, Watches h (f a) (g a) noted flag') :
    Watches h (x >>= f) (x >>= g) noted flag' :=
  bind (p := fun _ => noted) (.refl fun _ => ⟨rfl, fun _ _ _ => rfl⟩) hf

theorem pure {a : α} (ha : flag a = noted) : Watches h (Pure.pure a) (Pure.pure a) noted flag :=
  .refl fun _ => .pure ha

theorem fail (cause : Cause) (start stop : Nat) :
    Watches h (Compile.fail cause start stop) (Compile.fail cause start stop) noted flag := by
  intro s a s' hy
  cases hy

/-- What was noted elsewhere stays noted. -/
theorem or (b : Bool) (hx : Watches h x y noted flag) :
    Watches h x y (b || noted) fun a => b || flag a := by
  intro s a s' hy
  obtain ⟨seen, hseen, hflag⟩ := hx s a s' hy
  exact ⟨seen, hseen, (congrArg (b || ·) hflag).trans (Bool.or_assoc _ _ _).symm⟩

end Watches

variable {h : Halt}

/-! ## Fragments -/

theorem expand_watches (noted : Bool) (purpose : Purpose) (text : Text) (base : Nat)
    (tracked : Bool) :
    Watches h ((Expansion.watching h).expand purpose text base tracked)
      (Expansion.direct.expand purpose text base tracked) noted fun e =>
        noted || (purpose.noted && e.reactive) := by
  intro s e s' hy
  refine ⟨purpose.noted && e.reactive, ?_, rfl⟩
  have hy : expand text base tracked s = .ok (e, s') := hy
  show (expand text base tracked >>= _) s = _
  rw [bind_apply, hy]
  dsimp only
  split <;> rfl

theorem readMarker_watches (noted : Bool) (marker : Char) (tracked : Bool) :
    Watches h (@readMarker (.watching h) marker tracked) (@readMarker .direct marker tracked) noted
      fun e => noted || e.reactive := by
  refine .after _ fun start => .after _ fun enclosed => ?_
  refine (expand_watches noted .marker _ _ _).bind fun e => .after _ fun o => ?_
  split
  · exact .pure rfl
  split
  · exact .pure rfl
  · exact .pure rfl

namespace Foreach

theorem readExpanded_watches (noted : Bool) (c : Cursor) :
    Watches h (@readExpanded (.watching h) c) (@readExpanded .direct c) noted fun r =>
      noted || r.2.1.reactive :=
  .after _ fun _ => (expand_watches noted .head _ _ _).bind fun _ => .pure rfl

theorem readSubject_watches (noted : Bool) (c : Cursor) :
    Watches h (@readSubject (.watching h) c) (@readSubject .direct c) noted fun r =>
      noted || r.1.reactive := by
  unfold readSubject
  split
  · refine .after _ fun skipped => ?_
    refine (readExpanded_watches noted _).bind fun first => .after _ fun blanks => ?_
    dsimp -zeta only
    extract_lets rest restDirect
    have hrest : ∀ u, Watches h (rest u) (restDirect u) (noted || first.2.1.reactive) fun r =>
        noted || r.1.reactive := fun u =>
      .after _ fun skipped => (readExpanded_watches _ _).bind fun last =>
        .pure (Bool.or_assoc _ _ _).symm
    split
    · exact .after _ hrest
    · exact hrest ()
  · split
    · exact .after _ fun skipped => (readExpanded_watches noted _).bind fun last => .pure rfl
    · exact (readExpanded_watches noted _).bind fun e => .pure rfl

theorem readHead_watches (noted : Bool) (inner : Text) (base : Nat) :
    Watches h (@readHead (.watching h) inner base) (@readHead .direct inner base) noted fun r =>
      noted || r.1.reactive := by
  refine .after _ fun skipped => ?_
  refine (readSubject_watches noted _).bind fun subject => .after _ fun blanks => ?_
  dsimp only
  split
  · exact .pure rfl
  split
  · exact .pure rfl
  · exact .fail _ _ _

end Foreach

/-! ## Statements -/

namespace Tracker

open TextHost

def reads (k : Tracker) : Bool :=
  k.statements.any (·.reactive)

variable (k : Tracker)

theorem reads_cons_statement (st : Statement) (opened : List Open) :
    reads { k with opened := .statement st :: opened } =
      (reads { k with opened } || st.reactive) := by
  simp only [reads, statements, openStatements_cons_statement, any_append, any_cons,
    any_nil, Bool.or_false]
  ac_rfl

theorem reads_closed_append (st : Statement) :
    reads { k with closed := k.closed ++ [st] } = (k.reads || st.reactive) := by
  simp only [reads, statements, any_append, any_cons, any_nil, Bool.or_false]
  rw [Bool.or_assoc]
  rfl

theorem reads_cons_block (id : Nat) (span : Span) (opened : List Open) :
    reads { k with opened := .block id span :: opened } = reads { k with opened } := by
  simp only [reads, statements, openStatements_cons_block]

variable {H : Type} [TextHost H]

theorem branchHead_watches (noted : Bool) (keyword : Keyword) :
    Watches h (@branchHead (.watching h) keyword) (@branchHead .direct keyword) noted fun head =>
      noted || head.reactive := by
  unfold branchHead
  split
  · exact .after _ fun decl => .pure (Bool.or_false _)
  refine .after _ fun skipped => .after _ fun start => .after _ fun group => ?_
  split
  · refine (Foreach.readHead_watches noted _ _).bind fun read => ?_
    exact .after _ fun o => .after _ fun decl => .after _ fun slot => .pure rfl
  · exact (expand_watches noted .head _ _ _).bind fun e => .after _ fun decl => .pure rfl

/-- Nothing that an initializer reads is seen. -/
theorem declaration_watches (noted : Bool) (host : H) (word : Text) (closing : List Char) :
    Watches h (@declaration H _ (.watching h) host word closing)
      (@declaration H _ .direct host word closing) noted fun _ => noted := by
  refine .after _ fun host => .after _ fun _ => .after _ fun _ => .after _ fun found => ?_
  refine .after _ fun _ => ?_
  split
  · refine .after _ fun _ => .after _ fun _ => .after _ fun blanks => .after _ fun _ => ?_
    refine .after _ fun start => .after _ fun value => ?_
    refine (expand_watches noted .initializer _ _ _).bind fun e => ?_
    rw [show (noted || (Purpose.initializer.noted && e.reactive)) = noted from Bool.or_false _]
    refine .after _ fun _ => .after _ fun semicolon => ?_
    split
    · exact .after _ fun _ => .pure rfl
    · exact .pure rfl
  · split
    · exact .after _ fun _ => .after _ fun _ => .pure rfl
    · exact .pure rfl
  · exact .pure rfl

/-- The head of a branch counts for its statement. -/
theorem openPart_watches (host : H) (keyword : Keyword) (continued : Option Statement)
    {noted : Bool} (hnoted : noted = (k.reads || continued.any (·.reactive))) :
    Watches h (@openPart H _ (.watching h) k host keyword continued)
      (@openPart H _ .direct k host keyword continued) noted (·.1.reads) := by
  refine .after _ fun host => .after _ fun at_ => .after _ fun _ => .after _ fun stop => ?_
  extract_lets span rest restDirect
  have hrest : ∀ start, Watches h (rest start) (restDirect start) noted (·.1.reads) := by
    intro start
    refine .after _ fun o => .after _ fun declStart => ?_
    refine (branchHead_watches noted keyword).bind fun head => ?_
    refine .after _ fun blanks => .after _ fun _ => .after _ fun braced => .after _ fun _ => ?_
    refine .pure ?_
    rw [reads_cons_statement, hnoted]
    cases continued with
    | none => simp
    | some st => simp [Statement.addPart, Bool.or_assoc]
  split
  · exact .after _ hrest
  · exact .after _ hrest

/-- Closing a branch forgets nothing, and what is read in the head of the next one is noted. -/
theorem close_watches (host : H) (atLineBreak : Bool) :
    Watches h (@close H _ (.watching h) .direct k host atLineBreak)
      (@close H _ .direct .direct k host atLineBreak) k.reads (·.1.reads) := by
  refine .after _ fun host => ?_
  split
  · exact .pure rfl
  next id span opened heq =>
    refine .pure ?_
    rw [← reads_cons_block k id span, ← heq]
  next st opened heq =>
    have hreads : (reads { k with opened } || st.reactive) = k.reads := by
      rw [← reads_cons_statement, ← heq]
    refine Watches.bind (p := fun st' => reads { k with opened } || st'.reactive) ?_ fun st' => ?_
    · unfold closePart
      exact .after _ fun _ => .after _ fun c => .pure hreads
    refine .after _ fun cur => ?_
    dsimp only
    split
    next keyword _ =>
      exact .after _ fun blanks => (openPart_watches _ _ _ _ rfl).bind fun r => .pure rfl
    · exact .pure (reads_closed_append { k with opened } st')

theorem keyword?_watches (host : H) :
    Watches h (@keyword? H _ (.watching h) k host) (@keyword? H _ .direct k host) k.reads fun r =>
      ((r.map Prod.fst).getD k).reads := by
  refine .after _ fun cur => ?_
  extract_lets at_ recognized
  split
  · exact .pure rfl
  next word form _ =>
    extract_lets rest restDirect
    have hrest : ∀ kept, Watches h (rest kept) (restDirect kept) k.reads fun r =>
        ((r.map Prod.fst).getD k).reads := by
      intro kept
      unfold rest restDirect
      split
      · exact .after _ fun _ => .pure rfl
      refine .after _ fun atStart => ?_
      split
      · exact .pure rfl
      split
      next closing => exact (declaration_watches _ _ _ _).bind fun host => .pure rfl
      next keyword =>
        split
        · exact (openPart_watches _ _ _ _ (Bool.or_false _).symm).bind fun r => .pure rfl
        · exact .pure rfl
    split
    · exact .after _ hrest
    · exact .after _ hrest

theorem dispatch_watches (host : H) (c : Char) :
    Watches h (@dispatch H _ (.watching h) .direct k host c)
      (@dispatch H _ .direct .direct k host c) k.reads (·.1.reads) := by
  unfold dispatch
  split
  · refine .after _ fun _ => ?_
    split
    · exact .pure rfl
    split
    · exact .pure rfl
    exact (close_watches k host false).bind fun r => .pure rfl
  · split
    · refine .after _ fun _ => ?_
      split
      · exact (close_watches k host true).bind fun r => .pure rfl
      · exact .pure rfl
    · refine (keyword?_watches k host).bind fun r => ?_
      cases r with
      | some r => exact .pure rfl
      | none => exact .after _ fun _ => .pure rfl

end Tracker

/-! ## Stylesheets -/

namespace Stylesheet

variable (r : Stylesheet)

/-- Has the region noted that a value was read through the tracker? -/
def reads : Bool :=
  r.reactive || r.statements.reads

theorem pushMarker_watches (marker : Char) (at_ : Nat) :
    Watches h (@pushMarker (.watching h) r marker at_) (@pushMarker .direct r marker at_)
      r.reads reads := by
  refine .after _ fun c => ?_
  split
  · exact .pure rfl
  split
  · exact .pure rfl
  refine (readMarker_watches _ _ _).bind fun e => .pure ?_
  show (r.reactive || e.reactive || r.statements.reads) = (r.reactive || _ || e.reactive)
  ac_rfl

theorem slash_watches (at_ : Nat) : Watches h (r.slash at_) (r.slash at_) r.reads reads := by
  refine .refl fun s => (r.slash_slashed at_ s).mono fun r' _ hr => ?_
  cases hr <;> rfl

theorem openBlock_watches (at_ : Nat) :
    Watches h (r.openBlock at_) (r.openBlock at_) r.reads reads := by
  refine .refl fun s => (r.openBlock_opens at_ s).mono ?_
  rintro _ _ ⟨_, _, _, _, rfl, -⟩
  show (r.reactive || (r.statements.pushBlock _ _).reads) = _
  rw [Tracker.pushBlock, Tracker.reads_cons_block]
  rfl

theorem endStatement_watches (stop : Nat) :
    Watches h (r.endStatement stop) (r.endStatement stop) r.reads reads := by
  refine .refl fun s => (r.endStatement_ends stop s).mono fun r' _ h => ?_
  cases h <;> rfl

theorem trackStatement_watches (c : Char) (at_ : Nat) :
    Watches h (@trackStatement (.watching h) .direct r c at_)
      (@trackStatement .direct .direct r c at_) r.reads reads := by
  rw [trackStatement_eq, @trackStatement_eq (.watching h)]
  refine ((Tracker.dispatch_watches r.statements r.buffer c).or r.reactive).bind fun p => ?_
  exact .after _ fun _ => .pure rfl

theorem character_watches (c : Char) (at_ : Nat) :
    Watches h (@character (.watching h) r c at_) (@character .direct r c at_) r.reads
      (·.1.reads) := by
  unfold character
  split
  · exact .after _ fun literal => .pure rfl
  refine .after _ fun _ => .after _ fun cur => ?_
  split
  · exact .pure rfl
  split
  · exact (r.pushMarker_watches _ _).bind fun _ => .pure rfl
  split
  · exact (r.slash_watches _).bind fun _ => .pure rfl
  split
  · exact (r.openBlock_watches _).bind fun _ => .pure rfl
  split
  · exact (r.endStatement_watches _).bind fun _ => .pure rfl
  · exact .pure rfl

theorem step_watches :
    Watches h (@step (.watching h) .direct r) (@step .direct .direct r) r.reads (·.1.reads) := by
  refine .after _ fun found => .after _ fun at_ => ?_
  extract_lets text src pushed buffer r1
  split
  · exact .pure rfl
  next c _ =>
    extract_lets ends rest restDirect
    have hrest : ∀ r, Watches h (rest r) (restDirect r) r.reads (·.1.reads) := by
      intro r
      unfold rest restDirect
      split
      · exact (r.trackStatement_watches c at_).bind fun _ => .pure rfl
      · exact r.character_watches c at_
    split
    · exact (r1.endStatement_watches at_).bind hrest
    · exact Watches.bind (.pure rfl) hrest

def read [Expansion] [Editor] : (steps : Nat) → Stylesheet → Compile (Stylesheet × Step)
  | 0, r => return (r, .next)
  | steps + 1, r => do
    let (r, step) ← r.step
    if step == .next then r.read steps else return (r, step)

/-- By the end of any number of steps, it is noted whether something has been seen in them. -/
theorem read_watches (steps : Nat) :
    Watches h (@read (.watching h) .direct steps r) (@read .direct .direct steps r) r.reads
      (·.1.reads) := by
  induction steps generalizing r with
  | zero => exact .pure rfl
  | succ steps ih =>
    refine r.step_watches.bind fun r1 => ?_
    dsimp only
    split
    · exact ih r1.1
    · exact .pure rfl

theorem read_agree (steps : Nat) {s : Session} {old : Moment} {front : List Node}
    (hr : r.Sound old front s) :
    Gives (r.read steps) s fun r' s' => r'.1.Sound old front s' := by
  induction steps generalizing r s with
  | zero => exact .pure hr
  | succ steps ih =>
    refine Agree.bind (P := fun r' s' => r'.1.Sound old front s') ?_ fun r1 s1 hr1 => ?_
    · exact ⟨rfl, fun r' s' hstep => ((step_agree (h := .spent) hr).result r' s' hstep).1⟩
    dsimp only
    split
    · exact ih r1.1 hr1
    · exact .pure hr1

variable {r} {s s' : Session}

/-- The end of a region that does not fold: what has been read is copied, the statements make their
edits, the slot of the front receives the front of the builder, and its end is written last. -/
theorem finish_eq_ok (hfolds : r.folds = false) (hfinish : r.finish s = .ok ((), s')) :
    r.buffer.isBlank = true ∧ ∃ p s1,
      r.statements.finish { s with output := s.output.add r.buffer.copy } = .ok (p, s1) ∧
      ∃ built, built = builder s.output r.root.var
          (r.reactive || r.statements.closed.any (·.reactive)) ∧
        s'.output = (s1.output.editAll (r.head.toList.map (⟨·, .set built.1⟩))).add
          (built.2 ++ ");") := by
  obtain ⟨_, s1, hflush, hfinish⟩ := bind_eq_ok.mp hfinish
  obtain ⟨-, hblank, rfl⟩ := (r.buffer.flush_copies _).result _ _ hflush
  obtain ⟨p, s2, htracker, hfinish⟩ := bind_eq_ok.mp hfinish
  refine ⟨hblank, p, s2, htracker, _, rfl, ?_⟩
  obtain ⟨rfl, hs2⟩ := Tracker.finish_eq_ok htracker
  have hfork : s2.output.fork = s.output.fork := by
    rw [hs2, editAll_eq]
    exact fork_add _ _
  have hbuilder : ∀ reactive, builder s.output r.root.var reactive =
      builder s2.output r.root.var reactive := fun reactive => by
    show builder s.output.fork _ _ = builder s2.output.fork _ _
    rw [hfork]
  rw [hfolds] at hfinish
  rw [hbuilder]
  cases hhead : r.head with
  | none | some head =>
    rw [hhead] at hfinish
    cases hfinish
    rfl

/-- The end of a region that does not fold, when no statement is open: the slot of the front
receives the front of the builder, and the end of the builder is what is written last. -/
theorem finish_front {old : List Nat} {front : List Node} (hformed : r.Formed front.length)
    (hzone : s.output.InZone old front r.slots r.statements.waiting)
    (hclosed : r.statements.openStatements = []) (hfolds : r.folds = false)
    (hfinish : r.finish s = .ok ((), s')) :
    ∃ (head : SlotId) (slot : Slot) (o : Output), r.head = some head ∧
      s'.output.slot? head = some slot ∧
      slot.value = some (builder s.output r.root.var r.reads).1 ∧
      s'.output = o.add ((builder s.output r.root.var r.reads).2 ++ ");") := by
  obtain ⟨head, hhead⟩ := Option.isSome_iff_exists.mp hformed.head
  have hwaiting : r.statements.waiting = [] := by
    rw [Tracker.waiting, hclosed]
    rfl
  have hreads : (r.reactive || r.statements.closed.any (·.reactive)) = r.reads := by
    rw [reads, Tracker.reads, Tracker.statements, hclosed]
    rfl
  obtain ⟨-, p, s2, htracker, built, hbuilt, hs'⟩ := finish_eq_ok hfolds hfinish
  -- the tracker may edit the slots of its statements; the slot of the front is open afterwards
  have hsound : r.statements.Sound ⟨old, 0⟩ front r.head.toList
      { s with output := s.output.add r.buffer.copy } := by
    refine ⟨hformed.statements, hzone.add _, ?_, Nat.zero_le _⟩
    rw [hwaiting]
    exact .nil _
  have hzone2 := ((Tracker.finish_agree (h := .spent) hsound).result _ _ htracker).inZone.output
  have hmem : head ∈ r.head.toList ++ r.statements.slots := by simp [hhead]
  obtain ⟨slot, hslot, hopen⟩ := (Output.isOpen_iff hzone2.placed head).mp (hzone2.isOpen hmem)
  rw [hreads] at hbuilt
  rw [hhead] at hs'
  have hs' : s'.output = (s2.output.edit ⟨head, .set built.1⟩).add (built.2 ++ ");") := hs'
  rw [← hbuilt]
  refine ⟨head, slot.update (Change.apply (.set built.1)), _, hhead, ?_, ?_, hs'⟩
  · rw [hs', slot?_eq ((hzone2.placed.edit _).add _), slotsOf_add,
      slotsOf_edit hzone2.placed, getElem?_modify_eq, hslot]
    rfl
  · rw [Slot.update, hopen]
    rfl

end Stylesheet

/-! ## Documents -/

namespace Document

/-- A computation that succeeds, found by a test of its result. -/
theorem exists_ok_of_any {α : Type} {x : Except Halt α} {test : α → Bool}
    (hx : x.toOption.any test = true) : ∃ a, x = .ok a ∧ test a = true := by
  cases x with
  | ok a => exact ⟨a, rfl, hx⟩
  | error e => cases hx

end Document
end Patchwork
