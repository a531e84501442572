import Patchwork.Proofs.Places

/-!
# Fragments of code

The operands of the shorthands of code are fragments, which are read again by a cursor of their own.
`located` says that a fragment is expanded where it stands: in the text that is read, and hence in the
document if that text stands in the document where it is taken to. There are two exceptions. The
initializer of a declaration stands after the blanks at its position, which are there if a line break
follows the equals sign. And the members of a chained read have the name of the value in front, and
the position of the fragment lies as far before them.

`Expansion.strict` halts at a fragment that is not located. `Inner` is what code requires of the way
its fragments are expanded, `step_settles` is the step and `run_settles` the run of a fragment.
`Bounds.Room` says how far fragments that lie in each other may reach. In these bounds every fragment
is located (`strictAt_inner`, and `strict_expands` for those of the document).
-/

namespace Patchwork

open Compile List Text Bool Option Scan

/-! ## Where fragments stand -/

def Cursor.shows (c : Cursor) (at_ : Nat) (t : Text) : Bool :=
  decide (c.base ≤ at_) && Text.standsAt (at_ - c.base) t c.input

/-- Is what the cursor reads a part of the document, at its position? The name of the value in front of
a chain does not count. -/
def Cursor.standsIn (c : Cursor) (value doc : Text) : Bool :=
  Text.standsAt c.base c.input doc ||
    (!value.any isMarker && (Text.after? value c.input).any fun chain =>
      Text.standsAt (c.base + bytes value) chain doc)

/-- Does a text stand at a position of what the cursor reads, and in the document if that is part of
the document? -/
def Cursor.locates (c : Cursor) (value doc : Text) (at_ : Nat) (t : Text) : Bool :=
  c.shows at_ t && (!c.standsIn value doc || Text.standsAt at_ t doc)

/-- Is a fragment expanded where it stands? -/
def located (doc : Text) (s : Session) (text : Text) (base : Nat) : Purpose → Bool
  | .initializer => standsAfterBlanks base text doc
  | .chain =>
    let value := s.output.names.value
    (Text.after? value text).any fun chain =>
      (List.range (base + bytes value + 1)).any fun at_ =>
        at_ - bytes value == base && s.cursor.locates value doc at_ chain
  | _ => s.cursor.locates s.output.names.value doc base text

namespace Expansion

/-- Expand as `expandAt` does, but halt at a fragment that is not located. -/
def strictAt (doc : Text) (h : Halt) : (depth : Nat) → Purpose → Expander
  | 0, _ => fun _ _ _ => throw .spent
  | depth + 1, purpose => fun text base tracked s =>
    if located doc s text base purpose then expandWith (strictAt doc h depth) text base tracked s
    else .error h

/-- An expansion that halts at a fragment that is not located, and otherwise does as it is asked. -/
@[reducible] def strict (doc : Text) (h : Halt) : Expansion where
  expand purpose text base tracked := strictAt doc h (text.countP isMarker + 1) purpose text base tracked

end Expansion

def Bounds.PlainValue (b : Bounds) : Prop :=
  b.plain → ∀ c ∈ b.value, isAsciiOrLetter c = true

/-- Is a fragment with the purpose a piece of the text around it, at its position? -/
def Purpose.direct : Purpose → Bool
  | initializer | chain => false
  | _ => true

namespace Stretch

variable {b : Bounds} {r : Stretch b} {c c' : Cursor} {text : Text} {at_ : Nat}

def Has (r : Stretch b) (at_ : Nat) (text : Text) : Prop :=
  ∃ front back, r.text = front ++ (text ++ back) ∧ at_ = r.base + bytes front

theorem Has.plain (h : r.Has at_ text) (hplain : b.plain) :
    ∀ c ∈ text, isAsciiOrLetter c = true := by
  obtain ⟨front, back, htext, -⟩ := h
  intro c hc
  refine r.plain hplain c ?_
  rw [htext]
  exact mem_append_right _ (mem_append_left _ hc)

theorem Has.sub {part : Stretch b} (h : r.Has part.base part.text) (hpart : part.Has at_ text) :
    r.Has at_ text := by
  obtain ⟨front, back, htext, hbase⟩ := h
  obtain ⟨front', back', htext', rfl⟩ := hpart
  refine ⟨front ++ front', back' ++ back, ?_, ?_⟩
  · rw [htext, htext']
    simp only [append_assoc]
  · rw [hbase, bytes_append, Nat.add_assoc]

theorem Reads.shows (h : r.Reads c) (hhas : r.Has at_ text) : c.shows at_ text = true := by
  obtain ⟨front, back, htext, rfl⟩ := hhas
  rw [Cursor.shows, h.base, h.input, Nat.add_sub_cancel_left, decide_eq_true (Nat.le_add_right ..)]
  exact standsAt_iff.mpr ⟨front, back, htext, rfl⟩

/-- Where the stretch is a part of the document, its parts are. -/
theorem Reads.standsAt (h : r.Reads c) {doc : Text} (hdoc : Text.standsAt c.base c.input doc = true)
    (hhas : r.Has at_ text) : Text.standsAt at_ text doc = true := by
  obtain ⟨hle, hstands⟩ := and_eq_true_iff.mp (h.shows hhas)
  have htrans := standsAt_trans hstands hdoc
  rwa [Nat.add_sub_cancel' (of_decide_eq_true hle)] at htrans

theorem Reads.locates (h : r.Reads c) {value doc : Text} (hhas : r.Has at_ text)
    (hdoc : c.standsIn value doc = true → Text.standsAt at_ text doc = true) :
    c.locates value doc at_ text = true := by
  rw [Cursor.locates, h.shows hhas]
  cases hstands : c.standsIn value doc with
  | false => rfl
  | true => exact hdoc hstands

theorem located_of_locates (doc : Text) {s : Session} {purpose : Purpose} (hs : r.Holds s)
    (hpurpose : purpose.direct = true) (h : s.cursor.locates b.value doc at_ text = true) :
    located doc s text at_ purpose = true := by
  rw [← hs.value] at h
  cases purpose with
  | initializer | chain => cases hpurpose
  | _ => exact h

def HasAfterMarker (r : Stretch b) (at_ : Nat) (text : Text) : Prop :=
  ∃ front m gap back, isMarker m = true ∧ r.text = front ++ m :: (gap ++ (text ++ back)) ∧
    at_ = r.base + bytes (front ++ m :: gap)

theorem HasAfterMarker.has (h : r.HasAfterMarker at_ text) : r.Has at_ text := by
  obtain ⟨front, m, gap, back, -, htext, hat⟩ := h
  refine ⟨front ++ m :: gap, back, ?_, hat⟩
  rw [htext, append_assoc]
  rfl

/-- What stands behind a marker stands in the document, if the stretch does or if it does without the
name of the value: the name has no marker. -/
theorem HasAfterMarker.standsAt (h : r.HasAfterMarker at_ text) (hc : r.Reads c) {value doc : Text}
    (hdoc : c.standsIn value doc = true) : Text.standsAt at_ text doc = true := by
  rcases or_eq_true_iff.mp hdoc with hdoc | hdoc
  · exact hc.standsAt hdoc h.has
  · obtain ⟨hmarkers, hafter⟩ := and_eq_true_iff.mp hdoc
    obtain ⟨chain, hchain, hstands⟩ := (any_eq_true _ _).mp hafter
    have hinput : c.input = value ++ chain := by
      unfold Text.after? at hchain
      split at hchain
      next hstarts =>
        cases hchain
        obtain ⟨back, hback⟩ := List.isPrefixOf_iff_prefix.mp hstarts
        rw [← hback, drop_left]
      · cases hchain
    obtain ⟨front, m, gap, back, hm, htext, rfl⟩ := h
    have hsplit : value ++ chain = front ++ m :: (gap ++ (text ++ back)) := by
      rw [← hinput, hc.input, htext]
    have hnot : m ∉ value := by
      intro hmem
      rw [any_eq_true.mpr ⟨m, hmem, hm⟩] at hmarkers
      cases hmarkers
    obtain ⟨front', rfl, rfl⟩ := exists_append_of_not_mem hsplit hnot
    have hpart : Text.standsAt (bytes (front' ++ m :: gap)) text
        (front' ++ m :: (gap ++ (text ++ back))) = true :=
      standsAt_iff.mpr ⟨front' ++ m :: gap, back, by simp, rfl⟩
    have htrans := standsAt_trans hpart hstands
    rwa [hc.base, Nat.add_assoc, ← bytes_append, ← append_assoc] at htrans

/-- A text stands behind a `*` and at least one more character. -/
def HasChain (r : Stretch b) (at_ : Nat) (text : Text) : Prop :=
  ∃ front gap back, gap ≠ [] ∧ r.text = front ++ '*' :: (gap ++ (text ++ back)) ∧
    at_ = r.base + bytes (front ++ '*' :: gap)

theorem HasChain.hasAfterMarker (h : r.HasChain at_ text) : r.HasAfterMarker at_ text := by
  obtain ⟨front, gap, back, -, htext, hat⟩ := h
  exact ⟨front, '*', gap, back, rfl, htext, hat⟩

theorem HasChain.plain (h : r.HasChain at_ text) (hvalue : b.PlainValue) (hplain : b.plain) :
    ∀ c ∈ b.value ++ text, isAsciiOrLetter c = true :=
  forall_mem_append.mpr ⟨hvalue hplain, h.hasAfterMarker.has.plain hplain⟩

theorem located_of_hasChain (doc : Text) {s : Session} (hs : r.Holds s) (hhas : r.HasChain at_ text) :
    located doc s (b.value ++ text) (at_ - bytes b.value) .chain = true := by
  have hlocates : s.cursor.locates b.value doc at_ text = true :=
    hs.cursor.locates hhas.hasAfterMarker.has (hhas.hasAfterMarker.standsAt hs.cursor)
  have hafter : Text.after? b.value (b.value ++ text) = some text := by
    rw [Text.after?, startsWith, List.isPrefixOf_iff_prefix.mpr (prefix_append ..), if_pos rfl,
      drop_left]
  show ((Text.after? s.output.names.value (b.value ++ text)).any _) = true
  rw [hs.value, hafter]
  refine any_eq_true.mpr ⟨at_, mem_range.mpr (by omega), ?_⟩
  rw [hlocates, Bool.and_true]
  exact beq_self_eq_true _

end Stretch

def Cursor.PastMarker (c : Cursor) : Prop :=
  ∃ front m gap, isMarker m = true ∧ c.past.reverse = front ++ m :: gap

namespace Cursor

variable {c c' : Cursor}

theorem PastMarker.moved (h : c.PastMarker) (hmoved : c.Moved c') : c'.PastMarker := by
  obtain ⟨front, m, gap, hm, hpast⟩ := h
  obtain ⟨read, -, hpast', -⟩ := hmoved.exists_read
  refine ⟨front, m, gap ++ read, hm, ?_⟩
  rw [hpast', reverse_append, reverse_reverse, hpast, append_assoc]
  rfl

/-- What lies ahead stands behind the marker. -/
theorem PastMarker.has {b : Bounds} {r : Stretch b} (h : c.PastMarker) (hr : r.Reads c) (gap : Text)
    {text back : Text} (hrest : c.rest = gap ++ (text ++ back)) :
    r.HasAfterMarker (c.position + bytes gap) text := by
  obtain ⟨front, m, gap', hm, hpast⟩ := h
  refine ⟨front, m, gap' ++ gap, back, hm, ?_, ?_⟩
  · rw [hr.text_eq, hpast, hrest]
    simp only [append_assoc, cons_append]
  · rw [hr.position_eq, hpast, Nat.add_assoc, ← bytes_append, append_assoc]
    rfl

end Cursor

/-! ## Code -/

/-- What code requires of the way its fragments are expanded. -/
structure Inner {b : Bounds} (r : Stretch b) (inner inner' : Purpose → Expander) : Prop where
  direct : ∀ {purpose : Purpose} {text : Text} {at_ : Nat} {tracked : Bool} {s : Session},
    purpose.direct = true → r.HasAfterMarker at_ text →
    r.Settles (inner purpose text at_ tracked) (inner' purpose text at_ tracked) s s.Stood
  chain : ∀ {chain : Text} {at_ : Nat} {tracked : Bool} {s : Session}, r.HasChain at_ chain →
    r.Settles (inner .chain (b.value ++ chain) (at_ - bytes b.value) tracked)
      (inner' .chain (b.value ++ chain) (at_ - bytes b.value) tracked) s s.Stood

namespace Code

variable {b : Bounds} {r : Stretch b} {inner inner' : Purpose → Expander} {s : Session}

theorem commit_settles {code : Code} : r.Rests code.commit s s.Stood :=
  .bind .emit fun _ _ _ h => .pure h

variable {opened : Char}

theorem readGroup_settles (ho : Lexeme.isOpening opened = true) {what : Text} :
    r.Rests (readGroup opened what) s fun t s' => ∃ d, Lexeme.opening? d = some opened ∧
        s.cursor.rest = opened :: (t ++ d :: s'.cursor.rest) := by
  refine .cursor (.holding fun hs => ?_)
  split
  next hpeek => exact .readEnclosed (eq_of_beq hpeek) ho
  have hle := hs.cursor.position_add_le
  refine .fail ⟨Nat.le_succ _, ?_⟩
  show s.cursor.position + 1 ≤ b.limit + 1
  omega

theorem has_of_group {d : Char} {t back : Text} (hs : r.Holds s) (hmark : s.cursor.PastMarker)
    (ho : Lexeme.isOpening opened = true) (hrest : s.cursor.rest = opened :: (t ++ d :: back)) :
    r.HasAfterMarker (s.cursor.position + 1) t := by
  have hhas := hmark.has hs.cursor [opened] hrest
  rwa [bytes, Lexeme.utf8Size_of_isOpening ho] at hhas

section

variable (hinner : Inner r inner inner')
include hinner

theorem computedFunction_settles (tracker : Text) (hmark : s.cursor.PastMarker) :
    r.Settles (computedFunction inner tracker) (computedFunction inner' tracker) s fun _ _ => True := by
  refine .bind .skip fun _ s1 h1 _ => .bind .scan fun space s2 h2 _ => ?_
  refine .bind .scan fun name s3 h3 _ => ?_
  extract_lets rest rest'
  have hmark := ((hmark.moved h1.moved).moved h2.moved).moved h3.moved
  -- the rest is the same with and without a name
  have hrest : ∀ nameSpace s4, r.Goes s3 s4 → r.Settles (rest nameSpace) (rest' nameSpace) s4
      fun _ _ => True := by
    intro nameSpace s4 h4
    refine .bind (readGroup_settles rfl) fun params s5 h5 _ => .bind .scan fun bodySpace s6 h6 _ => ?_
    refine .position (.bind (readGroup_settles rfl) ?_)
    rintro body s7 h7 ⟨d, -, hbody⟩
    have hhas := has_of_group h6.holds (hmark.moved ((h4.trans h5).trans h6).moved) rfl hbody
    exact .done (hinner.direct rfl hhas)
  split
  · exact .bind .scan fun nameSpace s4 h4 _ => hrest nameSpace s4 h4
  · exact .bind (.pure trivial) fun nameSpace s4 h4 (_ : True) => hrest nameSpace s4 h4

theorem computedBody_settles (hmark : s.cursor.PastMarker)
    (hhead : ∀ d ∈ s.cursor.rest.head?, Text.isBlank d = false) :
    r.Settles (computedBody inner) (computedBody inner') s fun _ _ => True := by
  refine .position (.cursor (.holding fun hs => ?_))
  split
  next hpeek =>
    refine .bind (.readEnclosed (eq_of_beq hpeek) rfl) ?_
    rintro block s1 _ ⟨d, -, hblock⟩
    exact .done (hinner.direct rfl (has_of_group hs hmark rfl hblock))
  · refine .bind .scan fun text s1 _ hread => ?_
    obtain ⟨read, back, hrest, rfl⟩ := readExpression_eq hread
    have hhas : r.HasAfterMarker s.cursor.position (trim read) := by
      obtain ⟨back', hsplit⟩ := eq_trim_append hrest hhead
      exact hmark.has hs.cursor [] hsplit
    exact .done (hinner.direct rfl hhas)

theorem computedGroup_settles (tracker : Text) (hmark : s.cursor.PastMarker)
    (hpeek : s.cursor.peek? = some '(') :
    r.Settles (computedGroup inner tracker) (computedGroup inner' tracker) s fun _ _ => True := by
  refine .position (.holding fun hs => .bind (.readEnclosed hpeek rfl) ?_)
  rintro group s1 h1 ⟨d, -, hgroup⟩
  refine .cursor ?_
  split
  · refine .bind .scan fun before s2 h2 _ => .bind .skip fun _ s3 h3 _ => ?_
    refine .bind .scan fun after s4 h4 hread => ?_
    have h4 := ((h1.trans h2).trans h3).trans h4
    refine .bind (computedBody_settles hinner (hmark.moved h4.moved) (skipBlanks_head hread)) ?_
    exact fun body s5 _ _ => .pure trivial
  · refine .bind (hinner.direct rfl (has_of_group hs hmark rfl hgroup)) fun e s2 _ _ => ?_
    exact .output (.pure trivial)

theorem computed_settles (code : Code) (hmark : s.cursor.PastMarker) :
    r.Settles (code.computed inner) (code.computed inner') s fun _ _ => True := by
  refine .cursor ?_
  dsimp only
  split
  · exact .done .scan
  refine .bind .scan fun space s1 h1 _ => ?_
  have hmark1 := hmark.moved h1.moved
  refine .cursor ?_
  split
  · exact .pure trivial
  refine .output ?_
  split
  · exact .done (computedFunction_settles hinner _ hmark1)
  split
  next hpeek =>
    exact .done (computedGroup_settles hinner _ hmark1 (eq_of_beq hpeek))
  refine .position (.bind .scan fun name s2 h2 hread => ?_)
  have hhas : r.HasAfterMarker s1.cursor.position name :=
    hmark1.has h1.holds.cursor [] (lexeme_eq hread)
  exact .done (hinner.direct rfl hhas)

/-- A group is read and expanded, with at least one character. -/
theorem group_settles {α : Type} {f : Expr → Compile α} {purpose : Purpose} {tracked : Bool}
    {Q : α → Session → Prop} (hpurpose : purpose.direct = true) (hmark : s.cursor.PastMarker)
    (ho : Lexeme.isOpening opened = true) (hpeek : s.cursor.peek? = some opened)
    (hf : ∀ e s', s'.cursor.rest.length < s.cursor.rest.length → r.Rests (f e) s' Q) :
    r.Settles
      (position >>= fun at_ => scan Scan.readEnclosed >>= fun t =>
        inner purpose t (at_ + 1) tracked >>= f)
      (position >>= fun at_ => scan Scan.readEnclosed >>= fun t =>
        inner' purpose t (at_ + 1) tracked >>= f) s Q := by
  refine .position (.holding fun hs => .bind (.readEnclosed hpeek ho) ?_)
  rintro t s1 - ⟨d, -, hgroup⟩
  refine .bind (hinner.direct hpurpose (has_of_group hs hmark ho hgroup)) fun e s2 _ h2 => hf e s2 ?_
  rw [h2, hgroup, length_cons, length_append, length_cons]
  omega

theorem readMember_settles (code : Code) (hmark : s.cursor.PastMarker) :
    r.Settles (readMember inner code) (readMember inner' code) s fun p s' =>
      p.2.isSome → s'.cursor.rest.length < s.cursor.rest.length := by
  refine .cursor ?_
  split
  next hpeek =>
    exact group_settles hinner rfl hmark rfl (eq_of_beq hpeek) fun key s2 hlt => .pure fun _ => hlt
  · refine .bind .scan fun word s1 _ hread => ?_
    cases word with
    | none => exact .pure nofun
    | some property => exact .pure fun _ => readWord_lt hread

theorem readSubject_settles (code : Code) (hmark : s.cursor.PastMarker) :
    r.Settles (readSubject inner code) (readSubject inner' code) s fun p s' =>
      p.2.isSome → s'.cursor.rest.length < s.cursor.rest.length := by
  refine .cursor ?_
  split
  next hpeek =>
    exact group_settles hinner rfl hmark rfl (eq_of_beq hpeek) fun e s2 hlt => .pure fun _ => hlt
  · refine .bind .scan fun word s1 _ hread => .pure fun hsome => ?_
    obtain ⟨w, rfl⟩ := isSome_iff_exists.mp hsome
    exact readWord_lt hread

theorem trackedRead_settles (safe : Bool) (name : Text) {front gap : Text} (hgap : gap ≠ [])
    (hpast : s.cursor.past.reverse = front ++ '*' :: gap) :
    r.Settles (trackedRead inner safe name) (trackedRead inner' safe name) s fun _ _ => True := by
  refine .output (.cursor (.holding fun hs => ?_))
  split
  · refine .bind .scan fun chain s1 _ hread => ?_
    have hchain : r.HasChain s.cursor.position chain := by
      refine ⟨front, gap, s1.cursor.rest, hgap, ?_, ?_⟩
      · rw [hs.cursor.text_eq, hpast, lexeme_eq hread]
        simp
      · rw [hs.cursor.position_eq, hpast]
    rw [hs.value]
    exact .bind (hinner.chain hchain) fun nested s2 _ _ => .output (.pure trivial)
  · exact .pure trivial

theorem reactiveRead_settles (marker : Marker) (code : Code) {past : Text}
    (hpast : s.cursor.past = marker.char :: past) :
    r.Settles (code.reactiveRead inner marker) (code.reactiveRead inner' marker) s fun _ _ => True := by
  have hmark : s.cursor.PastMarker := by
    refine ⟨past.reverse, marker.char, [], ?_, ?_⟩
    · cases marker <;> rfl
    · rw [hpast, reverse_cons]
  refine .cursor ?_
  dsimp only
  split
  · split
    · exact .done .scan
    · exact .bind (.pure trivial) fun _ _ _ (_ : True) => .pure trivial
  · refine .bind .scan fun safe s1 h1 _ => ?_
    have hmark1 := hmark.moved h1.moved
    refine .bindEither (fun _ => readMember_settles hinner code hmark1)
      (fun _ => readSubject_settles hinner code hmark1) ?_
    rintro ⟨code', subject⟩ s2 h2 hlt
    cases subject with
    | none => exact .pure trivial
    | some name =>
      dsimp only
      split
      next hcond =>
        obtain ⟨rfl⟩ : marker = .tracked := eq_of_beq (and_eq_true_iff.mp hcond).1
        obtain ⟨read, -, hread, -⟩ := h1.moved.exists_read
        obtain ⟨read', hrest', hread', -⟩ := h2.moved.exists_read
        have hgap : read ++ read' ≠ [] := by
          intro hnil
          rw [hrest', (append_eq_nil_iff.mp hnil).2] at hlt
          exact absurd (hlt rfl) (Nat.lt_irrefl _)
        have hbehind : s2.cursor.past.reverse = past.reverse ++ '*' :: (read ++ read') := by
          rw [hread', hread, hpast]
          simp [Marker.char]
        exact .done (trackedRead_settles hinner safe name hgap hbehind)
      · split
        · exact .output (.pure trivial)
        · exact .pure trivial

end

/-! ### Steps -/

theorem callShorthand_settles {code : Code} : r.Rests code.callShorthand s fun _ _ => True := by
  refine .bind .scan fun dollar s1 _ _ => ?_
  split
  · exact .pure trivial
  refine .output (.cursor ?_)
  dsimp only
  split
  · exact .done .skip
  split
  next name hfind =>
    refine .bind .skip ?_
    rintro _ s2 - ⟨_, hread⟩
    -- the parenthesis is the last character of what is read
    have hpast : s2.cursor.past = '(' :: (name.reverse ++ s1.cursor.past) := by
      have hstarts := find?_some hfind
      obtain ⟨back, hback⟩ := List.isPrefixOf_iff_prefix.mp hstarts
      rw [Scan.readText, if_pos hstarts] at hread
      injection hread with _ hcursor
      rw [← hcursor, Cursor.advance, ← hback, take_left, reverse_append]
      rfl
    refine .position (.bind (.pushParenAt hpast ?_) fun _ s3 _ _ => .cursor (.pure trivial))
    rw [Cursor.position, hpast]
    show _ + (1 + _) - 1 = _
    omega
  · exact .pure trivial

theorem paramsIn_eq {frame : ParenFrame} {c : Cursor} (hc : r.Reads c) (h : r.Encloses frame) :
    ∃ params, paramsIn c frame = some params := by
  obtain ⟨front, inner, back, htext, hopened, hclosed⟩ := h
  refine ⟨inner, ?_⟩
  have htext' : r.text = (front ++ ['(']) ++ (inner ++ ')' :: back) := by
    rw [htext]
    simp
  have hslice := hc.slice? htext'
  have hstop : r.base + bytes (front ++ '(' :: (inner ++ [')'])) - 1 =
      r.base + bytes (front ++ ['('] ++ inner) := by
    have hbytes : bytes (front ++ '(' :: (inner ++ [')'])) =
        bytes (front ++ ['('] ++ inner) + 1 := by
      rw [← cons_append, ← append_assoc, bytes_append, append_assoc]
      rfl
    rw [hbytes]
    rfl
  have hstart : r.base + bytes front + 1 = r.base + bytes (front ++ ['(']) := by
    rw [bytes_append]
    rfl
  rw [paramsIn, hopened, hclosed, getD_some, hstop, hstart, hslice]

theorem arrowParam?_eq {past : Text} (h : ∀ d ∈ past, isAsciiOrLetter d = true) :
    ∃ param, arrowParam? past = some param := by
  unfold arrowParam?
  split
  · exact ⟨_, rfl⟩
  next d rest hdrop =>
    -- the character is no letter, since the word goes on as long as there are letters
    have hd : d ∈ past := (dropWhile_sublist _).mem (hdrop ▸ mem_cons_self ..)
    have hword : Text.isWordChar d = false := by
      have hhead := head?_dropWhile_not Text.isWordChar past
      rw [hdrop] at hhead
      exact hhead
    have hsize : d.utf8Size = 1 := by
      by_cases hascii : d.toNat < 128
      · exact utf8Size_of_toNat_lt hascii
      · have hplain := h d hd
        rw [isAsciiOrLetter, decide_eq_false hascii] at hplain
        rw [Text.isWordChar, Lexeme.isLetterOrNumber_of_isLetter hplain] at hword
        cases hword
    rw [hsize]
    exact ⟨_, rfl⟩

theorem functionParams_settles : r.Rests (scan functionParams) s fun _ _ => True := by
  refine .holding fun hs => ?_
  have hwhole : ∃ answer, functionParams s.cursor = Scan.whole answer s.cursor ∧
      (answer = none → ¬b.plain) := by
    have hparams : ∀ frame ∈ s.cursor.lastClosed, ∃ answer,
        (Scan.whole (paramsIn s.cursor frame) >>= fun t => pure (some t) : Scan (Option Text))
          s.cursor = Scan.whole answer s.cursor ∧ (answer = none → ¬b.plain) := by
      intro frame hframe
      obtain ⟨params, hparams⟩ := paramsIn_eq hs.cursor (hs.cursor.closed frame hframe)
      rw [hparams]
      exact ⟨some (some params), rfl, by rintro ⟨⟩⟩
    unfold functionParams
    rw [Scan.get_bind]
    generalize hbehind : (s.cursor.past.drop 1).dropWhile Text.isBlank = behind
    split
    next past =>
      dsimp only
      split
      · cases hclosed : s.cursor.lastClosed with
        | none => exact ⟨some none, rfl, by rintro ⟨⟩⟩
        | some frame => exact hparams frame hclosed
      cases harrow : arrowParam? (past.dropWhile Text.isBlank) with
      | none =>
        refine ⟨none, rfl, fun _ hplain => ?_⟩
        have hplain : ∀ d ∈ past.dropWhile Text.isBlank, isAsciiOrLetter d = true := by
          intro d hd
          refine r.plain hplain d ?_
          rw [hs.cursor.text_eq]
          refine mem_append_left _ (mem_reverse.mpr (mem_of_mem_drop (i := 1) ?_))
          refine (dropWhile_sublist Text.isBlank).mem ?_
          rw [hbehind]
          exact mem_cons_of_mem _ (mem_cons_of_mem _ ((dropWhile_sublist _).mem hd))
        obtain ⟨param, hparam⟩ := arrowParam?_eq hplain
        cases harrow.symm.trans hparam
      | some param => exact ⟨some (some param), rfl, by rintro ⟨⟩⟩
    · cases hclosed : s.cursor.lastClosed with
      | none => exact ⟨some none, rfl, by rintro ⟨⟩⟩
      | some frame =>
        dsimp only
        split
        · exact ⟨some none, rfl, by rintro ⟨⟩⟩
        · exact hparams frame hclosed
    · exact ⟨some none, rfl, by rintro ⟨⟩⟩
  obtain ⟨answer, hanswer, hplain⟩ := hwhole
  exact (Stretch.Settles.scanWhole hanswer hplain).mono fun _ _ _ _ => trivial

theorem step_settles (hinner : Inner r inner inner') (code : Code) :
    r.Settles (code.step inner) (code.step inner') s fun p s' => s.Reads s' "<" p.2 := by
  refine .bind .find fun found s1 _ hfound => ?_
  dsimp only
  rcases hfound with ⟨hnone, hend⟩ | ⟨d, hmem, hd, hmatch, hrest, hlt⟩
  · rw [hnone]
    exact .bind commit_settles fun _ s2 h2 _ => .pure (.of_end hend h2.moved)
  rw [hd]
  obtain ⟨past, hpast⟩ : ∃ past, s1.cursor.past = d :: past := hmatch.imp fun _ h => h.1
  have hmark : isMarker d = true → s1.cursor.PastMarker := fun hm =>
    ⟨past.reverse, d, [], hm, by rw [hpast, reverse_cons]⟩
  -- whatever is made of the character, it has been read
  have hdone : ∀ {x y : Compile Code} {Q : Code → Session → Prop}, r.Settles x y s1 Q →
      r.Settles (x >>= fun code => pure (code, .next)) (y >>= fun code => pure (code, .next)) s1
        fun p s' => s.Reads s' "<" p.2 := fun hx =>
    hx.bind fun _ _ h2 _ => .pure (.next hlt h2.moved)
  simp only [breakpoints, mem_cons, not_mem_nil] at hmem
  rcases hmem with rfl | rfl | rfl | rfl | rfl | rfl | rfl | rfl | rfl | h
  · exact .bind (.pushParen hmatch) fun _ s2 h2 _ => .pure (.next hlt h2.moved)
  · exact .bind (Stretch.Settles.popParen hmatch).discard fun _ s2 h2 _ => .pure (.next hlt h2.moved)
  · refine .bind functionParams_settles fun params s2 h2 _ => .bind commit_settles fun _ s3 h3 _ => ?_
    refine .bind (.modifyOutput ?_ ?_) fun _ s4 h4 _ => ?_
    · cases params <;> rfl
    · cases params <;> exact id
    · exact .pure (.next hlt ((h2.trans h3).trans h4).moved)
  · refine .bind commit_settles fun code s2 h2 _ => ?_
    split
    · refine .bind (.modifyOutput rfl id) fun _ s3 h3 _ => ?_
      exact .pure (.next hlt (h2.trans h3).moved)
    · exact .pure (.next hlt h2.moved)
  · exact hdone callShorthand_settles
  · exact hdone (computed_settles hinner _ (hmark rfl))
  · exact hdone (reactiveRead_settles hinner .tracked _ hpast)
  · exact hdone (reactiveRead_settles hinner .untracked _ hpast)
  · change r.Settles (if (code.push found.before).fragment = true then _ else _)
      (if (code.push found.before).fragment = true then _ else _) s1 _
    split
    · exact .pure (.next hlt (.refl _))
    · refine .bind (.regionEntry hmatch) fun entry s2 h2 hentry => ?_
      have hcommit : ∀ result, result ≠ .eof →
          r.Rests ((code.push found.before).commit >>= fun code => pure (code, result)) s2
            fun p s' => s.Reads s' "<" p.2 := fun result hresult =>
        .bind commit_settles fun _ s3 _ h3 => .pure (.tag ((h3.trans hentry) ▸ hrest) hresult)
      cases entry with
      | element | comment => exact hcommit .child (by rintro ⟨⟩)
      | closing => exact hcommit .close (by rintro ⟨⟩)
      | none => exact .pure (.next hlt h2.moved)
  · exact h.elim

/-- The fuel of a fragment suffices: every step but the last reads a character. -/
theorem run_settles (hinner : Inner r inner inner') {fuel : Nat} (code : Code)
    (hfuel : s.cursor.rest.length < fuel) :
    r.Settles (run inner fuel code) (run inner' fuel code) s fun _ _ => True := by
  induction fuel generalizing s code with
  | zero => exact absurd hfuel (Nat.not_lt_zero _)
  | succ fuel ih =>
    refine (step_settles hinner code).bind ?_
    rintro ⟨code, result⟩ s1 _ h1
    dsimp only at h1 ⊢
    split
    · exact .pure trivial
    next hresult =>
      have hlt := h1.reads fun heof => hresult (by rw [heof]; rfl)
      exact ih code (by omega)

end Code

/-! ## Fragments in fragments -/

section

variable {b : Bounds} {r : Stretch b} {s : Session}

variable {inner inner' : Purpose → Expander}

/-- The session around a fragment has a part in it by the name of the value only. The session of the
fragment hands back its counters and its warnings. -/
theorem expandWith_result (part : Stretch b) (hinner : Inner part inner inner')
    (hvalue : s.output.names.value = b.value) (tracked : Bool) :
    Settles b (expandWith inner part.text part.base tracked)
      (expandWith inner' part.text part.base tracked) s fun _ s' => s'.cursor = s.cursor ∧
        s'.output.names = s.output.names ∧ s'.output.pendings = s.output.pendings ∧
        ∃ warnings, s'.warnings = s.warnings ++ warnings ∧ ∀ f ∈ warnings, f.Upto b.limit := by
  let fragment : Session :=
    { cursor := .ofText part.text part.base, output := s.output.fork, settings := s.settings
      warnings := [] }
  have hholds : part.Holds fragment := ⟨⟨rfl, rfl, nofun, nofun⟩, hvalue, nofun, nofun⟩
  have hrun := Code.run_settles hinner { tracked, fragment := true }
    (Nat.lt_succ_self part.text.length) hholds
  have heq : ∀ inner, expandWith inner part.text part.base tracked s =
      Except.bind (Code.run inner _ _ fragment) _ := fun _ => rfl
  refine ⟨⟨?_, fun e s' he => ?_⟩, fun h he => ?_⟩
  · rw [heq, heq, hrun.same]
  all_goals
    rw [heq] at he
    cases hok : Code.run inner' (part.text.length + 1) { tracked, fragment := true } fragment
    all_goals
      rw [hok] at he
      cases he
  · exact ⟨rfl, rfl, rfl, _, rfl, (hrun.result _ _ hok).1.holds.warnings⟩
  · exact hrun.halts _ hok

theorem expandWith_settles (part : Stretch b) (hinner : Inner part inner inner') (tracked : Bool) :
    r.Settles (expandWith inner part.text part.base tracked)
      (expandWith inner' part.text part.base tracked) s s.Stood := by
  intro hs
  have hexpand := expandWith_result part hinner hs.value tracked
  refine ⟨hexpand.toAgree.mono ?_, hexpand.halts⟩
  rintro _ s' ⟨hcursor, hnames, hpendings, warnings, hwarnings, hall⟩
  refine ⟨⟨⟨hcursor ▸ hs.cursor, hnames ▸ hs.value, hpendings ▸ hs.pendings, ?_⟩, hcursor ▸ .refl _⟩,
    hcursor⟩
  exact hwarnings ▸ forall_mem_append.mpr ⟨hs.warnings, hall⟩

/-- There is room for a text at a position, and for the fragments in it down to a depth. The name
that is put in front of a chain may take a fragment beyond the end of the text around it, if there is
less in front of the chain; each such name takes its length at most. A name without a `*` does so only
once: in the fragment, a chain stands behind the name. -/
def Bounds.Room (b : Bounds) (depth base : Nat) (text : Text) : Prop :=
  ∃ slack, base + bytes text + slack ≤ b.limit ∧
    ('*' ∈ b.value → depth * bytes b.value ≤ slack) ∧
    ('*' ∉ b.value → ∀ front back, text = front ++ '*' :: back →
      bytes b.value ≤ base + slack + bytes front + 2)

namespace Bounds.Room

variable {depth base : Nat} {text : Text}

theorem fits (h : b.Room depth base text) : base + bytes text ≤ b.limit := by
  obtain ⟨slack, hle, -⟩ := h
  omega

theorem mono (h : b.Room depth base text) {depth' : Nat} (hle : depth' ≤ depth) :
    b.Room depth' base text := by
  obtain ⟨slack, hslack, hstar, hplain⟩ := h
  exact ⟨slack, hslack, fun hs => Nat.le_trans (Nat.mul_le_mul_right _ hle) (hstar hs), hplain⟩

theorem part (h : b.Room depth base text) (front gap : Text) {part back : Text}
    (htext : text = front ++ (gap ++ (part ++ back))) :
    b.Room depth (base + bytes front) part := by
  obtain ⟨slack, hslack, hstar, hplain⟩ := h
  rw [htext] at hslack
  simp only [bytes_append] at hslack
  refine ⟨slack + bytes gap, by omega, fun hs => Nat.le_add_right_of_le (hstar hs), ?_⟩
  rintro hs front' back' rfl
  have hle := hplain hs (front ++ (gap ++ front')) (back' ++ back) (by rw [htext]; simp)
  simp only [bytes_append] at hle
  omega

theorem chain (h : b.Room (depth + 1) base text) {front gap chain back : Text} (hgap : gap ≠ [])
    (htext : text = front ++ '*' :: (gap ++ (chain ++ back))) :
    b.Room depth (base + bytes (front ++ '*' :: gap) - bytes b.value) (b.value ++ chain) := by
  obtain ⟨slack, hslack, hstar, hplain⟩ := h
  have hpositive : 0 < bytes gap := by
    cases gap with
    | nil => exact absurd rfl hgap
    | cons d gap =>
      have hsize := d.utf8Size_pos
      rw [bytes]
      omega
  have hwidth : bytes (front ++ '*' :: gap) = bytes front + (1 + bytes gap) := by
    rw [bytes_append]
    rfl
  have hwhole : bytes text =
      bytes (front ++ '*' :: gap) + (bytes chain + bytes back) := by
    rw [htext, ← bytes_append, ← bytes_append, append_assoc]
    rfl
  -- as far as the name would lie before the start of the document, there is less room
  have hexcess : bytes b.value ≤ base + bytes (front ++ '*' :: gap) + slack := by
    by_cases hs : '*' ∈ b.value
    · have hle := hstar hs
      rw [Nat.succ_mul] at hle
      omega
    · have hle := hplain hs front _ htext
      omega
  refine ⟨slack - (bytes b.value - (base + bytes (front ++ '*' :: gap))), ?_, fun hs => ?_,
    fun hs front' back' hsplit => ?_⟩
  · rw [bytes_append b.value]
    omega
  · have hle := hstar hs
    rw [Nat.succ_mul] at hle
    omega
  · obtain ⟨more, rfl, -⟩ := exists_append_of_not_mem hsplit hs
    rw [bytes_append b.value]
    omega

end Bounds.Room

/-- Where the markers of a text are counted by the depth of fragments, the depth suffices, unless the
name of the value has markers of its own. -/
def Bounds.Deep (b : Bounds) (depth : Nat) (text : Text) : Prop :=
  b.value.any isMarker = true ∨ text.countP isMarker ≤ depth

namespace Bounds.Deep

variable {depth : Nat} {text : Text}

theorem part {front m gap part back} (h : b.Deep (depth + 1) text) (hm : isMarker m = true)
    (htext : text = front ++ m :: (gap ++ (part ++ back))) : b.Deep depth part := by
  refine h.imp_right fun hle => ?_
  rw [htext] at hle
  simp only [countP_append, countP_cons_of_pos hm] at hle
  omega

theorem chain {front gap chain back} (h : b.Deep (depth + 1) text)
    (htext : text = front ++ '*' :: (gap ++ (chain ++ back))) : b.Deep depth (b.value ++ chain) := by
  by_cases hvalue : b.value.any isMarker = true
  · exact .inl hvalue
  · refine (h.part rfl htext).imp_right fun hle => ?_
    have hnone : b.value.countP isMarker = 0 := by
      rw [countP_eq_zero]
      exact fun d hd hm => hvalue (any_eq_true.mpr ⟨d, hd, hm⟩)
    rw [countP_append]
    omega

theorem zero {front m back} (h : b.Deep 0 text) (hm : isMarker m = true)
    (htext : text = front ++ m :: back) : b.value.any isMarker = true := by
  refine h.resolve_right fun hle => ?_
  rw [htext, countP_append, countP_cons_of_pos hm] at hle
  omega

end Bounds.Deep

variable {doc : Text} {h : Halt}

/-- A fragment that is located is expanded. -/
theorem strictAt_settles {depth : Nat} {purpose : Purpose} {tracked : Bool} {part : Stretch b}
    (hinner : Inner part (Expansion.strictAt doc h depth) fun _ => expandAt depth)
    (hlocated : r.Holds s → located doc s part.text part.base purpose = true) :
    r.Settles (Expansion.strictAt doc h (depth + 1) purpose part.text part.base tracked)
      (expandAt (depth + 1) part.text part.base tracked) s s.Stood := by
  intro hs
  have hexpand := expandWith_settles part hinner tracked hs
  have hstrict : Expansion.strictAt doc h (depth + 1) purpose part.text part.base tracked s =
      expandWith (Expansion.strictAt doc h depth) part.text part.base tracked s :=
    if_pos (hlocated hs)
  exact ⟨⟨hstrict.trans hexpand.same, hexpand.result⟩, hexpand.halts⟩

/-- Fragments of a stretch are expanded where they stand, and what they come to is within the
bounds. -/
theorem strictAt_inner (hvalue : b.PlainValue) {depth : Nat} (r : Stretch b)
    (hroom : b.Room depth r.base r.text) (hdeep : b.Deep depth r.text) :
    Inner r (Expansion.strictAt doc h depth) fun _ => expandAt depth := by
  induction depth generalizing r with
  | zero =>
    refine ⟨fun _ hhas => Stretch.Settles.throw ?_, fun hhas => Stretch.Settles.throw ?_⟩
    · obtain ⟨front, m, gap, back, hm, htext, -⟩ := hhas
      exact hdeep.zero hm htext
    · obtain ⟨front, gap, back, -, htext, -⟩ := hhas
      exact hdeep.zero rfl htext
  | succ depth ih =>
    refine ⟨@fun _ _ _ _ s hpurpose hhas => ?_, @fun _ _ _ s hhas => ?_⟩
    · have hlocated := fun hs : r.Holds s => Stretch.located_of_locates doc hs hpurpose
        (hs.cursor.locates hhas.has (hhas.standsAt hs.cursor))
      have hplain := hhas.has.plain
      obtain ⟨front, m, gap, back, hm, htext, rfl⟩ := hhas
      have hroom' := (hroom.mono (Nat.le_succ depth)).part (front ++ m :: gap) []
        (htext.trans (append_assoc front (m :: gap) _).symm)
      exact strictAt_settles (ih ⟨_, _, hroom'.fits, hplain⟩ hroom' (hdeep.part hm htext)) hlocated
    · have hlocated := fun hs : r.Holds s => Stretch.located_of_hasChain doc hs hhas
      have hplain := hhas.plain hvalue
      obtain ⟨front, gap, back, hgap, htext, rfl⟩ := hhas
      have hroom' := hroom.chain hgap htext
      exact strictAt_settles (ih ⟨_, _, hroom'.fits, hplain⟩ hroom' (hdeep.chain htext)) hlocated

end

/-! ## Fragments of the document -/

/-- What a document requires of two ways to expand its fragments. -/
structure Expands {b : Bounds} (r : Stretch b) (E E' : Expansion) : Prop where
  direct : ∀ {purpose : Purpose} {text : Text} {at_ : Nat} {tracked : Bool} {s : Session},
    purpose.direct = true → r.Has at_ text →
    r.Settles (E.expand purpose text at_ tracked) (E'.expand purpose text at_ tracked) s s.Stood
  initializer : ∀ {front blanks text back : Text} {tracked : Bool} {s : Session},
    r.text = front ++ (blanks ++ (text ++ back)) → blanks.all Text.isBlank = true →
    (∀ c ∈ text.head?, Text.isBlank c = false) →
    (blanks ++ (text ++ back)).head?.any (fun c => c == ' ' || c == '\t') = false →
    r.Settles (E.expand .initializer text (r.base + bytes front) tracked)
      (E'.expand .initializer text (r.base + bytes front) tracked) s s.Stood
  chain : ∀ {chain : Text} {at_ : Nat} {tracked : Bool} {s : Session}, r.HasChain at_ chain →
    r.Settles (E.expand .chain (b.value ++ chain) (at_ - bytes b.value) tracked)
      (E'.expand .chain (b.value ++ chain) (at_ - bytes b.value) tracked) s s.Stood

/-- A program settles with either of the two ways. -/
abbrev Expands.Settles {b : Bounds} {r : Stretch b} {E E' : Expansion} (_ : Expands r E E') {α : Type}
    (x : Expansion → Compile α) (s : Session) (Q : α → Session → Prop) : Prop :=
  r.Settles (x E) (x E') s Q

theorem Expands.inner {b : Bounds} {r : Stretch b} {E E' : Expansion} (h : Expands r E E') :
    Inner r E.expand E'.expand :=
  ⟨fun hpurpose hhas => h.direct hpurpose hhas.has, h.chain⟩

/-- The fragments of a document are expanded where they stand. -/
theorem strict_expands {b : Bounds} (hvalue : b.PlainValue) (r : Stretch b) (hbase : r.base = 0)
    (hroom : b.Room (r.text.countP isMarker + b.value.countP isMarker) r.base r.text) (h : Halt) :
    Expands r (Expansion.strict r.text h) Expansion.direct := by
  -- each fragment is expanded to the depth of its own markers
  have hpart : ∀ (gap : Text) {front text back : Text} {purpose : Purpose} {tracked : Bool} {s : Session},
      r.text = front ++ (gap ++ (text ++ back)) →
      (r.Holds s → located r.text s text (r.base + bytes front) purpose = true) →
      r.Settles (Expansion.strictAt r.text h (text.countP isMarker + 1) purpose text
          (r.base + bytes front) tracked)
        (expandAt (text.countP isMarker + 1) text (r.base + bytes front) tracked) s s.Stood := by
    intro gap front text back purpose tracked s htext hlocated
    have hcount : text.countP isMarker ≤ r.text.countP isMarker + b.value.countP isMarker := by
      rw [htext]
      simp only [countP_append]
      omega
    have hroom' := (hroom.mono hcount).part front gap htext
    have hplain : b.plain → ∀ c ∈ text, isAsciiOrLetter c = true := fun hp c hc =>
      r.plain hp c (by rw [htext]; simp [hc])
    exact strictAt_settles
      (strictAt_inner hvalue ⟨_, _, hroom'.fits, hplain⟩ hroom' (.inr (Nat.le_refl _))) hlocated
  refine ⟨@fun _ _ _ _ s hpurpose hhas => ?_, fun htext hblanks hhead hline => ?_,
    @fun chain _ _ s hhas => ?_⟩
  · have hlocated := fun hs : r.Holds s => Stretch.located_of_locates r.text hs hpurpose
      (hs.cursor.locates hhas fun _ => hs.cursor.standsAt (by
        rw [hs.cursor.base, hs.cursor.input, hbase]
        exact standsAt_iff.mpr ⟨[], [], (append_nil _).symm, rfl⟩) hhas)
    obtain ⟨front, back, htext, rfl⟩ := hhas
    exact hpart [] htext hlocated
  · refine hpart _ htext fun _ => ?_
    rw [hbase, Nat.zero_add]
    exact standsAfterBlanks_of htext hblanks hhead hline
  · have hlocated := fun hs : r.Holds s => Stretch.located_of_hasChain r.text hs hhas
    have hplain := hhas.plain hvalue
    obtain ⟨front, gap, back, hgap, htext, rfl⟩ := hhas
    have hcount : (b.value ++ chain).countP isMarker + 1 ≤
        r.text.countP isMarker + b.value.countP isMarker := by
      rw [htext]
      simp only [countP_append, countP_cons_of_pos (show isMarker '*' = true from rfl)]
      omega
    have hroom' := (hroom.mono hcount).chain hgap htext
    exact strictAt_settles
      (strictAt_inner hvalue ⟨_, _, hroom'.fits, hplain⟩ hroom' (.inr (Nat.le_refl _))) hlocated

end Patchwork
