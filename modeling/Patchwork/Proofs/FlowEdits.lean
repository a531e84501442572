import Mathlib.Data.List.Pairwise
import Patchwork.Proofs.FlowBrackets
import Patchwork.Proofs.Reactive

/-!
# The brackets of control flow after its edits

When a region ends, its reactive statements are edited: a head becomes the front of a call, a
callback is put around a branch, a selector in front of the branches of a choice. A statement that
fits before its edits (`Made.fits`) fits after them as well, though with another fate.

There is one lemma for each way to be edited: `fits_flow` for a loop or a switch, `fits_each` for an
iteration, `fits_choice` for the branches of a choice. The head of an iteration is written anew by its
edits, so there the texts of the old one do not matter (`Fits.newHead`). All else is put around what
a slot has, and that only adds to what is open (`Fits.wrapped`).

Main result: `Made.fits_edited`.
-/

namespace Patchwork

open Brackets List

/-! ## Texts that generated code is made of -/

/-- The names that control flow uses have their brackets closed. -/
structure Names.Balanced (kinds : Kinds) (N : Names) : Prop where
  runtime : Brackets.Balanced kinds N.runtime
  context : Brackets.Balanced kinds N.context
  tracker : Brackets.Balanced kinds N.tracker

section Texts

variable {kinds : Kinds} {N : Names} {o : Output} {t : Text}

theorem balanced_ofNat (n : Nat) : Balanced kinds (Text.ofNat n) := by
  refine .of_all (p := Char.isDigit) (by decide) (all_eq_true.mpr fun c hc => ?_)
  exact Nat.isDigit_of_mem_toDigits (by decide) (by decide) hc

theorem Keyword.balanced_text (keyword : Keyword) : Balanced kinds keyword.text := by
  cases keyword <;> exact .literal (by decide)

/-- A value that is nothing but a read has a name without brackets. -/
theorem balanced_bareRead? {unparsed : Text} (h : bareRead? unparsed = some t) :
    Balanced kinds t := by
  unfold bareRead? at h
  split at h
  next name _ =>
    split at h
    next hname =>
      cases h
      refine .of_all (p := fun c => Text.isWordChar c || c == '.') (by decide) ?_
      exact (Bool.and_eq_true_iff.mp (Bool.and_eq_true_iff.mp hname).1).2
    · cases h
  · cases h

theorem balanced_arrowParams (ht : Balanced kinds t) : Balanced kinds (Output.arrowParams t) := by
  unfold Output.arrowParams
  split
  · exact ht
  · exact ht.inRound

theorem balanced_callbackHead (dialect : Dialect) (ht : Balanced kinds t) :
    Balanced kinds (callbackHead dialect t) := by
  cases dialect with
  | modern => exact ht.openRound.append (.literal (by decide))
  | legacy =>
    have hfront : Turns kinds [] "function(" [.round] := .literal (by decide)
    exact (hfront.append (ht.turns [.round])).append (.literal (by decide))

/-- The choice between branches is balanced if their conditions are. -/
theorem balanced_selector {parts : List Part}
    (h : ∀ p ∈ parts, ∀ c ∈ p.condition, Balanced kinds c) :
    Balanced kinds (Statement.selector parts) := by
  refine .append (.flatMap fun entry hentry => ?_) ?_
  · have hp := h entry.1 (fst_mem_of_mem_zipIdx hentry)
    show Balanced kinds (Statement.choice entry.1 entry.2)
    unfold Statement.choice
    split
    next c hc =>
      refine (((hp c hc).append ?_).append (balanced_ofNat _)).append ?_
      · exact .literal (by decide)
      · exact .literal (by decide)
    · exact balanced_ofNat _
  · split
    · exact .literal (by decide)
    · exact .nil []

variable (hN : N.Balanced kinds) (ho : o.Named N)
include hN ho

/-- A call of the runtime leaves its parenthesis open. -/
theorem turns_call {name : Text} (hname : Balanced kinds name) (ht : Balanced kinds t) :
    Turns kinds [] (o.feature name ++ '(' :: t ++ ", ") [.round] := by
  have hfeature : Balanced kinds (o.feature name) := by
    rw [Output.feature, ho.names]
    exact hN.runtime.append (.cons (.literal (by decide)) hname)
  exact (Turns.append hfeature ht.openRound).append (.literal (by decide))

theorem balanced_arrow (ht : Balanced kinds t) : Balanced kinds (o.arrow o.names.tracker t) := by
  have htracker : Balanced kinds o.names.tracker := ho.names ▸ hN.tracker
  unfold Output.arrow
  split
  · exact ((balanced_arrowParams htracker).append (.literal (by decide))).append ht
  have hfront : Turns kinds [] "function(" [.round] := .literal (by decide)
  have hbody : Turns kinds [.round] ")\x7breturn " [.curly] := .literal (by decide)
  have hback : Turns kinds [.curly] "\x7d.bind(this)" [] := .literal (by decide)
  exact (((hfront.append (htracker.turns [.round])).append hbody).append
    (ht.turns [.curly])).append hback

theorem balanced_wrapReactive (ht : Balanced kinds t) : Balanced kinds (o.wrapReactive t) := by
  have hcontext : Balanced kinds o.context := ho.context ▸ hN.context
  have harrow := (balanced_arrow hN ho ht).turns [.round]
  exact ((turns_call hN ho (.literal (by decide)) hcontext).append harrow).append (.literal (by decide))

/-- The front of the call of a `foreach` leaves its parenthesis open. -/
theorem Foreach.call_turns {subject : Subject} {binding front params : Text} {each : Each}
    (hcall : call o subject binding = (front, params, each))
    (hsources : ∀ t ∈ subject.sources, Balanced kinds t) : Turns kinds [] front [.round] := by
  cases subject with
  | iterated unparsed e =>
    have he := hsources e.source (mem_singleton_self _)
    unfold call at hcall
    dsimp only at hcall
    split at hcall
    · cases hcall
      exact turns_call hN ho (.literal (by decide)) he
    cases hcall
    exact turns_call hN ho (.literal (by decide)) he
  | range first last =>
    have hfirst := hsources first.source mem_cons_self
    have hlast := hsources last.source (mem_cons_of_mem _ (mem_singleton_self _))
    cases hcall
    exact ((turns_call hN ho (.literal (by decide)) hfirst).append (hlast.turns [.round])).append
      (.literal (by decide))

end Texts

/-! ## Statements that are left as they are -/

/-- What the head of a branch leaves open: a `foreach` is a call. -/
def Keyword.bracket : Keyword → List Bracket
  | foreach => [.round]
  | ifTrue | elseIf | otherwise | forLoop | whileLoop | switch => []

namespace Keyword

variable {keyword : Keyword}

theorem bracket_of_hasCondition (h : keyword.hasCondition = true) : keyword.bracket = [] := by
  cases keyword with
  | foreach => cases h
  | ifTrue | elseIf | otherwise | forLoop | whileLoop | switch => rfl

theorem bracket_of_not_begins (h : keyword.begins = false) : keyword.bracket = [] := by
  cases keyword with
  | foreach => cases h
  | ifTrue | elseIf | otherwise | forLoop | whileLoop | switch => rfl

/-- A statement that may go on begins with `if`. -/
theorem eq_ifTrue (hb : keyword.begins = true) (hc : keyword.continuable = true) :
    keyword = ifTrue := by
  cases keyword with
  | ifTrue => rfl
  | elseIf | otherwise => cases hb
  | forLoop | whileLoop | switch | foreach => cases hc

end Keyword

section Heads

variable {kinds : Kinds} {N : Names} {o : Output} {v : SlotId → Text}

/-- What a `foreach` goes through is one of the texts of its head. -/
theorem Foreach.source_mem {subject : Subject} {binding front params : Text} {each : Each}
    (hcall : call o subject binding = (front, params, each)) (hr : each.iteration ≠ .range) :
    each.source ∈ subject.sources := by
  cases subject with
  | iterated unparsed e =>
    unfold call at hcall
    dsimp only at hcall
    split at hcall <;> cases hcall <;> exact mem_singleton_self _
  | range first last =>
    cases hcall
    exact absurd rfl hr

/-- A head whose slots hold what they were made with. -/
theorem HeadItems.headText_turns (hN : N.Balanced kinds) {keyword : Keyword}
    {head : Tracker.BranchHead} {items : List Item} (h : HeadItems N keyword head items)
    (hgiven : ∀ item ∈ items, ∀ t ∈ item.given, Balanced kinds t)
    (hv : ∀ id t given, Item.slot id t given ∈ items → v id = t) {p : Part}
    (hd : p.decl = head.decl) (hp : p.params = head.params) :
    Turns kinds [] (p.headText v) keyword.bracket := by
  unfold Part.headText
  rw [hd, hp]
  cases h with
  | otherwise decl =>
    show Turns kinds [] (v decl ++ []) []
    rw [hv decl _ _ (mem_singleton_self _)]
    exact .literal (by decide)
  | condition hk decl skipped source reactive =>
    have hgiven := hgiven _ (mem_singleton_self _)
    have hskipped := hgiven skipped mem_cons_self
    have hsource := hgiven source (mem_cons_of_mem _ (mem_singleton_self _))
    show Turns kinds [] (v decl ++ []) keyword.bracket
    rw [hv decl _ _ (mem_singleton_self _), Keyword.bracket_of_hasCondition hk, append_nil]
    have hfront := keyword.balanced_text.append hskipped
    exact (Turns.append hfront hsource.openRound).append (.literal (by decide))
  | foreach ho subject binding decl slot hcall =>
    have hsources := hgiven _ mem_cons_self
    have hparams := hgiven _ (mem_cons_of_mem _ (mem_singleton_self _)) _ (mem_singleton_self _)
    have hfront := Foreach.call_turns hN ho hcall hsources
    show Turns kinds [] (v decl ++ v slot) [.round]
    rw [hv decl _ _ mem_cons_self, hv slot _ _ (mem_cons_of_mem _ (mem_singleton_self _))]
    exact hfront.append ((balanced_callbackHead _ hparams).turns [.round])

theorem HeadItems.trailer_turns {keyword : Keyword} {head : Tracker.BranchHead} {items : List Item}
    (h : HeadItems N keyword head items) :
    Turns kinds (.curly :: keyword.bracket) ('}' :: head.trailer) [] := by
  cases h with
  | otherwise decl =>
    show Turns kinds [.curly] ['}'] []
    exact .literal (by decide)
  | condition hk decl skipped source reactive =>
    rw [Keyword.bracket_of_hasCondition hk]
    show Turns kinds [.curly] ['}'] []
    exact .literal (by decide)
  | @foreach o ho subject binding decl slot _ _ _ hcall =>
    show Turns kinds [.curly, .round] ('}' :: Foreach.trailer o.dialect) []
    cases o.dialect with
    | modern | legacy => exact .literal (by decide)

end Heads

namespace Statement.Formed

variable {st : Statement}

/-- Only an `if` has more than one branch. -/
theorem keyword_of_earlier (h : st.Formed) (he : st.earlier ≠ []) : st.keyword = .ifTrue := by
  obtain ⟨q, qs, he⟩ := exists_cons_of_ne_nil he
  have hfirst := h.first
  have hbegins := h.begins
  have hcont := (h.earlier q (he ▸ mem_cons_self)).2
  rw [he] at hfirst
  rw [← hfirst] at hbegins ⊢
  exact Keyword.eq_ifTrue hbegins hcont

theorem earlier_eq_nil (h : st.Formed) (hk : st.keyword ≠ .ifTrue) : st.earlier = [] := by
  by_contra he
  exact hk (h.keyword_of_earlier he)

/-- Every branch has a head of the kind of its statement. -/
theorem bracket_eq (h : st.Formed) {p : Part} (hp : p ∈ st.parts) :
    p.keyword.bracket = st.keyword.bracket := by
  have hfirst := h.first
  have hlater := h.later
  cases he : st.earlier with
  | nil =>
    rw [he] at hfirst
    rw [parts, he, nil_append, mem_singleton] at hp
    rw [hp, ← hfirst]
    rfl
  | cons q qs =>
    rw [he, headD_cons] at hfirst
    rw [parts, he] at hp hlater
    rcases mem_cons.mp hp with rfl | hp
    · rw [hfirst]
    · rw [h.keyword_of_earlier (by simp [he]), Keyword.bracket_of_not_begins (hlater p hp)]
      rfl

end Statement.Formed

/-- A branch that is no `foreach` has no parameters, and its condition is one of the texts of its
head. -/
theorem Part.Made.plain {kinds : Kinds} {N : Names} {items : List Item} {p : Part}
    (h : p.Made N items) (hgiven : ∀ item ∈ items, ∀ t ∈ item.given, Balanced kinds t)
    (hk : p.keyword.bracket = []) :
    p.params = none ∧ ∀ c ∈ p.condition, Balanced kinds c := by
  obtain ⟨head, more, hhead, hmore, -, hcondition, hparams⟩ := h.head
  rw [hparams, hcondition]
  generalize p.keyword = keyword at hhead hk
  cases hhead with
  | otherwise decl => exact ⟨rfl, nofun⟩
  | condition hk decl skipped source reactive =>
    refine ⟨rfl, ?_⟩
    rintro _ ⟨⟩
    exact hgiven _ (hmore (mem_singleton_self _)) source (by simp [Item.given])
  | foreach => cases hk

/-- The parameters of a `foreach` are one of the texts of its head. -/
theorem Part.Made.foreach {kinds : Kinds} {N : Names} {items : List Item} {p : Part}
    (h : p.Made N items) (hgiven : ∀ item ∈ items, ∀ t ∈ item.given, Balanced kinds t)
    (hk : p.keyword = .foreach) :
    ∃ slot params, p.params = some (slot, params) ∧ Balanced kinds params := by
  obtain ⟨head, more, hhead, hmore, -, -, hparams⟩ := h.head
  rw [hparams]
  rw [hk] at hhead
  cases hhead with
  | condition hk => cases hk
  | foreach ho subject binding decl slot hcall =>
    have hmem := hmore (mem_cons_of_mem _ (mem_singleton_self _))
    refine ⟨slot, _, rfl, hgiven _ hmem _ ?_⟩
    exact mem_singleton_self _

namespace Statement

variable {kinds : Kinds} {N : Names} {st : Statement} {items : List Item} {u v : SlotId → Text}

/-- What a `foreach` goes through, and the parameters of its callback. -/
theorem Made.foreach (hmade : st.Made N items) (hformed : st.Formed)
    (hgiven : ∀ item ∈ items, ∀ t ∈ item.given, Balanced kinds t) (hk : st.keyword = .foreach)
    {each : Each} (heach : st.each = some each) (hr : each.iteration ≠ .range) :
    Balanced kinds each.source ∧
      ∃ slot params, st.last.params = some (slot, params) ∧ Balanced kinds params := by
  refine ⟨?_, (hmade.parts st.last st.last_mem_parts).foreach hgiven ?_⟩
  · obtain ⟨head, more, hhead, hmore, -, hsame⟩ := hmade.front
    rw [heach] at hsame
    rw [hk] at hhead
    cases hhead with
    | condition hk => cases hk
    | foreach ho subject binding decl slot hcall =>
      cases hsame
      exact hgiven _ (hmore mem_cons_self) _ (Foreach.source_mem hcall hr)
  · have hfirst := hformed.first
    rw [hformed.earlier_eq_nil (by rw [hk]; decide)] at hfirst
    exact hfirst.trans hk

theorem Made.fits (hmade : st.Made N items) (hformed : st.Formed) (hN : N.Balanced kinds)
    (hgiven : ∀ item ∈ items, ∀ t ∈ item.given, Balanced kinds t)
    (hu : ∀ id t given, Item.slot id t given ∈ items → u id = t) :
    st.Fits kinds u ⟨[], st.keyword.bracket⟩ := by
  have hclose : ∀ p ∈ st.parts, ∀ c, p.close = some c →
      Turns kinds (.curly :: st.keyword.bracket) (u c) [] := by
    intro p hp c hc
    obtain ⟨head, more, hhead, -, htrailer, -⟩ := hmade.front
    rw [hu c _ _ (hmade.closes p hp c hc), htrailer]
    exact hhead.trailer_turns
  refine ⟨⟨?_, fun p hp => ⟨?_, ?_⟩, ?_⟩, ?_⟩
  · rw [hu _ _ _ hmade.start]
    exact .nil []
  · rw [hu _ _ _ (hmade.parts p hp).declStart]
    exact .nil []
  · obtain ⟨head, more, hhead, hmore, hd, -, hparams⟩ := (hmade.parts p hp).head
    rw [← hformed.bracket_eq hp]
    exact hhead.headText_turns hN (fun item hitem => hgiven item (hmore hitem))
      (fun id t given hitem => hu id t given (hmore hitem)) hd hparams
  · exact fun p hp => hclose p (mem_append_left _ hp)
  · intro c hc
    show Turns kinds (.curly :: st.keyword.bracket ++ []) (u c) []
    rw [append_nil]
    exact hclose st.last st.last_mem_parts c hc

end Statement

/-! ## Values of slots after edits -/

namespace Edit

def onAll (es : List Edit) (id : SlotId) (t : Text) : Text :=
  es.foldl (fun t e => e.on id t) t

variable {es : List Edit} {id : SlotId} {t : Text}

theorem onAll_append (es es' : List Edit) (id : SlotId) (t : Text) :
    onAll (es ++ es') id t = onAll es' id (onAll es id t) :=
  foldl_append ..

theorem onAll_of_forall_ne (h : ∀ e ∈ es, e.slot ≠ id) : onAll es id t = t := by
  induction es generalizing t with
  | nil => rfl
  | cons e es ih =>
    rw [forall_mem_cons] at h
    show onAll es id (e.on id t) = t
    rw [on, if_neg h.1]
    exact ih h.2

theorem onAll_keeps {P : Text → Prop} (ht : P t)
    (h : ∀ e ∈ es, e.slot = id → ∀ t, P t → P (e.change.apply (some t))) : P (onAll es id t) := by
  induction es generalizing t with
  | nil => exact ht
  | cons e es ih =>
    rw [forall_mem_cons] at h
    refine ih ?_ h.2
    show P (if e.slot = id then e.change.apply (some t) else t)
    split
    next hid => exact h.1 hid t ht
    · exact ht

end Edit

theorem SlotId.ne_of_lt {a b : SlotId} (h : a.index < b.index) : a ≠ b := by
  rintro rfl
  exact Nat.lt_irrefl _ h

namespace Statement

open Edit

variable {kinds : Kinds} {N : Names} {o : Output} {st : Statement} {items : List Item}
  {u v : SlotId → Text} {b : List Bracket} {close : SlotId}

/-- The slots of a closed statement of one branch, without the first and the last. -/
theorem Formed.apart_of_single (h : st.Formed) (he : st.earlier = [])
    (hc : st.last.close = some close) :
    st.start ≠ close ∧ ∀ id ∈ st.last.declStart :: st.last.decl ::
      (st.last.params.map Prod.fst).toList, id ≠ st.start ∧ id ≠ close := by
  have hasc := h.ascending
  rw [slots_eq, he, Part.slots, hc, flatMap_nil, nil_append, Option.toList_some,
    ← cons_append, ← cons_append, pairwise_cons, pairwise_append] at hasc
  obtain ⟨hstart, -, -, hclose⟩ := hasc
  refine ⟨SlotId.ne_of_lt (hstart close (by simp)), fun id hid => ⟨?_, ?_⟩⟩
  · exact (SlotId.ne_of_lt (hstart id (mem_append_left _ hid))).symm
  · exact SlotId.ne_of_lt (hclose id hid close (mem_singleton_self _))

theorem headText_congr {p : Part} (hd : v p.decl = u p.decl)
    (hp : ∀ params ∈ p.params, v params.1 = u params.1) : p.headText v = p.headText u := by
  unfold Part.headText
  rw [hd]
  cases hparams : p.params with
  | none => rfl
  | some params => exact congrArg (u p.decl ++ ·) (hp params hparams)

/-- Only the values of its own slots count. -/
theorem Fits.congr {f : Fate} (hu : st.Fits kinds u f) (hv : ∀ id ∈ st.slots, v id = u id) :
    st.Fits kinds v f := by
  have hclose : ∀ p ∈ st.parts, ∀ c, p.close = some c → v c = u c := fun p hp c hc =>
    hv c (mem_slots_of_part hp (by simp [Part.slots, hc]))
  refine ⟨⟨?_, fun p hp => ⟨?_, ?_⟩, fun p hp c hc => ?_⟩, fun c hc => ?_⟩
  · rw [hv _ mem_cons_self]
    exact hu.start
  · rw [hv _ (mem_slots_of_part hp mem_cons_self)]
    exact (hu.parts p hp).declStart
  · rw [headText_congr (hv _ (mem_slots_of_part hp (by simp [Part.slots])))]
    · exact (hu.parts p hp).head
    · intro params hparams
      exact hv _ (mem_slots_of_part hp (by simp [Part.slots, Option.mem_def.mp hparams]))
  · rw [hclose p (mem_append_left _ hp) c hc]
    exact hu.closes p hp c hc
  · rw [hclose st.last st.last_mem_parts c hc]
    exact hu.last c hc

/-- A text before the statement opens brackets and one after it closes them. -/
theorem Fits.wrapped (hu : st.Fits kinds u ⟨[], b⟩) (hformed : st.Formed) (he : st.earlier = [])
    (hc : st.last.close = some close) (outer : List Bracket) {front back : Text}
    (hfront : Turns kinds [] front outer) (hback : Turns kinds outer back [])
    (hv : ∀ id ∈ st.slots, v id =
      onAll [⟨st.start, .prepend front⟩, ⟨close, .append back⟩] id (u id)) :
    st.Fits kinds v ⟨outer, b⟩ := by
  obtain ⟨hends, hinside⟩ := hformed.apart_of_single he hc
  have hstart : v st.start = front ++ u st.start := by
    rw [hv _ mem_cons_self]
    simp [onAll, on, Change.apply, hends.symm]
  have hclose : v close = u close ++ back := by
    rw [hv _ (close_mem_slots hc)]
    simp [onAll, on, Change.apply, hends]
  -- what lies between is not touched
  have hsame : ∀ id ∈ st.last.declStart :: st.last.decl ::
      (st.last.params.map Prod.fst).toList, v id = u id := by
    intro id hid
    have hmem : id ∈ st.slots := by
      refine mem_slots_of_part st.last_mem_parts ?_
      exact mem_append_left _ hid
    rw [hv id hmem]
    refine onAll_of_forall_ne ?_
    rw [forall_mem_cons, forall_mem_singleton]
    exact ⟨(hinside id hid).1.symm, (hinside id hid).2.symm⟩
  have hpart := hu.parts st.last st.last_mem_parts
  refine ⟨⟨?_, ?_, ?_⟩, ?_⟩
  · rw [hstart]
    exact hfront.append (Balanced.turns hu.start outer)
  · rw [parts, he, nil_append, forall_mem_singleton]
    refine ⟨?_, ?_⟩
    · rw [hsame _ mem_cons_self]
      exact hpart.declStart
    · rw [headText_congr (hsame _ (mem_cons_of_mem _ mem_cons_self))]
      · exact hpart.head
      · intro params hparams
        exact hsame _ (by simp [Option.mem_def.mp hparams])
  · rw [he]
    exact forall_mem_nil _
  · intro c hc'
    obtain rfl : close = c := Option.some.inj (hc.symm.trans hc')
    have hlast := hu.last close hc
    rw [hclose]
    refine Turns.append ?_ hback
    rw [show Fate.opened ⟨[], b⟩ = .curly :: b from append_nil _] at hlast
    exact hlast.under outer

theorem fits_flow (hN : N.Balanced kinds) (ho : o.Named N) (hcontext : st.context = N.context)
    (hu : st.Fits kinds u ⟨[], b⟩) (hformed : st.Formed) (he : st.earlier = [])
    (hc : st.last.close = some close)
    (hv : ∀ id ∈ st.slots, v id = onAll (st.flowEdits close o) id (u id)) :
    ∃ f, st.Fits kinds v f := by
  have hctx : Balanced kinds st.context := hcontext ▸ hN.context
  have htracker : Balanced kinds o.names.tracker := ho.names ▸ hN.tracker
  have hflow : Turns kinds [] (o.feature "bindFlow" ++ '(' :: st.context ++ ", ") [.round] :=
    turns_call hN ho (.literal (by decide)) hctx
  unfold flowEdits at hv
  split at hv
  · refine ⟨_, hu.wrapped hformed he hc [.curly, .round] ?_ (.literal (by decide)) hv⟩
    have harrow : Turns kinds [.round] " => " [.round] := .literal (by decide)
    have hbody : Turns kinds [.round] " => \x7b" [.curly, .round] := .literal (by decide)
    exact (((hflow.append (htracker.turns [.round])).append harrow).append
      (hctx.turns [.round])).append hbody
  · refine ⟨_, hu.wrapped hformed he hc [.curly, .curly, .round] ?_ (.literal (by decide)) hv⟩
    have hfunction : Turns kinds [.round] "function(" [.round, .round] := .literal (by decide)
    have hreturn : Turns kinds [.round, .round] ")\x7breturn function(" [.round, .curly, .round] :=
      .literal (by decide)
    have hbody : Turns kinds [.round, .curly, .round] ")\x7b" [.curly, .curly, .round] :=
      .literal (by decide)
    exact ((((hflow.append hfunction).append (htracker.turns _)).append hreturn).append
      (hctx.turns _)).append hbody

theorem Fits.newHead (hu : st.Fits kinds u ⟨[], b⟩) (hformed : st.Formed) (he : st.earlier = [])
    {slot : SlotId} {params : Text} (hp : st.last.params = some (slot, params))
    {front callback : Text} (hhead : Turns kinds [] (front ++ callback) b)
    (hv : ∀ id ∈ st.slots, v id =
      onAll [⟨st.last.decl, .set front⟩, ⟨slot, .set callback⟩] id (u id)) :
    st.Fits kinds v ⟨[], b⟩ := by
  have hslots : st.slots =
      st.start :: st.last.declStart :: st.last.decl :: slot :: st.last.close.toList := by
    rw [slots_eq, he, Part.slots, hp]
    rfl
  have hasc := hformed.ascending
  rw [hslots] at hasc hv
  simp only [pairwise_cons, forall_mem_cons] at hasc hv
  obtain ⟨⟨-, hstartDecl, hstartSlot, -⟩, ⟨hbeforeDecl, hbeforeSlot, -⟩, ⟨hdeclSlot, hdeclClose⟩,
    hslotClose, -⟩ := hasc
  obtain ⟨hstart, hbefore, hdecl, hslot, hclose⟩ := hv
  have hother : ∀ id, st.last.decl ≠ id → slot ≠ id →
      onAll [⟨st.last.decl, .set front⟩, ⟨slot, .set callback⟩] id (u id) = u id :=
    fun id hd hs => onAll_of_forall_ne (forall_mem_cons.mpr
      ⟨hd, forall_mem_singleton.mpr hs⟩)
  rw [hother _ (SlotId.ne_of_lt hstartDecl).symm (SlotId.ne_of_lt hstartSlot).symm] at hstart
  rw [hother _ (SlotId.ne_of_lt hbeforeDecl).symm (SlotId.ne_of_lt hbeforeSlot).symm] at hbefore
  have hdecl : v st.last.decl = front := by
    rw [hdecl]
    simp [onAll, on, Change.apply, (SlotId.ne_of_lt hdeclSlot).symm]
  have hslot : v slot = callback := by
    rw [hslot]
    simp [onAll, on, Change.apply]
  have hpart := hu.parts st.last st.last_mem_parts
  refine ⟨⟨?_, ?_, ?_⟩, ?_⟩
  · rw [hstart]
    exact hu.start
  · rw [parts, he, nil_append, forall_mem_singleton]
    refine ⟨?_, ?_⟩
    · rw [hbefore]
      exact hpart.declStart
    · rw [Part.headText, hp, hdecl]
      show Turns kinds [] (front ++ v slot) b
      rw [hslot]
      exact hhead
  · rw [he]
    exact forall_mem_nil _
  · intro c hc
    have hmem : c ∈ st.last.close.toList := by simp [hc]
    rw [hclose c hmem, hother c (SlotId.ne_of_lt (hdeclClose c hmem))
      (SlotId.ne_of_lt (hslotClose c hmem))]
    exact hu.last c hc

/-- A `foreach` that is run again when the collection changes. -/
theorem fits_each {each : Each} (hN : N.Balanced kinds) (ho : o.Named N)
    (hcontext : st.context = N.context) (hsource : Balanced kinds each.source) {slot : SlotId}
    {params : Text} (hp : st.last.params = some (slot, params)) (hparams : Balanced kinds params)
    (hu : st.Fits kinds u ⟨[], [.round]⟩) (hformed : st.Formed) (he : st.earlier = [])
    (hv : ∀ id ∈ st.slots, v id = onAll (st.eachEdits each o) id (u id)) :
    st.Fits kinds v ⟨[], [.round]⟩ := by
  have hctx : Balanced kinds st.context := hcontext ▸ hN.context
  have hparts : st.parts = [st.last] := by rw [parts, he, nil_append]
  unfold eachEdits at hv
  rw [hparts, headD_cons] at hv
  dsimp only at hv
  rw [hp] at hv
  refine hu.newHead hformed he hp ?_ hv
  have hname : Balanced kinds
      (if each.iteration == .object then "bindFlowEachObject" else "bindFlowEach") := by
    split
    · exact .literal (by decide)
    · exact .literal (by decide)
  have hread : Balanced kinds ((bareRead? each.unparsed).getD (o.wrapReactive each.source)) := by
    cases hbare : bareRead? each.unparsed with
    | none => exact balanced_wrapReactive hN ho hsource
    | some name => exact balanced_bareRead? hbare
  have hcallback : Balanced kinds
      (if params.isEmpty then st.context else st.context ++ ", " ++ params) := by
    split
    · exact hctx
    · exact (hctx.append (.literal (by decide))).append hparams
  refine Turns.append ?_ ((balanced_callbackHead _ hcallback).turns [.round])
  exact ((turns_call hN ho hname hctx).append (hread.turns [.round])).append (.literal (by decide))

namespace Formed

variable {p : Part}

theorem eq_of_slot (h : st.Formed) {q : Part} (hp : p ∈ st.parts) (hq : q ∈ st.parts) {id : SlotId}
    (hid : id ∈ p.slots) (hid' : id ∈ q.slots) : p = q := by
  have hapart : st.parts.Pairwise fun p q => ∀ a ∈ p.slots, a ∉ q.slots := by
    have hasc := (pairwise_flatMap.mp (pairwise_cons.mp h.ascending).2).2
    refine hasc.imp fun {p q} hlt a ha ha' => ?_
    exact Nat.lt_irrefl _ (hlt a ha a ha')
  have hsymm : Std.Symm fun p q : Part => ∀ a ∈ p.slots, a ∉ q.slots :=
    ⟨fun p q hpq a ha ha' => hpq a ha' ha⟩
  by_contra hne
  exact hapart.forall hp hq hne id hid hid'

theorem start_not_mem (h : st.Formed) (hp : p ∈ st.parts) : st.start ∉ p.slots := by
  intro hmem
  have hlt := (pairwise_cons.mp h.ascending).1 st.start (mem_flatMap.mpr ⟨p, hp, hmem⟩)
  exact Nat.lt_irrefl _ hlt

/-- The slot after a branch is none of those before it, of any branch. -/
theorem close_ne (h : st.Formed) {q : Part} (hp : p ∈ st.parts) (hq : q ∈ st.parts) {c : SlotId}
    (hc : q.close = some c) : p.declStart ≠ c ∧ p.decl ≠ c := by
  have hmem : c ∈ q.slots := by simp [Part.slots, hc]
  have hasc := (pairwise_flatMap.mp (pairwise_cons.mp h.ascending).2).1 q hq
  rw [Part.slots, hc, pairwise_cons, pairwise_cons] at hasc
  constructor
  · rintro rfl
    obtain rfl := h.eq_of_slot hp hq mem_cons_self hmem
    exact Nat.lt_irrefl _ (hasc.1 p.declStart (by simp))
  · rintro rfl
    obtain rfl := h.eq_of_slot hp hq (mem_cons_of_mem _ mem_cons_self) hmem
    exact Nat.lt_irrefl _ (hasc.2.1 p.decl (by simp))

theorem close_ne_last (h : st.Formed) (hp : p ∈ st.earlier) {c : SlotId} (hc : p.close = some c)
    (hclose : st.last.close = some close) : c ≠ close := by
  have hasc := h.ascending
  rw [slots_eq, pairwise_cons, pairwise_append] at hasc
  refine SlotId.ne_of_lt (hasc.2.2.2 c (mem_flatMap.mpr ⟨p, hp, ?_⟩) close ?_)
  · simp [Part.slots, hc]
  · simp [Part.slots, hclose]

end Formed

/-- What the edits of a branch of an `if` leave in the slots of the branch. -/
theorem armEdits_cases {dialect : Dialect} {context : Text} (hctx : Balanced kinds context)
    {p : Part} {e : Edit} (he : e ∈ armEdits dialect context p) :
    ((e.slot = p.declStart ∨ e.slot = p.decl) ∧
      ∀ t, Balanced kinds (e.change.apply (some t))) ∨
    ((∃ c, p.close = some c ∧ e.slot = c) ∧
      ∀ t, Turns kinds [.curly] (e.change.apply (some t)) []) := by
  rcases mem_cons.mp he with rfl | he
  · refine .inl ⟨.inl rfl, fun t => ?_⟩
    cases dialect with
    | modern =>
      have hcomma : Balanced kinds ", " := .literal (by decide)
      have harrow : Balanced kinds " =>" := .literal (by decide)
      exact (hcomma.append hctx).append harrow
    | legacy =>
      have hfunction : Turns kinds [] ", function(" [.round] := .literal (by decide)
      have hparen : Turns kinds [.round] ")" [] := .literal (by decide)
      exact (hfunction.append (hctx.turns [.round])).append hparen
  rcases mem_cons.mp he with rfl | he
  · exact .inl ⟨.inr rfl, fun t => .nil []⟩
  split at he
  next hclose _ _ =>
    have hback : Turns kinds [.curly] "\x7d.bind(this)" [] := .literal (by decide)
    rw [mem_singleton.mp he]
    exact .inr ⟨⟨_, hclose, rfl⟩, fun _ => hback⟩
  · cases he

/-- An `if` that is chosen again when a condition changes. -/
theorem fits_choice (hN : N.Balanced kinds) (ho : o.Named N) (hcontext : st.context = N.context)
    (hconditions : ∀ p ∈ st.parts, ∀ c ∈ p.condition, Balanced kinds c)
    (hparams : ∀ p ∈ st.parts, p.params = none) (hu : st.Fits kinds u ⟨[], []⟩)
    (hformed : st.Formed) (hc : st.last.close = some close)
    (hv : ∀ id ∈ st.slots, v id = onAll (st.choiceEdits close o) id (u id)) :
    st.Fits kinds v ⟨[.round], []⟩ := by
  have hctx : Balanced kinds st.context := hcontext ▸ hN.context
  unfold choiceEdits at hv
  dsimp only at hv
  generalize hchoose : o.feature "bindFlowIfElse" ++ '(' :: st.context ++ ", " ++
    o.arrow o.names.tracker (selector st.parts) = choose at hv
  -- the slots before the bodies
  have hbefore : ∀ p ∈ st.parts, ∀ id, id = p.declStart ∨ id = p.decl →
      Balanced kinds (u id) → Balanced kinds (v id) := by
    intro p hp id hid hbal
    have hmem : id ∈ p.slots := by rcases hid with rfl | rfl <;> simp [Part.slots]
    have hne : ∀ q ∈ st.parts, ∀ c, q.close = some c → c ≠ id := by
      rintro q hq c hqc rfl
      rcases hid with rfl | rfl
      · exact (hformed.close_ne hp hq hqc).1 rfl
      · exact (hformed.close_ne hp hq hqc).2 rfl
    rw [hv id (mem_slots_of_part hp hmem), onAll_append, onAll_of_forall_ne]
    · refine onAll_keeps hbal fun e he hslot t _ => ?_
      obtain ⟨q, hq, he⟩ := mem_flatMap.mp he
      rcases armEdits_cases hctx he with ⟨-, hkeeps⟩ | ⟨⟨c, hqc, hec⟩, -⟩
      · exact hkeeps t
      · exact absurd (hec.symm.trans hslot) (hne q hq c hqc)
    · rw [forall_mem_cons, forall_mem_singleton]
      refine ⟨?_, hne st.last st.last_mem_parts close hc⟩
      rintro rfl
      exact hformed.start_not_mem hp hmem
  -- the slots after the bodies, before the call is closed
  have hafter : ∀ p ∈ st.parts, ∀ c, p.close = some c → Turns kinds [.curly] (u c) [] →
      Turns kinds [.curly]
        (onAll (st.parts.flatMap (armEdits o.dialect st.context)) c (u c)) [] := by
    intro p hp c hpc hturns
    refine onAll_keeps (P := fun t => Turns kinds [.curly] t []) hturns fun e he hslot t _ => ?_
    obtain ⟨q, hq, he⟩ := mem_flatMap.mp he
    rcases armEdits_cases hctx he with ⟨hslots, -⟩ | ⟨-, hkeeps⟩
    · have hne := hformed.close_ne hq hp hpc
      rw [hslot] at hslots
      exact absurd hslots (by simp [hne.1.symm, hne.2.symm])
    · exact hkeeps t
  have hne : st.start ≠ close := by
    rintro rfl
    exact hformed.start_not_mem st.last_mem_parts (by simp [Part.slots, hc])
  refine ⟨⟨?_, fun p hp => ⟨?_, ?_⟩, ?_⟩, ?_⟩
  · have hstart : v st.start = choose := by
      rw [hv _ mem_cons_self]
      simp [onAll, on, Change.apply, hne.symm]
    have harrow := (balanced_arrow hN ho (balanced_selector hconditions)).turns [.round]
    rw [hstart, ← hchoose]
    exact (turns_call hN ho (.literal (by decide)) hctx).append harrow
  · exact hbefore p hp _ (.inl rfl) (hu.parts p hp).declStart
  · have hhead := (hu.parts p hp).head
    rw [Part.headText_of_none (hparams p hp)] at hhead ⊢
    exact hbefore p hp _ (.inr rfl) hhead
  · intro p hp c hpc
    have hp' : p ∈ st.parts := mem_append_left _ hp
    have hmem : c ∈ st.slots := mem_slots_of_part hp' (by simp [Part.slots, hpc])
    rw [hv c hmem, onAll_append, onAll_of_forall_ne]
    · exact hafter p hp' c hpc (hu.closes p hp c hpc)
    · rw [forall_mem_cons, forall_mem_singleton]
      refine ⟨?_, (hformed.close_ne_last hp hpc hc).symm⟩
      rintro rfl
      exact hformed.start_not_mem hp' (by simp [Part.slots, hpc])
  · intro c hc'
    obtain rfl : close = c := Option.some.inj (hc.symm.trans hc')
    have hturns := hafter st.last st.last_mem_parts close hc (hu.last close hc)
    have hclose : v close = onAll (st.parts.flatMap (armEdits o.dialect st.context)) close
        (u close) ++ ");" := by
      rw [hv _ (close_mem_slots hc)]
      simp [onAll, on, Change.apply, hne]
    rw [hclose]
    exact (hturns.under [.round]).append (.literal (by decide))

theorem Made.fits_edited (hmade : st.Made N items) (hformed : st.Formed) (hN : N.Balanced kinds)
    (ho : o.Named N) (hgiven : ∀ item ∈ items, ∀ t ∈ item.given, Balanced kinds t)
    (hu : ∀ id t given, Item.slot id t given ∈ items → u id = t)
    (hc : st.last.close = some close)
    (hv : ∀ id ∈ st.slots, v id = onAll (st.edits o) id (u id)) : ∃ f, st.Fits kinds v f := by
  have hplain := hmade.fits hformed hN hgiven hu
  unfold edits at hv
  rw [hc] at hv
  dsimp only at hv
  split at hv
  next _ hk =>
    rw [hk] at hplain
    have hparts : ∀ p ∈ st.parts, p.params = none ∧ ∀ c ∈ p.condition, Balanced kinds c :=
      fun p hp => (hmade.parts p hp).plain hgiven (by rw [hformed.bracket_eq hp, hk]; rfl)
    exact ⟨_, fits_choice hN ho hmade.context (fun p hp => (hparts p hp).2)
      (fun p hp => (hparts p hp).1) hplain hformed hc hv⟩
  next each hk heach =>
    have he := hformed.earlier_eq_nil (by rw [hk]; decide)
    split at hv
    · exact fits_flow hN ho hmade.context hplain hformed he hc hv
    next hiteration =>
      rw [hk] at hplain
      obtain ⟨hsource, slot, params, hp, hparams⟩ := hmade.foreach hformed hgiven hk heach
        (by simpa using hiteration)
      exact ⟨_, fits_each hN ho hmade.context hsource hp hparams hplain hformed he hv⟩
  next hif hforeach =>
    exact fits_flow hN ho hmade.context hplain hformed (hformed.earlier_eq_nil hif) hc hv

end Statement

end Patchwork
