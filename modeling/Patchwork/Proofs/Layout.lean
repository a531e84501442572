import Patchwork.Proofs.ParallelStatements

/-!
# How statements lie in the code of a region

Statements are written piece by piece: a head before its branch is read, a close after it, and more
into the slots of both when the region ends. To speak about the code as a whole it is taken as a list
of items (`Item`): texts, the braces that begin branches, and the slots of statements with what they
hold. `Written` says that such a list is what a region has added to the output, and each operation
on the output has its lemma there.

`Laid` says how statements may lie among the items. It follows the ways to write a statement: a
branch begins one or goes on with one, and the innermost statement closes. A head has the items that
`HeadItems` gives for its keyword. So the slots of every statement are among the items (`Laid.made`).
-/

namespace Patchwork

open Compile List Output

/-! ## Code as a list of items -/

/-- An item of the code that a region has written. -/
inductive Item where
  | text (t : Text)
  | brace
  /-- A slot of a statement with what it holds, and the texts in it that were read or expanded. -/
  | slot (id : SlotId) (held : Text) (given : List Text)
  deriving DecidableEq, Repr

namespace Item

def id? : Item → Option SlotId
  | slot id _ _ => some id
  | text _ | brace => none

/-- The item as code, when slots have the values `v`. -/
def read (v : SlotId → Text) : Item → Text
  | text t => t
  | brace => "\x7b"
  | slot id _ _ => v id

def given : Item → List Text
  | text t => [t]
  | brace => []
  | slot _ _ given => given

def mark? : Item → Option Item
  | text _ => none
  | item => some item

end Item

/-- Nodes as code, of which the first slot has the number `n`: the slots `own` have the values `v`,
and other slots have their own. -/
def spell (own : List SlotId) (v : SlotId → Text) : (n : Nat) → List Node → Text :=
  spellWith fun id s => if id ∈ own then v id else s.value.getD []

section Spell

variable {own own' : List SlotId} {v : SlotId → Text}

theorem spell_of_forall_not_mem (nodes : List Node) {n : Nat}
    (h : ∀ i, n ≤ i → i < n + (slotsOf nodes).length → (⟨i⟩ : SlotId) ∉ own) :
    spell own v n nodes = nodes.flatMap Node.content := by
  refine (spellWith_congr nodes fun i s hs => ?_).trans (spellWith_value nodes n)
  have hlt := (List.getElem?_eq_some_iff.mp hs).1
  rw [if_neg (h (n + i) (by omega) (by omega))]

/-- Where the values are those that the slots hold, nodes are spelled as they are. -/
theorem spell_of_holds (nodes : List Node) {n : Nat}
    (h : ∀ i s, (slotsOf nodes)[i]? = some s → ⟨n + i⟩ ∈ own → v ⟨n + i⟩ = s.value.getD []) :
    spell own v n nodes = nodes.flatMap Node.content := by
  refine (spellWith_congr nodes fun i s hs => ?_).trans (spellWith_value nodes n)
  split
  next hmem => exact h i s hs hmem
  · rfl

/-- A change of a slot of the region does not show, since its value is not looked at. -/
theorem spell_modify (f : Option Text → Text) (nodes : List Node) {n m k i : Nat}
    (h : (placesFrom m nodes)[k]? = some (m + i)) (hmem : ⟨n + k⟩ ∈ own) :
    spell own v n (nodes.modify i (Node.update f)) = spell own v n nodes := by
  obtain ⟨front, s, back, rfl, rfl, rfl⟩ := exists_slot_of_place h
  rw [spell, modify_length, spellWith_append, spellWith_append, Node.update_slot, spellWith, spellWith,
    if_pos hmem, if_pos hmem]

end Spell

def slotIds (log : List Item) : List SlotId :=
  log.filterMap Item.id?

theorem slotIds_append (a b : List Item) : slotIds (a ++ b) = slotIds a ++ slotIds b :=
  filterMap_append

variable {log : List Item}

theorem mem_slotIds {id : SlotId} : id ∈ slotIds log ↔ ∃ t given, Item.slot id t given ∈ log := by
  constructor
  · intro hid
    obtain ⟨item, hitem, hid⟩ := mem_filterMap.mp hid
    cases item with
    | text | brace => cases hid
    | slot id t given =>
      cases hid
      exact ⟨t, given, hitem⟩
  · rintro ⟨t, given, hitem⟩
    exact mem_filterMap.mpr ⟨_, hitem, rfl⟩

/-! ## What a region has written -/

def Held (nodes : List Node) (id : SlotId) (t : Text) : Prop :=
  ∃ s, (slotsOf nodes)[id.index]? = some s ∧ s.frozen = false ∧ s.value.getD [] = t

def Edit.on (e : Edit) (id : SlotId) (t : Text) : Text :=
  if e.slot = id then e.change.apply (some t) else t

theorem Change.apply_some_getD (c : Change) (value : Option Text) :
    c.apply (some (value.getD [])) = c.apply value := by
  cases c <;> rfl

namespace Held

variable {nodes : List Node} {o : Output} {id : SlotId} {t : Text}

theorem index_lt (h : Held nodes id t) : id.index < (slotsOf nodes).length := by
  obtain ⟨s, hs, -⟩ := h
  exact (List.getElem?_eq_some_iff.mp hs).1

theorem append (h : Held nodes id t) (more : List Node) : Held (nodes ++ more) id t := by
  have hlt := h.index_lt
  obtain ⟨s, hs, hslot⟩ := h
  refine ⟨s, ?_, hslot⟩
  rw [slotsOf_append, getElem?_append_left hlt]
  exact hs

theorem add (h : Held o.nodes id t) (u : Text) : Held (o.add u).nodes id t := by
  unfold Held
  rw [slotsOf_add]
  exact h

theorem edit (h : Held o.nodes id t) (ho : o.Placed) (e : Edit) :
    Held (o.edit e).nodes id (e.on id t) := by
  obtain ⟨s, hs, hfrozen, rfl⟩ := h
  rw [Held, slotsOf_edit ho, getElem?_modify, hs]
  unfold Edit.on
  by_cases hid : e.slot = id
  · refine ⟨s.update e.change.apply, ?_, ?_, ?_⟩
    · rw [hid]
      simp
    · simp [Slot.update, hfrozen]
    · rw [if_pos hid, Change.apply_some_getD]
      simp [Slot.update, hfrozen]
  · have hne : e.slot.index ≠ id.index := fun he => hid (congrArg SlotId.mk he)
    refine ⟨s, by simp [hne], hfrozen, by rw [if_neg hid]⟩

end Held

/-- The nodes behind `front` spell `log`, whatever the values of its slots are. -/
def Spells (front : List Node) (log : List Item) (nodes : List Node) : Prop :=
  ∃ back, back ≠ [] ∧ nodes = front ++ back ∧
    ∀ v, spell (slotIds log) v (slotsOf front).length back = log.flatMap (Item.read v)

/-- What a region has written behind `front` is `log`, and the slots hold what it says. -/
structure Written (front : List Node) (log : List Item) (nodes : List Node) : Prop where
  spelled : Spells front log nodes
  since : ∀ id ∈ slotIds log, (slotsOf front).length ≤ id.index
  holds : ∀ id t given, Item.slot id t given ∈ log → Held nodes id t

theorem Spells.edit {front : List Node} {o : Output} {e : Edit} (h : Spells front log o.nodes)
    (ho : o.Placed) (hmem : e.slot ∈ slotIds log) (hsince : (slotsOf front).length ≤ e.slot.index)
    (hlt : e.slot.index < (slotsOf o.nodes).length) : Spells front log (o.edit e).nodes := by
  obtain ⟨back, hb, hnodes, hspell⟩ := h
  obtain ⟨j, hplace, hedit⟩ := edit_nodes_modify ho hnodes hsince hlt
  refine ⟨back.modify j (Node.update e.change.apply), ?_, hedit, fun v => ?_⟩
  · rw [ne_eq, modify_eq_nil_iff]
    exact hb
  · have hown : (⟨(slotsOf front).length + (e.slot.index - (slotsOf front).length)⟩ : SlotId) ∈
        slotIds log := by
      rw [Nat.add_sub_cancel' hsince]
      exact hmem
    rw [spell_modify _ _ hplace hown, hspell]

namespace Written

variable {front nodes : List Node} {log : List Item} {o o' : Output}

/-- The slots of a region have numbers among those given out. -/
theorem index_lt (h : Written front log nodes) {id : SlotId} (hid : id ∈ slotIds log) :
    id.index < (slotsOf nodes).length := by
  obtain ⟨t, given, hitem⟩ := mem_slotIds.mp hid
  exact (h.holds id t given hitem).index_lt

theorem empty (nodes : List Node) : Written nodes [] (nodes ++ [.text []]) :=
  ⟨⟨[.text []], by simp, rfl, fun _ => rfl⟩, nofun, nofun⟩

/-- An item without a slot adds to what is spelled only. -/
theorem concat {item : Item} (h : Written front log nodes) (hitem : item.id? = none)
    {nodes' : List Node} (hspelled : ∃ back, back ≠ [] ∧ nodes' = front ++ back ∧
      ∀ v, spell (slotIds log) v (slotsOf front).length back =
        log.flatMap (Item.read v) ++ item.read v)
    (hholds : ∀ id t, Held nodes id t → Held nodes' id t) :
    Written front (log ++ [item]) nodes' := by
  have hids : slotIds (log ++ [item]) = slotIds log := by
    rw [slotIds_append, slotIds, slotIds, filterMap_cons, hitem]
    exact append_nil _
  obtain ⟨back, hb, hnodes, hspell⟩ := hspelled
  refine ⟨⟨back, hb, hnodes, fun v => ?_⟩, hids ▸ h.since, fun id t given hmem => ?_⟩
  · rw [hids, hspell, flatMap_append, flatMap_singleton]
  · rcases mem_append.mp hmem with hmem | hmem
    · exact hholds id t (h.holds id t given hmem)
    · rw [← mem_singleton.mp hmem] at hitem
      cases hitem

/-- Nodes with slots of others may follow. They are text to the region. -/
theorem extend (h : Written front log nodes) (more : List Node) :
    Written front (log ++ [.text (more.flatMap Node.content)]) (nodes ++ more) := by
  have hlt : ∀ id ∈ slotIds log, id.index < (slotsOf nodes).length := fun _ hid => h.index_lt hid
  obtain ⟨back, hb, rfl, hspell⟩ := h.spelled
  refine h.concat rfl ⟨back ++ more, by simp [hb], append_assoc _ _ _, fun v => ?_⟩
    fun _ _ hheld => hheld.append more
  have hmore : spell (slotIds log) v ((slotsOf front).length + (slotsOf back).length) more =
      more.flatMap Node.content := by
    refine spell_of_forall_not_mem more fun i hle _ hmem => ?_
    have hi := hlt _ hmem
    rw [slotsOf_append, length_append] at hi
    exact absurd hi (Nat.not_lt.mpr hle)
  rw [spell, spellWith_append, ← spell, hspell, hmore]
  rfl

theorem add (h : Written front log o.nodes) {item : Item} (hitem : item.id? = none) {t : Text}
    (ht : ∀ v, item.read v = t) : Written front (log ++ [item]) (o.add t).nodes := by
  obtain ⟨back, hb, ho, hspell⟩ := h.spelled
  obtain ⟨back', hb', ho', -⟩ := add_nodes_append t ho hb
  refine h.concat hitem ⟨back', hb', ho', fun v => ?_⟩ fun _ _ hheld => hheld.add t
  have hadd := spellWith_add o t (fun id s => if id ∈ slotIds log then v id else s.value.getD []) 0
  rw [ho, ho', spellWith_append, spellWith_append, append_assoc, append_cancel_left_eq,
    Nat.zero_add] at hadd
  rw [spell, hadd, ← spell, hspell, ht]

theorem pushSlot (h : Written front log o.nodes) (ho : o.Placed) {s : Slot}
    (hs : s.frozen = false) (given : List Text) :
    Written front (log ++ [.slot (o.pushSlot s).2 (s.value.getD []) given])
      (o.pushSlot s).1.nodes := by
  have hindex := pushSlot_index ho s
  have hids : slotIds (log ++ [.slot (o.pushSlot s).2 (s.value.getD []) given]) =
      slotIds log ++ [(o.pushSlot s).2] := slotIds_append ..
  obtain ⟨back, hb, hnodes, hspell⟩ := h.spelled
  have hlen : (slotsOf o.nodes).length = (slotsOf front).length + (slotsOf back).length := by
    rw [hnodes, slotsOf_append, length_append]
  refine ⟨⟨back ++ [.slot s], by simp, ?_, fun v => ?_⟩, ?_, ?_⟩
  · rw [pushSlot_nodes, hnodes, append_assoc]
  · -- the new slot has a number that no slot before it has
    have hback : spell (slotIds log ++ [(o.pushSlot s).2]) v (slotsOf front).length back =
        spell (slotIds log) v (slotsOf front).length back := by
      refine spellWith_congr back fun i s' hs' => ?_
      have hlt := (List.getElem?_eq_some_iff.mp hs').1
      have hne : (⟨(slotsOf front).length + i⟩ : SlotId) ≠ (o.pushSlot s).2 := fun he => by
        rw [← he] at hindex
        simp only at hindex
        omega
      simp only [mem_append, mem_singleton, hne, or_false]
    have hnew : (⟨(slotsOf front).length + (slotsOf back).length⟩ : SlotId) = (o.pushSlot s).2 := by
      rw [← hlen, ← hindex]
    rw [hids, spell, spellWith_append, ← spell, hback, hspell, flatMap_append, spell, spellWith, hnew,
      if_pos (by simp)]
    rfl
  · rw [hids, forall_mem_append, forall_mem_singleton, hindex, hlen]
    exact ⟨h.since, Nat.le_add_right _ _⟩
  · intro id t given' hitem
    rcases mem_append.mp hitem with hitem | hitem
    · rw [pushSlot_nodes]
      exact (h.holds id t given' hitem).append _
    · obtain ⟨rfl, rfl, rfl⟩ := Item.slot.inj (mem_singleton.mp hitem)
      refine ⟨s, ?_, hs, rfl⟩
      rw [slotsOf_pushSlot, hindex, getElem?_concat_length]

/-- An edit that leaves its slot with the text it holds. -/
theorem edit (h : Written front log o.nodes) (ho : o.Placed) {e : Edit}
    (hmem : e.slot ∈ slotIds log)
    (hsame : ∀ id t given, Item.slot id t given ∈ log → e.on id t = t) :
    Written front log (o.edit e).nodes := by
  refine ⟨h.spelled.edit ho hmem (h.since _ hmem) (h.index_lt hmem), h.since, ?_⟩
  intro id t given hitem
  have hheld := (h.holds id t given hitem).edit ho e
  rw [hsame id t given hitem] at hheld
  exact hheld

end Written

/-- The items without the texts between them. -/
def marks (log : List Item) : List Item :=
  log.filterMap Item.mark?

theorem marks_append (a b : List Item) : marks (a ++ b) = marks a ++ marks b := filterMap_append

theorem slot_mem_marks {id : SlotId} {t : Text} {given : List Text} :
    Item.slot id t given ∈ marks log ↔ Item.slot id t given ∈ log := by
  constructor
  · intro hmem
    obtain ⟨item, hitem, hmark⟩ := mem_filterMap.mp hmem
    cases item with
    | text | brace => cases hmark
    | slot => cases hmark; exact hitem
  · intro hmem
    exact mem_filterMap.mpr ⟨_, hmem, rfl⟩

/-! ## How statements lie among the items -/

/-- The texts that the head of a `foreach` has from the document. -/
def Foreach.Subject.sources : Subject → List Text
  | iterated _ e => [e.source]
  | range first last => [first.source, last.source]

/-- The items of the head of a branch. -/
inductive HeadItems (N : Names) : Keyword → Tracker.BranchHead → List Item → Prop where
  | otherwise (decl : SlotId) : HeadItems N .otherwise { decl } [.slot decl "else" []]
  | condition {keyword : Keyword} (hk : keyword.hasCondition = true) (decl : SlotId)
      (skipped source : Text) (reactive : Bool) :
      HeadItems N keyword { decl, condition := some source, reactive }
        [.slot decl (keyword.text ++ skipped ++ '(' :: source ++ [')']) [skipped, source]]
  | foreach {o : Output} (ho : o.Named N) (subject : Foreach.Subject) (binding : Text)
      (decl slot : SlotId) {front params : Text} {each : Each}
      (hcall : Foreach.call o subject binding = (front, params, each)) :
      HeadItems N .foreach
        { decl, reactive := subject.reactive, params := some (slot, params)
          trailer := Foreach.trailer o.dialect, each := some each }
        [.slot decl front subject.sources, .slot slot (callbackHead o.dialect params) [params]]

def Part.opening (keyword : Keyword) (span : Span) (inline : Bool) (declStart : SlotId)
    (head : Tracker.BranchHead) : Part :=
  { keyword, span, condition := head.condition, reactive := head.reactive, inline, declStart
    decl := head.decl, params := head.params, close := none }

def Statement.opening (p : Part) (start : SlotId) (context : Text) (head : Tracker.BranchHead) :
    Statement :=
  { keyword := p.keyword, earlier := [], last := p, reactive := p.reactive, start, context
    trailer := head.trailer, each := head.each }

/-- The items of a new branch: the slot before it, its head and a brace. A new statement has a slot
of its own before them. -/
inductive BranchItems (N : Names) (keyword : Keyword) :
    Option Statement → Statement → List Item → Prop where
  | begins {head : Tracker.BranchHead} {items : List Item} (hhead : HeadItems N keyword head items)
      (span : Span) (inline : Bool) (start declStart : SlotId) :
      BranchItems N keyword none
        (.opening (.opening keyword span inline declStart head) start N.context head)
        (.slot start [] [] :: .slot declStart [] [] :: items ++ [.brace])
  | goesOn (st : Statement) {head : Tracker.BranchHead} {items : List Item}
      (hhead : HeadItems N keyword head items) (span : Span) (inline : Bool)
      (declStart : SlotId) :
      BranchItems N keyword (some st) (st.addPart (.opening keyword span inline declStart head))
        (.slot declStart [] [] :: items ++ [.brace])

/-- How the statements that are open, innermost first, and those that have been closed lie among the
items of a region. The slot after a branch closes its brace. -/
inductive Laid (N : Names) : List Statement → List Statement → List Item → Prop where
  | start : Laid N [] [] []
  | begins {st : Statement} {opened closed : List Statement} {items more : List Item}
      {keyword : Keyword} (h : Laid N opened closed items) (hk : keyword.begins = true)
      (hopens : BranchItems N keyword none st more) :
      Laid N (st :: opened) closed (items ++ more)
  | goesOn {st st' : Statement} {opened closed : List Statement} {items more : List Item}
      {keyword : Keyword} (close : SlotId) (h : Laid N (st :: opened) closed items)
      (hcont : st.last.keyword.continuable = true) (hk : keyword.begins = false)
      (hopens : BranchItems N keyword (some (st.closeLast close)) st' more) :
      Laid N (st' :: opened) closed (items ++ .slot close ('}' :: st.trailer) [] :: more)
  | closes {st : Statement} {opened closed : List Statement} {items : List Item} (close : SlotId)
      (h : Laid N (st :: opened) closed items) :
      Laid N opened (closed ++ [st.closeLast close])
        (items ++ [.slot close ('}' :: st.trailer) []])

/-! ## Where the slots of a statement come from -/

variable {N : Names} {st : Statement} {p : Part} {keyword : Keyword} {head : Tracker.BranchHead}
  {items : List Item}

/-- The slots of a branch are among the items. -/
structure Part.Made (N : Names) (items : List Item) (p : Part) : Prop where
  declStart : Item.slot p.declStart [] [] ∈ items
  head : ∃ head more, HeadItems N p.keyword head more ∧ more ⊆ items ∧ p.decl = head.decl ∧
    p.condition = head.condition ∧ p.params = head.params

/-- The slots of a statement are among the items. -/
structure Statement.Made (N : Names) (items : List Item) (st : Statement) : Prop where
  start : Item.slot st.start [] [] ∈ items
  parts : ∀ p ∈ st.parts, p.Made N items
  closes : ∀ p ∈ st.parts, ∀ c, p.close = some c → Item.slot c ('}' :: st.trailer) [] ∈ items
  context : st.context = N.context
  front : ∃ head more, HeadItems N st.keyword head more ∧ more ⊆ items ∧
    st.trailer = head.trailer ∧ st.each = head.each

theorem Part.Made.mono {items' : List Item} (h : p.Made N items) (hsub : items ⊆ items') :
    p.Made N items' where
  declStart := hsub h.declStart
  head := by
    obtain ⟨head, more, hhead, hmore, hp⟩ := h.head
    exact ⟨head, more, hhead, fun _ hitem => hsub (hmore hitem), hp⟩

theorem Statement.Made.mono {items' : List Item} (h : st.Made N items) (hsub : items ⊆ items') :
    st.Made N items' where
  start := hsub h.start
  parts p hp := (h.parts p hp).mono hsub
  closes p hp c hc := hsub (h.closes p hp c hc)
  context := h.context
  front := by
    obtain ⟨head, more, hhead, hmore, hfront⟩ := h.front
    exact ⟨head, more, hhead, fun _ hitem => hsub (hmore hitem), hfront⟩

theorem Statement.Made.closeLast (h : st.Made N items) (close : SlotId) :
    (st.closeLast close).Made N (items ++ [.slot close ('}' :: st.trailer) []]) := by
  have h := h.mono (subset_append_left items [.slot close ('}' :: st.trailer) []])
  obtain ⟨hearlier, hlast⟩ := forall_mem_append.mp h.parts
  have hlast := hlast _ (mem_singleton_self _)
  refine ⟨h.start, ?_, ?_, h.context, h.front⟩
  · refine forall_mem_append.mpr ⟨hearlier, forall_mem_singleton.mpr ?_⟩
    exact ⟨hlast.declStart, hlast.head⟩
  · refine forall_mem_append.mpr ⟨(forall_mem_append.mp h.closes).1, forall_mem_singleton.mpr ?_⟩
    rintro c ⟨⟩
    exact mem_append_right _ (mem_singleton_self _)

theorem Part.made_opening {all : List Item} (hhead : HeadItems N keyword head items) (span : Span)
    (inline : Bool) (declStart : SlotId)
    (hsub : Item.slot declStart [] [] :: items ++ [Item.brace] ⊆ all) :
    (Part.opening keyword span inline declStart head).Made N all where
  declStart := hsub mem_cons_self
  head := by
    refine ⟨head, items, hhead, fun item hitem => hsub ?_, rfl, rfl, rfl⟩
    exact mem_append_left _ (mem_cons_of_mem _ hitem)

theorem Laid.made {opened closed : List Statement} (h : Laid N opened closed items) :
    (∀ st ∈ opened, st.Made N items) ∧ ∀ st ∈ closed, st.Made N items := by
  induction h with
  | start => exact ⟨forall_mem_nil _, forall_mem_nil _⟩
  | @begins _ _ _ items more _ h hk hopens ih =>
    have hmore := subset_append_left items more
    refine ⟨forall_mem_cons.mpr ⟨?_, fun st hst => (ih.1 st hst).mono hmore⟩,
      fun st hst => (ih.2 st hst).mono hmore⟩
    cases hopens with
    | begins hhead span inline start declStart =>
      have hpart := Part.made_opening hhead span inline declStart fun item hitem =>
        mem_append_right items (mem_cons_of_mem (.slot start [] []) hitem)
      refine ⟨?_, forall_mem_singleton.mpr hpart, ?_, rfl, _, _, hhead, ?_, rfl, rfl⟩
      · exact mem_append_right _ mem_cons_self
      · exact forall_mem_singleton.mpr nofun
      · intro item hitem
        refine mem_append_right _ (mem_cons_of_mem _ ?_)
        exact mem_append_left _ (mem_cons_of_mem _ hitem)
  | @goesOn st _ _ _ items more _ close h hcont hk hopens ih =>
    rw [forall_mem_cons] at ih
    obtain ⟨⟨hst, hopened⟩, hclosed⟩ := ih
    have hmore := subset_append_left items (.slot close ('}' :: st.trailer) [] :: more)
    refine ⟨forall_mem_cons.mpr ⟨?_, fun st hst => (hopened st hst).mono hmore⟩,
      fun st hst => (hclosed st hst).mono hmore⟩
    have hlast := (hst.closeLast close).mono
      (subset_append_left (items ++ [.slot close ('}' :: st.trailer) []]) more)
    rw [append_assoc] at hlast
    cases hopens with
    | goesOn _ hhead span inline declStart =>
      refine ⟨hlast.start, ?_, ?_, hlast.context, hlast.front⟩
      · refine forall_mem_append.mpr ⟨hlast.parts, forall_mem_singleton.mpr ?_⟩
        refine Part.made_opening hhead span inline declStart fun item hitem => ?_
        exact mem_append_right _ (mem_cons_of_mem _ hitem)
      · exact forall_mem_append.mpr ⟨hlast.closes, forall_mem_singleton.mpr nofun⟩
  | closes close h ih =>
    rw [forall_mem_cons] at ih
    obtain ⟨⟨hst, hopened⟩, hclosed⟩ := ih
    refine ⟨fun st hst => (hopened st hst).mono (subset_append_left ..), ?_⟩
    refine forall_mem_append.mpr ⟨fun st hst => ?_, forall_mem_singleton.mpr ?_⟩
    · exact (hclosed st hst).mono (subset_append_left ..)
    · exact hst.closeLast close

theorem Statement.Made.slot_mem (h : st.Made N items) {id : SlotId} (hid : id ∈ st.slots) :
    ∃ t given, Item.slot id t given ∈ items := by
  rcases mem_cons.mp hid with rfl | hid
  · exact ⟨_, _, h.start⟩
  obtain ⟨p, hp, hid⟩ := mem_flatMap.mp hid
  obtain ⟨head, more, hhead, hmore, hd, -, hparams⟩ := (h.parts p hp).head
  rcases mem_cons.mp hid with rfl | hid
  · exact ⟨_, _, (h.parts p hp).declStart⟩
  have hslots : id ∈ head.slots ∨ id ∈ p.close.toList := by
    rw [Tracker.BranchHead.slots, ← hd, ← hparams, ← mem_append]
    exact hid
  rcases hslots with hid | hid
  · generalize p.keyword = keyword at hhead
    cases hhead with
    | otherwise | condition =>
      rw [mem_singleton.mp hid]
      exact ⟨_, _, hmore (mem_singleton_self _)⟩
    | foreach ho subject binding decl slot hcall =>
      rcases mem_cons.mp hid with rfl | hid
      · exact ⟨_, _, hmore mem_cons_self⟩
      · rw [mem_singleton.mp hid]
        exact ⟨_, _, hmore (mem_cons_of_mem _ (mem_singleton_self _))⟩
  · exact ⟨_, _, h.closes p hp id (Option.mem_toList.mp hid)⟩

end Patchwork
