import Patchwork.Proofs.AtRules

/-!
# Rules without declarations

A rule that holds nothing is not written. But whether it holds something is seen from its own items
alone, and an at-rule may hold rules that are empty themselves: then its block is written with nothing
between the braces.

`mem_openings_iff` says which blocks are written: those of the rules that have been given a declaration
or a rule. `hasEmptyBlock_iff` says which of them have nothing between their braces: those whose items
are all empty rules. What should decide is whether something has been declared in the rule, at any
depth (`Building.Declares`). The two come to the same exactly if every rule that has been given a rule
has a declaration somewhere in it (`empty_rules_omitted_iff`). `empty_at_rule_written` is the shortest
sheet where this fails.
-/

namespace Patchwork.Style

open List

def Mark.opened? : Mark → Option Nat
  | opening i _ => some i
  | content _ | closing => none

/-- The rules whose blocks are written, in order. -/
def openings (marks : List Mark) : List Nat :=
  marks.filterMap Mark.opened?

def HasEmptyBlock (marks : List Mark) : Prop :=
  ∃ front back i selector, marks = front ++ .opening i selector :: .closing :: back

theorem mem_openings {marks : List Mark} {i : Nat} :
    i ∈ openings marks ↔ ∃ front selector back, marks = front ++ .opening i selector :: back := by
  constructor
  · intro h
    obtain ⟨mark, hmark, hi⟩ := mem_filterMap.mp h
    obtain ⟨front, back, rfl⟩ := append_of_mem hmark
    cases mark with
    | opening j selector =>
      cases hi
      exact ⟨front, selector, back, rfl⟩
    | content | closing => cases hi
  · intro h
    obtain ⟨front, selector, back, rfl⟩ := h
    exact mem_filterMap.mpr ⟨_, mem_append_right _ mem_cons_self, rfl⟩

namespace Sheet

variable {sheet : Sheet} {place : Place} {items : List Item} {marks : List Mark} {i j : Nat}

/-- Does a rule hold nothing but rules that hold nothing? -/
def IsHollow (sheet : Sheet) (items : List Item) : Prop :=
  ∀ item ∈ items, ∃ j, item = .rule j ∧ sheet.itemsAt (.rule j) = []

/-! ## The blocks that are written -/

namespace Writes

/-- Nothing is written exactly if there are only empty rules. -/
theorem eq_nil_iff (hw : sheet.Writes items marks) : marks = [] ↔ sheet.IsHollow items := by
  induction hw with
  | nil => simp [IsHollow]
  | @content item c items marks hc _ _ =>
    constructor
    · intro h
      cases h
    · intro h
      obtain ⟨j, rfl, -⟩ := h item mem_cons_self
      cases hc
  | @empty i rule items marks hrule hempty _ ih =>
    have hitems : sheet.itemsAt (.rule i) = [] := (itemsAt_of_getElem? hrule).trans hempty
    rw [ih]
    constructor
    · intro h
      exact forall_mem_cons.mpr ⟨⟨i, rfl, hitems⟩, h⟩
    · intro h
      exact (forall_mem_cons.mp h).2
  | @block i rule items inner marks hrule hne _ _ _ _ =>
    constructor
    · intro h
      cases h
    · intro h
      obtain ⟨j, hj, hempty⟩ := h (.rule i) mem_cons_self
      cases hj
      exact absurd ((itemsAt_of_getElem? hrule).symm.trans hempty) hne

theorem head?_ne_closing (hw : sheet.Writes items marks) : marks.head? ≠ some .closing := by
  induction hw with
  | nil | content => simp
  | empty _ _ _ ih => exact ih
  | block => simp

theorem block_of_mem (hw : sheet.Writes items marks) (hi : .rule i ∈ items)
    (hne : sheet.itemsAt (.rule i) ≠ []) : ∃ front selector inner back,
      marks = front ++ .opening i selector :: (inner ++ .closing :: back) ∧
        sheet.Writes (sheet.itemsAt (.rule i)) inner := by
  induction hw with
  | nil => cases hi
  | @content item c items marks hc _ ih =>
    have hmem : .rule i ∈ items := by
      rcases mem_cons.mp hi with rfl | hmem
      · cases hc
      · exact hmem
    obtain ⟨front, selector, inner, back, rfl, hinner⟩ := ih hmem
    exact ⟨_ :: front, selector, inner, back, rfl, hinner⟩
  | @empty j rule items marks hrule hempty _ ih =>
    have hmem : .rule i ∈ items := by
      rcases mem_cons.mp hi with heq | hmem
      · cases heq
        exact absurd ((itemsAt_of_getElem? hrule).trans hempty) hne
      · exact hmem
    exact ih hmem
  | @block j rule items inner marks hrule _ hinner _ _ ih =>
    rcases mem_cons.mp hi with heq | hmem
    · cases heq
      exact ⟨[], rule.selector, inner, marks, rfl, itemsAt_of_getElem? hrule ▸ hinner⟩
    · obtain ⟨front, selector, inner', back, rfl, hinner'⟩ := ih hmem
      refine ⟨.opening j rule.selector :: (inner ++ .closing :: front), selector, inner', back, ?_,
        hinner'⟩
      simp

/-- Behind the begin of a block stands what its rule holds, which is something, and the end of the
block. -/
theorem of_opening (hw : sheet.Writes items marks) {front rest : List Mark} {selector : Text}
    (h : marks = front ++ .opening i selector :: rest) : ∃ inner back,
      rest = inner ++ .closing :: back ∧ sheet.itemsAt (.rule i) ≠ [] ∧
      sheet.Writes (sheet.itemsAt (.rule i)) inner := by
  induction hw generalizing front rest with
  | nil => simp at h
  | content _ _ ih =>
    cases front with
    | nil => cases h
    | cons mark front =>
      cases h
      exact ih rfl
  | empty _ _ _ ih => exact ih h
  | @block j rule items inner marks hrule hne hinner _ ihinner ih =>
    cases front with
    | nil =>
      cases h
      have hitems := itemsAt_of_getElem? hrule
      exact ⟨inner, marks, rfl, hitems ▸ hne, hitems ▸ hinner⟩
    | cons mark front =>
      obtain ⟨-, h⟩ := List.cons.inj h
      rcases append_eq_append_iff.mp h with ⟨more, rfl, hrest⟩ | ⟨more, hinside, hrest⟩
      · -- behind the block
        cases more with
        | nil => cases hrest
        | cons mark more =>
          cases hrest
          exact ih rfl
      · -- in the block, or at its end
        cases more with
        | nil => cases hrest
        | cons mark more =>
          cases hrest
          obtain ⟨inner', back, rfl, hfound⟩ := ihinner hinside
          exact ⟨inner', back ++ .closing :: marks, by simp, hfound⟩

end Writes

theorem PathTo.exists_block (hw : sheet.Writes sheet.root marks) {path : List Nat}
    (hpath : sheet.PathTo place path) (hne : sheet.itemsAt place ≠ []) : ∃ front inner back,
      marks = front ++ (inner ++ back) ∧ sheet.Writes (sheet.itemsAt place) inner ∧
        ∀ i, place = .rule i → ∃ front' selector back',
          front = front' ++ [.opening i selector] ∧ back = .closing :: back' := by
  induction hpath with
  | root => exact ⟨[], marks, [], by simp, hw, fun i h => by cases h⟩
  | @rule outer path i _ hi ih =>
    obtain ⟨front, inner, back, rfl, hinner, -⟩ := ih (ne_nil_of_mem hi)
    obtain ⟨front', selector, inner', back', rfl, hinner'⟩ := hinner.block_of_mem hi hne
    refine ⟨front ++ front' ++ [.opening i selector], inner', .closing :: (back' ++ back), by simp,
      hinner', ?_⟩
    intro j hj
    cases hj
    exact ⟨front ++ front', selector, back' ++ back, rfl, rfl⟩

theorem IsTree.exists_block (h : sheet.IsTree) (hw : sheet.Writes sheet.root marks)
    (hne : sheet.itemsAt (.rule i) ≠ []) : ∃ front selector inner back,
      marks = front ++ .opening i selector :: (inner ++ .closing :: back) ∧
        sheet.Writes (sheet.itemsAt (.rule i)) inner := by
  have hi : i < sheet.rules.length := by
    by_contra hout
    exact hne (by simp [itemsAt, getElem?_eq_none (Nat.le_of_not_lt hout)])
  obtain ⟨path, hpath⟩ := h.exists_pathTo (show sheet.Has (.rule i) from hi)
  obtain ⟨front, inner, back, hmarks, hinner, hblock⟩ := hpath.exists_block hw hne
  obtain ⟨front', selector, back', rfl, rfl⟩ := hblock i rfl
  exact ⟨front', selector, inner, back', by simp [hmarks], hinner⟩

/-- The block of a rule is written exactly if the rule holds something. -/
theorem IsTree.mem_openings_iff (h : sheet.IsTree) (hw : sheet.Writes sheet.root marks) :
    i ∈ openings marks ↔ sheet.itemsAt (.rule i) ≠ [] := by
  rw [mem_openings]
  constructor
  · intro hopen
    obtain ⟨front, selector, back, hmarks⟩ := hopen
    obtain ⟨inner, back, -, hne, -⟩ := hw.of_opening hmarks
    exact hne
  · intro hne
    obtain ⟨front, selector, inner, back, hmarks, -⟩ := h.exists_block hw hne
    exact ⟨front, selector, _, hmarks⟩

/-- A block has nothing between its braces exactly if its rule holds rules that hold nothing. -/
theorem IsTree.hasEmptyBlock_iff (h : sheet.IsTree) (hw : sheet.Writes sheet.root marks) :
    HasEmptyBlock marks ↔
      ∃ i, sheet.itemsAt (.rule i) ≠ [] ∧ sheet.IsHollow (sheet.itemsAt (.rule i)) := by
  constructor
  · intro hempty
    obtain ⟨front, back, i, selector, hmarks⟩ := hempty
    obtain ⟨inner, back', hrest, hne, hinner⟩ := hw.of_opening hmarks
    refine ⟨i, hne, hinner.eq_nil_iff.mp ?_⟩
    cases inner with
    | nil => rfl
    | cons mark inner =>
      cases hrest
      exact absurd rfl hinner.head?_ne_closing
  · intro hhollow
    obtain ⟨i, hne, hhollow⟩ := hhollow
    obtain ⟨front, selector, inner, back, hmarks, hinner⟩ := h.exists_block hw hne
    obtain rfl := hinner.eq_nil_iff.mpr hhollow
    exact ⟨front, back, i, selector, hmarks⟩

/-! ## Rules in rules -/

/-- A place is that of a rule, or of one that is nested in it at some depth. -/
inductive Within (sheet : Sheet) (i : Nat) : Place → Prop where
  | self : Within sheet i (.rule i)
  | nested {outer : Place} {j : Nat} (h : Within sheet i outer)
      (hj : .rule j ∈ sheet.itemsAt outer) : Within sheet i (.rule j)

namespace Within

theorem trans (h : sheet.Within i (.rule j)) (h' : sheet.Within j place) : sheet.Within i place := by
  induction h' with
  | self => exact h
  | nested _ hj ih => exact .nested ih hj

/-- A rule with another place in it holds something. -/
theorem eq_or_ne_nil (h : sheet.Within i place) :
    place = .rule i ∨ sheet.itemsAt (.rule i) ≠ [] := by
  induction h with
  | self => exact .inl rfl
  | nested _ hj ih =>
    right
    rcases ih with rfl | hne
    · exact ne_nil_of_mem hj
    · exact hne

/-- In a rule that holds only empty rules there is nothing. -/
theorem eq_or_eq_nil (h : sheet.Within i place) (hhollow : sheet.IsHollow (sheet.itemsAt (.rule i))) :
    place = .rule i ∨ sheet.itemsAt place = [] := by
  induction h with
  | self => exact .inl rfl
  | nested _ hj ih =>
    right
    rcases ih with rfl | hnil
    · obtain ⟨j', heq, hempty⟩ := hhollow _ hj
      cases heq
      exact hempty
    · rw [hnil] at hj
      cases hj

end Within

namespace Building

variable {b : Building}

/-- A declaration has been added to a rule, or to one that is nested in it at some depth. -/
def Declares (b : Building) (i : Nat) : Prop :=
  ∃ place key value, (place, .declaration key value) ∈ b.log ∧ b.sheet.Within i place

theorem Declares.outer (h : b.Declares j) (hj : .rule j ∈ b.sheet.itemsAt (.rule i)) :
    b.Declares i := by
  obtain ⟨place, key, value, hlog, hwithin⟩ := h
  exact ⟨place, key, value, hlog, (Within.nested .self hj).trans hwithin⟩

theorem Formed.mem_itemsAt (h : b.Formed) {c : Content} (hlog : (place, c) ∈ b.log) :
    ∃ item ∈ b.sheet.itemsAt place, item.content? = some c := by
  rw [← mem_under, ← h.contents] at hlog
  exact mem_filterMap.mp hlog

theorem Formed.ne_nil (h : b.Formed) (hdeclares : b.Declares i) :
    b.sheet.itemsAt (.rule i) ≠ [] := by
  obtain ⟨place, key, value, hlog, hwithin⟩ := hdeclares
  rcases hwithin.eq_or_ne_nil with rfl | hne
  · obtain ⟨item, hitem, -⟩ := h.mem_itemsAt hlog
    exact ne_nil_of_mem hitem
  · exact hne

theorem Formed.not_isHollow (h : b.Formed) (hdeclares : b.Declares i) :
    ¬b.sheet.IsHollow (b.sheet.itemsAt (.rule i)) := by
  intro hhollow
  obtain ⟨place, key, value, hlog, hwithin⟩ := hdeclares
  obtain ⟨item, hitem, hcontent⟩ := h.mem_itemsAt hlog
  rcases hwithin.eq_or_eq_nil hhollow with rfl | hnil
  · obtain ⟨j, rfl, -⟩ := hhollow item hitem
    cases hcontent
  · rw [hnil] at hitem
    cases hitem

variable {ops : List Operation}

/-- Statements are added to the sheet itself only. -/
theorem eq_root_of_statement (h : build? ops = some b) :
    ∀ place text, (place, .statement text) ∈ b.log → place = .root := by
  refine forall_build? (P := fun b => ∀ place text, (place, .statement text) ∈ b.log → place = .root)
    (nofun) ?_ h
  intro b op b' hb hrun place text hmem
  cases op with
  | scope selector =>
    cases hrun
    exact hb place text hmem
  | select i selector =>
    obtain ⟨outer, -, rfl⟩ := Option.map_eq_some_iff.mp hrun
    exact hb place text hmem
  | value i key value =>
    obtain ⟨opened, -, rfl⟩ := Option.map_eq_some_iff.mp hrun
    rcases mem_append.mp hmem with hmem | hmem
    · exact hb place text hmem
    · obtain ⟨part, -, heq⟩ := mem_map.mp hmem
      cases heq
  | stat statement =>
    cases hrun
    rcases mem_append.mp hmem with hmem | hmem
    · exact hb place text hmem
    · cases mem_singleton.mp hmem
      rfl

theorem declares_or_rule (h : build? ops = some b) {item : Item}
    (hitem : item ∈ b.sheet.itemsAt (.rule i)) : b.Declares i ∨ ∃ j, item = .rule j := by
  cases hcontent : item.content? with
  | none => exact .inr (Item.content?_eq_none_iff.mp hcontent)
  | some c =>
    have hlog : (.rule i, c) ∈ b.log := by
      rw [← mem_under, ← (formed h).contents]
      exact mem_filterMap.mpr ⟨item, hitem, hcontent⟩
    cases c with
    | declaration key value => exact .inl ⟨_, key, value, hlog, .self⟩
    | statement text => cases eq_root_of_statement h _ _ hlog

/-- If every rule that holds something holds more than empty rules, there is a declaration in each of
them: one goes into the rules that are held until a declaration is found. -/
theorem declares_of_not_hollow (h : build? ops = some b)
    (hnone : ∀ i, b.sheet.itemsAt (.rule i) ≠ [] → ¬b.sheet.IsHollow (b.sheet.itemsAt (.rule i))) :
    ∀ n i, b.sheet.rules.length ≤ i + n → b.sheet.itemsAt (.rule i) ≠ [] → b.Declares i := by
  have htree : b.sheet.IsTree := (formed h).grows.isTree isTree_empty
  intro n
  induction n with
  | zero =>
    intro i hi hne
    have hout : b.sheet.rules[i]? = none := getElem?_eq_none hi
    exact absurd (by simp [itemsAt, hout]) hne
  | succ n ih =>
    intro i hi hne
    have hmore := hnone i hne
    simp only [IsHollow, not_forall, not_exists, not_and] at hmore
    obtain ⟨item, hitem, hmore⟩ := hmore
    rcases declares_or_rule h hitem with hdeclares | hrule
    · exact hdeclares
    · obtain ⟨j, rfl⟩ := hrule
      have hlt := htree.lt hitem
      exact (ih j (by omega) (hmore j rfl)).outer hitem

end Building

/-- After any calls, the block of a rule is written, in both layouts, exactly if a declaration or a rule
has been added to the rule itself. So exactly if every rule to which a rule has been added has a
declaration in it, at some depth, are the blocks that are written those of the rules in which there is a
declaration; and exactly then no block is written with nothing between its braces. -/
theorem empty_rules_omitted_iff {ops : List Operation} {b : Building} (h : build? ops = some b) :
    ∃ marks, b.sheet.Writes b.sheet.root marks ∧
      (∀ layout, b.sheet.render layout = Layout.write layout [] marks) ∧
      (∀ i, i ∈ openings marks ↔ b.sheet.itemsAt (.rule i) ≠ []) ∧
      ((∀ i, i ∈ openings marks ↔ b.Declares i) ↔
        ∀ i j, .rule j ∈ b.sheet.itemsAt (.rule i) → b.Declares i) ∧
      (¬HasEmptyBlock marks ↔
        ∀ i j, .rule j ∈ b.sheet.itemsAt (.rule i) → b.Declares i) := by
  have hformed := Building.formed h
  have htree : b.sheet.IsTree := hformed.grows.isTree isTree_empty
  obtain ⟨marks, hmarks⟩ := htree.exists_writes .root
  refine ⟨marks, hmarks, htree.render_eq hmarks, fun i => htree.mem_openings_iff hmarks, ?_, ?_⟩
  · constructor
    · intro hwritten i j hj
      exact (hwritten i).mp ((htree.mem_openings_iff hmarks).mpr (List.ne_nil_of_mem hj))
    · intro hrules i
      rw [htree.mem_openings_iff hmarks]
      constructor
      · intro hne
        obtain ⟨item, hitem⟩ := List.exists_mem_of_ne_nil _ hne
        rcases Building.declares_or_rule h hitem with hdeclares | hrule
        · exact hdeclares
        · obtain ⟨j, rfl⟩ := hrule
          exact hrules i j hitem
      · exact hformed.ne_nil
  · rw [htree.hasEmptyBlock_iff hmarks]
    constructor
    · intro hnone i j hj
      have hnone : ∀ i, b.sheet.itemsAt (.rule i) ≠ [] →
          ¬b.sheet.IsHollow (b.sheet.itemsAt (.rule i)) :=
        fun i hne hhollow => hnone ⟨i, hne, hhollow⟩
      exact Building.declares_of_not_hollow h hnone _ i (Nat.le_add_left _ i) (List.ne_nil_of_mem hj)
    · intro hrules hempty
      obtain ⟨i, hne, hhollow⟩ := hempty
      obtain ⟨item, hitem⟩ := List.exists_mem_of_ne_nil _ hne
      obtain ⟨j, rfl, -⟩ := hhollow item hitem
      exact hformed.not_isHollow (hrules i j hitem) hhollow

theorem empty_rules_omitted_iff_nested :
    ∃ b marks,
      build? [.scope (some ".r"), .select 0 ".a", .select 1 "@media x", .select 2 ".b",
        .value 3 "top" "0", .select 2 ".c"] = some b ∧
      b.sheet.render .compact = ("@media x\x7b.r .a .b\x7btop:0;\x7d\x7d" : Text) ∧
      b.sheet.Writes b.sheet.root marks ∧ ¬HasEmptyBlock marks := by
  have hrun : (build? [.scope (some ".r"), .select 0 ".a", .select 1 "@media x", .select 2 ".b",
      .value 3 "top" "0", .select 2 ".c"]).any (fun b => decide (
        b.sheet.render .compact = ("@media x\x7b.r .a .b\x7btop:0;\x7d\x7d" : Text) ∧
        b.sheet.rules.length = 6 ∧
        (∀ i ∈ List.range 6, i = 2 ∨ ∀ item ∈ b.sheet.itemsAt (.rule i), item.content?.isSome) ∧
        .rule 4 ∈ b.sheet.itemsAt (.rule 2) ∧ (.rule 4, .declaration "top" "0") ∈ b.log)) = true := by
    decide +kernel
  obtain ⟨b, hb, hrun⟩ := (Option.any_eq_true _ _).mp hrun
  obtain ⟨htext, hlength, hothers, hnested, hlog⟩ := of_decide_eq_true hrun
  obtain ⟨marks, hmarks, -, -, -, hiff⟩ := empty_rules_omitted_iff hb
  refine ⟨b, marks, hb, htext, hmarks, hiff.mpr ?_⟩
  intro i j hj
  have hi : i < 6 := by
    by_contra hout
    have hnone : b.sheet.rules[i]? = none := List.getElem?_eq_none (by omega)
    simp [itemsAt, hnone] at hj
  rcases hothers i (List.mem_range.mpr hi) with rfl | hcontents
  · exact ⟨_, "top", "0", hlog, .nested .self hnested⟩
  · cases hcontents _ hj

/-- A selector without declarations in an at-rule: the block of the at-rule is written, with nothing
between its braces. -/
theorem empty_at_rule_written :
    ∃ b, build? [.scope none, .select 0 "@media a", .select 1 ".b"] = some b ∧
      b.log = [] ∧ b.sheet.render .compact = ("@media a\x7b\x7d" : Text) ∧
      b.sheet.render .indented = ("@media a \x7b\n\x7d\n" : Text) := by
  have hrun : (build? [.scope none, .select 0 "@media a", .select 1 ".b"]).any (fun b => decide (
      b.log = [] ∧ b.sheet.render .compact = ("@media a\x7b\x7d" : Text) ∧
      b.sheet.render .indented = ("@media a \x7b\n\x7d\n" : Text))) = true := by
    decide +kernel
  obtain ⟨b, hb, hrun⟩ := (Option.any_eq_true _ _).mp hrun
  exact ⟨b, hb, of_decide_eq_true hrun⟩

end Sheet
end Patchwork.Style
