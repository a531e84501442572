import Mathlib.Data.List.Basic
import Patchwork.Style.Sheet

/-!
# The tree of a sheet

A sheet keeps its rules in one list, in which they refer to each other by number. This module shows
that they are a tree, whatever calls have built the sheet: every number is that of a rule, and every
rule is held once, by the root or by a rule with a smaller number (`IsTree`). A call can only add a
declaration or a statement, or an empty rule, at a place that the sheet has (`Grows`), so each fact
about sheets is proved for these two and then holds after any calls (`build?`).

`Writes` says what the items of a list are written as, by going into each rule without any bound: a
sequence of marks, which open a block, close one, or write a declaration or a statement. In a tree
there is such a sequence, and both layouts write this one (`render_eq`). `located` gives each
declaration and each statement with the blocks around it. `written_once` says that these are the
blocks of the rules on the way to the place that it was added to, and that it stands there once.
-/

namespace Patchwork.Style

open List Text

/-- What is written in a sheet other than the blocks of rules. -/
inductive Content where
  | declaration (key value : Text)
  | statement (text : Text)
  deriving DecidableEq, Repr

def Content.item : Content → Item
  | declaration key value => .declaration key value
  | statement text => .statement text

def Item.content? : Item → Option Content
  | rule _ => none
  | declaration key value => some (.declaration key value)
  | statement text => some (.statement text)

@[simp] theorem Item.content?_item (c : Content) : c.item.content? = some c := by
  cases c <;> rfl

theorem Item.content?_eq_none_iff {item : Item} : item.content? = none ↔ ∃ i, item = .rule i := by
  cases item <;> simp [content?]

def Place.Before : Place → Nat → Prop
  | root, _ => True
  | rule j, i => j < i

def under {α : Type} [DecidableEq α] (key : α) (entries : List (α × Content)) : List Content :=
  entries.filterMap fun e => if e.1 = key then some e.2 else none

section under

variable {α : Type} [DecidableEq α] {key : α}

@[simp] theorem under_nil : under key [] = [] := rfl

theorem under_cons (a : α) (c : Content) (entries : List (α × Content)) :
    under key ((a, c) :: entries) = (if a = key then [c] else []) ++ under key entries := by
  by_cases h : a = key <;> simp [under, h]

@[simp] theorem under_append (xs ys : List (α × Content)) :
    under key (xs ++ ys) = under key xs ++ under key ys :=
  filterMap_append

theorem under_eq_nil {entries : List (α × Content)} (h : ∀ e ∈ entries, e.1 ≠ key) :
    under key entries = [] :=
  filterMap_eq_nil_iff.mpr fun e he => if_neg (h e he)

end under

namespace Sheet

variable {sheet sheet' : Sheet} {place other : Place} {item : Item} {i j : Nat}

def itemsAt (sheet : Sheet) : Place → List Item
  | .root => sheet.root
  | .rule i => (sheet.rules[i]?.map Rule.items).getD []

def Has (sheet : Sheet) : Place → Prop
  | .root => True
  | .rule i => i < sheet.rules.length

theorem has_root (sheet : Sheet) : sheet.Has .root := trivial

theorem itemsAt_of_getElem? {rule : Rule} (h : sheet.rules[i]? = some rule) :
    sheet.itemsAt (.rule i) = rule.items := by
  rw [itemsAt, h]
  rfl

/-! ## What the calls do -/

@[simp] theorem length_rules_addItem (sheet : Sheet) (place : Place) (item : Item) :
    (sheet.addItem place item).rules.length = sheet.rules.length := by
  cases place <;> simp [addItem]

theorem itemsAt_addItem (h : sheet.Has place) (item : Item) (other : Place) :
    (sheet.addItem place item).itemsAt other =
      sheet.itemsAt other ++ if other = place then [item] else [] := by
  cases place with
  | root => cases other <;> simp [addItem, itemsAt]
  | rule i =>
    cases other with
    | root => simp [addItem, itemsAt]
    | rule j =>
      by_cases hij : j = i
      · subst hij
        simp [addItem, itemsAt, getElem?_eq_getElem (show j < sheet.rules.length from h)]
      · simp [addItem, itemsAt, hij, Ne.symm hij]

/-- A rule that does not hold anything yet. -/
def withRule (sheet : Sheet) (selector : Text) : Sheet :=
  { sheet with rules := sheet.rules ++ [⟨selector, []⟩] }

theorem addRule_eq (sheet : Sheet) (place : Place) (selector : Text) :
    sheet.addRule place selector =
      ((sheet.withRule selector).addItem place (.rule sheet.rules.length),
        .rule sheet.rules.length) :=
  rfl

@[simp] theorem itemsAt_withRule (sheet : Sheet) (selector : Text) (other : Place) :
    (sheet.withRule selector).itemsAt other = sheet.itemsAt other := by
  cases other with
  | root => rfl
  | rule i =>
    rcases Nat.lt_trichotomy i sheet.rules.length with h | h | h
    · simp [withRule, itemsAt, getElem?_append_left h]
    · subst h
      simp [withRule, itemsAt]
    · simp [withRule, itemsAt, getElem?_eq_none (Nat.le_of_lt h),
        getElem?_append_right (Nat.le_of_lt h),
        show i - sheet.rules.length ≠ 0 by omega]

theorem Has.withRule (h : sheet.Has place) (selector : Text) :
    (sheet.withRule selector).Has place := by
  cases place with
  | root => exact h
  | rule i =>
    have hi : i < sheet.rules.length := h
    show i < (sheet.rules ++ [_]).length
    rw [length_append]
    omega

@[simp] theorem length_rules_addRule (sheet : Sheet) (place : Place) (selector : Text) :
    (sheet.addRule place selector).1.rules.length = sheet.rules.length + 1 := by
  simp [addRule_eq, withRule]

theorem itemsAt_addRule (h : sheet.Has place) (selector : Text) (other : Place) :
    (sheet.addRule place selector).1.itemsAt other =
      sheet.itemsAt other ++ if other = place then [.rule sheet.rules.length] else [] := by
  rw [addRule_eq, itemsAt_addItem (h.withRule selector), itemsAt_withRule]

/-- What calls do to a sheet: they add contents and empty rules to its places. The contents are
listed with their places. -/
inductive Grows (first : Sheet) : List (Place × Content) → Sheet → Prop where
  | refl : Grows first [] first
  | content {log : List (Place × Content)} {last : Sheet} {at_ : Place} (c : Content)
      (h : Grows first log last) (hplace : last.Has at_) :
      Grows first (log ++ [(at_, c)]) (last.addItem at_ c.item)
  | rule {log : List (Place × Content)} {last : Sheet} {at_ : Place} (selector : Text)
      (h : Grows first log last) (hplace : last.Has at_) :
      Grows first log (last.addRule at_ selector).1

namespace Grows

variable {sheet'' : Sheet} {log log' : List (Place × Content)}

variable (h : Grows sheet log sheet')
include h

theorem trans (h' : Grows sheet' log' sheet'') : Grows sheet (log ++ log') sheet'' := by
  induction h' with
  | refl => rwa [append_nil]
  | content c _ hplace ih =>
    rw [← append_assoc]
    exact ih.content c hplace
  | rule selector _ hplace ih => exact ih.rule selector hplace

theorem length_le : sheet.rules.length ≤ sheet'.rules.length := by
  induction h with
  | refl => exact Nat.le_refl _
  | content _ _ _ ih => rwa [length_rules_addItem]
  | rule _ _ _ ih =>
    rw [length_rules_addRule]
    exact Nat.le_succ_of_le ih

theorem has (hplace : sheet.Has place) : sheet'.Has place := by
  cases place with
  | root => exact hplace
  | rule i => exact Nat.lt_of_lt_of_le (show i < sheet.rules.length from hplace) h.length_le

theorem itemsAt_prefix (place : Place) : sheet.itemsAt place <+: sheet'.itemsAt place := by
  induction h with
  | refl => exact prefix_refl _
  | content c _ hplace ih =>
    rw [itemsAt_addItem hplace]
    exact ih.trans (prefix_append _ _)
  | rule selector _ hplace ih =>
    rw [itemsAt_addRule hplace]
    exact ih.trans (prefix_append _ _)

theorem contents (place : Place) : (sheet'.itemsAt place).filterMap Item.content? =
      (sheet.itemsAt place).filterMap Item.content? ++ under place log := by
  induction h with
  | refl => simp
  | @content _ _ at_ c _ hplace ih =>
    rw [itemsAt_addItem hplace, filterMap_append, ih, under_append, under_cons]
    by_cases h : place = at_
    · simp [h]
    · simp [h, Ne.symm h]
  | rule selector _ hplace ih =>
    rw [itemsAt_addRule hplace, filterMap_append, ih]
    split <;> simp [Item.content?]

end Grows

/-! ## The tree -/

/-- The place is the one that holds a rule. -/
structure IsParent (sheet : Sheet) (place : Place) (i : Nat) : Prop where
  before : place.Before i
  once : (sheet.itemsAt place).count (.rule i) = 1
  only : ∀ other, .rule i ∈ sheet.itemsAt other → other = place

/-- Every number is that of a rule, and every rule is held by one place, which comes before it. -/
structure IsTree (sheet : Sheet) : Prop where
  inRange : ∀ place i, .rule i ∈ sheet.itemsAt place → i < sheet.rules.length
  parent : ∀ i < sheet.rules.length, ∃ place, sheet.IsParent place i

theorem isTree_empty : IsTree {} := by
  refine ⟨fun place i h => ?_, fun i h => absurd h (Nat.not_lt_zero i)⟩
  cases place <;> simp [itemsAt] at h

theorem IsParent.addItem (h : sheet.IsParent place i) {sheet' : Sheet} {added : Place → List Item}
    (hitems : ∀ place, sheet'.itemsAt place = sheet.itemsAt place ++ added place)
    (hadded : ∀ place, .rule i ∉ added place) : sheet'.IsParent place i where
  before := h.before
  once := by rw [hitems, count_append, h.once, count_eq_zero.mpr (hadded place)]
  only other hother := by
    rw [hitems] at hother
    exact h.only other ((mem_append.mp hother).resolve_right (hadded other))

theorem IsTree.addContent (h : sheet.IsTree) (hplace : sheet.Has place) (c : Content) :
    (sheet.addItem place c.item).IsTree := by
  have hnot : ∀ i other, Item.rule i ∉ if other = place then [c.item] else [] := by
    intro i other
    cases c <;> split <;> simp [Content.item]
  constructor
  · intro other i hi
    rw [itemsAt_addItem hplace] at hi
    rw [length_rules_addItem]
    exact h.inRange other i ((mem_append.mp hi).resolve_right (hnot i other))
  · intro i hi
    rw [length_rules_addItem] at hi
    obtain ⟨parent, hparent⟩ := h.parent i hi
    exact ⟨parent, hparent.addItem (itemsAt_addItem hplace c.item) (hnot i)⟩

theorem IsTree.addRule (h : sheet.IsTree) (hplace : sheet.Has place) (selector : Text) :
    (sheet.addRule place selector).1.IsTree := by
  have hitems := itemsAt_addRule hplace selector
  have hnew : ∀ other, .rule sheet.rules.length ∉ sheet.itemsAt other := fun other hother =>
    Nat.lt_irrefl _ (h.inRange other _ hother)
  constructor
  · intro other i hi
    rw [hitems] at hi
    rw [length_rules_addRule]
    rcases mem_append.mp hi with hold | hadded
    · exact Nat.lt_succ_of_lt (h.inRange other i hold)
    · split at hadded
      · cases mem_singleton.mp hadded
        exact Nat.lt_succ_self _
      · cases hadded
  · intro i hi
    rw [length_rules_addRule] at hi
    rcases Nat.lt_succ_iff_lt_or_eq.mp hi with hold | rfl
    · obtain ⟨parent, hparent⟩ := h.parent i hold
      refine ⟨parent, hparent.addItem hitems fun other hother => ?_⟩
      split at hother
      · cases mem_singleton.mp hother
        exact Nat.lt_irrefl _ hold
      · cases hother
    · refine ⟨place, ?_, ?_, fun other hother => ?_⟩
      · cases place with
        | root => trivial
        | rule j => exact hplace
      · rw [hitems, if_pos rfl, count_append, count_eq_zero.mpr (hnew place), count_singleton_self]
      · rw [hitems] at hother
        by_contra hne
        rw [if_neg hne, append_nil] at hother
        exact hnew other hother

theorem Grows.isTree {log : List (Place × Content)} (h : Grows sheet log sheet')
    (htree : sheet.IsTree) : sheet'.IsTree := by
  induction h with
  | refl => exact htree
  | content c _ hplace ih => exact ih.addContent hplace c
  | rule selector _ hplace ih => exact ih.addRule hplace selector

namespace IsTree

/-- A rule holds rules with larger numbers only. -/
theorem lt (h : sheet.IsTree) (hi : .rule i ∈ sheet.itemsAt (.rule j)) : j < i := by
  obtain ⟨place, hplace⟩ := h.parent i (h.inRange _ i hi)
  have hbefore := hplace.before
  rw [← hplace.only _ hi] at hbefore
  exact hbefore

theorem count_eq_one (h : sheet.IsTree) (hi : .rule i ∈ sheet.itemsAt place) :
    (sheet.itemsAt place).count (.rule i) = 1 := by
  obtain ⟨parent, hparent⟩ := h.parent i (h.inRange _ i hi)
  rw [hparent.only _ hi]
  exact hparent.once

end IsTree

/-- The rules on the way from the root to a place, itself included. -/
inductive PathTo (sheet : Sheet) : Place → List Nat → Prop where
  | root : PathTo sheet .root []
  | rule {outer : Place} {path : List Nat} {index : Nat} (before : PathTo sheet outer path)
      (h : .rule index ∈ sheet.itemsAt outer) : PathTo sheet (.rule index) (path ++ [index])

theorem IsTree.exists_pathTo (h : sheet.IsTree) (hplace : sheet.Has place) :
    ∃ path, sheet.PathTo place path := by
  cases place with
  | root => exact ⟨[], .root⟩
  | rule i =>
    -- a rule comes after the place that holds it
    induction i using Nat.strongRecOn with
    | _ i ih =>
      obtain ⟨parent, hparent⟩ := h.parent i hplace
      have hmem : .rule i ∈ sheet.itemsAt parent := by
        rw [← count_pos_iff, hparent.once]
        exact Nat.one_pos
      have hbefore := hparent.before
      cases parent with
      | root => exact ⟨_, .rule .root hmem⟩
      | rule j =>
        obtain ⟨path, hpath⟩ := ih j hbefore (Nat.lt_trans hbefore hplace)
        exact ⟨_, .rule hpath hmem⟩

theorem IsTree.pathTo_unique (h : sheet.IsTree) {path path' : List Nat}
    (hpath : sheet.PathTo place path) (hpath' : sheet.PathTo place path') : path = path' := by
  induction hpath generalizing path' with
  | root =>
    cases hpath'
    rfl
  | @rule place path i _ hi ih =>
    cases hpath' with
    | @rule place' path' _ outer' hi' =>
      obtain ⟨parent, hparent⟩ := h.parent i (h.inRange _ i hi)
      obtain rfl : place' = place := (hparent.only _ hi').trans (hparent.only _ hi).symm
      rw [ih outer']

theorem PathTo.grows {path : List Nat} {log : List (Place × Content)}
    (hpath : sheet.PathTo place path) (h : Grows sheet log sheet') : sheet'.PathTo place path := by
  induction hpath with
  | root => exact .root
  | rule _ hi ih => exact .rule ih ((h.itemsAt_prefix _).subset hi)

/-! ## What is written -/

end Sheet

/-- A part of a written sheet. -/
inductive Mark where
  | opening (rule : Nat) (selector : Text)
  | content (c : Content)
  | closing
  deriving DecidableEq, Repr

namespace Layout

/-- The indent inside a block. -/
def deeper : Layout → Text → Text
  | compact, indent => indent
  | indented, indent => "  " ++ indent

/-- The indent outside a block. -/
def shallower : Layout → Text → Text
  | compact, indent => indent
  | indented, indent => indent.drop 2

def text : Layout → Text → Mark → Text
  | compact, _, .opening _ selector => selector ++ "\x7b"
  | compact, _, .content (.declaration key value) => key ++ ":" ++ value ++ ";"
  | compact, _, .content (.statement text) => text ++ ";"
  | compact, _, .closing => "\x7d"
  | indented, indent, .opening _ selector => indent ++ selector ++ " \x7b\n"
  | indented, indent, .content (.declaration key value) => indent ++ key ++ ": " ++ value ++ ";\n"
  | indented, indent, .content (.statement text) => indent ++ text ++ ";\n"
  | indented, indent, .closing => indent ++ "\x7d\n"

def write (layout : Layout) : Text → List Mark → Text
  | _, [] => []
  | indent, .opening i selector :: ms =>
    layout.text indent (.opening i selector) ++ layout.write (layout.deeper indent) ms
  | indent, .content c :: ms => layout.text indent (.content c) ++ layout.write indent ms
  | indent, .closing :: ms =>
    layout.text (layout.shallower indent) .closing ++ layout.write (layout.shallower indent) ms

theorem shallower_deeper (layout : Layout) (indent : Text) :
    layout.shallower (layout.deeper indent) = indent := by
  cases layout <;> rfl

end Layout

/-- Contents with the rules whose blocks are open around them, outermost first. -/
def located : List Nat → List Mark → List (List Nat × Content)
  | _, [] => []
  | path, .opening i _ :: ms => located (path ++ [i]) ms
  | path, .content c :: ms => (path, c) :: located path ms
  | path, .closing :: ms => located path.dropLast ms

namespace Sheet

variable {sheet : Sheet} {place : Place} {items : List Item} {marks : List Mark} {i : Nat}

/-- Items are written as marks. A rule that holds nothing is left out. -/
inductive Writes (sheet : Sheet) : List Item → List Mark → Prop where
  | nil : Writes sheet [] []
  | content {item : Item} {c : Content} {items : List Item} {marks : List Mark}
      (h : item.content? = some c) (more : Writes sheet items marks) :
      Writes sheet (item :: items) (.content c :: marks)
  | empty {i : Nat} {rule : Rule} {items : List Item} {marks : List Mark}
      (h : sheet.rules[i]? = some rule) (hempty : rule.items = [])
      (more : Writes sheet items marks) : Writes sheet (.rule i :: items) marks
  | block {i : Nat} {rule : Rule} {items : List Item} {inner marks : List Mark}
      (h : sheet.rules[i]? = some rule) (hne : rule.items ≠ [])
      (inside : Writes sheet rule.items inner) (more : Writes sheet items marks) :
      Writes sheet (.rule i :: items) (.opening i rule.selector :: (inner ++ .closing :: marks))

/-- Items are written if the rules among them are, and those come after the rules they are in. -/
theorem IsTree.exists_writes_of_le (h : sheet.IsTree) {k m : Nat}
    (hk : sheet.rules.length ≤ k + m) :
    ∀ {items : List Item}, (∀ i, .rule i ∈ items → k ≤ i ∧ i < sheet.rules.length) →
      ∃ marks, sheet.Writes items marks := by
  induction m using Nat.strongRecOn generalizing k with
  | ind m ihm =>
    intro items hitems
    induction items with
    | nil => exact ⟨[], .nil⟩
    | cons item items ih =>
      obtain ⟨marks, hmarks⟩ := ih fun i hi => hitems i (mem_cons_of_mem _ hi)
      cases hc : item.content? with
      | some c => exact ⟨_, .content hc hmarks⟩
      | none =>
        obtain ⟨i, rfl⟩ := Item.content?_eq_none_iff.mp hc
        obtain ⟨hki, hi⟩ := hitems i mem_cons_self
        have hrule : sheet.rules[i]? = some sheet.rules[i] := getElem?_eq_getElem hi
        by_cases hempty : sheet.rules[i].items = []
        · exact ⟨_, .empty hrule hempty hmarks⟩
        · have hinner : ∀ j, .rule j ∈ sheet.rules[i].items →
              i + 1 ≤ j ∧ j < sheet.rules.length := by
            intro j hj
            rw [← itemsAt_of_getElem? hrule] at hj
            exact ⟨h.lt hj, h.inRange _ j hj⟩
          obtain ⟨inner, hinner⟩ := ihm (m - 1) (by omega) (by omega) hinner
          exact ⟨_, .block hrule hempty hinner hmarks⟩

theorem IsTree.exists_writes (h : sheet.IsTree) (place : Place) :
    ∃ marks, sheet.Writes (sheet.itemsAt place) marks :=
  h.exists_writes_of_le (Nat.le_add_left _ 0) fun i hi => ⟨Nat.zero_le i, h.inRange place i hi⟩

/-- Write an item in a layout, going at most `depth` rules deep. -/
def itemText (sheet : Sheet) : Layout → Nat → Text → Item → Text
  | .compact, depth, _, item => sheet.compactItem depth item
  | .indented, depth, indent, item => sheet.indentedItem depth indent item

theorem itemText_content {item : Item} {c : Content} (h : item.content? = some c)
    (layout : Layout) (depth : Nat) (indent : Text) :
    sheet.itemText layout depth indent item = layout.text indent (.content c) := by
  cases item with
  | rule i => cases h
  | declaration | statement =>
    cases h
    cases layout <;> cases depth <;> simp [itemText, compactItem, indentedItem, Layout.text]

theorem itemText_rule {rule : Rule} (h : sheet.rules[i]? = some rule) (layout : Layout)
    (depth : Nat) (indent : Text) :
    sheet.itemText layout (depth + 1) indent (.rule i) =
      if rule.items.isEmpty then []
      else layout.text indent (.opening i rule.selector) ++
        (rule.items.flatMap (sheet.itemText layout depth (layout.deeper indent)) ++
          layout.text indent .closing) := by
  cases layout with
  | compact =>
    show sheet.compactItem (depth + 1) (.rule i) = _
    simp only [compactItem, h, Layout.text, append_assoc]
    rfl
  | indented =>
    show sheet.indentedItem (depth + 1) indent (.rule i) = _
    simp only [indentedItem, h, Layout.text, append_assoc]
    rfl

/-- With as much depth as there are rules from each item on, items are written as their marks. -/
theorem Writes.flatMap_itemText (h : sheet.IsTree) (layout : Layout)
    (hw : sheet.Writes items marks) (depth : Nat) (indent : Text) (after : List Mark)
    (hdepth : ∀ i, .rule i ∈ items → sheet.rules.length ≤ i + depth) :
    items.flatMap (sheet.itemText layout depth indent) ++ layout.write indent after =
      layout.write indent (marks ++ after) := by
  induction hw generalizing depth indent after with
  | nil => rfl
  | content hc _ ih =>
    rw [flatMap_cons, itemText_content hc, append_assoc,
      ih depth indent after fun i hi => hdepth i (mem_cons_of_mem _ hi)]
    rfl
  | @empty i rule items marks hrule hempty _ ih =>
    have hi : i < sheet.rules.length := (List.getElem?_eq_some_iff.mp hrule).1
    have hlt := hdepth i mem_cons_self
    obtain ⟨depth, rfl⟩ : ∃ d, depth = d + 1 := ⟨depth - 1, by omega⟩
    rw [flatMap_cons, itemText_rule hrule, hempty, append_assoc,
      ih _ indent after fun i hi => hdepth i (mem_cons_of_mem _ hi)]
    rfl
  | @block i rule items inner marks hrule hne _ _ ihinner ih =>
    have hi : i < sheet.rules.length := (List.getElem?_eq_some_iff.mp hrule).1
    have hlt := hdepth i mem_cons_self
    obtain ⟨depth, rfl⟩ : ∃ d, depth = d + 1 := ⟨depth - 1, by omega⟩
    have hinner : ∀ j, .rule j ∈ rule.items → sheet.rules.length ≤ j + depth := by
      intro j hj
      rw [← itemsAt_of_getElem? hrule] at hj
      have hij := h.lt hj
      omega
    have hrest := ih _ indent after fun i hi => hdepth i (mem_cons_of_mem _ hi)
    have hblock := ihinner depth (layout.deeper indent) (.closing :: (marks ++ after)) hinner
    rw [Layout.write, Layout.shallower_deeper] at hblock
    rw [flatMap_cons, itemText_rule hrule, if_neg (by simpa using hne), append_assoc,
      hrest, append_assoc, append_assoc, hblock]
    simp only [cons_append, append_assoc, Layout.write]

theorem IsTree.render_eq (h : sheet.IsTree) (hw : sheet.Writes sheet.root marks)
    (layout : Layout) : sheet.render layout = layout.write [] marks := by
  have hdepth : ∀ i, .rule i ∈ sheet.root → sheet.rules.length ≤ i + sheet.rules.length :=
    fun i _ => Nat.le_add_left _ i
  have hwrite := hw.flatMap_itemText h layout _ [] [] hdepth
  rw [Layout.write, append_nil, append_nil] at hwrite
  rw [← hwrite]
  cases layout <;> rfl

/-! ## Where it is written -/

namespace Writes

theorem located_append (hw : sheet.Writes items marks) : ∀ (path : List Nat) (after : List Mark),
    located path (marks ++ after) = located path marks ++ located path after := by
  induction hw with
  | nil => exact fun _ _ => rfl
  | content _ _ ih =>
    intro path after
    rw [cons_append, located, ih]
    rfl
  | empty _ _ _ ih => exact ih
  | block _ _ _ _ ihinner ih =>
    intro path after
    simp only [cons_append, append_assoc, located, ihinner, dropLast_concat, ih]

theorem located_block {inner : List Mark} {outer : List Item}
    (hinner : sheet.Writes outer inner) (path : List Nat) (selector : Text) :
    located path (.opening i selector :: (inner ++ .closing :: marks)) =
      located (path ++ [i]) inner ++ located path marks := by
  simp only [located, hinner.located_append, dropLast_concat]

variable (hw : sheet.Writes items marks)
include hw

theorem prefix_of_mem_located : ∀ {path : List Nat}, ∀ e ∈ located path marks, path <+: e.1 := by
  induction hw with
  | nil => exact nofun
  | content _ _ ih =>
    intro path e he
    rcases mem_cons.mp he with rfl | he
    · exact prefix_refl _
    · exact ih e he
  | empty _ _ _ ih => exact ih
  | block _ _ hinner _ ihinner ih =>
    intro path e he
    rw [hinner.located_block] at he
    rcases mem_append.mp he with he | he
    · exact (prefix_append path _).trans (ihinner e he)
    · exact ih e he

theorem under_outer (path : List Nat) (i : Nat) : under path (located (path ++ [i]) marks) = [] :=
  under_eq_nil fun e he heq => by
    have hle := (hw.prefix_of_mem_located e he).length_le
    rw [heq, length_append] at hle
    exact Nat.not_succ_le_self _ hle

/-- What is written outside of the blocks are the contents of the items themselves. -/
theorem under_self : ∀ {path : List Nat},
    under path (located path marks) = items.filterMap Item.content? := by
  induction hw with
  | nil => exact rfl
  | content h _ ih =>
    intro path
    rw [located, under_cons, if_pos rfl, ih, filterMap_cons_some h]
    rfl
  | empty _ _ _ ih =>
    intro path
    rw [ih, filterMap_cons_none rfl]
  | block _ _ hinner _ _ ih =>
    intro path
    rw [hinner.located_block, under_append, hinner.under_outer, ih]
    rfl

theorem under_other {path more : List Nat} {j : Nat} (hne : j ≠ i) :
    under (path ++ i :: more) (located (path ++ [j]) marks) = [] :=
  under_eq_nil fun e he heq => by
    have hprefix := hw.prefix_of_mem_located e he
    rw [heq, prefix_append_right_inj] at hprefix
    exact hne (cons_prefix_cons.mp hprefix).1

theorem under_of_notMem (hi : .rule i ∉ items)
    {path more : List Nat} : under (path ++ i :: more) (located path marks) = [] := by
  induction hw with
  | nil => rfl
  | content _ _ ih =>
    rw [located, under_cons, ih (not_mem_of_not_mem_cons hi), if_neg (by simp)]
    rfl
  | empty _ _ _ ih => exact ih (not_mem_of_not_mem_cons hi)
  | @block j _ _ _ _ _ _ hinner _ _ ih =>
    have hne : j ≠ i := by
      rintro rfl
      exact hi mem_cons_self
    rw [hinner.located_block, under_append, ih (not_mem_of_not_mem_cons hi), hinner.under_other hne]
    rfl

/-- What is written in the block of a rule that the items hold once is what the rule's own items are
written as. -/
theorem under_block (hi : items.count (.rule i) = 1)
    (path : List Nat) : ∃ rule inner, sheet.rules[i]? = some rule ∧ sheet.Writes rule.items inner ∧
      ∀ more, under (path ++ i :: more) (located path marks) =
        under (path ++ i :: more) (located (path ++ [i]) inner) := by
  induction hw with
  | nil => cases hi
  | @content item c items marks hc _ ih =>
    have hne : item ≠ .rule i := by
      rintro rfl
      cases hc
    rw [count_cons_of_ne hne] at hi
    obtain ⟨rule, inner, hrule, hinner, hunder⟩ := ih hi
    refine ⟨rule, inner, hrule, hinner, fun more => ?_⟩
    rw [located, under_cons, if_neg (by simp), hunder]
    rfl
  | @empty j rule items marks hrule hempty more ih =>
    by_cases hij : j = i
    · subst hij
      rw [count_cons_self, Nat.succ_inj, count_eq_zero] at hi
      refine ⟨rule, [], hrule, hempty ▸ .nil, fun _ => more.under_of_notMem hi⟩
    · rw [count_cons_of_ne (by simpa using hij)] at hi
      exact ih hi
  | @block j rule items inner marks hrule hne hinner more _ ih =>
    by_cases hij : j = i
    · subst hij
      rw [count_cons_self, Nat.succ_inj, count_eq_zero] at hi
      refine ⟨rule, inner, hrule, hinner, fun _ => ?_⟩
      rw [hinner.located_block, under_append, more.under_of_notMem hi, append_nil]
    · rw [count_cons_of_ne (by simpa using hij)] at hi
      obtain ⟨rule', inner', hrule', hinner', hunder⟩ := ih hi
      refine ⟨rule', inner', hrule', hinner', fun _ => ?_⟩
      rw [hinner.located_block, under_append, hinner.under_other hij, hunder]
      rfl

theorem exists_pathTo : ∀ {place : Place} {path : List Nat},
    sheet.PathTo place path → items ⊆ sheet.itemsAt place →
      ∀ e ∈ located path marks, ∃ place, sheet.PathTo place e.1 := by
  induction hw with
  | nil => exact nofun
  | content _ _ ih =>
    intro place path hpath hitems e he
    rcases mem_cons.mp he with rfl | he
    · exact ⟨place, hpath⟩
    · exact ih hpath (subset_of_cons_subset hitems) e he
  | empty _ _ _ ih =>
    intro place path hpath hitems e he
    exact ih hpath (subset_of_cons_subset hitems) e he
  | @block i rule _ _ _ hrule _ hinner _ ihinner ih =>
    intro place path hpath hitems e he
    rw [hinner.located_block] at he
    rcases mem_append.mp he with he | he
    · refine ihinner (.rule hpath (hitems mem_cons_self)) ?_ e he
      rw [itemsAt_of_getElem? hrule]
      exact List.Subset.refl _
    · exact ih hpath (subset_of_cons_subset hitems) e he

end Writes

/-- On the way to a place one comes to what its items are written as. -/
theorem PathTo.under_eq (h : sheet.IsTree) (hw : sheet.Writes sheet.root marks) {path : List Nat}
    (hpath : sheet.PathTo place path) : ∃ inner, sheet.Writes (sheet.itemsAt place) inner ∧
      ∀ more, under (path ++ more) (located [] marks) =
        under (path ++ more) (located path inner) := by
  induction hpath with
  | root => exact ⟨marks, hw, fun _ => rfl⟩
  | @rule place path i _ hi ih =>
    obtain ⟨outer, houter, hunder⟩ := ih
    obtain ⟨rule, inner, hrule, hinner, hblock⟩ := houter.under_block (h.count_eq_one hi) path
    refine ⟨inner, itemsAt_of_getElem? hrule ▸ hinner, fun more => ?_⟩
    rw [append_assoc, singleton_append, hunder, hblock]

/-- In the blocks of the rules on the way to a place, and in no other, stand the contents of the
place. -/
theorem PathTo.under_located (h : sheet.IsTree) (hw : sheet.Writes sheet.root marks)
    {path : List Nat} (hpath : sheet.PathTo place path) :
    under path (located [] marks) = (sheet.itemsAt place).filterMap Item.content? := by
  obtain ⟨inner, hinner, hunder⟩ := hpath.under_eq h hw
  have hpath := hunder []
  rw [append_nil] at hpath
  rw [hpath, hinner.under_self]

end Sheet

/-! ## Sheets that are built by calls -/

namespace Sheet

/-- A call on a sheet. Scopes are counted in the order in which calls have returned them. -/
inductive Operation where
  | scope (selector : Option Text)
  | select (scope : Nat) (selector : Text)
  | value (scope : Nat) (key value : Text)
  | stat (statement : Text)
  deriving DecidableEq, Repr

def isAtRule (selector : Text) : Bool :=
  startsWith ['@'] (trim selector)

/-- A scope that has been returned, with what was selected on the way to it, outermost first. -/
structure Opened where
  scope : Scope
  way : List Text := []
  atRules : List Nat := []
  deriving DecidableEq, Repr

/-- A sheet with the scopes that it has returned, and the contents added to its places, in order. -/
structure Building where
  sheet : Sheet := {}
  scopes : List Opened := []
  log : List (Place × Content) := []
  deriving DecidableEq, Repr

/-- The scope that is selected inside one. The rule of an at-rule is the next one. -/
def Opened.select (sheet : Sheet) (outer : Opened) (selector : Text) : Opened where
  scope := (sheet.select outer.scope selector).2
  way := outer.way ++ [selector]
  atRules := outer.atRules ++ if isAtRule selector then [sheet.rules.length] else []

def declarations (place : Place) (key value : Text) : List (Place × Content) :=
  (Text.splitOn ',' key).map fun part => (place, .declaration (trim part) value)

/-- Carry out a call. It must find the scope it is given. -/
def Building.run? (b : Building) : Operation → Option Building
  | .scope selector =>
    some { b with
      sheet := (b.sheet.scope selector).1
      scopes := b.scopes ++ [⟨(b.sheet.scope selector).2, [], []⟩] }
  | .select i selector => b.scopes[i]?.map fun outer =>
    { b with
      sheet := (b.sheet.select outer.scope selector).1
      scopes := b.scopes ++ [outer.select b.sheet selector] }
  | .value i key value => b.scopes[i]?.map fun opened =>
    { b with
      sheet := b.sheet.value opened.scope key value
      log := b.log ++ declarations opened.scope.itemsAt key value }
  | .stat statement =>
    some { b with
      sheet := b.sheet.stat statement
      log := b.log ++ [(.root, .statement (trim statement))] }

/-- Carry out calls in order, on an empty sheet. -/
def build? (ops : List Operation) : Option Building :=
  ops.foldlM Building.run? {}

variable {b : Building} {scope : Scope}

theorem Building.forall_build? {P : Building → Prop} (hempty : P {})
    (hrun : ∀ b op b', P b → b.run? op = some b' → P b') {ops : List Operation}
    (h : build? ops = some b) : P b := by
  have hfold : ∀ {ops : List Operation} {b b' : Building}, P b →
      ops.foldlM Building.run? b = some b' → P b' := by
    intro ops
    induction ops with
    | nil =>
      rintro b _ hb ⟨⟩
      exact hb
    | cons op ops ih =>
      intro b b' hb hops
      obtain ⟨b1, hop, hops⟩ := Option.bind_eq_some_iff.mp hops
      exact ih (hrun b op b1 hb hop) hops
  exact hfold hempty h

def Holds (sheet : Sheet) (scope : Scope) : Prop :=
  sheet.Has scope.rulesAt ∧ sheet.Has scope.itemsAt

theorem Grows.holds {log : List (Place × Content)} {sheet' : Sheet} (h : Grows sheet log sheet')
    (hscope : sheet.Holds scope) : sheet'.Holds scope :=
  ⟨h.has hscope.1, h.has hscope.2⟩

theorem grows_addRule (h : sheet.Has place) (selector : Text) :
    Grows sheet [] (sheet.addRule place selector).1 ∧
      (sheet.addRule place selector).1.Has (sheet.addRule place selector).2 := by
  refine ⟨.rule selector .refl h, ?_⟩
  show sheet.rules.length < (sheet.addRule place selector).1.rules.length
  rw [length_rules_addRule]
  exact Nat.lt_succ_self _

theorem grows_scope (sheet : Sheet) (selector : Option Text) :
    Grows sheet [] (sheet.scope selector).1 ∧
      (sheet.scope selector).1.Holds (sheet.scope selector).2 := by
  cases selector with
  | none => exact ⟨.refl, trivial, trivial⟩
  | some selector =>
    obtain ⟨hgrows, hrule⟩ := grows_addRule sheet.has_root selector
    exact ⟨hgrows, trivial, hrule⟩

theorem grows_select (h : sheet.Holds scope) (selector : Text) :
    Grows sheet [] (sheet.select scope selector).1 ∧
      (sheet.select scope selector).1.Holds (sheet.select scope selector).2 := by
  unfold select
  extract_lets selector
  cases Text.after? ['@'] selector with
  | some name =>
    obtain ⟨hat, hrule⟩ := grows_addRule sheet.has_root selector
    cases hselectors : scope.selectors with
    | nil => exact ⟨hat, hrule, hrule⟩
    | cons first rest =>
      obtain ⟨hinner, hitems⟩ := grows_addRule hrule (Text.join ", " (first :: rest))
      exact ⟨hat.trans hinner, hinner.has hrule, hitems⟩
  | none =>
    obtain ⟨hgrows, hrule⟩ := grows_addRule h.1 (Text.join ", "
      ((Text.splitOn ',' selector).flatMap fun part => combine scope (trim part)))
    exact ⟨hgrows, hgrows.has h.1, hrule⟩

theorem grows_value (h : sheet.Has scope.itemsAt) (key value : Text) :
    Grows sheet (declarations scope.itemsAt key value) (sheet.value scope key value) := by
  have hfold : ∀ (parts : List Text) {log : List (Place × Content)} {sheet' : Sheet},
      Grows sheet log sheet' →
      Grows sheet (log ++ parts.map fun part =>
          (scope.itemsAt, .declaration (trim part) value))
        (parts.foldl (fun sheet part =>
          sheet.addItem scope.itemsAt (.declaration (trim part) value)) sheet') := by
    intro parts
    induction parts with
    | nil =>
      intro log sheet' hgrows
      rwa [map_nil, append_nil]
    | cons part parts ih =>
      intro log sheet' hgrows
      rw [map_cons, append_cons]
      exact ih (hgrows.content (.declaration (trim part) value) (hgrows.has h))
  exact hfold (Text.splitOn ',' key) .refl

/-- What holds after any calls: they have added the contents in the log and some rules, to places of
the sheet. -/
structure Building.Formed (b : Building) : Prop where
  grows : Grows {} b.log b.sheet
  scopes : ∀ opened ∈ b.scopes, b.sheet.Holds opened.scope
  log : ∀ e ∈ b.log, b.sheet.Has e.1

/-- A call makes the sheet grow by what it notes in the log, and all scopes are kept. -/
theorem Building.Formed.run {b' : Building} (h : b.Formed) {op : Operation}
    (hrun : b.run? op = some b') : ∃ log, b'.log = b.log ++ log ∧ Grows b.sheet log b'.sheet ∧
      (∀ e ∈ log, b.sheet.Has e.1) ∧
      ∀ opened ∈ b'.scopes, opened ∈ b.scopes ∨ b'.sheet.Holds opened.scope := by
  cases op with
  | scope selector =>
    cases hrun
    obtain ⟨hgrows, hscope⟩ := grows_scope b.sheet selector
    refine ⟨[], (append_nil _).symm, hgrows, forall_mem_nil _, fun opened hopened => ?_⟩
    rcases mem_append.mp hopened with hold | hnew
    · exact .inl hold
    · cases mem_singleton.mp hnew
      exact .inr hscope
  | select i selector =>
    obtain ⟨outer, houter, rfl⟩ := Option.map_eq_some_iff.mp hrun
    obtain ⟨hgrows, hscope⟩ := grows_select (h.scopes outer (mem_of_getElem? houter)) selector
    refine ⟨[], (append_nil _).symm, hgrows, forall_mem_nil _, fun opened hopened => ?_⟩
    rcases mem_append.mp hopened with hold | hnew
    · exact .inl hold
    · cases mem_singleton.mp hnew
      exact .inr hscope
  | value i key value =>
    obtain ⟨opened, hopened, rfl⟩ := Option.map_eq_some_iff.mp hrun
    have hplace := (h.scopes opened (mem_of_getElem? hopened)).2
    refine ⟨_, rfl, grows_value hplace key value, fun e he => ?_, fun _ => .inl⟩
    obtain ⟨part, -, rfl⟩ := mem_map.mp he
    exact hplace
  | stat statement =>
    cases hrun
    exact ⟨_, rfl, .content (.statement (trim statement)) .refl trivial,
      forall_mem_singleton.mpr trivial, fun _ => .inl⟩

theorem Building.Formed.step {b' : Building} (h : b.Formed) {op : Operation}
    (hrun : b.run? op = some b') : b'.Formed := by
  obtain ⟨log, hlog, hgrows, hplaces, hscopes⟩ := h.run hrun
  refine ⟨hlog ▸ h.grows.trans hgrows, fun opened hopened => ?_, fun e he => ?_⟩
  · exact (hscopes opened hopened).elim (fun hold => hgrows.holds (h.scopes opened hold)) id
  · rw [hlog] at he
    exact hgrows.has ((mem_append.mp he).elim (h.log e) (hplaces e))

theorem Building.formed {ops : List Operation} (h : build? ops = some b) :
    b.Formed :=
  forall_build? ⟨.refl, forall_mem_nil _, forall_mem_nil _⟩
    (fun _ _ _ hb hrun => hb.step hrun) h

theorem Building.Formed.contents (h : b.Formed) (place : Place) :
    (b.sheet.itemsAt place).filterMap Item.content? = under place b.log := by
  have hempty : itemsAt {} place = [] := by
    cases place <;> simp [Sheet.itemsAt]
  rw [h.grows.contents, hempty]
  rfl

/-- After any calls, with scopes that the sheet has returned, all numbers of rules are in range and
every rule is held once, by the root or by a rule with a smaller number. So the sheet is written as
a sequence of marks that is the same in both layouts. Each place has one path from the root; in the
blocks of the rules on this path, and outside of all other blocks, stands what has been added to the
place, once and in the order in which it was added, and nothing stands anywhere else. -/
theorem written_once {ops : List Operation} {b : Building} (h : build? ops = some b) :
    b.sheet.IsTree ∧ (∀ opened ∈ b.scopes, b.sheet.Holds opened.scope) ∧
    ∃ marks, b.sheet.Writes b.sheet.root marks ∧
      (∀ layout, b.sheet.render layout = Layout.write layout [] marks) ∧
      (∀ e ∈ located [] marks, ∃ place, b.sheet.PathTo place e.1) ∧
      (∀ e ∈ b.log, ∃! path, b.sheet.PathTo e.1 path) ∧
      ∀ place path, b.sheet.PathTo place path →
        under path (located [] marks) = under place b.log := by
  have hformed := Building.formed h
  have htree : b.sheet.IsTree := hformed.grows.isTree isTree_empty
  obtain ⟨marks, hmarks⟩ := htree.exists_writes .root
  refine ⟨htree, hformed.scopes, marks, hmarks, htree.render_eq hmarks,
    hmarks.exists_pathTo .root (List.Subset.refl _), fun e he => ?_, fun place path hpath => ?_⟩
  · obtain ⟨path, hpath⟩ := htree.exists_pathTo (hformed.log e he)
    exact ⟨path, hpath, fun path' hpath' => htree.pathTo_unique hpath' hpath⟩
  · rw [hpath.under_located htree hmarks, hformed.contents]

/-- Selectors inside an at-rule, a list of keys, a rule that stays empty, and a statement. -/
theorem written_once_nested :
    ∃ b, build? [.scope (some ".r"), .select 0 ".a, .b", .select 1 "@media x", .stat "@import y",
        .value 2 "top, left" "0", .select 2 "&:hover", .select 0 ".e", .value 3 "color" "red",
        .value 0 "margin" "0"] = some b ∧
      b.sheet.render .compact =
        (".r\x7bmargin:0;\x7d@media x\x7b.r .a, .r .b\x7btop:0;left:0;\x7d" ++
          ".r .a:hover, .r .b:hover\x7bcolor:red;\x7d\x7d@import y;" : Text) ∧
      b.sheet.IsTree ∧ ∃ marks, b.sheet.Writes b.sheet.root marks ∧
        b.sheet.render .compact = Layout.write .compact [] marks ∧
        b.sheet.render .indented = Layout.write .indented [] marks ∧
        under [2, 3] (located [] marks) = [.declaration "top" "0", .declaration "left" "0"] := by
  have hrun : (build? [.scope (some ".r"), .select 0 ".a, .b", .select 1 "@media x",
      .stat "@import y", .value 2 "top, left" "0", .select 2 "&:hover", .select 0 ".e",
      .value 3 "color" "red", .value 0 "margin" "0"]).any (fun b => decide (
        b.sheet.render .compact =
          (".r\x7bmargin:0;\x7d@media x\x7b.r .a, .r .b\x7btop:0;left:0;\x7d" ++
            ".r .a:hover, .r .b:hover\x7bcolor:red;\x7d\x7d@import y;" : Text) ∧
        .rule 2 ∈ b.sheet.itemsAt .root ∧ .rule 3 ∈ b.sheet.itemsAt (.rule 2) ∧
        under (.rule 3) b.log = [.declaration "top" "0", .declaration "left" "0"])) = true := by
    decide +kernel
  obtain ⟨b, hb, hrun⟩ := (Option.any_eq_true _ _).mp hrun
  obtain ⟨htext, houter, hinner, hlog⟩ := of_decide_eq_true hrun
  obtain ⟨htree, -, marks, hmarks, hrender, -, -, hunder⟩ := written_once hb
  refine ⟨b, hb, htext, htree, marks, hmarks, hrender _, hrender _, ?_⟩
  rw [hunder (.rule 3) [2, 3] (.rule (.rule .root houter) hinner), hlog]

end Sheet
end Patchwork.Style
