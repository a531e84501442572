import Patchwork.Proofs.SheetTree

/-!
# The at-rules around a declaration

A scope of a sheet is reached by selecting, one inside the other, selectors and at-rules. What is
declared in it should hold under the conditions of all at-rules on the way. A rule that is selected
in the scope of an at-rule goes into its block, but an at-rule goes to the top of the sheet wherever
it is selected. So of the at-rules on the way to a scope only the last one is around what is
declared there (`Placed`), and the conditions are all kept exactly if there is no more than one
(`at_rules_kept_iff`). `outer_at_rule_lost` is the shortest chain that loses one.
-/

namespace Patchwork.Text

theorem splitOn_ne_nil (sep : Char) (t : Text) : splitOn sep t ≠ [] := by
  induction t with
  | nil => simp [splitOn]
  | cons c t ih =>
    obtain ⟨l, ls, hsplit⟩ := List.exists_cons_of_ne_nil ih
    by_cases hc : c == sep <;> simp [splitOn, hsplit, hc]

end Patchwork.Text

namespace Patchwork.Style

theorem mem_under {α : Type} [DecidableEq α] {key : α} {entries : List (α × Content)}
    {c : Content} : c ∈ under key entries ↔ (key, c) ∈ entries := by
  simp [under]

namespace Sheet

variable {sheet sheet' : Sheet} {place : Place} {log : List (Place × Content)} {i : Nat}

def selector? (sheet : Sheet) (i : Nat) : Option Text :=
  sheet.rules[i]?.map Rule.selector

/-! ## Selectors stay -/

theorem selector?_addItem (sheet : Sheet) (place : Place) (item : Item) (i : Nat) :
    (sheet.addItem place item).selector? i = sheet.selector? i := by
  cases place with
  | root => rfl
  | rule j =>
    by_cases hij : i = j
    · subst hij
      simp [addItem, selector?, Function.comp_def]
    · simp [addItem, selector?, Ne.symm hij]

theorem selector?_addRule (sheet : Sheet) (place : Place) (selector : Text) (i : Nat) :
    (sheet.addRule place selector).1.selector? i =
      if i = sheet.rules.length then some selector else sheet.selector? i := by
  rw [addRule_eq, selector?_addItem, withRule, selector?]
  rcases Nat.lt_trichotomy i sheet.rules.length with h | h | h
  · simp [selector?, List.getElem?_append_left h, Nat.ne_of_lt h]
  · simp [h]
  · have hout : ∀ {rules : List Rule}, rules.length ≤ i → rules[i]?.map Rule.selector = none :=
      fun h => by rw [List.getElem?_eq_none h, Option.map_none]
    have hlength : (sheet.rules ++ [Rule.mk selector []]).length ≤ i := by
      rw [List.length_append]
      exact h
    rw [if_neg (Nat.ne_of_gt h), selector?, hout (Nat.le_of_lt h), hout hlength]

@[simp] theorem selector?_addRule_self (sheet : Sheet) (place : Place) (selector : Text) :
    (sheet.addRule place selector).1.selector? sheet.rules.length = some selector := by
  rw [selector?_addRule, if_pos rfl]

theorem mem_itemsAt_addRule (h : sheet.Has place) (selector : Text) :
    .rule sheet.rules.length ∈ (sheet.addRule place selector).1.itemsAt place := by
  rw [itemsAt_addRule h, if_pos rfl]
  exact List.mem_append_right _ List.mem_cons_self

theorem Grows.selector? (h : Grows sheet log sheet') (hi : i < sheet.rules.length) :
    sheet'.selector? i = sheet.selector? i := by
  induction h with
  | refl => rfl
  | content c _ _ ih => rw [selector?_addItem, ih]
  | rule selector hgrows _ ih =>
    rw [selector?_addRule, if_neg (Nat.ne_of_lt (Nat.lt_of_lt_of_le hi hgrows.length_le)), ih]

/-! ## Where a scope stands -/

/-- The block of a scope inside its at-rule, if it has selectors. -/
inductive OwnBlock (sheet : Sheet) (scope : Scope) : List Nat → Prop where
  | none (h : scope.selectors = []) (hitems : scope.itemsAt = scope.rulesAt) :
      OwnBlock sheet scope []
  | rule {i : Nat} (h : scope.selectors ≠ []) (hitems : scope.itemsAt = .rule i)
      (hmem : .rule i ∈ sheet.itemsAt scope.rulesAt)
      (hselector : sheet.selector? i = some (Text.join ", " scope.selectors)) :
      OwnBlock sheet scope [i]

variable {scope : Scope} {own : List Nat} {outer : Opened}

theorem OwnBlock.map_selector? (h : sheet.OwnBlock scope own) : own.map sheet.selector? =
      if scope.selectors.isEmpty then [] else [some (Text.join ", " scope.selectors)] := by
  cases h with
  | none h _ => simp [h]
  | rule h _ _ hselector => simp [h, hselector]

theorem OwnBlock.pathTo {path : List Nat} (h : sheet.OwnBlock scope own)
    (hpath : sheet.PathTo scope.rulesAt path) : sheet.PathTo scope.itemsAt (path ++ own) := by
  cases h with
  | none _ hitems => rwa [hitems, List.append_nil]
  | rule _ hitems hmem _ => exact hitems ▸ .rule hpath hmem

theorem OwnBlock.grows (h : sheet.OwnBlock scope own) (hgrows : Grows sheet log sheet') :
    sheet'.OwnBlock scope own := by
  cases h with
  | none h hitems => exact .none h hitems
  | @rule i h hitems hmem hselector =>
    have hi : i < sheet.rules.length := by
      obtain ⟨rule, hrule, -⟩ := Option.map_eq_some_iff.mp hselector
      exact (List.getElem?_eq_some_iff.mp hrule).1
    exact .rule h hitems ((hgrows.itemsAt_prefix _).subset hmem)
      ((hgrows.selector? hi).trans hselector)

/-- Around the rules of a scope is the block of the last at-rule on the way to it, and no other. -/
structure Placed (sheet : Sheet) (opened : Opened) : Prop where
  outer : sheet.PathTo opened.scope.rulesAt opened.atRules.getLast?.toList
  own : ∃ own, sheet.OwnBlock opened.scope own
  named : opened.atRules.map sheet.selector? =
    (opened.way.filter isAtRule).map fun selector => some (Text.trim selector)
  inRange : ∀ i ∈ opened.atRules, i < sheet.rules.length
  increasing : opened.atRules.Pairwise (· < ·)

theorem Placed.grows {opened : Opened} (h : sheet.Placed opened)
    (hgrows : Grows sheet log sheet') : sheet'.Placed opened where
  outer := h.outer.grows hgrows
  own := h.own.imp fun _ hown => hown.grows hgrows
  named := by
    rw [← h.named]
    exact List.map_congr_left fun i hi => hgrows.selector? (h.inRange i hi)
  inRange i hi := Nat.lt_of_lt_of_le (h.inRange i hi) hgrows.length_le
  increasing := h.increasing

theorem placed_scope (sheet : Sheet) (selector : Option Text) :
    (sheet.scope selector).1.Placed ⟨(sheet.scope selector).2, [], []⟩ := by
  have hown : ∃ own, (sheet.scope selector).1.OwnBlock (sheet.scope selector).2 own := by
    cases selector with
    | none => exact ⟨[], .none rfl rfl⟩
    | some selector =>
      have hjoin : Text.join ", " [selector] = selector := by simp [Text.join]
      refine ⟨_, .rule (List.cons_ne_nil _ _) rfl (mem_itemsAt_addRule sheet.has_root selector) ?_⟩
      show (sheet.addRule .root selector).1.selector? sheet.rules.length = some (Text.join ", " [_])
      rw [selector?_addRule_self, hjoin]
  refine ⟨?_, hown, rfl, List.forall_mem_nil _, .nil⟩
  cases selector <;> exact .root

theorem combine_ne_nil (scope : Scope) (part : Text) : combine scope part ≠ [] := by
  unfold combine
  cases scope.selectors with
  | nil => simp
  | cons => repeat' split <;> simp

theorem ownBlock_addRule (h : sheet.Has place) (hrules : scope.rulesAt = place)
    (hselectors : scope.selectors ≠ [])
    (hitems : scope.itemsAt = (sheet.addRule place (Text.join ", " scope.selectors)).2) :
    (sheet.addRule place (Text.join ", " scope.selectors)).1.OwnBlock scope
      [sheet.rules.length] :=
  .rule hselectors hitems (hrules ▸ mem_itemsAt_addRule h _) (selector?_addRule_self ..)

theorem Placed.select_plain (h : sheet.Placed outer) (hholds : sheet.Holds outer.scope)
    {selector : Text} (hat : isAtRule selector = false) :
    (sheet.select outer.scope selector).1.Placed (outer.select sheet selector) := by
  have hafter : Text.after? ['@'] (Text.trim selector) = none := by
    rw [Text.after?, if_neg (by simpa [isAtRule] using hat)]
  have hgrows := (grows_select hholds selector).1
  have hkept := h.grows hgrows
  have hrules : (sheet.select outer.scope selector).2.rulesAt = outer.scope.rulesAt := by
    simp only [select, hafter]
  have hselectors : (sheet.select outer.scope selector).2.selectors ≠ [] := by
    simp only [select, hafter]
    obtain ⟨part, parts, hparts⟩ :=
      List.exists_cons_of_ne_nil (Text.splitOn_ne_nil ',' (Text.trim selector))
    rw [hparts]
    exact List.append_ne_nil_of_left_ne_nil (combine_ne_nil _ _) _
  have hsheet : (sheet.select outer.scope selector).1 = (sheet.addRule outer.scope.rulesAt
      (Text.join ", " (sheet.select outer.scope selector).2.selectors)).1 := by
    simp only [select, hafter]
  have hitems : (sheet.select outer.scope selector).2.itemsAt = .rule sheet.rules.length := by
    simp only [select, hafter, addRule_eq]
  have hrest : (outer.select sheet selector).atRules = outer.atRules := by
    simp [Opened.select, hat]
  refine ⟨?_, ⟨[sheet.rules.length], ?_⟩, ?_, ?_, ?_⟩
  · rw [hrest]
    exact hrules ▸ hkept.outer
  · rw [hsheet]
    exact ownBlock_addRule hholds.1 hrules hselectors hitems
  · rw [hrest, hkept.named, Opened.select, List.filter_append,
      List.filter_cons_of_neg (by simp [hat])]
    simp
  · rw [hrest]
    exact hkept.inRange
  · rw [hrest]
    exact h.increasing

/-- An at-rule goes to the root, and the block of the scope, if it has one, goes into it. -/
theorem Placed.select_atRule (h : sheet.Placed outer) (hholds : sheet.Holds outer.scope)
    {selector : Text} (hat : isAtRule selector = true) :
    (sheet.select outer.scope selector).1.Placed (outer.select sheet selector) := by
  obtain ⟨name, hafter⟩ : ∃ name, Text.after? ['@'] (Text.trim selector) = some name := by
    exact ⟨_, if_pos hat⟩
  have hkept := h.grows (grows_select hholds selector).1
  obtain ⟨hgrows, hhas⟩ := grows_addRule sheet.has_root (Text.trim selector)
  have hlength : sheet.rules.length <
      (sheet.addRule .root (Text.trim selector)).1.rules.length := by
    rw [length_rules_addRule]
    exact Nat.lt_succ_self _
  have hrules : (sheet.select outer.scope selector).2.rulesAt = .rule sheet.rules.length := by
    simp only [select, hafter, addRule_eq]
  have hselectors : (sheet.select outer.scope selector).2.selectors = outer.scope.selectors := by
    simp only [select, hafter]
  have hrest : (outer.select sheet selector).atRules = outer.atRules ++ [sheet.rules.length] := by
    simp [Opened.select, hat]
  -- the sheet grows on from the at-rule by the block of the scope
  obtain ⟨own, hinner, hown⟩ : ∃ own,
      Grows (sheet.addRule .root (Text.trim selector)).1 [] (sheet.select outer.scope selector).1 ∧
      (sheet.select outer.scope selector).1.OwnBlock (sheet.select outer.scope selector).2 own := by
    by_cases hempty : outer.scope.selectors = []
    · have hsheet : (sheet.select outer.scope selector).1 =
          (sheet.addRule .root (Text.trim selector)).1 := by
        simp [select, hafter, hempty]
      refine ⟨[], hsheet ▸ .refl, .none (hselectors.trans hempty) ?_⟩
      simp [select, hafter, hempty]
    · have hsheet : (sheet.select outer.scope selector).1 =
          ((sheet.addRule .root (Text.trim selector)).1.addRule (.rule sheet.rules.length)
            (Text.join ", " (sheet.select outer.scope selector).2.selectors)).1 := by
        simp [select, hafter, hempty, addRule_eq]
      refine ⟨_, hsheet ▸ (grows_addRule hhas _).1, hsheet ▸ ownBlock_addRule hhas hrules ?_ ?_⟩
      · rwa [hselectors]
      · simp [select, hafter, hempty]
  refine ⟨?_, ⟨own, hown⟩, ?_, ?_, ?_⟩
  · rw [hrest, List.getLast?_concat]
    have hmem := mem_itemsAt_addRule sheet.has_root (Text.trim selector)
    exact hrules ▸ (PathTo.rule .root hmem).grows hinner
  · rw [hrest, List.map_append, hkept.named, List.map_singleton, hinner.selector? hlength,
      selector?_addRule_self, Opened.select, List.filter_append, List.filter_cons_of_pos hat,
      List.map_append]
    rfl
  · intro i hi
    rw [hrest] at hi
    rcases List.mem_append.mp hi with hold | hnew
    · exact hkept.inRange i hold
    · cases List.mem_singleton.mp hnew
      exact Nat.lt_of_lt_of_le hlength hinner.length_le
  · rw [hrest, List.pairwise_append]
    refine ⟨h.increasing, List.pairwise_singleton _ _, fun i hi j hj => ?_⟩
    cases List.mem_singleton.mp hj
    exact h.inRange i hi

theorem Placed.select (h : sheet.Placed outer) (hholds : sheet.Holds outer.scope) (selector : Text) :
    (sheet.select outer.scope selector).1.Placed (outer.select sheet selector) := by
  cases hat : isAtRule selector with
  | true => exact h.select_atRule hholds hat
  | false => exact h.select_plain hholds hat

/-- After any calls every scope stands in the last at-rule on the way to it. -/
theorem Building.placed {ops : List Operation} {b : Building} (h : build? ops = some b) :
    ∀ opened ∈ b.scopes, b.sheet.Placed opened := by
  refine (forall_build? (P := fun b => b.Formed ∧ ∀ opened ∈ b.scopes, b.sheet.Placed opened)
    ⟨formed (show build? [] = some {} from rfl), List.forall_mem_nil _⟩
    (fun b op b' hb hrun => ⟨hb.1.step hrun, ?_⟩) h).2
  obtain ⟨log, -, hgrows, -, -⟩ := hb.1.run hrun
  have hkept : ∀ opened ∈ b.scopes, b'.sheet.Placed opened := fun opened hopened =>
    (hb.2 opened hopened).grows hgrows
  cases op with
  | scope selector =>
    cases hrun
    exact List.forall_mem_append.mpr
      ⟨hkept, List.forall_mem_singleton.mpr (placed_scope b.sheet selector)⟩
  | select i selector =>
    obtain ⟨outer, houter, rfl⟩ := Option.map_eq_some_iff.mp hrun
    have hmem := List.mem_of_getElem? houter
    exact List.forall_mem_append.mpr ⟨hkept, List.forall_mem_singleton.mpr
      ((hb.2 outer hmem).select (hb.1.scopes outer hmem) selector)⟩
  | value i key value =>
    obtain ⟨opened, -, rfl⟩ := Option.map_eq_some_iff.mp hrun
    exact hkept
  | stat statement =>
    cases hrun
    exact hkept

/-! ## What is kept -/

/-- Among the last of some rules in increasing order, and one more, are all of them only if there is
no other than the last. -/
theorem sublist_getLast?_append_iff {rules : List Nat} (h : rules.Pairwise (· < ·))
    (hown : own.length ≤ 1) :
    rules.Sublist (rules.getLast?.toList ++ own) ↔ rules.length ≤ 1 := by
  rcases rules with _ | ⟨i, _ | ⟨j, rules⟩⟩
  · simp
  · simp
  · obtain ⟨last, hlast⟩ : ∃ last, (i :: j :: rules).getLast? = some last := ⟨_, rfl⟩
    have hmem : last ∈ j :: rules := by
      exact List.mem_of_getLast? hlast
    have hlt : i < last := (List.pairwise_cons.mp h).1 last hmem
    rw [hlast]
    constructor
    · intro hsub
      -- the first rule is not the last, so all of them would be the one more
      rcases List.sublist_cons_iff.mp hsub with hsub | ⟨_, heq, -⟩
      · exact Nat.le_trans hsub.length_le hown
      · exact absurd (List.cons.inj heq).1 (Nat.ne_of_lt hlt)
    · intro hshort
      simp at hshort

theorem OwnBlock.length_le (h : sheet.OwnBlock scope own) : own.length ≤ 1 := by
  cases h with
  | none => exact Nat.zero_le 1
  | rule => exact Nat.le_refl 1

/-- What is declared in a scope, after any calls, is written in the block of the last at-rule on the
way to the scope, and in that in the block with the selectors of the scope, if it has any. So it is
written in the blocks of all at-rules on the way, in the order in which they were selected, exactly
if there is at most one. -/
theorem at_rules_kept_iff {ops : List Operation} {b : Building} {j : Nat} {opened : Opened}
    (h : build? ops = some b) (hopened : b.scopes[j]? = some opened) (key value : Text) :
    ∃ b' marks own, build? (ops ++ [.value j key value]) = some b' ∧
      b'.sheet.Writes b'.sheet.root marks ∧
      (∀ layout, b'.sheet.render layout = Layout.write layout [] marks) ∧
      opened.atRules.map b'.sheet.selector? =
        (opened.way.filter isAtRule).map (fun selector => some (Text.trim selector)) ∧
      own.map b'.sheet.selector? = (if opened.scope.selectors.isEmpty then []
        else [some (Text.join ", " opened.scope.selectors)]) ∧
      (∀ part ∈ Text.splitOn ',' key,
        (opened.atRules.getLast?.toList ++ own, .declaration (Text.trim part) value) ∈
          located [] marks) ∧
      (opened.atRules.Sublist (opened.atRules.getLast?.toList ++ own) ↔
        opened.atRules.length ≤ 1) := by
  have hbuild : build? (ops ++ [.value j key value]) = some { b with
      sheet := b.sheet.value opened.scope key value
      log := b.log ++ declarations opened.scope.itemsAt key value } := by
    rw [build?, List.foldlM_append, ← build?, h]
    simp [Building.run?, hopened]
  have hmem := List.mem_of_getElem? hopened
  have hplaced := Building.placed hbuild opened hmem
  have hformed := Building.formed hbuild
  have htree := hformed.grows.isTree isTree_empty
  obtain ⟨marks, hmarks⟩ := htree.exists_writes .root
  obtain ⟨own, hown⟩ := hplaced.own
  refine ⟨_, marks, own, hbuild, hmarks, htree.render_eq hmarks, hplaced.named,
    hown.map_selector?, fun part hpart => ?_,
    sublist_getLast?_append_iff hplaced.increasing hown.length_le⟩
  rw [← mem_under, (hown.pathTo hplaced.outer).under_located htree hmarks, hformed.contents,
    mem_under]
  exact List.mem_append_right _ (List.mem_map.mpr ⟨part, hpart, rfl⟩)

/-- A selector in an at-rule, under a selector for the whole sheet. -/
theorem at_rules_kept_iff_single :
    ∃ b opened b' marks own,
      build? [.scope (some ".r"), .select 0 "@media a", .select 1 ".c"] = some b ∧
      b.scopes[2]? = some opened ∧ opened.way = (["@media a", ".c"] : List Text) ∧
      opened.atRules.length ≤ 1 ∧
      build? [.scope (some ".r"), .select 0 "@media a", .select 1 ".c", .value 2 "color" "red"] =
        some b' ∧
      b'.sheet.Writes b'.sheet.root marks ∧
      (opened.atRules.getLast?.toList ++ own, .declaration "color" "red") ∈ located [] marks ∧
      opened.atRules.Sublist (opened.atRules.getLast?.toList ++ own) := by
  have hrun : (build? [.scope (some ".r"), .select 0 "@media a", .select 1 ".c"]).any (fun b =>
      b.scopes[2]?.any fun opened =>
        decide (opened.way = (["@media a", ".c"] : List Text) ∧ opened.atRules.length ≤ 1)) =
      true := by
    decide +kernel
  obtain ⟨b, hb, hrun⟩ := (Option.any_eq_true _ _).mp hrun
  obtain ⟨opened, hopened, hrun⟩ := (Option.any_eq_true _ _).mp hrun
  obtain ⟨hway, hshort⟩ := of_decide_eq_true hrun
  obtain ⟨b', marks, own, hb', hmarks, -, -, -, hmem, hiff⟩ :=
    at_rules_kept_iff hb hopened "color" "red"
  exact ⟨b, opened, b', marks, own, hb, hopened, hway, hshort, hb', hmarks,
    hmem "color" (by decide +kernel), hiff.mpr hshort⟩

/-- An at-rule in an at-rule: what is declared in it is written without the outer condition. -/
theorem outer_at_rule_lost :
    ∃ b opened,
      build? [.scope none, .select 0 "@media a", .select 1 "@media b", .select 2 ".c",
        .value 3 "color" "red"] = some b ∧
      b.scopes[3]? = some opened ∧ opened.way = (["@media a", "@media b", ".c"] : List Text) ∧
      b.sheet.render .compact = ("@media b\x7b.c\x7bcolor:red;\x7d\x7d" : Text) ∧
      Text.holds "@media a" (b.sheet.render .indented) = false ∧
      opened.atRules = [0, 1] ∧ b.sheet.PathTo opened.scope.itemsAt [1, 2] ∧
      ¬ opened.atRules.Sublist [1, 2] := by
  have hrun : (build? [.scope none, .select 0 "@media a", .select 1 "@media b", .select 2 ".c",
      .value 3 "color" "red"]).any (fun b => b.scopes[3]?.any fun opened =>
        decide (opened.way = (["@media a", "@media b", ".c"] : List Text) ∧
          b.sheet.render .compact = ("@media b\x7b.c\x7bcolor:red;\x7d\x7d" : Text) ∧
          Text.holds "@media a" (b.sheet.render .indented) = false ∧ opened.atRules = [0, 1] ∧
          opened.scope.itemsAt = .rule 2 ∧ .rule 1 ∈ b.sheet.itemsAt .root ∧
          .rule 2 ∈ b.sheet.itemsAt (.rule 1))) = true := by
    decide +kernel
  obtain ⟨b, hb, hrun⟩ := (Option.any_eq_true _ _).mp hrun
  obtain ⟨opened, hopened, hrun⟩ := (Option.any_eq_true _ _).mp hrun
  obtain ⟨hway, htext, hlost, hrules, hitems, houter, hinner⟩ := of_decide_eq_true hrun
  refine ⟨b, opened, hb, hopened, hway, htext, hlost, hrules, ?_, ?_⟩
  · exact hitems ▸ .rule (.rule .root houter) hinner
  · rw [hrules]
    decide

end Sheet
end Patchwork.Style
