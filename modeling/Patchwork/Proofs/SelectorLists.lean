import Patchwork.Proofs.AtRules
import Patchwork.Proofs.Conditional

/-!
# Selector lists

A selector list has commas between its selectors, and a selector may have commas of its own: between
the arguments of a function, inside the brackets of an attribute, and in strings. `Inside` follows
what a place in a text lies in, and `listParts` divides a text at the commas that lie in nothing.

A sheet divides a list at every comma instead. Its parts are those of the list, divided further
(`splitOn_eq_flatMap`), and each of them is combined with every parent. A part with a comma of its own
then gives more selectors than it should (`length_combine_lt`), so a list is taken rightly exactly if
all its commas lie in nothing (`selector_list_split_iff`). `function_selector_torn` is a function with
two arguments, which is torn apart.
-/

namespace Patchwork.Style

open List Text

/-- What a place in a text lies in: the characters that end it, innermost first. The character after a
backslash ends and begins nothing. -/
structure Inside where
  ends : List Char := []
  escaped : Bool := false
  deriving DecidableEq, Repr

namespace Inside

def end? : Char → Option Char
  | '(' => some ')'
  | '[' => some ']'
  | '\x22' => some '\x22'
  | '\x27' => some '\x27'
  | _ => none

def inString (n : Inside) : Bool :=
  n.ends.head?.any fun c => c == '\x22' || c == '\x27'

def after (n : Inside) (c : Char) : Inside :=
  if n.escaped then { n with escaped := false }
  else if c == '\\' then { n with escaped := true }
  else if n.ends.head? == some c then { n with ends := n.ends.tail }
  else if n.inString then n
  else { n with ends := (end? c).toList ++ n.ends }

end Inside

def listParts (n : Inside) : Text → List Text
  | [] => [[]]
  | c :: t =>
    let parts := listParts (n.after c) t
    if c == ',' && n.ends.isEmpty then [] :: parts
    else (c :: parts.headD []) :: parts.tail

/-- The parents that a part of a selector list is paired with. It is paired with none if there are
none, or if the scope is absolute and the part does not ask for them. -/
def Scope.partners (scope : Scope) (part : Text) : List (Option Text) :=
  if scope.selectors.isEmpty || scope.absolute && !part.contains '&' then [none]
  else scope.selectors.map some

def nestUnder (part : Text) : Option Text → Text
  | none => part
  | some parent =>
    if part.contains '&' then replaceChar '&' parent part else parent ++ ' ' :: part

/-- The selectors that some parts of a list stand for in a scope: one for each part and each parent,
by the parts first. -/
def Scope.pairings (scope : Scope) (parts : List Text) : List Text :=
  parts.flatMap fun part => (scope.partners (trim part)).map (nestUnder (trim part))

/-! ## Dividing further -/

theorem listParts_ne_nil (n : Inside) (t : Text) : listParts n t ≠ [] := by
  cases t with
  | nil => simp [listParts]
  | cons c t =>
    rw [listParts]
    split <;> simp

theorem listParts_eq (n : Inside) (t : Text) :
    ∃ part parts, listParts n t = part :: parts :=
  exists_cons_of_ne_nil (listParts_ne_nil n t)

theorem splitOn_comma (t : Text) : Text.splitOn ',' (',' :: t) = [] :: Text.splitOn ',' t := by
  simp [Text.splitOn]

variable {t : Text}

theorem splitOn_cons_of_ne {c : Char} (hc : c ≠ ',') {part : Text} {parts : List Text}
    (h : Text.splitOn ',' t = part :: parts) :
    Text.splitOn ',' (c :: t) = (c :: part) :: parts := by
  simp [Text.splitOn, hc, h]

/-- The parts between all commas are the parts of the list, divided further. -/
theorem splitOn_eq_flatMap (t : Text) : ∀ n : Inside,
    Text.splitOn ',' t = (listParts n t).flatMap (Text.splitOn ',') := by
  induction t with
  | nil =>
    intro n
    rfl
  | cons c t ih =>
    intro n
    have ih := ih (n.after c)
    obtain ⟨part, parts, hparts⟩ := listParts_eq (n.after c) t
    rw [hparts, flatMap_cons] at ih
    by_cases hc : c = ','
    · subst hc
      rw [splitOn_comma, listParts, hparts, ih]
      by_cases hin : n.ends.isEmpty = true
      · simp [hin, Text.splitOn]
      · simp [hin, splitOn_comma]
    · obtain ⟨first, rest, hfirst⟩ := exists_cons_of_ne_nil (Text.splitOn_ne_nil ',' part)
      rw [hfirst] at ih
      rw [splitOn_cons_of_ne hc ih, listParts, hparts]
      simp [hc, splitOn_cons_of_ne hc hfirst]

theorem splitOn_of_notMem (h : ',' ∉ t) : Text.splitOn ',' t = [t] := by
  induction t with
  | nil => rfl
  | cons c t ih =>
    have hc : c ≠ ',' := fun heq => h (heq ▸ mem_cons_self)
    exact splitOn_cons_of_ne hc (ih (not_mem_of_not_mem_cons h))

theorem two_le_length_splitOn (h : ',' ∈ t) : 2 ≤ (Text.splitOn ',' t).length := by
  induction t with
  | nil => cases h
  | cons c t ih =>
    obtain ⟨part, parts, hparts⟩ := exists_cons_of_ne_nil (Text.splitOn_ne_nil ',' t)
    by_cases hc : c = ','
    · subst hc
      rw [splitOn_comma, hparts]
      simp
    · have hmem : ',' ∈ t := (mem_cons.mp h).resolve_left (Ne.symm hc)
      have hlength := ih hmem
      rw [hparts] at hlength
      rw [splitOn_cons_of_ne hc hparts]
      simpa using hlength

/-- A character other than a comma is in one of the parts. -/
theorem exists_mem_splitOn {c : Char} (hc : c ≠ ',') (h : c ∈ t) :
    ∃ part ∈ Text.splitOn ',' t, c ∈ part := by
  induction t with
  | nil => cases h
  | cons d t ih =>
    obtain ⟨first, rest, hparts⟩ := exists_cons_of_ne_nil (Text.splitOn_ne_nil ',' t)
    by_cases hd : d = ','
    · subst hd
      obtain ⟨part, hpart, hmem⟩ := ih ((mem_cons.mp h).resolve_left hc)
      exact ⟨part, mem_cons_of_mem _ hpart, hmem⟩
    · rw [splitOn_cons_of_ne hd hparts]
      rcases mem_cons.mp h with rfl | hmem
      · exact ⟨c :: first, mem_cons_self, mem_cons_self⟩
      · obtain ⟨part, hpart, hmem⟩ := ih hmem
        rw [hparts] at hpart
        rcases mem_cons.mp hpart with rfl | hpart
        · exact ⟨d :: part, mem_cons_self, mem_cons_of_mem _ hmem⟩
        · exact ⟨part, mem_cons_of_mem _ hpart, hmem⟩

theorem forall_notMem_listParts_iff (t : Text) : ∀ n : Inside,
    (∀ part ∈ listParts n t, ',' ∉ part) ↔
      ∀ front back, t = front ++ ',' :: back → (front.foldl Inside.after n).ends = [] := by
  induction t with
  | nil =>
    simp [listParts]
  | cons c t ih =>
    intro n
    obtain ⟨part, parts, hparts⟩ := listParts_eq (n.after c) t
    -- the first comma is that of the text, or it is one of the rest
    have hback : (∀ front back, c :: t = front ++ ',' :: back →
        (front.foldl Inside.after n).ends = []) ↔
        (c = ',' → n.ends = []) ∧ ∀ front back, t = front ++ ',' :: back →
          (front.foldl Inside.after (n.after c)).ends = [] := by
      constructor
      · intro h
        constructor
        · intro hc
          exact h [] t (by rw [hc]; rfl)
        · intro front back ht
          exact h (c :: front) back (by rw [ht]; rfl)
      · intro h front back ht
        cases front with
        | nil =>
          cases ht
          exact h.1 rfl
        | cons d front =>
          cases ht
          exact h.2 front back rfl
    rw [hback, ← ih, listParts, hparts]
    by_cases hc : c = ','
    · subst hc
      by_cases hin : n.ends = []
      · simp [hin]
      · simp [hin]
    · simp [hc, Ne.symm hc]

/-! ## The selectors of the parts -/

namespace Sheet

variable (scope : Scope)

theorem combine_eq (part : Text) :
    combine scope part = (scope.partners part).map (nestUnder part) := by
  unfold combine Scope.partners
  cases hselectors : scope.selectors with
  | nil => simp [nestUnder]
  | cons first rest =>
    by_cases hmark : '&' ∈ part
    · simp [hmark, nestUnder]
    · cases habsolute : scope.absolute with
      | true | false => simp [hmark, nestUnder]

theorem length_combine (part : Text) :
    (combine scope part).length = (scope.partners part).length := by
  rw [combine_eq, length_map]

theorem mem_trim_iff {t : Text} : '&' ∈ trim t ↔ '&' ∈ t := by
  rw [← count_pos_iff, count_trim (by decide), count_pos_iff]

/-- One of the pieces of a part stands for as many selectors as the part: the one that asks for the
parents, if the part does. -/
theorem exists_mem_splitOn_combine (part : Text) :
    ∃ piece ∈ Text.splitOn ',' part,
      (combine scope (trim part)).length ≤ (combine scope (trim piece)).length := by
  simp only [length_combine]
  by_cases hmark : '&' ∈ part
  · obtain ⟨piece, hpiece, hmem⟩ := exists_mem_splitOn (by decide) hmark
    refine ⟨piece, hpiece, Nat.le_of_eq ?_⟩
    simp [Scope.partners, mem_trim_iff, hmark, hmem]
  · obtain ⟨piece, pieces, hpieces⟩ := exists_cons_of_ne_nil (Text.splitOn_ne_nil ',' part)
    refine ⟨piece, hpieces ▸ mem_cons_self, ?_⟩
    have hpos : 0 < (scope.partners (trim piece)).length := by
      rw [← length_combine]
      exact length_pos_of_ne_nil (combine_ne_nil _ _)
    cases hselectors : scope.selectors with
    | nil => simp [Scope.partners, hselectors]
    | cons first rest =>
      cases habsolute : scope.absolute with
      | true =>
        have hone : (scope.partners (trim part)).length = 1 := by
          simp [Scope.partners, habsolute, mem_trim_iff, hmark]
        omega
      | false => simp [Scope.partners, habsolute]

/-- Of several parts that stand for something each, none stands for all. -/
theorem lt_length_flatMap {f : Text → List Text} {parts : List Text} (hlength : 2 ≤ parts.length)
    (hf : ∀ part, f part ≠ []) {part : Text} (hpart : part ∈ parts) :
    (f part).length < (parts.flatMap f).length := by
  obtain ⟨front, back, rfl⟩ := append_of_mem hpart
  have hpos : ∀ part, 0 < (f part).length := fun part => length_pos_of_ne_nil (hf part)
  cases front with
  | cons other front =>
    have hother := hpos other
    simp only [flatMap_cons, flatMap_append, length_append]
    omega
  | nil =>
    cases back with
    | nil => simp at hlength
    | cons other back =>
      have hother := hpos other
      simp only [nil_append, flatMap_cons, length_append]
      omega

/-- A part with a comma gives more selectors when it is divided there. -/
theorem length_combine_lt {part : Text} (h : ',' ∈ part) :
    (combine scope (trim part)).length <
      ((Text.splitOn ',' part).flatMap fun piece => combine scope (trim piece)).length := by
  obtain ⟨piece, hpiece, hle⟩ := exists_mem_splitOn_combine scope part
  exact Nat.lt_of_le_of_lt hle <| lt_length_flatMap
    (two_le_length_splitOn h)
    (fun _ => combine_ne_nil _ _) hpiece

theorem length_combine_le (part : Text) :
    (combine scope (trim part)).length ≤
      ((Text.splitOn ',' part).flatMap fun piece => combine scope (trim piece)).length := by
  by_cases h : ',' ∈ part
  · exact Nat.le_of_lt (length_combine_lt scope h)
  · simp [splitOn_of_notMem h]

theorem length_flatMap_combine_le (parts : List Text) :
    (parts.flatMap fun part => combine scope (trim part)).length ≤
      (parts.flatMap fun part =>
        (Text.splitOn ',' part).flatMap fun piece => combine scope (trim piece)).length := by
  induction parts with
  | nil => exact Nat.le_refl _
  | cons part parts ih =>
    have hpart := length_combine_le scope part
    rw [flatMap_cons, flatMap_cons, length_append, length_append]
    omega

/-- Parts that give no more selectors when they are divided have no commas. -/
theorem forall_notMem_of_length_le {scope : Scope} {parts : List Text}
    (h : ((parts.flatMap (Text.splitOn ',')).flatMap fun piece =>
        combine scope (trim piece)).length ≤
      (parts.flatMap fun part => combine scope (trim part)).length) :
    ∀ part ∈ parts, ',' ∉ part := by
  rw [flatMap_assoc] at h
  induction parts with
  | nil => exact forall_mem_nil _
  | cons part parts ih =>
    rw [flatMap_cons, flatMap_cons, length_append, length_append] at h
    have hpart := length_combine_le scope part
    have hparts := length_flatMap_combine_le scope parts
    have hcomma : ',' ∉ part := by
      intro hcomma
      have hlt := length_combine_lt scope hcomma
      omega
    exact forall_mem_cons.mpr ⟨hcomma, ih (by omega)⟩

theorem pairings_eq (parts : List Text) :
    scope.pairings parts = parts.flatMap fun part => combine scope (trim part) := by
  simp [Scope.pairings, combine_eq]

/-- A selector list is divided at every comma, whatever the comma lies in. Each part gives one selector
for each parent, and all of them are the selector of the new rule. These are the selectors of the list
exactly if every comma of the list lies outside of brackets and strings. -/
theorem selector_list_split_iff (sheet : Sheet) (scope : Scope) {selector : Text}
    (hat : isAtRule selector = false) :
    let selected := sheet.select scope selector
    selected.2.selectors = scope.pairings (Text.splitOn ',' (Text.trim selector)) ∧
    selected.1.selector? sheet.rules.length = some (Text.join ", " selected.2.selectors) ∧
    (selected.2.selectors = scope.pairings (listParts {} (Text.trim selector)) ↔
      ∀ front back, Text.trim selector = front ++ ',' :: back →
        (front.foldl Inside.after {}).ends = []) := by
  intro selected
  have hafter : Text.after? ['@'] (Text.trim selector) = none := by
    rw [Text.after?, if_neg (by simpa [isAtRule] using hat)]
  have hselectors : selected.2.selectors =
      scope.pairings (Text.splitOn ',' (Text.trim selector)) := by
    simp only [selected, select, hafter, pairings_eq]
  have hrule : selected.1 =
      (sheet.addRule scope.rulesAt (Text.join ", " selected.2.selectors)).1 := by
    simp only [selected, select, hafter]
  refine ⟨hselectors, ?_, ?_⟩
  · rw [hrule]
    exact selector?_addRule_self ..
  · rw [hselectors, ← forall_notMem_listParts_iff, pairings_eq, pairings_eq,
      splitOn_eq_flatMap (Text.trim selector) {}]
    constructor
    · intro heq
      exact forall_notMem_of_length_le (Nat.le_of_eq (congrArg List.length heq))
    · intro hparts
      -- a part without commas is not divided
      have hsame : (listParts {} (Text.trim selector)).flatMap (Text.splitOn ',') =
          listParts {} (Text.trim selector) := by
        rw [List.flatMap_congr fun part hpart => splitOn_of_notMem (hparts part hpart)]
        simp
      rw [hsame]

/-- Functions with one argument, an attribute and the marker for the parent, under two parents. -/
theorem selector_list_split_iff_pairs :
    isAtRule " [a=\"(\"] :not(.b), &:hover " = false ∧
    (select {} ⟨.root, .root, [".p", ".q"], false⟩ " [a=\"(\"] :not(.b), &:hover ").2.selectors =
      ([".p [a=\"(\"] :not(.b)", ".q [a=\"(\"] :not(.b)", ".p:hover", ".q:hover"] : List Text) := by
  have hat : isAtRule " [a=\"(\"] :not(.b), &:hover " = false := by decide
  refine ⟨hat, ?_⟩
  have hcommas : ∀ front back,
      Text.trim " [a=\"(\"] :not(.b), &:hover " = front ++ ',' :: back →
        (front.foldl Inside.after {}).ends = [] := by
    rw [← forall_notMem_listParts_iff]
    decide +kernel
  have hlist := ((selector_list_split_iff {} ⟨.root, .root, [".p", ".q"], false⟩ hat).2.2).mpr hcommas
  rw [hlist]
  decide +kernel

theorem function_selector_torn :
    isAtRule ":is(.a, .b)" = false ∧
    (select {} ⟨.root, .root, [".p"], false⟩ ":is(.a, .b)").2.selectors =
      ([".p :is(.a", ".p .b)"] : List Text) ∧
    Scope.pairings ⟨.root, .root, [".p"], false⟩ (listParts {} ":is(.a, .b)") =
      ([".p :is(.a, .b)"] : List Text) := by
  decide +kernel

end Sheet
end Patchwork.Style
