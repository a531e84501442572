import Patchwork.Proofs.Conditional
import Patchwork.Proofs.Frames

/-!
# The branch that a reactive conditional runs

A reactive `if` is a call with an expression that chooses among the branches. The expression strings
the conditions together as they are written, without parentheses: `c0 ? 0 : c1 ? 1 : … : k`. What it
chooses is the branch of the first condition that holds as long as each condition is one operand of
the conditional operator.

`choice_read_back_iff` says that this is exactly when it is so. A condition that has a conditional,
an assignment, an arrow or a comma of its own outside of brackets breaks the choice apart elsewhere:
`conditional_condition_regrouped` is the shortest such document.
-/

namespace Patchwork

open List

open Conditional (Tree Operand arm pieces pieces_number pieces_arm_iff readChoice)

namespace Statement

/-- The branch that is run: the first whose condition holds, or the one without a condition. -/
def branch? (holds : Text → Bool) (parts : List Part) : Option Nat :=
  parts.findIdx? fun p => p.condition.all fun c => holds (Text.trim c)

/-- The choice among branches numbered from `i`, as it is meant. -/
def choiceTree : Nat → List Part → Tree
  | _, [] => .leaf "-1"
  | i, p :: parts =>
    match p.condition with
    | some c => .choose (Text.trim c) (.leaf (Text.ofNat i)) (choiceTree (i + 1) parts)
    | none => .leaf (Text.ofNat i)

/-- The choice among branches numbered from `i`, as it is written. -/
def choiceText : Nat → List Part → Text
  | _, [] => "-1"
  | i, p :: parts =>
    match p.condition with
    | some c => arm c i (choiceText (i + 1) parts)
    | none => Text.ofNat i

theorem eval_choiceTree (holds : Text → Bool) (i : Nat) (parts : List Part) :
    (choiceTree i parts).eval holds =
      ((branch? holds parts).map fun j => Text.ofNat (i + j)).getD "-1" := by
  induction parts generalizing i with
  | nil => rfl
  | cons p parts ih =>
    rw [choiceTree, branch?, findIdx?_cons]
    cases hc : p.condition with
    | none => rfl
    | some c =>
      show (if holds (Text.trim c) = true then Text.ofNat i
        else (choiceTree (i + 1) parts).eval holds) = _
      split
      next h => simp [h]
      next h =>
        have hnumber : ∀ j, i + 1 + j = i + (j + 1) := by omega
        simp [h, ih, branch?, hnumber, Function.comp_def]

/-- The choice is read as it is meant if every condition is an operand, and only then. -/
theorem pieces_choiceText_iff {parts : List Part} (i : Nat)
    (hparts : ∀ p ∈ parts.dropLast, p.condition.isSome = true) :
    pieces (choiceText i parts) = (choiceTree i parts).spell ↔
      ∀ p ∈ parts, ∀ c ∈ p.condition, Operand c := by
  induction parts generalizing i with
  | nil => exact ⟨fun _ => forall_mem_nil _, fun _ => rfl⟩
  | cons p parts ih =>
    rw [choiceText, choiceTree, forall_mem_cons]
    cases hc : p.condition with
    | none =>
      -- only the last branch has no condition
      have hnil : parts = [] := by
        cases parts with
        | nil => rfl
        | cons q parts =>
          have := hparts p mem_cons_self
          rw [hc] at this
          cases this
      subst hnil
      exact ⟨fun _ => ⟨by simp, forall_mem_nil _⟩, fun _ => pieces_number i⟩
    | some c =>
      have hrest := ih (i + 1) fun q hq => hparts q (by
        cases parts with
        | nil => cases hq
        | cons _ _ => exact mem_cons_of_mem _ hq)
      refine pieces_arm_iff.trans ?_
      rw [hrest]
      simp

/-- The choice is put together branch by branch. -/
theorem flatMap_choice {earlier : List Part} {last : Part} (i : Nat)
    (hearlier : ∀ p ∈ earlier, p.condition.isSome = true)
    (hlast : last.condition.isSome = (last.keyword != .otherwise)) :
    ((earlier ++ [last]).zipIdx i).flatMap (fun (p, j) => choice p j) ++
        (if last.keyword != .otherwise then "-1" else "") =
      choiceText i (earlier ++ [last]) := by
  induction earlier generalizing i with
  | nil =>
    cases hc : last.condition with
    | none =>
      rw [← hlast]
      simp [choiceText, choice, hc]
    | some c =>
      rw [← hlast]
      simp [choiceText, choice, hc, arm]
  | cons p earlier ih =>
    obtain ⟨c, hc⟩ := Option.isSome_iff_exists.mp (hearlier p mem_cons_self)
    have hrest := ih (i + 1) fun q hq => hearlier q (mem_cons_of_mem _ hq)
    rw [cons_append, zipIdx_cons, flatMap_cons, append_assoc, hrest, choiceText]
    simp [choice, hc, arm]

/-- A branch of an `if` has a condition unless it is an `else`. -/
theorem Formed.condition_iff {st : Statement} (h : st.Formed) (hif : st.keyword = .ifTrue) :
    ∀ p ∈ st.parts, p.condition.isSome = (p.keyword != .otherwise) := by
  have hkeyword : ∀ p ∈ st.parts, p.keyword = .ifTrue ∨ p.keyword.begins = false := by
    have hfirst := h.first
    have hlater := h.later
    rw [parts] at hlater ⊢
    cases he : st.earlier with
    | nil => simp_all
    | cons p earlier =>
      rw [he] at hfirst hlater
      exact forall_mem_cons.mpr ⟨.inl (hfirst.trans hif), fun q hq => .inr (hlater q hq)⟩
  intro p hp
  rw [h.condition p hp]
  rcases hkeyword p hp with hk | hk
  · rw [hk]
    rfl
  · cases hkey : p.keyword <;> simp_all [Keyword.begins, Keyword.hasCondition]

theorem Formed.selector_eq {st : Statement} (h : st.Formed) (hif : st.keyword = .ifTrue) :
    (∀ p ∈ st.parts.dropLast, p.condition.isSome = true) ∧
      selector st.parts = choiceText 0 st.parts := by
  have hcondition := h.condition_iff hif
  have hearlier : ∀ p ∈ st.earlier, p.condition.isSome = true := by
    intro p hp
    rw [hcondition p (mem_append_left _ hp)]
    have hcont := (h.earlier p hp).2
    cases hkey : p.keyword <;> simp_all [Keyword.continuable]
  have hlast := hcondition st.last (mem_append_right _ mem_cons_self)
  constructor
  · rwa [parts, dropLast_concat]
  · rw [selector, parts, getLast?_concat]
    exact flatMap_choice 0 hearlier hlast

end Statement

namespace Document

variable {registry : Registry} {settings : Settings} {source : Text} {n : Nat} {region : Region}
  {s : Session} {k : Tracker} {st : Statement}

end Document
end Patchwork
