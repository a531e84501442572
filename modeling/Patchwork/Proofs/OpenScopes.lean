import Patchwork.Proofs.InlineBodies
import Patchwork.Proofs.TagTexts

/-!
# Open scopes

A stylesheet keeps the scopes of its open selectors in a stack, and its tracker keeps a block for each
of them in a stack of its own, among the statements that are open. The blocks are numbered as they were
opened. So the two stacks go together (`Stylesheet.Scoped`): a block that is closed is the innermost
one, and with it goes the scope on which the calls in the block were made.
-/

namespace Patchwork

open Compile List

def Open.id? : Open → Option Nat
  | statement _ => none
  | block id _ => some id

namespace Tracker

/-- The numbers of the blocks that are open, innermost first. -/
def ids (k : Tracker) : List Nat :=
  k.opened.filterMap Open.id?

variable {H : Type} [TextHost H] [TextHost.Lawful H] {k : Tracker}

/-- Of the blocks only the innermost one is closed, and only if that is said. -/
theorem Turn.ids {host : H} {c : Char} {s s' : Session} {p : Tracker × H × Option Closed}
    (h : k.Turn host c s p s') :
    (∃ id, p.2.2 = some (.block id) ∧ k.ids = id :: p.1.ids) ∨
      (∀ id, p.2.2 ≠ some (.block id)) ∧ p.1.ids = k.ids := by
  cases h with
  | text _ answer =>
    refine .inr ⟨?_, rfl⟩
    rcases answer with rfl | rfl <;> rintro _ ⟨⟩
  | unescaped | declares => exact .inr ⟨by rintro _ ⟨⟩, rfl⟩
  | begins _ _ _ h =>
    obtain ⟨st, -, hp, -⟩ := (openPart_opens _ _ _ none _).result _ _ h
    refine .inr ⟨by rintro _ ⟨⟩, ?_⟩
    dsimp only
    rw [hp]
    rfl
  | @closes _ p _ s1 _ read _ h opened answer =>
    obtain ⟨o, below, hopened⟩ := exists_cons_of_ne_nil opened
    obtain ⟨hcloses, hbelow⟩ := (close_innermost hopened host _ s1).result _ _ h
    have hids : p.1.ids = below.filterMap Open.id? := by
      rcases hbelow with hp | ⟨st, st', close, -, hp, -⟩ <;> rw [Tracker.ids, hp]
      rfl
    rw [hcloses] at answer
    rw [hids, Tracker.ids, hopened]
    cases o with
    | statement st =>
      refine .inr ⟨?_, rfl⟩
      rcases answer with rfl | ⟨rfl, -⟩ <;> rintro _ ⟨⟩
    | block id span =>
      rcases answer with rfl | ⟨-, hinline⟩
      · exact .inl ⟨id, rfl, rfl⟩
      · rw [inlineOpen, hopened] at hinline
        cases hinline

theorem ids_of_openBlock? (h : k.openBlock? = none) : k.ids = [] := by
  refine filterMap_eq_nil_iff.mpr fun o ho => ?_
  have hnone := findSome?_eq_none_iff.mp h o (mem_reverse.mpr ho)
  cases o with
  | statement => rfl
  | block => cases hnone

end Tracker

namespace Stylesheet

variable {r : Stylesheet} {s : Session}

/-- The open blocks of the tracker are numbered, and there is a scope for each of them. -/
def Scoped (r : Stylesheet) : Prop :=
  r.statements.ids.reverse = range r.blocks.length

/-- The block that is closed is the last one. -/
theorem Scoped.innermost {id : Nat} {ids : List Nat} (hr : r.Scoped)
    (h : r.statements.ids = id :: ids) :
    (∃ block, r.blocks = block :: r.remaining (some (.block id))) ∧
      ids.reverse = range (r.remaining (some (.block id))).length := by
  unfold Scoped at hr
  rw [h, reverse_cons] at hr
  cases hblocks : r.blocks with
  | nil =>
    rw [hblocks] at hr
    cases (append_eq_nil_iff.mp hr).2
  | cons block blocks =>
    rw [hblocks, length_cons, range_succ] at hr
    obtain ⟨hids, hid⟩ := append_inj' hr rfl
    cases hid
    have hremaining : r.remaining (some (.block blocks.length)) = blocks := by
      rw [remaining, hblocks, length_cons, Nat.add_sub_cancel_left]
      rfl
    rw [hremaining]
    exact ⟨⟨block, rfl⟩, hids⟩

/-- What becomes of the scopes: they stay, or a selector opens one inside of the innermost one, or that
one is closed. -/
inductive Rescoped (innermost : Text) (blocks blocks' : List StyleBlock) (o' : Output) : Prop
  | same (same : blocks' = blocks)
  | opens {block : StyleBlock} {o : Output} {selector : Text} (var : block.var = o.freshVar.2)
      (code : o' = o.freshVar.1.add (selectCode o block.var innermost selector))
      (opens : blocks' = block :: blocks)
  | closes {block : StyleBlock} (closes : blocks = block :: blocks')

theorem trackStatement_rescoped (hr : r.Scoped) (c : Char) (at_ : Nat) :
    Gives (r.trackStatement c at_) s fun r' s' =>
      r'.Scoped ∧ Rescoped r.current.var r.blocks r'.blocks s'.output := by
  refine (r.trackStatement_turn c at_ s).mono ?_
  rintro _ s' ⟨k, b, closed, s1, hdispatch, -, start, rfl⟩
  rcases ((r.statements.dispatch_turn r.buffer c s).result _ _ hdispatch).ids with
    ⟨id, hclosed, hids⟩ | ⟨hclosed, hids⟩
  · obtain rfl : closed = some (.block id) := hclosed
    obtain ⟨⟨block, hblock⟩, hids⟩ := hr.innermost hids
    exact ⟨hids, .closes hblock⟩
  · have hremaining : r.remaining closed = r.blocks := by
      unfold remaining
      split
      next id => exact absurd rfl (hclosed id)
      · rfl
    rw [hremaining]
    exact ⟨(congrArg reverse hids).trans hr, .same rfl⟩

theorem endStatement_keeps (r : Stylesheet) (stop : Nat) (s : Session) :
    Gives (r.endStatement stop) s fun r' _ =>
      ∃ buffer sheet folds, r' = { r with buffer, sheet, folds } := by
  refine (r.endStatement_ends stop s).mono fun r' _ h => ?_
  cases h <;> exact ⟨_, _, _, rfl⟩

theorem openBlock_rescoped (hr : r.Scoped) (at_ : Nat) :
    Gives (r.openBlock at_) s fun r' s' =>
      r'.Scoped ∧ Rescoped r.current.var r.blocks r'.blocks s'.output := by
  refine (r.openBlock_opens at_ s).mono ?_
  rintro _ _ ⟨selector, sheet, scope, span, rfl, rfl⟩
  refine ⟨?_, @Rescoped.opens _ _ _ _ ⟨_, scope⟩ (r.taken s).output selector rfl rfl rfl⟩
  show (r.blocks.length :: r.statements.ids).reverse = range (r.blocks.length + 1)
  rw [reverse_cons, range_succ, show r.statements.ids.reverse = _ from hr]

theorem step_rescoped (hr : r.Scoped) :
    Gives r.step s fun p s' => p.1.Scoped ∧ Rescoped r.current.var r.blocks p.1.blocks s'.output := by
  refine (r.step_deals s).mono ?_
  rintro p s' ⟨found, start, s1, -, hdeals⟩
  have hr1 : (r.arrived found start).Scoped := hr
  generalize found.matched = next at hdeals
  cases hdeals with
  | eof => exact ⟨hr, .same rfl⟩
  | tracks _ h => exact (trackStatement_rescoped hr1 _ _).result _ _ h
  | ends hends h =>
    obtain ⟨_, _, _, rfl⟩ := (endStatement_keeps _ _ _).result _ _ hends
    have htracked := fun hr2 => (trackStatement_rescoped hr2 _ _).result _ _ h
    exact htracked hr
  | leaves _ h =>
    cases (character_turn _ _ _).result _ _ h with
    | string | closing | text | expr | comment | line => exact ⟨hr, .same rfl⟩
    | block _ _ h => exact (openBlock_rescoped hr1 _).result _ _ h
    | ends _ _ h =>
      obtain ⟨_, _, _, rfl⟩ := (endStatement_keeps _ _ _).result _ _ h
      exact ⟨hr, .same rfl⟩

/-- A region ends only when its selectors have been closed. -/
theorem blocks_of_finish (hr : r.Scoped) {s' : Session} (h : r.finish s = .ok ((), s')) :
    r.blocks = [] := by
  obtain ⟨_, s1, -, h⟩ := bind_eq_ok.mp h
  obtain ⟨p, s2, htracker, -⟩ := bind_eq_ok.mp h
  cases hnone : r.statements.openBlock? with
  | some span =>
    rw [Tracker.finish, hnone] at htracker
    cases htracker
  | none =>
    unfold Scoped at hr
    rw [Tracker.ids_of_openBlock? hnone] at hr
    exact length_eq_zero_iff.mp (range_eq_nil.mp hr.symm)

end Stylesheet

namespace Document

end Document
end Patchwork
