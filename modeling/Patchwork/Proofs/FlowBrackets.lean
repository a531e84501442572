import Patchwork.Proofs.Brackets
import Patchwork.Proofs.Layout

/-!
# The brackets of control flow

A statement opens brackets in one place and closes them in others. `Fate` says which ones: some are
open from its first branch to its last, some from the head of each branch to its close.
`Statement.Fits` says that the slots of a statement hold texts that keep to this.

Main result: `Laid.turns`. Where all statements fit, reading the items closes all that it opens, but
for the brackets of statements that are open.
-/

namespace Patchwork

open Brackets
open List hiding after

/-! ## Brackets that a statement keeps open -/

/-- The brackets that a statement opens: `outer` before its first branch, to be closed after the
last one, and `inner` in the head of each branch, to be closed after that branch. -/
structure Fate where
  outer : List Bracket
  inner : List Bracket
  deriving DecidableEq, Repr

def Fate.opened (f : Fate) : List Bracket :=
  .curly :: f.inner ++ f.outer

variable {kinds : Kinds} {v : SlotId → Text} {f : Fate} {N : Names}

/-- The head of a branch, when slots have the values `v`. -/
def Part.headText (v : SlotId → Text) (p : Part) : Text :=
  v p.decl ++ (p.params.map fun params => v params.1).getD []

theorem Part.headText_of_none {p : Part} (h : p.params = none) : p.headText v = v p.decl := by
  rw [headText, h]
  exact append_nil _

/-- The slots of a branch are as its statement wants them. -/
structure Part.Fits (kinds : Kinds) (v : SlotId → Text) (inner : List Bracket) (p : Part) :
    Prop where
  declStart : Balanced kinds (v p.declStart)
  head : Turns kinds [] (p.headText v) inner

/-- The slots of a statement whose last branch is open open and close brackets in turn. -/
structure Statement.FitsOpen (kinds : Kinds) (v : SlotId → Text) (f : Fate) (st : Statement) :
    Prop where
  start : Turns kinds [] (v st.start) f.outer
  parts : ∀ p ∈ st.parts, p.Fits kinds v f.inner
  closes : ∀ p ∈ st.earlier, ∀ c, p.close = some c → Turns kinds (.curly :: f.inner) (v c) []

/-- The slot after the last branch closes what is left. -/
structure Statement.Fits (kinds : Kinds) (v : SlotId → Text) (f : Fate) (st : Statement) : Prop
    extends st.FitsOpen kinds v f where
  last : ∀ c, st.last.close = some c → Turns kinds f.opened (v c) []

variable {st : Statement} {p : Part} {keyword : Keyword} {head : Tracker.BranchHead}
  {items : List Item}

theorem Statement.FitsOpen.of_closeLast {close : SlotId}
    (h : (st.closeLast close).FitsOpen kinds v f) : st.FitsOpen kinds v f where
  start := h.start
  parts := by
    obtain ⟨hearlier, hlast⟩ := forall_mem_append.mp h.parts
    have hlast := hlast _ (mem_singleton_self _)
    exact forall_mem_append.mpr ⟨hearlier, forall_mem_singleton.mpr ⟨hlast.declStart, hlast.head⟩⟩
  closes := h.closes

theorem Statement.FitsOpen.of_addPart (h : (st.addPart p).FitsOpen kinds v f) :
    st.FitsOpen kinds v f where
  start := h.start
  parts q hq := h.parts q (mem_append_left _ hq)
  closes q hq := h.closes q (mem_append_left _ hq)

theorem HeadItems.read (h : HeadItems N keyword head items) (hd : p.decl = head.decl)
    (hp : p.params = head.params) : items.flatMap (Item.read v) = p.headText v := by
  unfold Part.headText
  rw [hd, hp]
  cases h with
  | otherwise | condition => rfl
  | foreach ho subject binding decl slot hcall =>
    show v decl ++ (v slot ++ []) = v decl ++ v slot
    rw [append_nil]

/-- The slot before a branch, its head and the brace before its body. -/
theorem Part.Fits.turns (h : p.Fits kinds v f.inner) :
    Turns kinds f.outer (v p.declStart ++ p.headText v ++ "\x7b") f.opened := by
  have hbrace : Turns kinds (f.inner ++ f.outer) "\x7b" f.opened :=
    (Turns.literal (a := []) (b := [.curly]) (by decide)).under (f.inner ++ f.outer)
  exact ((h.declStart.turns f.outer).append (h.head.under f.outer)).append hbrace

theorem HeadItems.turns (h : HeadItems N keyword head items) {span : Span} {inline : Bool}
    {declStart : SlotId}
    (hfits : (Part.opening keyword span inline declStart head).Fits kinds v f.inner) :
    Turns kinds f.outer ((Item.slot declStart [] [] :: items ++ [Item.brace]).flatMap (Item.read v))
      f.opened := by
  have hhead : items.flatMap (Item.read v) =
      (Part.opening keyword span inline declStart head).headText v := h.read rfl rfl
  rw [flatMap_append, flatMap_cons, hhead]
  exact hfits.turns

/-- If the slots of all statements open and close brackets in turn, the items leave open what the
open statements do. -/
theorem Laid.turns {opened closed : List Statement} (h : Laid N opened closed items)
    (hclosed : ∀ st ∈ closed, ∃ f, st.Fits kinds v f) {fates : List Fate}
    (hopen : List.Forall₂ (fun f st => st.FitsOpen kinds v f) fates opened) :
    Turns kinds [] (items.flatMap (Item.read v)) (fates.flatMap Fate.opened) := by
  induction h generalizing fates with
  | start =>
    rw [forall₂_nil_right_iff.mp hopen]
    exact .nil []
  | begins h hk hopens ih =>
    cases hopen with
    | @cons f _ fates _ hfits hopen =>
      rw [flatMap_append]
      refine (ih hclosed hopen).append ?_
      cases hopens with
      | begins hhead span inline start declStart =>
        have hpart := hfits.parts _ (Statement.last_mem_parts _)
        exact (hfits.start.append (hhead.turns hpart)).under (fates.flatMap Fate.opened)
  | goesOn close h hcont hk hopens ih =>
    cases hopen with
    | @cons f _ fates _ hfits hopen =>
      cases hopens with
      | goesOn _ hhead span inline declStart =>
        have hpart := hfits.parts _ (Statement.last_mem_parts _)
        -- the branch before it was the last one, and is closed now
        have hclose := hfits.closes _ (mem_append_right _ (mem_singleton_self _)) close rfl
        rw [flatMap_append]
        refine (ih hclosed (.cons hfits.of_addPart.of_closeLast hopen)).append ?_
        exact ((hclose.under f.outer).append (hhead.turns hpart)).under (fates.flatMap Fate.opened)
  | closes close h ih =>
    rw [forall_mem_append, forall_mem_singleton] at hclosed
    obtain ⟨hclosed, f, hfits⟩ := hclosed
    rw [flatMap_append, flatMap_singleton]
    refine (ih hclosed (.cons hfits.toFitsOpen.of_closeLast hopen)).append ?_
    exact (hfits.last close rfl).under (fates.flatMap Fate.opened)

theorem after_of_marks {log : List Item} (htexts : ∀ t, Item.text t ∈ log → Balanced kinds t) :
    ∀ {w w' : List Bracket}, after kinds w ((marks log).flatMap (Item.read v)) = some w' →
      after kinds w (log.flatMap (Item.read v)) = some w' := by
  induction log with
  | nil => exact id
  | cons item log ih =>
    intro w w' hafter
    have htexts' : ∀ t, Item.text t ∈ log → Balanced kinds t := fun t ht =>
      htexts t (mem_cons_of_mem _ ht)
    rw [flatMap_cons, after, foldlM_append]
    have hmark : marks (item :: log) = item :: marks log →
        (item.read v).foldlM (step kinds) w >>= ((log.flatMap (Item.read v)).foldlM (step kinds)) =
          some w' := by
      intro hmarks
      rw [hmarks, flatMap_cons, after, foldlM_append] at hafter
      obtain ⟨w1, hitem, hrest⟩ := Option.bind_eq_some_iff.mp hafter
      exact Option.bind_eq_some_iff.mpr ⟨w1, hitem, ih htexts' hrest⟩
    cases item with
    | text t =>
      have ht : after kinds w t = some w := after_append (htexts t mem_cons_self) w
      exact (congrArg (· >>= _) ht).trans (ih htexts' hafter)
    | brace | slot => exact hmark rfl

end Patchwork
