import Patchwork.Proofs.StyleValues

/-!
# Calls that build a sheet

The code of a stylesheet builds its sheet by calls on scopes, which it keeps in variables: `select`
opens a scope inside one, `value` declares a value in one, and `stat` adds a statement. A `Call`
holds what such a call is given, so that it can be written as code (`Call.code`) and also be carried
out on a sheet at compile time (`Call.replay?`). A value that is computed when the code runs is
replaced by its quantity, if that is known.

The code of a region without expressions and without statements is a list of entries: calls, and
blanks and comments that are copied between them (`Entry`).
-/

namespace Patchwork.Style

/-- The value that a call declares. -/
inductive CallValue where
  | written (texts : List Text)
  | computed (formula : Calc)
  deriving DecidableEq, Repr

/-- A call of the code that builds a sheet. The receiver is the variable of a scope. -/
inductive Call where
  /-- `select`, with the variable that holds the scope it opens. -/
  | select (var receiver : Text) (selector : List Text)
  /-- `value`. -/
  | declare (receiver : Text) (key : List Text) (value : CallValue)
  /-- `stat`. -/
  | state (receiver : Text) (statement : List Text)
  deriving DecidableEq, Repr

def stringCode (o : Output) (texts : List Text) : Text :=
  Stylesheet.plain o (texts.map .text)

namespace CallValue

def code (o : Output) : CallValue → Text
  | written texts => stringCode o texts
  | computed formula =>
    o.feature "cu" ++ '(' :: o.arrow o.names.value (formula.render o.names.value) ++ [')']

def text? : CallValue → Option Text
  | written texts => some texts.flatten
  | computed formula => formula.evaluate.toOption.join.map Quantity.render

end CallValue

/-- A sheet that is being built, with the scopes of the variables, latest first. -/
structure Replay where
  sheet : Sheet
  scopes : List (Text × Scope)
  deriving DecidableEq, Repr

/-- Nothing is built yet. The variable of the region holds the top scope. -/
def Replay.start (var : Text) (selector : Option Text) : Replay :=
  ⟨(Sheet.scope {} selector).1, [(var, (Sheet.scope {} selector).2)]⟩

namespace Call

def code (o : Output) : Call → Text
  | select var receiver selector =>
    o.declare ++ ' ' :: var ++ " = " ++ receiver ++ ".select(" ++ stringCode o selector ++ ");"
  | declare receiver key value =>
    receiver ++ ".value(" ++ stringCode o key ++ ", " ++ value.code o ++ ");"
  | state receiver statement => receiver ++ ".stat(" ++ stringCode o statement ++ ");"

def known : Call → Bool
  | declare _ _ value => value.text?.isSome
  | select .. | state .. => true

/-- Carry out the call. It must find the scope of its receiver, and the text of its value. -/
def replay? (p : Replay) : Call → Option Replay
  | select var receiver selector => do
    let scope ← p.scopes.lookup receiver
    let (sheet, inner) := p.sheet.select scope selector.flatten
    return ⟨sheet, (var, inner) :: p.scopes⟩
  | declare receiver key value => do
    let scope ← p.scopes.lookup receiver
    return { p with sheet := p.sheet.value scope key.flatten (← value.text?) }
  | state receiver statement => do
    let _ ← p.scopes.lookup receiver
    return { p with sheet := p.sheet.stat statement.flatten }

end Call

def replay? (p : Replay) (calls : List Call) : Option Replay :=
  calls.foldlM Call.replay? p

theorem replay?_concat {p q : Replay} {calls : List Call} (h : replay? p calls = some q)
    (call : Call) : replay? p (calls ++ [call]) = call.replay? q := by
  unfold replay? at h ⊢
  rw [List.foldlM_append, h]
  exact bind_pure (call.replay? q)

/-- A part of the code of a stylesheet. -/
inductive Entry where
  /-- Blanks or a comment of the source. -/
  | copied (p : Piece)
  | call (c : Call)
  deriving DecidableEq, Repr

namespace Entry

def code (o : Output) : Entry → Text
  | copied p => StyleBuffer.blankPiece p
  | call c => c.code o

def call? : Entry → Option Call
  | copied _ => none
  | call c => some c

end Entry

def calls (log : List Entry) : List Call :=
  log.filterMap Entry.call?

def logCode (o : Output) (log : List Entry) : Text :=
  log.flatMap (Entry.code o)

theorem calls_copied (ps : List Piece) : calls (ps.map .copied) = [] := by
  rw [calls, List.filterMap_map]
  exact List.filterMap_eq_nil_iff.mpr fun _ _ => rfl

theorem logCode_copied (o : Output) (ps : List Piece) :
    logCode o (ps.map .copied) = ps.flatMap StyleBuffer.blankPiece := by
  rw [logCode, List.flatMap_map]
  rfl

theorem logCode_append (o : Output) (log more : List Entry) :
    logCode o (log ++ more) = logCode o log ++ logCode o more :=
  List.flatMap_append

theorem calls_append (log more : List Entry) : calls (log ++ more) = calls log ++ calls more :=
  List.filterMap_append

end Style

/-! ## Statements without expressions -/

namespace Piece

def isExpr : Piece → Bool
  | expr _ => true
  | text _ | comment _ => false

theorem staticText?_map_text (texts : List Text) :
    staticText? (texts.map .text) = some texts.flatten := by
  induction texts with
  | nil => rfl
  | cons t texts ih =>
    rw [List.map_cons, staticText?, ih]
    rfl

end Piece

/-- There is no expression in the statement that is being read. -/
def StyleBuffer.isStatic (b : StyleBuffer) : Bool :=
  b.pieces.all (!·.isExpr)

theorem StyleBuffer.isStatic_pushText (b : StyleBuffer) (t : Text) :
    isStatic { b with pieces := b.pieces.pushText t } = b.isStatic := by
  unfold isStatic Buffer.pushText
  split
  · rfl
  cases b.pieces with
  | nil => rfl
  | cons p ps => cases p <;> rfl

namespace StyleStatement

def AllText (ps : List Piece) : Prop :=
  ∀ p ∈ ps, ∃ t, p = .text t

variable {ps : List Piece}

theorem AllText.exists_map (h : AllText ps) : ∃ texts : List Text, ps = texts.map .text := by
  induction ps with
  | nil => exact ⟨[], rfl⟩
  | cons p ps ih =>
    obtain ⟨t, rfl⟩ := h p List.mem_cons_self
    obtain ⟨texts, rfl⟩ := ih fun q hq => h q (List.mem_cons_of_mem _ hq)
    exact ⟨t :: texts, rfl⟩

theorem AllText.append {qs : List Piece} (hp : AllText ps) (hq : AllText qs) :
    AllText (ps ++ qs) := fun p hmem =>
  (List.mem_append.mp hmem).elim (hp p) (hq p)

theorem AllText.trimEnd (h : AllText ps) : AllText (trimEnd ps) := by
  intro p hp
  rcases mem_trimEnd hp with hp | ⟨t, -, rfl⟩
  · exact h p hp
  · exact ⟨_, rfl⟩

theorem allText_textPiece (t : Text) : AllText (textPiece t) := by
  unfold textPiece
  split
  · exact nofun
  · exact fun p hp => ⟨t, List.mem_singleton.mp hp⟩

theorem allText_split (hps : ∀ p ∈ ps, p.isExpr = false) : AllText (split ps).body := by
  rw [body_split]
  refine AllText.trimEnd fun p hp => ?_
  rcases mem_trimHead hp with hp | ⟨t, -, rfl⟩
  · obtain ⟨hmem, hkind⟩ := List.mem_filter.mp hp
    cases p with
    | text t => exact ⟨t, rfl⟩
    | expr e => cases hps _ hmem
    | comment c => cases hkind
  · exact ⟨_, rfl⟩

theorem allText_splitAtColon {key value : List Piece} (hps : AllText ps) :
    ∀ {before : List Piece}, AllText before → splitAtColon before ps = some (key, value) →
      AllText key ∧ AllText value := by
  induction ps with
  | nil =>
    intro _ _ h
    cases h
  | cons p ps ih =>
    intro before hbefore h
    obtain ⟨t, rfl⟩ := hps p List.mem_cons_self
    have hrest : AllText ps := fun q hq => hps q (List.mem_cons_of_mem _ hq)
    unfold splitAtColon at h
    split at h
    next front back _ =>
      dsimp only at h
      split at h
      · cases h
      cases h
      have hreverse : AllText before.reverse := fun q hq => hbefore q (List.mem_reverse.mp hq)
      exact ⟨(hreverse.append (allText_textPiece _)).trimEnd, (allText_textPiece _).append hrest⟩
    · refine ih hrest (fun q hq => ?_) h
      rcases List.mem_cons.mp hq with rfl | hq
      · exact ⟨t, rfl⟩
      · exact hbefore q hq

theorem AllText.spread? (h : AllText ps) : spread? ps = none := by
  unfold StyleStatement.spread?
  split
  next e =>
    obtain ⟨t, ht⟩ := h _ List.mem_cons_self
    cases ht
  · rfl

/-- What is copied before a statement: the blanks that lead it, and its comments. -/
def copiedPieces (ps : List Piece) : List Piece :=
  .text (split ps).leading :: (split ps).comments.map .comment

theorem flatMap_copiedPieces (ps : List Piece) :
    (copiedPieces ps).flatMap StyleBuffer.blankPiece =
      (split ps).leading ++ (split ps).comments.flatten := by
  rw [copiedPieces, List.flatMap_cons, List.flatMap_map, ← List.flatMap_id]
  rfl

theorem leading_foldl_blank (ps : List Piece) : ∀ {parts : Parts},
    Text.allBlank parts.leading = true →
      Text.allBlank (ps.foldl Parts.add parts).leading = true := by
  induction ps with
  | nil => exact id
  | cons p ps ih =>
    intro parts hparts
    refine ih ?_
    cases p with
    | comment | expr => exact hparts
    | text t =>
      rw [Parts.add]
      split
      · dsimp only
        split
        · exact List.all_append.trans (Bool.and_eq_true_iff.mpr ⟨hparts, List.all_takeWhile⟩)
        · exact hparts
      · exact hparts

theorem isBlank_copiedPieces (ps : List Piece) : ∀ p ∈ copiedPieces ps, p.isBlank = true := by
  intro p hp
  rcases List.mem_cons.mp hp with rfl | hp
  · exact leading_foldl_blank ps rfl
  · obtain ⟨c, -, rfl⟩ := List.mem_map.mp hp
    rfl

end StyleStatement

end Patchwork
