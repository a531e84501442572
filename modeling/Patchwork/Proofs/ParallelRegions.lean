import Patchwork.Proofs.Operands
import Patchwork.Proofs.ParallelStatements

/-!
# Regions side by side

What a region has read is held as pieces, and those are the same in two compilations but for the
code of expressions. Everything that a region decides it decides by the texts among the pieces:
where a word ends, whether a brace is escaped, what is a key and what a value, and whether a value
is arithmetic. The one decision that code takes part in is whether an expression alone is a spread,
and then code is added either way (`Stylesheet.endStatement_parallel`).

For each kind of region there is a relation `Alike` that every step keeps. The relation leaves open
what has become code: the links of a chain, the slots of statements and, in stylesheets, the sheet
that is built beside the code and whether it can take the place of it.
-/

namespace Patchwork

open Compile List

/-! ## Pieces of stylesheets -/

namespace Buffer.Alike

variable {ps ps' : List Piece}

theorem map_eq {β : Type} {f : Piece → β} (hf : ∀ p p', Piece.Alike p p' → f p' = f p)
    (h : List.Forall₂ Piece.Alike ps ps') : ps'.map f = ps.map f := by
  induction h with
  | nil => rfl
  | cons hp _ ih => rw [map_cons, map_cons, hf _ _ hp, ih]

theorem any_eq {f : Piece → Bool} (hf : ∀ p p', Piece.Alike p p' → f p' = f p)
    (h : List.Forall₂ Piece.Alike ps ps') : ps'.any f = ps.any f := by
  have hany := congrArg (List.any · id) (map_eq hf h)
  rwa [any_map, any_map] at hany

theorem takeWhile {f : Piece → Bool} (hf : ∀ p p', Piece.Alike p p' → f p' = f p)
    (h : List.Forall₂ Piece.Alike ps ps') :
    List.Forall₂ Piece.Alike (ps.takeWhile f) (ps'.takeWhile f) := by
  induction h with
  | nil => exact .nil
  | cons hp _ ih =>
    rw [takeWhile_cons, takeWhile_cons, hf _ _ hp]
    split
    · exact .cons hp ih
    · exact .nil

theorem staticText?_eq (h : List.Forall₂ Piece.Alike ps ps') :
    Piece.staticText? ps' = Piece.staticText? ps := by
  induction h with
  | nil => rfl
  | cons hp _ ih =>
    cases hp with
    | text t => rw [Piece.staticText?, Piece.staticText?, ih]
    | expr => rfl
    | comment => exact ih

/-- Something remains of both or of neither when they are joined. -/
theorem join?_isNone_eq (h : List.Forall₂ Piece.Alike ps ps') (dialect dialect' : Dialect) :
    (Piece.join? dialect' false ps').isNone = (Piece.join? dialect false ps).isNone := by
  have hnone : ∀ dialect (ps : List Piece),
      (Piece.join? dialect false ps).isNone = !ps.any Piece.counts := by
    intro dialect ps
    unfold Piece.join?
    dsimp only
    split
    next hnil =>
      have hany : ps.any Piece.counts = false := by simpa using hnil
      rw [hany]
      rfl
    next hcons =>
      have hany : ps.any Piece.counts = true := by simpa using hcons
      rw [hany]
      cases dialect <;> rfl
  rw [hnone, hnone, any_eq (by rintro _ _ (_ | _ | _) <;> rfl) h]

end Buffer.Alike

/-- Two style statements that have been read alike, from the same place. -/
structure StyleBuffer.Alike (b b' : StyleBuffer) : Prop where
  pieces : Buffer.Alike b.pieces b'.pieces
  start : b'.start = b.start

namespace StyleBuffer.Alike

variable {b b' : StyleBuffer}

variable (h : b.Alike b')
include h

theorem isBlank : b'.isBlank = b.isBlank := by
  have hall := congrArg (List.all · id)
    (Buffer.Alike.map_eq (f := Piece.isBlank) (by rintro _ _ (_ | _ | _) <;> rfl) h.pieces)
  rwa [all_map, all_map] at hall

theorem startAt (at_ : Nat) : (b.startAt at_).Alike (b'.startAt at_) :=
  ⟨h.pieces, by rw [StyleBuffer.startAt, StyleBuffer.startAt, h.start]⟩

theorem push {p p' : Piece} (hp : p.Alike p') (at_ : Nat) : (b.push p at_).Alike (b'.push p' at_) :=
  ⟨.cons hp h.pieces, (h.startAt at_).start⟩

theorem pushText (t : Text) : StyleBuffer.Alike { b with pieces := b.pieces.pushText t }
      { b' with pieces := b'.pieces.pushText t } :=
  ⟨h.pieces.pushText t, h.start⟩

theorem pushComment (t : Text) : StyleBuffer.Alike { b with pieces := .comment t :: b.pieces }
      { b' with pieces := .comment t :: b'.pieces } :=
  ⟨.cons (.comment t) h.pieces, h.start⟩

theorem atLineStart : b'.atLineStart = b.atLineStart := by
  unfold StyleBuffer.atLineStart
  extract_lets recent' recent
  have hrecent : List.Forall₂ Piece.Alike recent recent' :=
    Buffer.Alike.takeWhile (by rintro _ _ (_ | _ | _) <;> rfl) h.pieces
  rw [Buffer.Alike.staticText?_eq (rel_reverse hrecent), Buffer.Alike.any_eq ?_ h.pieces]
  rintro _ _ (_ | _ | _) <;> rfl

theorem preview : b'.preview = b.preview := by
  unfold StyleBuffer.preview
  exact congrArg (fun l => Text.trim l.flatten) (Buffer.Alike.map_eq (f := previewPiece)
    (by rintro _ _ (_ | _ | _) <;> rfl) (rel_reverse h.pieces))

theorem flush_parallel : Parallel b.flush b'.flush StyleBuffer.Alike := by
  unfold StyleBuffer.flush
  rw [h.isBlank, h.preview, h.start]
  split
  · exact .after fun _ => .pure ⟨.nil, rfl⟩
  · exact .after fun here => .fail _ _ _

end StyleBuffer.Alike

instance : TextHost.Paired StyleBuffer where
  Alike := StyleBuffer.Alike
  buffer h := h.pieces
  setBuffer h hb := ⟨hb, h.start⟩
  flush h := h.flush_parallel

namespace StyleStatement

variable {ps ps' : List Piece}

theorem trimBack_alike (h : List.Forall₂ Piece.Alike ps ps') :
    List.Forall₂ Piece.Alike (trimBack ps) (trimBack ps') := by
  induction h with
  | nil => exact .nil
  | cons hp hps ih =>
    cases hp with
    | text t =>
      unfold trimBack
      split
      · exact ih
      · exact .cons (.text _) hps
    | expr he => exact .cons (.expr he) hps
    | comment c => exact .cons (.comment c) hps

theorem trimEnd_alike (h : List.Forall₂ Piece.Alike ps ps') :
    List.Forall₂ Piece.Alike (trimEnd ps) (trimEnd ps') :=
  rel_reverse (trimBack_alike (rel_reverse h))

/-- Two statements in their parts. -/
structure Parts.Alike (p p' : Parts) : Prop where
  leading : p'.leading = p.leading
  body : List.Forall₂ Piece.Alike p.body p'.body
  comments : p'.comments = p.comments

theorem Parts.Alike.add {p p' : Parts} (h : p.Alike p') {q q' : Piece} (hq : q.Alike q') :
    (p.add q).Alike (p'.add q') := by
  cases hq with
  | comment c => exact ⟨h.leading, h.body, congrArg (· ++ [c]) h.comments⟩
  | expr he => exact ⟨h.leading, rel_append h.body (.cons (.expr he) .nil), h.comments⟩
  | text t =>
    unfold Parts.add
    dsimp only
    rw [isEmpty_eq_of_forall₂ h.body, h.leading, h.comments]
    split
    · refine ⟨rfl, ?_, rfl⟩
      dsimp only
      split
      · exact .nil
      · exact .cons (.text _) .nil
    · exact ⟨rfl, rel_append h.body (.cons (.text t) .nil), rfl⟩

theorem split_alike (h : List.Forall₂ Piece.Alike ps ps') : (split ps).Alike (split ps') := by
  have hfold : ∀ p p' : Parts, p.Alike p' →
      (ps.foldl Parts.add p).Alike (ps'.foldl Parts.add p') := by
    induction h with
    | nil => exact fun _ _ hp => hp
    | cons hq _ ih => exact fun p p' hp => ih _ _ (hp.add hq)
  have hparts := hfold {} {} ⟨rfl, .nil, rfl⟩
  exact ⟨hparts.leading, trimEnd_alike hparts.body, hparts.comments⟩

/-- Two declarations, each divided into its key and its value. -/
def PairAlike (d d' : List Piece × List Piece) : Prop :=
  List.Forall₂ Piece.Alike d.1 d'.1 ∧ List.Forall₂ Piece.Alike d.2 d'.2

theorem textPiece_alike (t : Text) : List.Forall₂ Piece.Alike (textPiece t) (textPiece t) := by
  unfold textPiece
  split
  · exact .nil
  · exact .cons (.text t) .nil

theorem splitAtColon_alike {before before' : List Piece}
    (hbefore : List.Forall₂ Piece.Alike before before') (h : List.Forall₂ Piece.Alike ps ps') :
    Option.Rel PairAlike (splitAtColon before ps) (splitAtColon before' ps') := by
  induction h generalizing before before' with
  | nil => exact .none
  | cons hp hps ih =>
    cases hp with
    | expr he => exact ih (.cons (.expr he) hbefore)
    | comment c => exact ih (.cons (.comment c) hbefore)
    | text t =>
      unfold splitAtColon
      split
      next key value _ =>
        extract_lets front front'
        have hfront : List.Forall₂ Piece.Alike front front' :=
          rel_append (rel_reverse hbefore) (textPiece_alike _)
        rw [isEmpty_eq_of_forall₂ hfront]
        split
        · exact .none
        · exact .some ⟨trimEnd_alike hfront, rel_append (textPiece_alike _) hps⟩
      · exact ih (.cons (.text t) hbefore)

theorem declaration?_alike (h : List.Forall₂ Piece.Alike ps ps') :
    Option.Rel PairAlike (declaration? ps) (declaration? ps') := by
  have hsplit := splitAtColon_alike .nil h
  unfold declaration?
  cases h with
  | nil => exact .none
  | cons hp hps =>
    cases hp with
    | expr | comment => exact hsplit
    | text t =>
      cases t with
      | nil => exact hsplit
      | cons c t =>
        by_cases hc : c = '@'
        · subst hc
          exact .none
        · split
          next heq => 
            cases heq
            exact absurd rfl hc
          · split
            next heq =>
              cases heq
              exact absurd rfl hc
            · exact hsplit

theorem spread?_alike (h : List.Forall₂ Piece.Alike ps ps') :
    spread? ps = none ∧ spread? ps' = none ∨ declaration? ps = none ∧ declaration? ps' = none := by
  cases h with
  | nil => exact .inl ⟨rfl, rfl⟩
  | cons hp hps =>
    cases hps with
    | cons => cases hp <;> exact .inl ⟨rfl, rfl⟩
    | nil =>
      cases hp with
      | expr => exact .inr ⟨rfl, rfl⟩
      | text | comment => exact .inl ⟨rfl, rfl⟩

end StyleStatement

/-! ## Stylesheets -/

/-- Two stylesheet regions in which the same has been read and the same is open. They need not agree
on whether they can be rendered at compile time. -/
structure Stylesheet.Alike (r r' : Stylesheet) : Prop where
  buffer : r.buffer.Alike r'.buffer
  statements : r.statements.Alike r'.statements

namespace Stylesheet

variable {r r' : Stylesheet}

theorem create_parallel (attributes : Attributes) :
    Parallel (create attributes) (create attributes) Alike := by
  refine .onOutput (fun _ => ⟨rfl, rfl⟩) (fun _ => ⟨rfl, rfl⟩) fun _ _ => ?_
  refine .after fun start => .pure ?_
  exact ⟨⟨.nil, rfl⟩, ⟨rfl, rfl, .nil⟩⟩

theorem start_parallel (h : r.Alike r') : Parallel r.start r'.start Alike := by
  refine .onOutput (fun _ => ⟨rfl, rfl⟩) (fun _ => ⟨rfl, rfl⟩) fun _ _ => ?_
  refine .output fun _ _ _ => ?_
  refine .after fun _ => ?_
  exact .onOutput (fun _ => ⟨rfl, rfl⟩) (fun _ => ⟨rfl, rfl⟩) fun _ _ => .pure ⟨h.buffer, h.statements⟩

theorem joined_parallel (ps ps' : List Piece) :
    Parallel (joined ps) (joined ps') fun _ _ => True :=
  .output fun _ _ _ => .pure trivial

/-- The region, the statement and its position when a statement has been taken. -/
structure TakenAlike (t t' : Stylesheet × List Piece × Option Nat) : Prop where
  region : t.1.Alike t'.1
  body : List.Forall₂ Piece.Alike t.2.1 t'.2.1
  start : t'.2.2 = t.2.2

theorem takeStatement_parallel (h : r.Alike r') :
    Parallel r.takeStatement r'.takeStatement TakenAlike := by
  have hparts := StyleStatement.split_alike (rel_reverse h.buffer.pieces)
  exact .after fun _ =>
    .pure ⟨⟨⟨.nil, rfl⟩, h.statements⟩, hparts.body, h.buffer.start⟩

theorem pushMarker_parallel (h : r.Alike r') (marker : Char) (at_ : Nat) :
    Parallel (r.pushMarker marker at_) (r'.pushMarker marker at_) Alike := by
  refine .after fun c => ?_
  rw [h.buffer.pieces.endsWith]
  split
  · exact .pure ⟨h.buffer.push (.text _) at_, h.statements⟩
  split
  · have hunescaped : StyleBuffer.Alike { r.buffer with pieces := r.buffer.pieces.unescape }
        { r'.buffer with pieces := r'.buffer.pieces.unescape } :=
      ⟨h.buffer.pieces.unescape, h.buffer.start⟩
    exact .pure ⟨hunescaped.push (.text _) at_, h.statements⟩
  refine (readMarker_parallel _ _).bind fun e e' he => .pure ?_
  exact ⟨h.buffer.push (.expr he) at_, h.statements⟩

theorem slash_parallel (h : r.Alike r') (at_ : Nat) :
    Parallel (r.slash at_) (r'.slash at_) Alike := by
  refine .after fun block => ?_
  rw [h.buffer.atLineStart]
  split
  · refine .after fun c => ?_
    extract_lets buffer rest buffer' rest'
    have hrest : ∀ u, Parallel (rest u) (rest' u) Alike := fun u =>
      .after fun body => .pure ⟨h.buffer.pushComment _, h.statements⟩
    split
    · exact (Parallel.fail _ _ _).same hrest
    · exact hrest ()
  · refine .after fun c => ?_
    split
    · exact .after fun line => .pure ⟨h.buffer.pushComment _, h.statements⟩
    · exact .pure ⟨h.buffer.push (.text _) at_, h.statements⟩

theorem openBlock_parallel (h : r.Alike r') (at_ : Nat) :
    Parallel (r.openBlock at_) (r'.openBlock at_) Alike := by
  refine (takeStatement_parallel h).bind ?_
  rintro ⟨r, body, start⟩ ⟨r', body', _⟩ ⟨h, hbody, ⟨⟩⟩
  refine .output fun o o' _ => ?_
  have hnone := Buffer.Alike.join?_isNone_eq hbody o.dialect o'.dialect
  cases hjoin : Piece.join? o.dialect false body with
  | none =>
    rw [hjoin, Option.isNone_none, Option.isNone_iff_eq_none] at hnone
    rw [hnone]
    exact .fail _ _ _
  | some selector =>
    cases hjoin' : Piece.join? o'.dialect false body' with
    | none => simp [hjoin, hjoin'] at hnone
    | some selector' =>
      refine .onOutput (fun _ => ⟨rfl, rfl⟩) (fun _ => ⟨rfl, rfl⟩) fun _ _ => ?_
      refine .after fun _ => .pure ⟨h.buffer, ?_⟩
      exact ⟨h.statements.regionStart, h.statements.recognized,
        .cons (.block _ _ _) h.statements.opened⟩

theorem declarationValue_parallel {value value' : List Piece}
    (h : List.Forall₂ Piece.Alike value value') (span : Span) :
    Parallel (declarationValue value span) (declarationValue value' span) fun _ _ => True := by
  have hparse := Style.Formula.parse?_erase h
  have hjoined : Parallel (do return (← joined value, Piece.staticText? value))
      (do return (← joined value', Piece.staticText? value')) fun _ _ => True :=
    (joined_parallel value value').bind fun _ _ _ => .pure trivial
  unfold declarationValue
  cases hp : Style.Formula.parse? value with
  | none =>
    rw [hp, Option.map_none, Option.map_eq_none_iff] at hparse
    rw [hparse]
    exact hjoined
  | some formula =>
    rw [hp, Option.map_some, Option.map_eq_some_iff] at hparse
    obtain ⟨formula', hp', herase⟩ := hparse
    have hneeds : formula'.needsArithmetic = formula.needsArithmetic := by
      rw [← Style.Calc.needsArithmetic_erase, herase, Style.Calc.needsArithmetic_erase]
    have hcheck : formula'.checkUnits = formula.checkUnits := by
      rw [← Style.Calc.checkUnits_erase, herase, Style.Calc.checkUnits_erase]
    have hevaluate : formula'.evaluate = formula.evaluate := by
      rw [← Style.Calc.evaluate_erase, herase, Style.Calc.evaluate_erase]
    rw [hp', Option.filter_some, Option.filter_some, hneeds]
    cases formula.needsArithmetic with
    | false => exact hjoined
    | true =>
      refine .output fun o o' _ => ?_
      rw [hcheck, hevaluate]
      split
      · exact .fail _ _ _
      · exact .fail _ _ _
      · exact .pure trivial

theorem writeDeclaration_parallel (h : r.Alike r') {key key' value value' : List Piece}
    (hvalue : List.Forall₂ Piece.Alike value value') (span : Span) :
    Parallel (r.writeDeclaration key value span) (r'.writeDeclaration key' value' span) Alike := by
  refine (joined_parallel key key').bind fun _ _ _ => ?_
  refine (declarationValue_parallel hvalue span).bind ?_
  rintro ⟨source, folded⟩ ⟨source', folded'⟩ -
  refine .after fun _ => ?_
  -- whether the sheet is built along with the code makes no difference to what is read
  repeat' split
  all_goals exact .pure ⟨h.buffer, h.statements⟩

def SameRead (r r1 : Stylesheet) : Prop :=
  r1.buffer = r.buffer ∧ r1.statements = r.statements

theorem Alike.congr {r1 r1' : Stylesheet} (h : r.Alike r') (hr : r.SameRead r1)
    (hr' : r'.SameRead r1') : r1.Alike r1' := by
  refine ⟨?_, ?_⟩
  · rw [hr.1, hr'.1]
    exact h.buffer
  · rw [hr.2, hr'.2]
    exact h.statements

theorem writeStatement_silent (r : Stylesheet) (body : List Piece) :
    Silent (r.writeStatement body) r.SameRead := by
  refine (Silent.output.bind fun _ _ => .pure trivial).bind (P := fun _ => True) fun _ _ => ?_
  refine (Silent.emit _).bind fun _ _ => ?_
  repeat' split
  all_goals exact .pure ⟨rfl, rfl⟩

theorem endStatement_parallel (h : r.Alike r') (stop : Nat) :
    Parallel (r.endStatement stop) (r'.endStatement stop) Alike := by
  refine (takeStatement_parallel h).bind ?_
  rintro ⟨r, body, start⟩ ⟨r', body', _⟩ ⟨h, hbody, ⟨⟩⟩
  dsimp only
  rw [isEmpty_eq_of_forall₂ hbody]
  split
  · exact .pure h
  rcases StyleStatement.spread?_alike hbody with ⟨hspread, hspread'⟩ | ⟨hnone, hnone'⟩
  · have hdeclaration := StyleStatement.declaration?_alike hbody
    rw [hspread, hspread']
    generalize StyleStatement.declaration? body = d, StyleStatement.declaration? body' = d'
      at hdeclaration ⊢
    cases hdeclaration with
    | none =>
      exact (r.writeStatement_silent body).parallel (r'.writeStatement_silent body')
        fun _ _ => h.congr
    | some hd => exact writeDeclaration_parallel h hd.2 _
  · -- the code decides whether it is a spread, but code is added in either case
    rw [hnone, hnone']
    refine Silent.parallel ?_ ?_ fun _ _ => h.congr
    · split
      · exact (Silent.emit _).bind fun _ _ => .pure ⟨rfl, rfl⟩
      next heq => cases heq
      · exact r.writeStatement_silent body
    · split
      · exact (Silent.emit _).bind fun _ _ => .pure ⟨rfl, rfl⟩
      next heq => cases heq
      · exact r'.writeStatement_silent body'

theorem trackStatement_parallel (h : r.Alike r') (c : Char) (at_ : Nat) :
    Parallel (r.trackStatement c at_) (r'.trackStatement c at_) Alike := by
  rw [trackStatement_eq, trackStatement_eq]
  refine (Tracker.dispatch_parallel h.statements h.buffer c).bind ?_
  rintro ⟨statements, buffer, closed⟩ ⟨statements', buffer', closed'⟩
    ⟨hstatements, hbuffer, hclosed⟩
  refine (Tracker.warnStray_parallel false at_ hclosed).same fun _ => .pure ⟨?_, hstatements⟩
  unfold tracked
  rw [hstatements.recognized, h.statements.recognized]
  split
  · exact StyleBuffer.Alike.startAt hbuffer at_
  · exact hbuffer

theorem character_parallel (h : r.Alike r') (c : Char) (at_ : Nat) :
    Parallel (r.character c at_) (r'.character c at_) (StepsAlike Alike) := by
  unfold character
  split
  · refine .after fun literal => .pure ⟨⟨?_, h.statements⟩, rfl⟩
    exact h.buffer.push (.text _) at_
  refine .after fun _ => .after fun cursor => ?_
  split
  · exact .pure ⟨h, rfl⟩
  split
  · exact .step (pushMarker_parallel h c at_)
  split
  · exact .step (slash_parallel h at_)
  split
  · exact .step (openBlock_parallel h at_)
  split
  · exact .step (endStatement_parallel h _)
  · exact .pure ⟨⟨h.buffer.push (.text _) at_, h.statements⟩, rfl⟩

theorem step_parallel (h : r.Alike r') : Parallel r.step r'.step (StepsAlike Alike) := by
  unfold step
  rw [Tracker.breakpoints_eq h.statements]
  refine .after fun found => .after fun at_ => ?_
  extract_lets text _ pushed buffer r1 _ pushed' buffer' r1'
  have hbuffer : buffer.Alike buffer' := by
    unfold buffer buffer'
    split
    · exact h.buffer.pushText text
    · exact (h.buffer.pushText text).startAt _
  have h1 : r1.Alike r1' := ⟨hbuffer, h.statements⟩
  split
  · exact .pure ⟨h1, rfl⟩
  next c _ =>
    extract_lets ends rest ends'
    have hends : ends' = ends := by
      unfold ends ends'
      rw [h1.buffer.isBlank, h1.buffer.pieces.endsWith]
    have hrest : ∀ r r', Alike r r' → Parallel (rest r) (rest r') (StepsAlike Alike) := by
      intro r r' h
      unfold rest
      rw [Tracker.handles_eq h.statements]
      split
      · exact .step (trackStatement_parallel h c at_)
      · exact character_parallel h c at_
    rw [hends]
    split
    · exact (endStatement_parallel h1 at_).bind hrest
    · exact (Parallel.pure h1).bind hrest

theorem finish_parallel (h : r.Alike r') : Parallel r.finish r'.finish Eq := by
  refine h.buffer.flush_parallel.bind fun _ _ _ => ?_
  refine (Tracker.finish_parallel h.statements).bind ?_
  rintro ⟨k, reactive⟩ ⟨k', reactive'⟩ -
  refine .get fun s s' hs => ?_
  -- whichever end each region has, it only changes the code
  have hreplace : ∀ (o : Output) (mark : Nat) (t : Text), (o.replaceSince mark t).fork = o.fork :=
    fun o mark t => Output.fork_add _ t
  refine Silent.parallel (P := fun _ => True) (Q := fun _ => True) ?_ ?_ fun _ _ _ _ => rfl
  all_goals
    dsimp only
    split
    · exact .modifyOutput fun o => hreplace o _ _
    split
    · exact (Silent.modifyOutput fun o => o.fork_edit _).bind fun _ _ => .emit _
    · exact .emit _

end Stylesheet

/-! ## Regions -/

/-- Two text regions in which the same has been read and the same is open. -/
structure Markup.Alike (r r' : Markup) : Prop where
  chain : r.chain.Alike r'.chain
  statements : Option.Rel Tracker.Alike r.statements r'.statements
  children : r'.children = r.children

namespace Markup

variable {r r' : Markup}

theorem create_parallel (children : Bool) (attributes : Attributes) :
    Parallel (create children attributes) (create children attributes) Alike := by
  refine .after fun start => .pure ⟨⟨.nil⟩, ?_, rfl⟩
  split
  · exact .some ⟨rfl, rfl, .nil⟩
  · exact .none

theorem trackStatement_parallel (h : r.Alike r') {k k' : Tracker} (hk : k.Alike k') (c : Char) :
    Parallel (r.trackStatement k c) (r'.trackStatement k' c) Alike := by
  rw [trackStatement_eq, trackStatement_eq]
  refine .after fun at_ => (Tracker.dispatch_parallel hk h.chain c).bind ?_
  rintro ⟨k, chain, closed⟩ ⟨k', chain', closed'⟩ ⟨hk, hchain, hclosed⟩
  refine (Tracker.warnStray_parallel true at_ hclosed).same fun _ => .pure ?_
  exact ⟨hchain, .some hk, h.children⟩

theorem character_parallel (h : r.Alike r') (c : Char) :
    Parallel (r.character c) (r'.character c) (StepsAlike Alike) := by
  refine .after fun _ => ?_
  split
  · refine (Chain.textMarker_parallel h.chain c true).bind fun _ _ hchain => .pure ?_
    exact ⟨⟨hchain, h.statements, h.children⟩, rfl⟩
  refine .after fun cursor => ?_
  obtain ⟨chain', statements', children⟩ := r'
  obtain ⟨hchain, hstatements, rfl⟩ := h
  dsimp only
  split
  · refine (Chain.flush_parallel _ _).bind fun _ _ hchain => .pure ?_
    exact ⟨⟨hchain, hstatements, rfl⟩, rfl⟩
  · refine .output fun _ _ _ => .pure ?_
    exact ⟨⟨⟨.nil⟩, hstatements, rfl⟩, rfl⟩
  · exact .pure ⟨⟨hchain, hstatements, rfl⟩, rfl⟩
  · exact .pure ⟨⟨Chain.pushText_alike hchain _, hstatements, rfl⟩, rfl⟩

theorem step_parallel (h : r.Alike r') : Parallel r.step r'.step (StepsAlike Alike) := by
  unfold step
  have hextra : (r'.statements.map Tracker.breakpoints).getD [] =
      (r.statements.map Tracker.breakpoints).getD [] := by
    have hstatements := h.statements
    generalize r.statements = k, r'.statements = k' at hstatements ⊢
    cases hstatements with
    | none => rfl
    | some hk => exact Tracker.breakpoints_eq hk
  rw [hextra]
  refine .after fun found => ?_
  extract_lets r1 r1'
  have h1 : r1.Alike r1' := ⟨Chain.pushText_alike h.chain _, h.statements, h.children⟩
  have hstatements := h1.statements
  generalize r1.statements = k, r1'.statements = k' at hstatements ⊢
  cases hstatements with
  | none =>
    cases found.matched with
    | none => exact .pure ⟨h1, rfl⟩
    | some c => exact character_parallel h1 c
  | @some k k' hk =>
    cases found.matched with
    | none => exact .pure ⟨h1, rfl⟩
    | some c =>
      dsimp only
      rw [Tracker.handles_eq hk]
      split
      · exact .step (trackStatement_parallel h1 hk c)
      · exact character_parallel h1 c

theorem finish_parallel (h : r.Alike r') : Parallel r.finish r'.finish Eq := by
  refine (Chain.flush_parallel _ _).bind fun _ _ _ => ?_
  have hstatements := h.statements
  generalize r.statements = k, r'.statements = k' at hstatements ⊢
  cases hstatements with
  | none => exact .pure rfl
  | some hk => exact (Tracker.finish_parallel hk).discard

end Markup

/-- Two script regions in which the same has been read. -/
structure Script.Alike (r r' : Script) : Prop where
  chain : r.chain.Alike r'.chain
  scopeClass : r'.scopeClass.isSome = r.scopeClass.isSome

namespace Script

variable {r r' : Script}

theorem create_parallel (attributes : Attributes) :
    Parallel (create attributes) (create attributes) Alike := by
  unfold create
  split
  · refine .onOutput (fun _ => ⟨rfl, rfl⟩) (fun _ => ⟨rfl, rfl⟩) fun _ _ => ?_
    exact .pure ⟨⟨.nil⟩, rfl⟩
  · exact .pure ⟨⟨.nil⟩, rfl⟩

theorem start_alike (h : r.Alike r') : r.start.Alike r'.start := by
  unfold start
  rw [h.scopeClass]
  split
  · exact ⟨Chain.pushText_alike h.chain _, h.scopeClass⟩
  · exact h

theorem step_parallel (h : r.Alike r') : Parallel r.step r'.step (StepsAlike Alike) := by
  refine .after fun found => ?_
  have hchain : (r.chain.pushText found.before).Alike (r'.chain.pushText found.before) :=
    Chain.pushText_alike h.chain _
  split
  · exact .pure ⟨⟨hchain, h.scopeClass⟩, rfl⟩
  · refine .after fun c => ?_
    split
    · exact .pure ⟨⟨hchain, h.scopeClass⟩, rfl⟩
    · exact .pure ⟨⟨Chain.pushText_alike hchain _, h.scopeClass⟩, rfl⟩
  next marker _ _ =>
    refine (Chain.textMarker_parallel hchain marker false).bind fun _ _ hchain => .pure ?_
    exact ⟨⟨hchain, h.scopeClass⟩, rfl⟩

theorem finish_parallel : Parallel r.finish r'.finish Eq := (Chain.flush_parallel _ _).discard

end Script

/-- Two comments in which the same has been read. -/
structure Comment.Alike (r r' : Comment) : Prop where
  chain : r.chain.Alike r'.chain

theorem Comment.step_parallel {r r' : Comment} (h : r.Alike r') :
    Parallel r.step r'.step (StepsAlike Comment.Alike) := by
  refine .after fun found => ?_
  have hchain : (r.chain.pushText found.before).Alike (r'.chain.pushText found.before) :=
    Chain.pushText_alike h.chain _
  split
  · exact .pure ⟨⟨hchain⟩, rfl⟩
  · refine .after fun closes => ?_
    split
    · exact .pure ⟨⟨hchain⟩, rfl⟩
    · exact .pure ⟨⟨Chain.pushText_alike hchain _⟩, rfl⟩
  next marker _ _ =>
    refine (Chain.textMarker_parallel hchain marker true).bind fun _ _ hchain => .pure ?_
    exact ⟨⟨hchain⟩, rfl⟩

/-- Two regions of one mode in which the same has been read and the same is open. -/
inductive Region.Alike : Region → Region → Prop where
  | code {r r' : Code} (h : r.Alike r') : Alike (.code r) (.code r')
  | markup {r r' : Markup} (h : r.Alike r') : Alike (.markup r) (.markup r')
  | script {r r' : Script} (h : r.Alike r') : Alike (.script r) (.script r')
  | stylesheet {r r' : Stylesheet} (h : r.Alike r') : Alike (.stylesheet r) (.stylesheet r')
  | comment {r r' : Comment} (h : r.Alike r') : Alike (.comment r) (.comment r')

namespace Region

variable {r r' : Region}

theorem create_parallel (spec : ModeSpec) (attributes : Attributes) :
    Parallel (create spec attributes) (create spec attributes) Alike := by
  have hoptions : Parallel
      (modify fun s => { s with cursor := { s.cursor with options := spec.options } })
      (modify fun s => { s with cursor := { s.cursor with options := spec.options } }) Eq :=
    fun names s s' hs hn => .ok rfl
      ⟨congrArg (fun c => { c with options := spec.options }) hs.cursor, hs.warnings, hs.settings,
        hs.output⟩ hn
  refine hoptions.same fun _ => ?_
  split
  · exact .pure (.code ⟨[], rfl, .refl _⟩)
  · exact (Markup.create_parallel _ _).bind fun _ _ h => .pure (.markup h)
  · exact (Markup.create_parallel _ _).bind fun _ _ h => .pure (.markup h)
  · exact (Script.create_parallel _).bind fun _ _ h => .pure (.script h)
  · exact (Stylesheet.create_parallel _).bind fun _ _ h => .pure (.stylesheet h)
  · exact .pure (.comment ⟨⟨.nil⟩⟩)

theorem name_eq (h : r.Alike r') : r'.name = r.name := by
  cases h with
  | markup h => exact congrArg (fun children : Bool => if children then _ else _) h.children
  | code | script | stylesheet | comment => rfl

theorem usedAttributes_eq (h : r.Alike r') : r'.usedAttributes = r.usedAttributes := by
  cases h <;> rfl

theorem start_parallel (h : r.Alike r') : Parallel r.start r'.start Alike := by
  cases h with
  | stylesheet h => exact (Stylesheet.start_parallel h).bind fun _ _ h => .pure (.stylesheet h)
  | script h => exact .pure (.script (Script.start_alike h))
  | code h => exact .pure (.code h)
  | markup h => exact .pure (.markup h)
  | comment h => exact .pure (.comment h)

theorem step_parallel (h : r.Alike r') : Parallel r.step r'.step (StepsAlike Alike) := by
  cases h with
  | code h =>
    exact (Code.step_parallel (fun _ => expand_alike) h).bind fun _ _ h => .pure ⟨.code h.1, h.2⟩
  | markup h => exact (Markup.step_parallel h).bind fun _ _ h => .pure ⟨.markup h.1, h.2⟩
  | script h => exact (Script.step_parallel h).bind fun _ _ h => .pure ⟨.script h.1, h.2⟩
  | stylesheet h =>
    exact (Stylesheet.step_parallel h).bind fun _ _ h => .pure ⟨.stylesheet h.1, h.2⟩
  | comment h => exact (Comment.step_parallel h).bind fun _ _ h => .pure ⟨.comment h.1, h.2⟩

theorem finish_parallel (h : r.Alike r') : Parallel r.finish r'.finish Eq := by
  cases h with
  | code h => exact (Code.commit_parallel h).discard
  | markup h => exact Markup.finish_parallel h
  | script h => exact Script.finish_parallel
  | stylesheet h => exact Stylesheet.finish_parallel h
  | comment h => exact .pure rfl

theorem accept_parallel (h : r.Alike r') (l l' : Link) :
    Parallel (r.accept l) (r'.accept l') Alike := by
  cases h with
  | markup h =>
    refine .output fun _ _ _ => .pure (.markup ⟨?_, h.statements, h.children⟩)
    exact ⟨.nil⟩
  | code h =>
    exact .output fun _ _ _ => .after fun _ => .pure (.code h)
  | script h =>
    exact .output fun _ _ _ => .after fun _ => .pure (.script h)
  | stylesheet h =>
    exact .output fun _ _ _ => .after fun _ => .pure (.stylesheet h)
  | comment h =>
    exact .output fun _ _ _ => .after fun _ => .pure (.comment h)

/-- The same slots wait for a value, but for their numbers. -/
theorem map_snd_waiting_eq (h : r.Alike r') : r'.waiting.map Prod.snd = r.waiting.map Prod.snd := by
  cases h with
  | code | script | comment => rfl
  | stylesheet h => exact Tracker.map_snd_waiting_eq h.statements
  | @markup r r' h =>
    have hstatements := h.statements
    show r'.waiting.map Prod.snd = r.waiting.map Prod.snd
    unfold Markup.waiting
    generalize r.statements = k, r'.statements = k' at hstatements ⊢
    cases hstatements with
    | none => rfl
    | some hk => exact Tracker.map_snd_waiting_eq hk

end Region

end Patchwork
