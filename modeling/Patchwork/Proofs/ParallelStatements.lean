import Patchwork.Proofs.Parallel
import Patchwork.Proofs.Reactive

/-!
# Statements side by side

Markers and statements in two compilations. The code of a marker is not the same, but it becomes one
piece of a buffer, and buffers stay alike. The heads of statements become the values of slots; what
a tracker goes on with is where a branch began, by which word, and whether it ends with its line
(`Tracker.Alike`). A tracker writes to a host, of which it is enough that its buffer is alike
(`TextHost.Paired`).
-/

namespace Patchwork

open Compile List

/-! ## Chains and markers -/

/-- Of two chains, what has not been made a link is alike. -/
structure Chain.Alike (chain chain' : Chain) : Prop where
  current : Buffer.Alike chain.current chain'.current

theorem Chain.pushText_alike {chain chain' : Chain} (h : chain.Alike chain') (t : Text) :
    (chain.pushText t).Alike (chain'.pushText t) :=
  ⟨h.current.pushText t⟩

theorem Chain.flush_parallel (chain chain' : Chain) :
    Parallel chain.flush chain'.flush Chain.Alike :=
  .output fun _ _ _ => .after fun _ => .pure ⟨.nil⟩

theorem readMarker_parallel (marker : Char) (tracked : Bool) :
    Parallel (readMarker marker tracked) (readMarker marker tracked) Expr.Alike := by
  refine .after fun start => .after fun enclosed => ?_
  refine (expand_alike _ _ _).bind fun e e' he => .output fun o o' _ => ?_
  split
  · exact .pure he
  split
  · exact .pure he
  · exact .pure he

theorem Chain.textMarker_parallel {chain chain' : Chain} (h : chain.Alike chain') (marker : Char)
    (tracked : Bool) :
    Parallel (chain.textMarker marker tracked) (chain'.textMarker marker tracked) Chain.Alike := by
  refine .after fun c => ?_
  rw [h.current.endsWith]
  split
  · exact .pure ⟨h.current.pushText [marker]⟩
  split
  · exact .pure ⟨h.current.unescape.pushText [marker]⟩
  refine (readMarker_parallel _ _).bind fun e e' he => ?_
  split
  · exact .output fun _ _ _ => .pure ⟨.nil⟩
  · exact .pure ⟨.cons (.expr he) h.current⟩

/-! ## The heads of statements -/

namespace Foreach

instance {α : Type} (step : Scan α) (c : Cursor) :
    Parallel.Same (onHead step c) (onHead step c) := by
  unfold onHead
  split
  · exact ⟨.pure rfl⟩
  · exact ⟨.throw _⟩

theorem readExpanded_parallel (c : Cursor) :
    Parallel (readExpanded c) (readExpanded c) fun r r' => r.2.2 = r'.2.2 := by
  refine .after fun read => ?_
  exact (expand_alike _ _ _).bind fun _ _ _ => .pure rfl

theorem readSubject_parallel (c : Cursor) :
    Parallel (readSubject c) (readSubject c) fun r r' => r.2 = r'.2 := by
  -- the last part of a range is read after its first part and on its own
  have hlast : ∀ (c : Cursor) (first first' : Expr),
      Parallel (do let read ← readExpanded c; return (Subject.range first read.2.1, read.2.2))
        (do let read ← readExpanded c; return (Subject.range first' read.2.1, read.2.2))
        fun r r' => r.2 = r'.2 := fun c first first' =>
    (readExpanded_parallel c).bind fun _ _ h => .pure h
  unfold readSubject
  split
  · refine .after fun skipped => ?_
    refine (readExpanded_parallel _).bind ?_
    rintro ⟨text, first, c1⟩ ⟨text', first', _⟩ ⟨⟩
    refine .after fun blanks => ?_
    dsimp only
    split
    · refine (Parallel.fail _ _ _).bind (P := Eq) fun _ _ _ => ?_
      exact .after fun skipped => hlast _ first first'
    · exact .after fun skipped => hlast _ first first'
  · split
    · exact .after fun skipped => hlast _ _ _
    · exact (readExpanded_parallel _).bind fun _ _ h => .pure h

theorem readHead_parallel (inner : Text) (base : Nat) :
    Parallel (readHead inner base) (readHead inner base) fun _ _ => True := by
  refine .after fun skipped => ?_
  refine (readSubject_parallel _).bind ?_
  rintro ⟨subject, c⟩ ⟨subject', _⟩ ⟨⟩
  refine .after fun blanks => ?_
  dsimp only
  split
  · exact .pure trivial
  split
  · exact .pure trivial
  · exact .fail _ _ _

end Foreach

/-! ## Statements -/

/-- Hosts whose buffers are alike, and stay so when they are written. -/
class TextHost.Paired (H : Type) [TextHost H] where
  Alike : H → H → Prop
  buffer : ∀ {host host' : H}, Alike host host' →
    Buffer.Alike (TextHost.buffer host) (TextHost.buffer host')
  setBuffer : ∀ {host host' : H} {b b' : Buffer}, Alike host host' → Buffer.Alike b b' →
    Alike (TextHost.setBuffer host b) (TextHost.setBuffer host' b')
  flush : ∀ {host host' : H}, Alike host host' →
    Parallel (TextHost.flush host) (TextHost.flush host') Alike

instance : TextHost.Paired Chain where
  Alike := Chain.Alike
  buffer h := h.current
  setBuffer _ hb := ⟨hb⟩
  flush _ := Chain.flush_parallel _ _

namespace TextHost

variable {H : Type} [TextHost H] [Paired H] {host host' : H}

theorem pushText_alike (h : Paired.Alike host host') (t : Text) :
    Paired.Alike (pushText host t) (pushText host' t) :=
  Paired.setBuffer h ((Paired.buffer h).pushText t)

theorem escaped_eq (h : Paired.Alike host host') : escaped host' = escaped host :=
  (Paired.buffer h).endsWith _

theorem unescape_alike (h : Paired.Alike host host') (t : Text) :
    Paired.Alike (unescape host t) (unescape host' t) :=
  Paired.setBuffer h ((Paired.buffer h).unescape.pushText t)

theorem boundary_parallel (h : Paired.Alike host host') :
    Parallel (boundary host) (boundary host') Paired.Alike :=
  (Paired.flush (Paired.setBuffer h (Paired.buffer h).trimEnd)).bind fun _ _ h' =>
    .after fun _ => .pure h'

end TextHost

/-- Two statements whose last branches were read in the same place. -/
structure Statement.Alike (st st' : Statement) : Prop where
  keyword : st'.last.keyword = st.last.keyword
  span : st'.last.span = st.last.span
  inline : st'.last.inline = st.last.inline

/-- What is open on both sides: statements, or blocks that begin in the same place. -/
inductive Open.Alike : Open → Open → Prop where
  | statement {st st' : Statement} (h : st.Alike st') : Alike (.statement st) (.statement st')
  | block (id id' : Nat) (span : Span) : Alike (.block id span) (.block id' span)

/-- What a brace has closed on both sides. -/
inductive Closed.Alike : Closed → Closed → Prop where
  | statement : Alike .statement .statement
  | block (id id' : Nat) : Alike (.block id) (.block id')
  | stray : Alike .stray .stray

namespace Tracker

open TextHost

/-- Two trackers that have the same open. -/
structure Alike (k k' : Tracker) : Prop where
  regionStart : k'.regionStart = k.regionStart
  recognized : k'.recognized = k.recognized
  opened : List.Forall₂ Open.Alike k.opened k'.opened

variable {H : Type} [TextHost H] [Paired H] {host host' : H} {k k' : Tracker}

theorem declaration_parallel (h : Paired.Alike host host') (word : Text) (closing : List Char) :
    Parallel (declaration host word closing) (declaration host' word closing) Paired.Alike := by
  refine (boundary_parallel h).bind fun host host' h => ?_
  refine .after fun _ => .after fun _ => ?_
  refine .after fun found => .after fun _ => ?_
  split
  · refine .after fun _ => .after fun _ => ?_
    refine .after fun blanks => .after fun _ => ?_
    refine .after fun start => .after fun value => ?_
    refine (expand_alike _ _ _).bind fun e e' _ => .after fun _ => ?_
    refine .after fun semicolon => ?_
    split
    · exact .after fun _ => .pure h
    · exact .pure h
  · split
    · exact .after fun _ => .after fun _ => .pure h
    · exact .pure h
  · exact .pure h

theorem branchHead_parallel (keyword : Keyword) :
    Parallel (branchHead keyword) (branchHead keyword) fun _ _ => True := by
  unfold branchHead
  split
  · exact .onOutput (fun _ => ⟨rfl, rfl⟩) (fun _ => ⟨rfl, rfl⟩) fun _ _ => .pure trivial
  refine .after fun skipped => .after fun start => ?_
  refine .after fun group => ?_
  split
  · refine (Foreach.readHead_parallel _ _).bind fun _ _ _ => .output fun _ _ _ => ?_
    refine .onOutput (fun _ => ⟨rfl, rfl⟩) (fun _ => ⟨rfl, rfl⟩) fun _ _ => ?_
    exact .onOutput (fun _ => ⟨rfl, rfl⟩) (fun _ => ⟨rfl, rfl⟩) fun _ _ => .pure trivial
  refine (expand_alike _ _ _).bind fun _ _ _ => ?_
  exact .onOutput (fun _ => ⟨rfl, rfl⟩) (fun _ => ⟨rfl, rfl⟩) fun _ _ => .pure trivial

def PairAlike (r r' : Tracker × H) : Prop :=
  r.1.Alike r'.1 ∧ Paired.Alike r.2 r'.2

theorem openPart_parallel (hk : k.Alike k') (h : Paired.Alike host host') (keyword : Keyword)
    {continued continued' : Option Statement}
    (hc : Option.Rel (fun _ _ => True) continued continued') :
    Parallel (openPart k host keyword continued) (openPart k' host' keyword continued')
      PairAlike := by
  refine (boundary_parallel h).bind fun host host' h => .after fun at_ => ?_
  refine .after fun _ => .after fun stop => ?_
  extract_lets span rest rest'
  have hrest : ∀ start start', Parallel (rest start) (rest' start') PairAlike := by
    intro start start'
    refine .output fun o o' _ => ?_
    refine .onOutput (fun _ => ⟨rfl, rfl⟩) (fun _ => ⟨rfl, rfl⟩) fun _ _ => ?_
    refine (branchHead_parallel keyword).bind fun head head' _ => ?_
    refine .after fun blanks => .after fun _ => ?_
    refine .after fun braced => .after fun _ => .pure ⟨?_, h⟩
    refine ⟨hk.regionStart, hk.recognized, .cons ?_ hk.opened⟩
    cases hc with
    | none | some => exact .statement ⟨rfl, rfl, rfl⟩
  cases hc with
  | none => exact .onOutput (fun _ => ⟨rfl, rfl⟩) (fun _ => ⟨rfl, rfl⟩) hrest
  | @some st st' _ => exact hrest st.start st'.start

theorem edit_parallel (e e' : Edit) :
    Parallel (Editor.edit e) (Editor.edit e') Eq :=
  .modifyOutput (fun o o' ho => ho.of_fork (o.fork_edit e) (o'.fork_edit e'))
    fun _ o ho => ho.of_fork (o.fork_edit e)

theorem closePart_parallel {st st' : Statement} (hst : st.Alike st') :
    Parallel (closePart st) (closePart st') Statement.Alike := by
  refine (edit_parallel _ _).same fun _ => .onOutput (fun _ => ⟨rfl, rfl⟩) (fun _ => ⟨rfl, rfl⟩) fun _ _ => .pure ?_
  exact ⟨hst.keyword, hst.span, hst.inline⟩

/-- The tracker, the host, and what a brace has closed. -/
structure CloseAlike (r r' : Tracker × H × Closed) : Prop where
  tracker : r.1.Alike r'.1
  host : Paired.Alike r.2.1 r'.2.1
  closed : r.2.2.Alike r'.2.2

theorem close_parallel (hk : k.Alike k') (h : Paired.Alike host host') (atLineBreak : Bool) :
    Parallel (close k host atLineBreak) (close k' host' atLineBreak) CloseAlike := by
  refine (boundary_parallel h).bind fun host host' h => ?_
  cases hopen : k.opened with
  | nil =>
    have hopen' : k'.opened = [] := forall₂_nil_left_iff.mp (hopen ▸ hk.opened)
    rw [hopen']
    exact .pure ⟨hk, h, .stray⟩
  | cons first opened =>
    obtain ⟨first', opened', hfirst, hopened, hopen'⟩ :=
      forall₂_cons_left_iff.mp (hopen ▸ hk.opened)
    have hk1 : Tracker.Alike { k with opened } { k' with opened := opened' } :=
      ⟨hk.regionStart, hk.recognized, hopened⟩
    rw [hopen']
    cases hfirst with
    | block id id' span => exact .pure ⟨hk1, h, .block id id'⟩
    | statement hst =>
      refine (closePart_parallel hst).bind fun st st' hst => ?_
      have h1 : Paired.Alike (if atLineBreak then pushText host "\n" else host)
          (if atLineBreak then pushText host' "\n" else host') := by
        split
        · exact pushText_alike h _
        · exact h
      refine .after fun c => ?_
      rw [hst.keyword]
      dsimp only
      split
      next keyword _ =>
        refine .after fun blanks => ?_
        refine (openPart_parallel hk1 (pushText_alike h1 _) keyword (.some trivial)).bind ?_
        rintro ⟨k, host⟩ ⟨k', host'⟩ ⟨hk, h⟩
        exact .pure ⟨hk, h, .statement⟩
      · exact .pure ⟨⟨hk.regionStart, hk.recognized, hopened⟩, h1, .statement⟩

theorem keyword?_parallel (hk : k.Alike k') (h : Paired.Alike host host') :
    Parallel (keyword? k host) (keyword? k' host') (Option.Rel PairAlike) := by
  refine .after fun c => ?_
  have hline : ∀ index, k'.atLineStart index = k.atLineStart index := fun index => by
    unfold atLineStart
    rw [hk.regionStart]
  extract_lets at_ recognized recognized'
  have hrecognized : recognized.Alike recognized' :=
    ⟨hk.regionStart, congrArg (· + 1) hk.recognized, hk.opened⟩
  rw [escaped_eq h]
  split
  · exact .pure .none
  next word form _ =>
    extract_lets rest rest'
    have hrest : ∀ kept, Parallel (rest kept) (rest' kept) (Option.Rel PairAlike) := by
      intro kept
      unfold rest rest'
      rw [hline]
      split
      · refine .after fun _ => .pure (.some ⟨hk, ?_⟩)
        exact unescape_alike h _
      refine .after fun atStart => ?_
      split
      · exact .pure .none
      split
      next closing _ =>
        refine (declaration_parallel h word closing).bind fun host host' h => ?_
        exact .pure (.some ⟨hrecognized, h⟩)
      next keyword _ =>
        split
        · refine (openPart_parallel hrecognized h keyword .none).bind fun r r' hr => ?_
          exact .pure (.some hr)
        · exact .pure .none
    rw [hline]
    split
    · exact .after hrest
    · exact .after hrest

/-- The tracker, the host, and what a brace has closed, if there was one. -/
structure StepAlike (r r' : Tracker × H × Option Closed) : Prop where
  tracker : r.1.Alike r'.1
  host : Paired.Alike r.2.1 r'.2.1
  closed : Option.Rel Closed.Alike r.2.2 r'.2.2

theorem warnStray_parallel (inText : Bool) (at_ : Nat) {closed closed' : Option Closed}
    (h : Option.Rel Closed.Alike closed closed') :
    Parallel (warnStray inText at_ closed) (warnStray inText at_ closed') Eq := by
  cases h with
  | none => exact .pure rfl
  | some h =>
    cases h with
    | statement | block => exact .pure rfl
    | stray =>
      refine .get fun s s' hs => ?_
      obtain ⟨dialect, hsettings⟩ := hs.settings
      rw [show s'.settings.warnFallbacks = s.settings.warnFallbacks by rw [hsettings]]
      split
      · exact .warn _ _
      · exact .pure rfl

variable (hk : k.Alike k')
include hk

theorem inlineOpen_eq : k'.inlineOpen = k.inlineOpen := by
  have hopened := hk.opened
  unfold inlineOpen
  generalize k.opened = opened, k'.opened = opened' at hopened ⊢
  cases hopened with
  | nil => rfl
  | cons hopen _ =>
    cases hopen with
    | statement hst => exact hst.inline
    | block => rfl

theorem breakpoints_eq : k'.breakpoints = k.breakpoints := by
  unfold breakpoints
  rw [inlineOpen_eq hk]

theorem handles_eq (c : Char) : k'.handles c = k.handles c := by
  rw [handles, handles, breakpoints_eq hk]

theorem dispatch_parallel (h : Paired.Alike host host') (c : Char) :
    Parallel (dispatch k host c) (dispatch k' host' c) StepAlike := by
  unfold dispatch
  rw [escaped_eq h, isEmpty_eq_of_forall₂ hk.opened, inlineOpen_eq hk]
  split
  · refine .after fun _ => ?_
    split
    · exact .pure ⟨hk, unescape_alike h _, .none⟩
    split
    · exact .pure ⟨hk, pushText_alike h _, .some .stray⟩
    refine (close_parallel hk h false).bind fun r r' hr => ?_
    exact .pure ⟨hr.tracker, hr.host, .some hr.closed⟩
  · split
    · refine .after fun _ => ?_
      split
      · refine (close_parallel hk h true).bind fun r r' hr => ?_
        exact .pure ⟨hr.tracker, hr.host, .none⟩
      · exact .pure ⟨hk, pushText_alike h _, .none⟩
    · refine (keyword?_parallel hk h).bind fun r r' hr => ?_
      cases hr with
      | none =>
        refine .after fun _ => .pure ⟨hk, ?_, .none⟩
        exact pushText_alike h _
      | some hr => exact .pure ⟨hr.1, hr.2, .none⟩

theorem openBlock?_eq : k'.openBlock? = k.openBlock? := by
  have hopened := rel_reverse hk.opened
  unfold openBlock?
  generalize k.opened.reverse = opened, k'.opened.reverse = opened' at hopened ⊢
  induction hopened with
  | nil => rfl
  | cons hopen _ ih =>
    cases hopen with
    | statement hst => exact ih
    | block => rfl

/-- At the end of a region the same block is open on both sides, or none is. -/
theorem finish_parallel : Parallel k.finish k'.finish fun _ _ => True := by
  intro names s s' hs hn
  have hblock := openBlock?_eq hk
  cases hopen : k.openBlock? with
  | some span =>
    unfold finish
    rw [hblock, hopen]
    exact .error _
  | none =>
    have hfork : ∀ (o : Output) (es : List Edit), (o.editAll es).fork = o.fork := fun o es => by
      rw [Output.editAll_eq]
      rfl
    rw [finish_eq hopen, finish_eq (hblock.trans hopen)]
    refine .ok trivial ⟨hs.cursor, hs.warnings, hs.settings, ?_⟩ (hn.of_fork (hfork _ _))
    exact hs.output.of_fork (hfork _ _) (hfork _ _)

/-- The same statements have not been closed. -/
theorem map_snd_waiting_eq : k'.waiting.map Prod.snd = k.waiting.map Prod.snd := by
  have hopened := rel_reverse hk.opened
  unfold waiting openStatements
  generalize k.opened.reverse = opened, k'.opened.reverse = opened' at hopened ⊢
  induction hopened with
  | nil => rfl
  | cons hopen _ ih =>
    cases hopen with
    | statement hst =>
      have hfault : ∀ {st st' : Statement}, st.Alike st' → st'.waiting.2 = st.waiting.2 := by
        intro st st' hst
        unfold Statement.waiting Statement.unclosed
        rw [hst.keyword, hst.span]
      simp only [filterMap_cons, Open.statement?, map_cons, ih, hfault hst]
    | block => exact ih

end Tracker

end Patchwork
