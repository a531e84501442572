import Patchwork.Proofs.Bearing
import Patchwork.Proofs.StyleCalls
import Patchwork.Proofs.Turns

/-!
# Folding

A stylesheet that needs nothing when the generated code runs is rendered at compile time, from a
sheet that its region builds beside the code (`Stylesheet.folds`). The code itself is then dropped,
so the two are never compared when a document is compiled.

Here they are compared. `Builds` says that a region has written the entries of a log, and that its
sheet is the one that the calls of the log build, with the scope of every open block in the variable
of that block. Each statement without expressions keeps this (`Builds.call`, `Builds.select`), and so
do the steps of a region as long as it is plain (`step_steady`, `read_steady`). A region begins with
nothing built (`Begun.steady`), and when it folds, the sheet takes the place of its code and of
nothing else (`Builds.finish`).
-/

namespace Patchwork

open Compile List Output Piece StyleStatement Style

namespace Output

/-- Text has been added to the output, and perhaps some variables have been given out. -/
structure Grew (o : Output) (t : Text) (o' : Output) : Prop where
  same : o' = { o.add t with nextVar := o'.nextVar }
  vars : o.nextVar ≤ o'.nextVar

theorem add_nextVar (o : Output) (n : Nat) (t : Text) :
    ({ o with nextVar := n } : Output).add t = { o.add t with nextVar := n } := by
  unfold add
  dsimp only
  split
  · rfl
  · split <;> rfl

namespace Grew

variable {o o' o'' : Output} {t u : Text}

theorem refl (o : Output) : o.Grew [] o := ⟨rfl, Nat.le_refl _⟩

theorem add (o : Output) (t : Text) : o.Grew t (o.add t) := by
  have hvar : (o.add t).nextVar = o.nextVar := congrArg (·.nextVar) (o.fork_add t)
  exact ⟨rfl, Nat.le_of_eq hvar.symm⟩

theorem trans (h : o.Grew t o') (h' : o'.Grew u o'') : o.Grew (t ++ u) o'' := by
  refine ⟨?_, Nat.le_trans h.vars h'.vars⟩
  have hadd : o'.add u = { o.add (t ++ u) with nextVar := o'.nextVar } := by
    conv_lhs => rw [h.same]
    rw [add_nextVar, add_add]
  conv_lhs => rw [h'.same, hadd]

theorem fork (h : o.Grew t o') : o'.fork = { o.fork with nextVar := o'.nextVar } := by
  have hfork : (o.add t).fork = o.fork := o.fork_add t
  conv_lhs => rw [h.same]
  rw [← hfork]
  rfl

theorem dialect (h : o.Grew t o') : o'.dialect = o.dialect := congrArg (·.dialect) h.fork

theorem names (h : o.Grew t o') : o'.names = o.names := congrArg (·.names) h.fork

theorem context (h : o.Grew t o') : o'.context = o.context := by
  show o'.fork.context = o.fork.context
  rw [h.fork]
  rfl

theorem nodes (h : o.Grew t o') : o'.nodes = (o.add t).nodes := by
  rw [h.same]

end Grew
end Output

namespace Style

theorem stringCode_congr {o o' : Output} (hd : o'.dialect = o.dialect) (texts : List Text) :
    stringCode o' texts = stringCode o texts := by
  rw [stringCode, stringCode, Stylesheet.plain, Stylesheet.plain, hd]

theorem Call.code_congr {o o' : Output} (hd : o'.dialect = o.dialect) (hn : o'.names = o.names)
    (c : Call) : c.code o' = c.code o := by
  cases c with
  | select var receiver selector =>
    simp only [code, stringCode_congr hd, Output.declare, hd]
  | state receiver statement => simp only [code, stringCode_congr hd]
  | declare receiver key value =>
    simp only [code, stringCode_congr hd]
    cases value with
    | written texts => simp only [CallValue.code, stringCode_congr hd]
    | computed formula => simp only [CallValue.code, Output.feature, Output.arrow, hd, hn]

end Style

namespace Stylesheet

open Style (Entry Call CallValue Replay logCode calls replay?)

/-- From where it began, a region has written the entries of a log, and built a sheet beside them:
the one that the calls of the log build, as long as it folds. -/
structure Builds (r0 : Stylesheet) (s0 : Session) (log : List Entry) (r : Stylesheet) (s : Session) :
    Prop where
  grew : s0.output.Grew (logCode s0.output log) s.output
  settings : s.settings = s0.settings
  copied : ∀ p, .copied p ∈ log → p.isBlank = true
  mark : r.mark = r0.mark
  root : r.root = r0.root
  folds : r.folds = (calls log).all Call.known
  replayed : r.folds = true → ∃ scopes,
    replay? (.start r0.root.var r0.selector) (calls log) = some ⟨r.sheet, scopes⟩ ∧
    (∀ block ∈ r.root :: r.blocks, scopes.lookup block.var = some block.scope) ∧
    ∀ v ∈ scopes.map Prod.fst, ∃ m < s.output.nextVar, v = "__s" ++ Text.ofNat m

variable {r0 r r' : Stylesheet} {s0 s s' : Session} {log : List Entry}

/-- Reading on in the document, taking in text and closing blocks builds nothing. -/
theorem Builds.congr (h : Builds r0 s0 log r s) (ho : s'.output = s.output)
    (hs : s'.settings = s.settings) (hmark : r'.mark = r.mark) (hroot : r'.root = r.root)
    (hfolds : r'.folds = r.folds) (hsheet : r'.sheet = r.sheet)
    (hblocks : ∀ block ∈ r'.blocks, block ∈ r.blocks) : Builds r0 s0 log r' s' where
  grew := ho ▸ h.grew
  settings := hs.trans h.settings
  copied := h.copied
  mark := hmark.trans h.mark
  root := hroot.trans h.root
  folds := hfolds.trans h.folds
  replayed hr' := by
    obtain ⟨scopes, hreplay, hheld, hvars⟩ := h.replayed (hfolds ▸ hr')
    rw [hsheet, hroot, ho]
    refine ⟨scopes, hreplay, fun block hblock => hheld block ?_, hvars⟩
    exact mem_cons.mpr ((mem_cons.mp hblock).imp_right (hblocks block))

theorem Builds.text (h : Builds r0 s0 log r s) (ho : s'.output = s.output)
    (hs : s'.settings = s.settings) (buffer : StyleBuffer) :
    Builds r0 s0 log { r with buffer } s' :=
  h.congr ho hs rfl rfl rfl rfl fun _ => id

/-- Blanks and comments are copied. -/
theorem Builds.copy (h : Builds r0 s0 log r s) {ps : List Piece}
    (hps : ∀ p ∈ ps, p.isBlank = true) :
    Builds r0 s0 (log ++ ps.map .copied) r
      { s with output := s.output.add (ps.flatMap StyleBuffer.blankPiece) } where
  grew := by
    rw [logCode_append, logCode_copied]
    exact h.grew.trans (.add _ _)
  settings := h.settings
  copied p hp := by
    rcases mem_append.mp hp with hp | hp
    · exact h.copied p hp
    · obtain ⟨q, hq, heq⟩ := mem_map.mp hp
      exact Entry.copied.inj heq ▸ hps q hq
  mark := h.mark
  root := h.root
  folds := by
    rw [calls_append, calls_copied, append_nil]
    exact h.folds
  replayed hfolds := by
    rw [calls_append, calls_copied, append_nil]
    obtain ⟨scopes, hreplay, hblocks, hvars⟩ := h.replayed hfolds
    refine ⟨scopes, hreplay, hblocks, fun v hv => ?_⟩
    obtain ⟨m, hm, rfl⟩ := hvars v hv
    exact ⟨m, Nat.lt_of_lt_of_le hm (Output.Grew.add _ _).vars, rfl⟩

/-- The innermost scope is held by its variable. -/
theorem current_mem (r : Stylesheet) : r.current ∈ r.root :: r.blocks := by
  unfold current
  cases r.blocks with
  | nil => exact mem_cons_self
  | cons block blocks => exact mem_cons_of_mem _ mem_cons_self

/-- A call that opens no scope is written, and carried out if its value is known. -/
theorem Builds.call (h : Builds r0 s0 log r s) (c : Call) (sheet : Style.Sheet)
    (hcall : r.folds = true → c.known = true → ∀ scopes,
      scopes.lookup r.current.var = some r.current.scope →
        c.replay? ⟨r.sheet, scopes⟩ = some ⟨sheet, scopes⟩) :
    Builds r0 s0 (log ++ [.call c]) { r with sheet, folds := r.folds && c.known }
      { s with output := s.output.add (c.code s.output) } where
  grew := by
    rw [logCode_append, Style.Call.code_congr h.grew.dialect h.grew.names]
    refine h.grew.trans ?_
    rw [show logCode s0.output [.call c] = c.code s0.output from append_nil _]
    exact .add _ _
  settings := h.settings
  copied p hp := by
    rcases mem_append.mp hp with hp | hp
    · exact h.copied p hp
    · cases mem_singleton.mp hp
  mark := h.mark
  root := h.root
  folds := by
    rw [calls_append, all_append, ← h.folds]
    exact congrArg (r.folds && ·) (Bool.and_true _).symm
  replayed hfolds := by
    obtain ⟨hfolds, hknown⟩ := Bool.and_eq_true_iff.mp hfolds
    obtain ⟨scopes, hreplay, hblocks, hvars⟩ := h.replayed hfolds
    refine ⟨scopes, ?_, hblocks, fun v hv => ?_⟩
    · rw [calls_append]
      refine (replay?_concat hreplay c).trans ?_
      exact hcall hfolds hknown scopes (hblocks _ r.current_mem)
    · obtain ⟨m, hm, rfl⟩ := hvars v hv
      exact ⟨m, Nat.lt_of_lt_of_le hm (Output.Grew.add _ _).vars, rfl⟩

/-- Variables with different numbers are different. -/
theorem freshVar_inj {m n : Nat} (h : ("__s" : Text) ++ Text.ofNat m = "__s" ++ Text.ofNat n) :
    m = n := by
  have hdigits := append_cancel_left h
  rw [← Nat.ofDigitChars_toDigits (b := 10) (n := m) (by decide) (by decide),
    ← Nat.ofDigitChars_toDigits (b := 10) (n := n) (by decide) (by decide)]
  exact congrArg (Nat.ofDigitChars 10 · 0) hdigits

/-- A selector opens a scope, which a new variable holds. -/
theorem Builds.select (h : Builds r0 s0 log r s) {var : Text} (selector : List Text)
    {opened : Style.Sheet × Style.Scope} (statements : Tracker)
    (hvar : var = "__s" ++ Text.ofNat s.output.nextVar)
    (hopened : r.folds = true → opened = r.sheet.select r.current.scope selector.flatten)
    (ho : s'.output = ({ s.output with nextVar := s.output.nextVar + 1 } : Output).add
      (Call.code s.output (.select var r.current.var selector)))
    (hs : s'.settings = s.settings) :
    Builds r0 s0 (log ++ [.call (.select var r.current.var selector)])
      { r with sheet := opened.1, blocks := ⟨var, opened.2⟩ :: r.blocks, statements } s' where
  grew := by
    rw [ho, logCode_append, Style.Call.code_congr h.grew.dialect h.grew.names]
    refine h.grew.trans ?_
    rw [show ∀ c, logCode s0.output [.call c] = c.code s0.output from fun _ => append_nil _]
    have hfresh : s.output.Grew [] { s.output with nextVar := s.output.nextVar + 1 } :=
      ⟨rfl, Nat.le_succ _⟩
    exact hfresh.trans (.add _ _)
  settings := hs.trans h.settings
  copied p hp := by
    rcases mem_append.mp hp with hp | hp
    · exact h.copied p hp
    · cases mem_singleton.mp hp
  mark := h.mark
  root := h.root
  folds := by
    rw [calls_append, all_append, ← h.folds]
    exact (Bool.and_true _).symm
  replayed hfolds := by
    obtain ⟨scopes, hreplay, hheld, hvars⟩ := h.replayed hfolds
    have hcurrent := hheld _ r.current_mem
    have hnext : s'.output.nextVar = s.output.nextVar + 1 := by
      rw [ho]
      exact congrArg (·.nextVar) (fork_add _ _)
    refine ⟨(var, opened.2) :: scopes, ?_, ?_, ?_⟩
    · rw [calls_append]
      refine (replay?_concat hreplay _).trans ?_
      rw [hopened hfolds]
      simp only [Call.replay?, hcurrent]
      rfl
    · -- the new variable hides none of those that hold open scopes
      have hother : ∀ block ∈ r.root :: r.blocks,
          ((var, opened.2) :: scopes).lookup block.var = some block.scope := by
        intro block hblock
        have hheld := hheld block hblock
        have hne : block.var ≠ var := by
          have hmem : block.var ∈ scopes.map Prod.fst := by
            obtain ⟨front, back, rfl, -⟩ := lookup_eq_some_iff.mp hheld
            simp
          obtain ⟨m, hm, hblockVar⟩ := hvars _ hmem
          rw [hblockVar, hvar]
          exact fun heq => absurd (freshVar_inj heq) (Nat.ne_of_lt hm)
        rw [lookup_cons, beq_false_of_ne hne]
        exact hheld
      intro block hblock
      rcases mem_cons.mp hblock with rfl | hblock
      · exact hother _ mem_cons_self
      · rcases mem_cons.mp hblock with rfl | hblock
        · exact lookup_cons_self
        · exact hother _ (mem_cons_of_mem _ hblock)
    · rw [hnext]
      intro v hv
      rcases mem_cons.mp hv with rfl | hv
      · exact ⟨s.output.nextVar, Nat.lt_succ_self _, hvar⟩
      · obtain ⟨m, hm, rfl⟩ := hvars v hv
        exact ⟨m, Nat.lt_succ_of_lt hm, rfl⟩

/-- A region has written entries since it began, and built its sheet from them. -/
def Built (r0 : Stylesheet) (s0 : Session) (r : Stylesheet) (s : Session) : Prop :=
  ∃ log, Builds r0 s0 log r s

/-! ## Statements -/

theorem joined_agree (texts : List Text) (s : Session) :
    Gives (joined (texts.map .text)) s fun source s' =>
      Style.stringCode s.output texts = source ∧ s = s' :=
  .of_eq (joined_eq _ s) ⟨rfl, rfl⟩

theorem declarationValue_call (texts : List Text) (span : Span) (s : Session) :
    Gives (declarationValue (texts.map .text) span) s
      fun p s' => ∃ value : CallValue, p = (value.code s.output, value.text?) ∧ s = s' := by
  unfold declarationValue
  split
  next formula _ =>
    refine .output ?_
    split
    · exact .fail ..
    · exact .fail ..
    next result _ hresult =>
      refine .pure ⟨.computed formula, ?_, rfl⟩
      rw [CallValue.text?, hresult]
      rfl
  · refine (joined_agree texts s).bind ?_
    rintro _ _ ⟨rfl, rfl⟩
    rw [staticText?_map_text]
    exact .pure ⟨.written texts, rfl, rfl⟩

theorem writeDeclaration_built (h : Built r0 s0 r s) (key value : List Text) (span : Span) :
    Gives (r.writeDeclaration (key.map .text) (value.map .text) span) s fun r' s' =>
        Built r0 s0 r' s' ∧ r'.buffer = r.buffer ∧ r'.statements = r.statements := by
  obtain ⟨log, h⟩ := h
  refine (joined_agree key s).bind ?_
  rintro _ _ ⟨rfl, rfl⟩
  refine (declarationValue_call value span s).bind ?_
  rintro _ _ ⟨value, rfl, rfl⟩
  rw [staticText?_map_text]
  -- the call is carried out if its value is known, and as long as the region folds
  have hbuilt := fun sheet => h.call (.declare r.current.var key value) sheet
  refine .emit ?_
  cases htext : value.text? with
  | none =>
    have hknown : (Call.declare r.current.var key value).known = false := by
      rw [Call.known, htext]
      rfl
    have hbuilt := hbuilt r.sheet fun _ hcall => absurd (hknown ▸ hcall) Bool.false_ne_true
    rw [hknown, Bool.and_false] at hbuilt
    exact .pure ⟨⟨_, hbuilt⟩, rfl, rfl⟩
  | some text =>
    have hknown : (Call.declare r.current.var key value).known = true := by
      rw [Call.known, htext]
      rfl
    dsimp only
    split
    next hfolds =>
      have hbuilt := hbuilt (r.sheet.value r.current.scope key.flatten text) fun _ _ scopes hscope => by
        simp only [Call.replay?, hscope, htext]
        rfl
      rw [hknown, Bool.and_true] at hbuilt
      exact .pure ⟨⟨_, hbuilt⟩, rfl, rfl⟩
    next hfolds =>
      have hbuilt := hbuilt r.sheet fun hf => absurd hf hfolds
      rw [hknown, Bool.and_true] at hbuilt
      exact .pure ⟨⟨_, hbuilt⟩, rfl, rfl⟩

theorem writeStatement_built (h : Built r0 s0 r s) (body : List Text) :
    Gives (r.writeStatement (body.map .text)) s fun r' s' =>
      Built r0 s0 r' s' ∧ r'.buffer = r.buffer ∧ r'.statements = r.statements := by
  obtain ⟨log, h⟩ := h
  refine (joined_agree body s).bind ?_
  rintro _ _ ⟨rfl, rfl⟩
  refine .emit ?_
  rw [staticText?_map_text]
  dsimp only
  split
  next hfolds =>
    have hbuilt := h.call (.state r.current.var body) (r.sheet.stat body.flatten)
      fun _ _ scopes hscope => by
        simp only [Call.replay?, hscope]
        rfl
    rw [Call.known, Bool.and_true] at hbuilt
    exact .pure ⟨⟨_, hbuilt⟩, rfl, rfl⟩
  next hfolds =>
    have hbuilt := h.call (.state r.current.var body) r.sheet fun hf => absurd hf hfolds
    rw [Call.known, Bool.and_true] at hbuilt
    exact .pure ⟨⟨_, hbuilt⟩, rfl, rfl⟩

/-- Taking a statement copies blanks and comments, and leaves its texts. -/
theorem takeStatement_built (h : Built r0 s0 r s) (hstatic : r.buffer.isStatic = true) :
    Gives r.takeStatement s fun taken s' =>
      ∃ (body : List Text) (start : Option Nat),
        taken = ({ r with buffer := {} }, body.map .text, start) ∧
        Built r0 s0 { r with buffer := {} } s' := by
  obtain ⟨log, h⟩ := h
  have hps : ∀ p ∈ r.buffer.pieces.pieces, p.isExpr = false := fun p hp => by
    have hp := all_eq_true.mp hstatic p (mem_reverse.mp hp)
    simpa using hp
  obtain ⟨body, hbody⟩ := (allText_split hps).exists_map
  have h := (h.copy (isBlank_copiedPieces r.buffer.pieces.pieces)).text rfl rfl {}
  rw [flatMap_copiedPieces] at h
  exact .of_eq (takeStatement_eq r s) ⟨body, r.buffer.start, by rw [hbody], _, h⟩

theorem endStatement_built (h : Built r0 s0 r s) (hstatic : r.buffer.isStatic = true) (stop : Nat) :
    Gives (r.endStatement stop) s fun r' s' =>
      Built r0 s0 r' s' ∧ r'.buffer = {} ∧ r'.statements = r.statements := by
  refine (takeStatement_built h hstatic).bind ?_
  rintro _ s1 ⟨body, start, rfl, h1⟩
  dsimp only
  split
  · exact .pure ⟨h1, rfl, rfl⟩
  have hbody : StyleStatement.AllText (body.map .text) := fun p hp => by
    obtain ⟨t, -, rfl⟩ := mem_map.mp hp
    exact ⟨t, rfl⟩
  rw [hbody.spread?]
  split
  next heq => cases heq
  next key value _ hdecl =>
    obtain ⟨hkey, hvalue⟩ := allText_splitAtColon hbody
      (fun _ h => absurd h not_mem_nil) (declaration?_eq hdecl)
    obtain ⟨key, rfl⟩ := hkey.exists_map
    obtain ⟨value, rfl⟩ := hvalue.exists_map
    exact writeDeclaration_built h1 key value _
  · exact writeStatement_built h1 body

theorem openBlock_built (h : Built r0 s0 r s) (hstatic : r.buffer.isStatic = true) (at_ : Nat) :
    Gives (r.openBlock at_) s fun r' s' =>
      Built r0 s0 r' s' ∧ r'.buffer = {} ∧
      ∃ id span, r'.statements = r.statements.pushBlock id span := by
  refine (takeStatement_built h hstatic).bind ?_
  rintro _ s1 ⟨body, start, rfl, log, h1⟩
  refine .output ?_
  split
  · exact .fail ..
  next selector hselector =>
    have hcode : Style.stringCode s1.output body = selector := by
      rw [Style.stringCode, plain, hselector]
      rfl
    rw [staticText?_map_text]
    refine (Agree.of_eq (P := fun var s' => var = "__s" ++ Text.ofNat s1.output.nextVar ∧
      s' = { s1 with output := { s1.output with nextVar := s1.output.nextVar + 1 } })
      rfl ⟨rfl, rfl⟩).bind ?_
    rintro _ _ ⟨rfl, rfl⟩
    refine .emit ?_
    refine .pure ⟨⟨_, h1.select body _ rfl (fun hfolds => ?_) ?_ rfl⟩, rfl, _, _, rfl⟩
    · exact if_pos hfolds
    · rw [← hcode]
      rfl

end Stylesheet

/-! ## Reading on without statements -/

/-- Blanks and comments have been copied to the output. -/
def Session.Copied (s s' : Session) : Prop :=
  ∃ ps : List Piece, (∀ p ∈ ps, p.isBlank = true) ∧
    s'.written = (s.output.add (ps.flatMap StyleBuffer.blankPiece), s.settings)

theorem Session.Copied.of_written {s s' : Session} (h : s'.written = s.written) : s.Copied s' :=
  ⟨[], nofun, h⟩

theorem Session.Copied.after {s s1 s' : Session} (h : s1.Copied s') (h1 : s1.written = s.written) :
    s.Copied s' := by
  obtain ⟨ps, hps, hwritten⟩ := h
  obtain ⟨ho, hs⟩ := Prod.mk.inj h1
  exact ⟨ps, hps, by rw [hwritten, ho, hs]⟩

namespace Tracker

theorem statements_cons_block (k : Tracker) (id : Nat) (span : Span) (opened : List Open) :
    statements { k with opened := .block id span :: opened } = statements { k with opened } := by
  rw [statements, openStatements_cons_block]
  rfl

variable {k : Tracker} {b : StyleBuffer} {s : Session} [Expansion]

variable [Editor]

theorem close_copies (hk : k.statements = []) (b : StyleBuffer) (atLineBreak : Bool) :
    Gives (k.close b atLineBreak) s fun p s' => p.1.statements = [] ∧ s.Copied s' := by
  obtain ⟨regionStart, wraps, opened, closed, recognized⟩ := k
  refine (b.boundary_copies s).bind ?_
  rintro _ _ ⟨rfl, hblank, rfl⟩
  have hcopied : s.Copied { s with output := s.output.add b.copy } := by
    refine ⟨b.pieces.pieces, fun p hp => ?_, rfl⟩
    exact all_eq_true.mp hblank p (mem_reverse.mp hp)
  cases opened with
  | nil => exact .pure ⟨hk, hcopied⟩
  | cons innermost opened =>
    cases innermost with
    | block id span =>
      refine .pure ⟨?_, hcopied⟩
      rw [← statements_cons_block _ id span]
      exact hk
    | statement st =>
      have hopen := openStatements_cons_statement ⟨regionStart, wraps, [], closed, recognized⟩ st
        opened
      rw [(append_eq_nil_iff.mp hk).1] at hopen
      exact absurd hopen.symm (append_ne_nil_of_right_ne_nil _ (cons_ne_nil _ _))

/-- Without statements and as long as no keyword counts, only a brace writes something: it
closes a block, and the blanks and comments before it are copied. -/
theorem Turn.copies {c : Char} {p : Tracker × StyleBuffer × Option Closed} {s' : Session}
    (h : k.Turn b c s p s') (hk : k.statements = []) (hsame : p.1.recognized = k.recognized) :
    p.1.statements = [] ∧ s.Copied s' := by
  have hmore : ∀ {n}, n = k.recognized + 1 → n = k.recognized → False := by omega
  cases h with
  | text read | unescaped read => exact ⟨hk, .of_written (View.same _ read)⟩
  | closes read _ h =>
    obtain ⟨hp, hcopied⟩ := (close_copies hk b _).result _ _ h
    exact ⟨hp, hcopied.after (View.same _ read)⟩
  | declares => exact absurd hsame (hmore rfl)
  | begins _ _ _ h =>
    obtain ⟨st, -, hp, -⟩ := (openPart_opens _ b _ none _).result _ _ h
    exact absurd hsame (hmore (congrArg recognized hp))

end Tracker

namespace Stylesheet

variable {r0 r : Stylesheet} {s0 s s' : Session}

/-- No expression is being read, and no statement has been recognized. -/
def isPlain (r : Stylesheet) : Bool :=
  r.buffer.isStatic && r.statements.recognized == 0

theorem isPlain_iff :
    r.isPlain = true ↔ r.buffer.isStatic = true ∧ r.statements.recognized = 0 := by
  rw [isPlain, Bool.and_eq_true, beq_iff_eq]

/-- A region has built its sheet from what it has written, and it has no statements. -/
structure Steady (r0 : Stylesheet) (s0 : Session) (r : Stylesheet) (s : Session) : Prop where
  built : Built r0 s0 r s
  statements : r.statements.statements = []

section

variable (h : Steady r0 s0 r s)
include h

theorem Steady.text (hw : s'.written = s.written) (buffer : StyleBuffer) :
    Steady r0 s0 { r with buffer } s' := by
  obtain ⟨⟨log, h⟩, hk⟩ := h
  obtain ⟨ho, hs⟩ := Prod.mk.inj hw
  exact ⟨⟨log, h.text ho hs buffer⟩, hk⟩

theorem endStatement_steady (hstatic : r.buffer.isStatic = true) (stop : Nat) :
    Gives (r.endStatement stop) s fun r' s' =>
      Steady r0 s0 r' s' ∧ r'.buffer = {} ∧ r'.statements = r.statements :=
  (endStatement_built h.built hstatic stop).mono fun _ _ ⟨hbuilt, hbuffer, hk⟩ =>
    ⟨⟨hbuilt, hk ▸ h.statements⟩, hbuffer, hk⟩

theorem openBlock_steady (hstatic : r.buffer.isStatic = true) (at_ : Nat) :
    Gives (r.openBlock at_) s fun r' s' => Steady r0 s0 r' s' := by
  refine (openBlock_built h.built hstatic at_).mono fun r' s' ⟨hbuilt, _, id, span, hk⟩ => ⟨hbuilt, ?_⟩
  rw [hk, Tracker.pushBlock, Tracker.statements_cons_block]
  exact h.statements

theorem character_steady (hstatic : r.buffer.isStatic = true) (c : Char) (at_ : Nat) :
    Gives (r.character c at_) s fun p s' => p.1.isPlain = true → Steady r0 s0 p.1 s' := by
  refine (r.character_turn c at_ s).mono fun p s' hp hplain => ?_
  have hread : ∀ {s1}, s.Steps [.read] s1 → Steady r0 s0 r s1 := fun read =>
    h.text (View.same _ read) r.buffer
  cases hp with
  | string _ h1 => exact h.text (Keeps.same Session.written h1) _
  | closing _ read => exact h.text (Keeps.same Session.written read) r.buffer
  | text read | comment read | line read => exact h.text (View.same _ read) _
  | expr => exact absurd (isPlain_iff.mp hplain).1 Bool.false_ne_true
  | block _ read h1 => exact (openBlock_steady (hread read) hstatic at_).result _ _ h1
  | ends _ read h1 => exact ((endStatement_steady (hread read) hstatic _).result _ _ h1).1

theorem trackStatement_steady (hnone : r.statements.recognized = 0) (c : Char) (at_ : Nat) :
    Gives (r.trackStatement c at_) s fun r' s' => r'.isPlain = true → Steady r0 s0 r' s' := by
  obtain ⟨⟨log, hbuilds⟩, hk⟩ := h
  refine (r.trackStatement_turn c at_ s).mono ?_
  rintro _ s' ⟨k, b, closed, s1, hdispatch, hread, start, rfl⟩ hplain
  have hturn := (r.statements.dispatch_turn r.buffer c s).result _ _ hdispatch
  have hsame : k.recognized = r.statements.recognized := (isPlain_iff.mp hplain).2.trans hnone.symm
  obtain ⟨hk, ps, hps, hcopied⟩ := hturn.copies hk hsame
  obtain ⟨ho, hs⟩ := Prod.mk.inj ((View.same Session.written hread).trans hcopied)
  have hfolds : (r.folds && k.recognized == r.statements.recognized) = r.folds := by
    rw [beq_iff_eq.mpr hsame, Bool.and_true]
  exact ⟨⟨_, (hbuilds.copy hps).congr ho hs rfl rfl hfolds rfl fun _ hb =>
    (r.remaining_suffix closed).subset hb⟩, hk⟩

theorem step_steady (hplain : r.isPlain = true) :
    Gives r.step s fun p s' => p.1.isPlain = true → Steady r0 s0 p.1 s' := by
  obtain ⟨hstatic, hnone⟩ := isPlain_iff.mp hplain
  refine (r.step_deals s).mono ?_
  rintro p s' ⟨found, start, s1, hfind, hdeals⟩ hplain'
  have hr1 : Steady r0 s0 (r.arrived found start) s1 := h.text (Keeps.same Session.written hfind) _
  have hstatic1 : (r.arrived found start).buffer.isStatic = true :=
    (StyleBuffer.isStatic_pushText r.buffer found.before).trans hstatic
  generalize found.matched = next at hdeals
  cases hdeals with
  | eof => exact hr1
  | tracks _ h2 => exact (trackStatement_steady hr1 hnone _ _).result _ _ h2 hplain'
  | ends h2 h3 =>
    obtain ⟨hr2, -, hk⟩ := (endStatement_steady hr1 hstatic1 _).result _ _ h2
    exact (trackStatement_steady hr2 (hk ▸ hnone) _ _).result _ _ h3 hplain'
  | leaves _ h2 => exact (character_steady hr1 hstatic1 _ _).result _ _ h2 hplain'

end

/-- As long as a region is plain, it builds its sheet from what it writes. -/
theorem read_steady {steps : Nat} {p : Stylesheet × Step} (h : Steady r0 s0 r s)
    (hplain : ∀ k ≤ steps, ∀ q s1, r.read k s = .ok (q, s1) → q.1.isPlain = true)
    (hread : r.read steps s = .ok (p, s')) : Steady r0 s0 p.1 s' := by
  induction steps generalizing r s with
  | zero =>
    cases hread
    exact h
  | succ steps ih =>
    obtain ⟨⟨r1, step⟩, s1, hstep, hread⟩ := bind_eq_ok.mp hread
    -- one step leads to a state of the run, which is plain
    have hone : r.read 1 s = .ok ((r1, step), s1) := by
      refine bind_of_ok hstep ?_
      cases step <;> rfl
    have h1 : Steady r0 s0 r1 s1 := by
      refine (step_steady h ?_).result _ _ hstep (hplain 1 (Nat.le_add_left _ _) _ _ hone)
      exact hplain 0 (Nat.zero_le _) _ _ rfl
    dsimp only at hread
    split at hread
    next hnext =>
      refine ih h1 (fun k hk q s2 hq => ?_) hread
      refine hplain (k + 1) (Nat.succ_le_succ hk) q s2 (bind_of_ok hstep ?_)
      dsimp only
      rw [if_pos hnext]
      exact hq
    · cases hread
      exact h1

end Stylesheet

/-! ## The begin and the end of a region -/

theorem Output.take_nodes_add {o : Output} {n : Nat} (hn : n < o.nodes.length) (t : Text) :
    (o.add t).nodes.take n = o.nodes.take n := by
  unfold add
  split
  · rfl
  split
  · have hle : n ≤ o.nodes.dropLast.length := by
      rw [length_dropLast]
      exact Nat.le_sub_one_of_lt hn
    rw [take_append_of_le_length hle, dropLast_eq_take, take_take,
      Nat.min_eq_left (Nat.le_sub_one_of_lt hn)]
  · exact take_append_of_le_length (Nat.le_of_lt hn)

theorem Output.nodes_mark_add (o : Output) (t : Text) :
    (o.mark.1.add t).nodes = o.nodes ++ [.text t] := by
  cases t with
  | nil => rfl
  | cons c t =>
    have hlast : o.mark.1.nodes.getLast? = some (.text []) := getLast?_concat
    rw [add, hlast]
    show (o.nodes ++ [_]).dropLast ++ [_] = _
    rw [dropLast_concat]
    rfl

theorem Tracker.finish_of_statements_eq_nil {k : Tracker} (hk : k.statements = []) (s : Session) :
    Gives k.finish s fun _ s' => s' = s := by
  have hclosed : k.closed = [] := (append_eq_nil_iff.mp hk).2
  unfold Tracker.finish
  split
  · exact .fail ..
  rw [hclosed]
  split
  · exact .pure rfl
  · exact .pure rfl

namespace Stylesheet

variable {r0 r : Stylesheet} {s0 s s' : Session} {log : List Style.Entry}

/-- The code of a region up to the function that builds the sheet. -/
def opening (o : Output) (attributes : Attributes) : Text :=
  let selector : Text :=
    match attributes.scope, attributes.ownScope with
    | some selector, _ => Text.quote selector
    | none, true => "true"
    | none, false => "null"
  o.feature "cabs" ++ '(' :: o.context ++ ", " ++ selector ++ ", "

theorem opening_congr {o o' : Output} (h : o'.fork = o.fork) (attributes : Attributes) :
    opening o' attributes = opening o attributes := by
  show opening o'.fork attributes = opening o.fork attributes
  rw [h]

def folded (o : Output) (css : Text) : Text :=
  o.feature "css" ++ '(' :: o.context ++ ", " ++ Text.quote css ++ ");"

/-- A region with some attributes has begun after some code, and nothing has been read in it. -/
structure Begun (attributes : Attributes) (front : Text) (r : Stylesheet) (s : Session) : Prop where
  before : (s.output.nodes.take r.mark).flatMap Node.content = front
  inside : r.mark < s.output.nodes.length
  code : s.output.finish = front ++ opening s.output attributes
  region : ∃ m < s.output.nextVar, ∃ at_ head,
    r = { created attributes m at_ with mark := r.mark, head := some head }

theorem Begun.steady {attributes : Attributes} {front : Text} (h : Begun attributes front r s)
    (hscope : attributes.ownScope = false) : Steady r s r s := by
  obtain ⟨m, hm, at_, head, hr⟩ := h.region
  rw [hr]
  refine ⟨⟨[], ?_⟩, rfl⟩
  exact {
    grew := .refl _
    settings := rfl
    copied := nofun
    mark := rfl
    root := rfl
    folds := congrArg not hscope
    replayed := fun _ => by
      refine ⟨_, rfl, fun block hblock => ?_, fun v hv => ?_⟩
      · rw [mem_singleton.mp hblock]
        exact lookup_cons_self
      · exact ⟨m, hm, mem_singleton.mp hv⟩ }

/-- The end of a region that folds puts the sheet in the place of the code of the region. -/
theorem Builds.finish (h : Builds r0 s0 log r s) (hk : r.statements.statements = [])
    (hmark : r0.mark < s0.output.nodes.length) (hfolds : r.folds = true) {cursor : Cursor}
    (hfinish : r.finish { s with cursor } = .ok ((), s')) :
    s'.output.finish = (s0.output.nodes.take r0.mark).flatMap Node.content ++
      folded s0.output (r.sheet.render s0.settings.layout) := by
  obtain ⟨b, s1, hflush, hfinish⟩ := bind_eq_ok.mp hfinish
  obtain ⟨rfl, -, rfl⟩ := (r.buffer.flush_copies _).result _ _ hflush
  obtain ⟨p, s2, htracker, hfinish⟩ := bind_eq_ok.mp hfinish
  obtain rfl := (Tracker.finish_of_statements_eq_nil hk _).result _ _ htracker
  rw [hfolds] at hfinish
  -- the flush is dropped with the rest, and what is left is what was before the region
  have hgrew := h.grew.trans (.add _ r.buffer.copy)
  have hnodes : (s.output.add r.buffer.copy).nodes.take r.mark = s0.output.nodes.take r0.mark := by
    rw [hgrew.nodes, h.mark, take_nodes_add hmark]
  cases hfinish
  refine (finish_add _ _).trans ?_
  rw [hnodes, hgrew.context, Output.feature, hgrew.names, h.settings]
  rfl

theorem start_begun (attributes : Attributes) {m : Nat} (hm : m < s.output.nextVar) (at_ : Nat) :
    Gives (created attributes m at_).start s fun r s' => Begun attributes s.output.finish r s' := by
  have hmark : Gives (onOutput Output.mark) s fun mark s1 =>
      s.output.nodes.length = mark ∧ { s with output := s.output.mark.1 } = s1 :=
    .of_eq rfl ⟨rfl, rfl⟩
  refine hmark.bind ?_
  rintro _ _ ⟨rfl, rfl⟩
  refine .output ?_
  refine .emit ?_
  refine Agree.bind (P := fun _ s3 => s3.output =
    (((s.output.mark).1.add (opening s.output attributes)).addSlot []).1) (.of_eq rfl rfl) ?_
  intro head s3 ho
  -- the opening joins the empty text of the mark, and the slot follows it
  have hnodes : s3.output.nodes =
      s.output.nodes ++ [.text (opening s.output attributes), .slot { value := some [] }] := by
    rw [ho]
    show (Output.add _ _).nodes ++ [_] = _
    rw [nodes_mark_add, append_assoc]
    rfl
  have hfork : s3.output.fork = s.output.fork := by
    rw [ho]
    exact fork_add _ _
  refine .pure ⟨?_, ?_, ?_, m, ?_, at_, head, rfl⟩
  · rw [hnodes, take_left]
    rfl
  · rw [hnodes, length_append]
    exact Nat.lt_add_of_pos_right Nat.two_pos
  · rw [Output.finish, hnodes, flatMap_append, opening_congr hfork]
    exact congrArg (_ ++ ·) (append_nil _)
  · rw [show s3.output.nextVar = s.output.nextVar from congrArg (·.nextVar) hfork]
    exact hm

end Stylesheet

namespace Document

theorem enter_begun (spec : ModeSpec) (attributes : Attributes) (dialect : Option Dialect)
    (tag : Option OpenTag) {front : Region → Compile Unit} (s : Session)
    (hfront : IsFront attributes front) :
    Gives (enter spec attributes dialect tag front) s
      fun frame s' => ∀ r ∈ frame.region.stylesheet?,
        ∃ front, r.Begun frame.attributes front s' := by
  have hkeeps : ∀ region, Keeps Session.standing (front region) := by
    rcases hfront with rfl | ⟨tag, rfl⟩ <;> infer_instance
  refine enter_of ((create_stylesheet spec attributes _).mono fun region s1 hregion => ?_)
  refine (Agree.of_keeps Session.standing (front region) s1).mono fun _ s2 h2 => ?_
  have hvar : s2.output.nextVar = s1.output.nextVar := congrArg (·.2.1) h2
  cases region with
  | stylesheet r =>
    obtain ⟨m, hm, at_, rfl⟩ := hregion r rfl
    refine (Stylesheet.start_begun attributes (hvar ▸ hm) at_).bind ?_
    refine fun r s3 hr => .pure ?_
    rintro _ ⟨⟩
    exact ⟨_, hr⟩
  | code | markup | script | comment => exact .pure fun _ h => absurd h (Option.not_mem_none _)

end Document
end Patchwork
