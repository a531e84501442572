import Patchwork.Document
import Patchwork.Proofs.Steps

/-!
# What a computation is made of

While a region is read a session changes in few ways (`Act`): the cursor goes on, text and slots are
added to the output, slots are edited, fresh names are taken. `Made acts x` says that `x` is put
together of such acts, and of looks at the session that ignore the attributes of the document
itself. It is found by instance search, with an instance for each function.

So what is true of the acts is true of everything that is made of them (`Made.steps`): what only
writes, what leaves a part of the session alone, what never cuts away code.
-/

namespace Patchwork

open Compile

-- the instances for long computations are large
set_option synthInstance.maxSize 512

/-- The ways in which a session changes while a region is read. -/
inductive Act where
  | read
  | text
  /-- A block of the code begins or ends. -/
  | scope
  | name
  | slot
  | edit
  /-- A place in the code is noted. -/
  | mark
  /-- Code is replaced. -/
  | cut
  deriving DecidableEq

/-- What an act does to a session. -/
inductive Act.Does (s : Session) : Act → Session → Prop where
  | read {c : Cursor} (h : s.cursor.Ahead c) : Does s .read { s with cursor := c }
  | text (t : Text) : Does s .text { s with output := s.output.add t }
  | scope (scopes : List CodeScope) : Does s .scope { s with output := { s.output with scopes } }
  | freshVar : Does s .name { s with output := s.output.freshVar.1 }
  | freshId : Does s .name { s with output := s.output.freshId.1 }
  | slot (slot : Slot) (h : slot.pledged = true) :
      Does s .slot { s with output := (s.output.pushSlot slot).1 }
  | edit (e : Edit) : Does s .edit { s with output := s.output.edit e }
  | mark : Does s .mark { s with output := s.output.mark.1 }
  | cut (mark : Nat) (t : Text) : Does s .cut { s with output := s.output.replaceSince mark t }

/-- A session comes of another one by acts, and by warnings. -/
inductive Session.Steps (acts : List Act) (s : Session) : Session → Prop where
  | refl : Steps acts s s
  | act {s1 s2 : Session} {act : Act} (h : Steps acts s s1) (hact : act ∈ acts)
      (hdoes : act.Does s1 s2) : Steps acts s s2
  | warn {s1 : Session} (h : Steps acts s s1) (faults : List Fault) :
      Steps acts s { s1 with warnings := s1.warnings ++ faults }

theorem Session.Steps.trans {acts : List Act} {a b c : Session} (hab : a.Steps acts b)
    (hbc : b.Steps acts c) : a.Steps acts c := by
  induction hbc with
  | refl => exact hab
  | act _ hact hdoes ih => exact ih.act hact hdoes
  | warn _ faults ih => exact ih.warn faults

variable {s s' : Session}

theorem Session.Steps.mono {acts acts' : List Act} (h : s.Steps acts s') (hacts : acts ⊆ acts') :
    s.Steps acts' s' := by
  induction h with
  | refl => exact .refl
  | act _ hact hdoes ih => exact ih.act (hacts hact) hdoes
  | warn _ faults ih => exact ih.warn faults

def Session.withAttributes (a : Attributes) (s : Session) : Session :=
  { s with settings := { s.settings with attributes := a } }

abbrev Act.ofFragments : List Act :=
  [.read, .text, .scope]

/-- A computation that is made of acts. A fragment of code is read in a session of its own. -/
class inductive Made : List Act → {α : Type} → Compile α → Prop where
  | result {acts : List Act} {α : Type} (a : α) : Made acts (Pure.pure a)
  | seq {acts : List Act} {α β : Type} {x : Compile α} {f : α → Compile β} (hx : Made acts x)
      (hf : ∀ a, Made acts (f a)) : Made acts (x >>= f)
  | halt {acts : List Act} {α : Type} (h : Halt) : Made acts (throw h : Compile α)
  | look {acts : List Act} {α : Type} {f : Session → Compile α} (hf : ∀ s, Made acts (f s))
      (hsame : ∀ s a, f (s.withAttributes a) = f s) : Made acts (get >>= f)
  | reads {acts : List Act} {α : Type} (step : Scan α) [step.Forward] (h : .read ∈ acts) :
      Made acts (scan step)
  | warns {acts : List Act} (cause : Cause) (span : Span) : Made acts (warn cause span)
  | acts {acts : List Act} {α : Type} {act : Act} {step : Output → Output × α} (h : act ∈ acts)
      (hdoes : ∀ s : Session, act.Does s { s with output := (step s.output).1 }) :
      Made acts (onOutput step)
  | fragment {acts : List Act} {inner : Purpose → Expander} {text : Text} {base : Nat}
      {tracked : Bool}
      (h : Made Act.ofFragments (Code.run inner (text.length + 1) { tracked, fragment := true })) :
      Made acts (expandWith inner text base tracked)

/-- The act is among the acts. -/
class Allows (acts : List Act) (act : Act) : Prop where
  mem : act ∈ acts

instance (act : Act) (acts : List Act) : Allows (act :: acts) act :=
  ⟨List.mem_cons_self⟩

instance (act other : Act) (acts : List Act) [h : Allows acts act] : Allows (other :: acts) act :=
  ⟨List.mem_cons_of_mem _ h.mem⟩

variable {acts : List Act}

namespace Made

variable {α β : Type}

theorem bind {x : Compile α} {f : α → Compile β} [hx : Made acts x] (hf : ∀ a, Made acts (f a)) :
    Made acts (x >>= f) :=
  .seq hx hf

instance (x : Compile α) (f : α → Compile β) [Made acts x] [hf : ∀ a, Made acts (f a)] :
    Made acts (x >>= f) :=
  bind hf

instance (a : α) : Made acts (pure a) :=
  .result a

instance (p : Prop) [Decidable p] (x y : Compile α) [Made acts x] [Made acts y] :
    Made acts (if p then x else y) := by
  split <;> infer_instance

instance (h : Halt) : Made acts (throw h : Compile α) :=
  .halt h

instance (cause : Cause) (start stop : Nat) : Made acts (fail cause start stop : Compile α) :=
  .halt _

instance (x : Compile α) [Made acts x] : Made acts (discard x) :=
  inferInstanceAs (Made acts (x >>= fun _ => pure ()))

instance (f : α → Compile PUnit) [hf : ∀ a, Made acts (f a)] (l : List α) :
    Made acts (l.forM f) := by
  induction l with
  | nil => exact .result _
  | cons a l ih => exact .seq (hf a) fun _ => ih

instance : Made acts cursor :=
  .look (fun _ => inferInstance) fun _ _ => rfl

instance : Made acts position :=
  .look (fun _ => inferInstance) fun _ _ => rfl

instance : Made acts output :=
  .look (fun _ => inferInstance) fun _ _ => rfl

instance (step : Scan α) [step.Forward] [h : Allows acts .read] : Made acts (scan step) :=
  .reads step h.mem

instance (cause : Cause) (span : Span) : Made acts (warn cause span) :=
  .warns cause span

theorem modifyOutput {step : Output → Output} (act : Act) [h : Allows acts act]
    (hdoes : ∀ s : Session, act.Does s { s with output := step s.output }) :
    Made acts (modifyOutput step) :=
  show Made acts (onOutput fun o => (step o, ())) from .acts h.mem hdoes

instance (t : Text) [Allows acts .text] : Made acts (emit t) :=
  modifyOutput .text fun _ => .text t

instance (e : Edit) [Allows acts .edit] : Made acts (Editor.edit e) :=
  modifyOutput .edit fun _ => .edit e

instance (mark : Nat) (t : Text) [Allows acts .cut] :
    Made acts (Compile.modifyOutput (·.replaceSince mark t)) :=
  modifyOutput .cut fun _ => .cut mark t

instance (params : Text) [Allows acts .scope] :
    Made acts (Compile.modifyOutput (·.startFunction params)) :=
  modifyOutput .scope fun _ => .scope _

instance [Allows acts .scope] : Made acts (Compile.modifyOutput Output.startBlock) :=
  modifyOutput .scope fun _ => .scope _

instance [Allows acts .scope] : Made acts (Compile.modifyOutput Output.endScope) :=
  modifyOutput .scope fun _ => .scope _

instance [h : Allows acts .name] : Made acts (onOutput Output.freshVar) :=
  .acts h.mem fun _ => .freshVar

instance [h : Allows acts .name] : Made acts (onOutput Output.freshId) :=
  .acts h.mem fun _ => .freshId

instance [h : Allows acts .mark] : Made acts (onOutput Output.mark) :=
  .acts h.mem fun _ => .mark

instance (t : Text) [h : Allows acts .slot] : Made acts (onOutput (·.addSlot t)) :=
  .acts h.mem fun _ => .slot _ rfl

instance (f : Fault) [h : Allows acts .slot] : Made acts (onOutput (·.addPendingSlot f)) :=
  .acts h.mem fun _ => .slot _ rfl

end Made

/-! ## What the acts do -/

theorem Session.Steps.counters (h : s.Steps Act.ofFragments s') :
    s'.output.nextVar = s.output.nextVar ∧ s'.output.nextId = s.output.nextId := by
  induction h with
  | refl => exact ⟨rfl, rfl⟩
  | warn _ faults ih => exact ih
  | @act s1 s2 act _ hact hdoes ih =>
    suffices h : s2.output.nextVar = s1.output.nextVar ∧ s2.output.nextId = s1.output.nextId from
      ⟨h.1.trans ih.1, h.2.trans ih.2⟩
    cases hdoes with
    | read | scope => exact ⟨rfl, rfl⟩
    | text t =>
      have hfork := s1.output.fork_add t
      exact ⟨congrArg (·.nextVar) hfork, congrArg (·.nextId) hfork⟩
    | freshVar | freshId | slot | edit | mark | cut => exact absurd hact (by decide)

/-- A fragment hands back the counters it was given, and adds its warnings. -/
theorem expandWith_session {inner : Purpose → Expander} {text : Text} {base : Nat} {tracked : Bool}
    {e : Expr}
    (hrun : ∀ {s a s'}, Code.run inner (text.length + 1) { tracked, fragment := true } s =
      .ok (a, s') → s.Steps Act.ofFragments s')
    (h : expandWith inner text base tracked s = .ok (e, s')) :
    ∃ faults, s' = { s with warnings := s.warnings ++ faults } := by
  simp only [expandWith, bind, Except.bind] at h
  split at h
  · cases h
  next p hp =>
    cases h
    obtain ⟨hvar, hid⟩ := (hrun hp).counters
    refine ⟨p.2.warnings, ?_⟩
    rw [Output.join, hvar, hid, Output.fork, Nat.max_self, Nat.max_self]

theorem Made.steps {α : Type} {x : Compile α} (hx : Made acts x) :
    ∀ {s a s'}, x s = .ok (a, s') → s.Steps acts s' := by
  induction hx with
  | result a =>
    rintro s _ _ ⟨⟩
    exact .refl
  | seq _ _ ihx ihf =>
    intro s b s' h
    obtain ⟨a, s1, h1, h2⟩ := bind_eq_ok.mp h
    exact (ihx h1).trans (ihf a h2)
  | halt h => exact nofun
  | look _ _ ih => exact fun h => ih _ h
  | @reads _ _ step hstep hread =>
    intro s a s' h
    obtain ⟨c, hc, rfl⟩ := scan_eq_ok.mp h
    exact .act .refl hread (.read (hstep.ahead _ _ _ hc))
  | warns cause span =>
    rintro s _ _ ⟨⟩
    exact .warn .refl _
  | acts hact hdoes =>
    rintro s _ _ ⟨⟩
    exact .act .refl hact (hdoes s)
  | fragment _ ih =>
    intro s e s' h
    obtain ⟨faults, rfl⟩ := expandWith_session ih h
    exact .warn .refl faults

/-! ## Code -/

namespace Code

instance : functionParams.Forward := by
  unfold functionParams
  refine Scan.Forward.bind inferInstance fun c => ?_
  split
  · dsimp only
    split
    · split <;> infer_instance
    · infer_instance
  · split <;> infer_instance
  · infer_instance

instance (code : Code) [Allows acts .text] : Made acts code.commit := by
  unfold commit
  infer_instance

variable [Allows acts .read]

instance (code : Code) : Made acts code.callShorthand := by
  unfold callShorthand
  refine .bind fun dollar => ?_
  split
  · infer_instance
  refine .bind fun o => .bind fun c => ?_
  dsimp only
  split
  · infer_instance
  · split <;> infer_instance

instance (opened : Char) (what : Text) : Made acts (readGroup opened what) := by
  unfold readGroup
  infer_instance

variable (inner : Purpose → Expander)
  [∀ purpose text base tracked, Made acts (inner purpose text base tracked)] (code : Code)

instance (tracker : Text) : Made acts (computedFunction inner tracker) := by
  unfold computedFunction
  infer_instance

instance : Made acts (computedBody inner) := by
  unfold computedBody
  infer_instance

instance (tracker : Text) : Made acts (computedGroup inner tracker) := by
  unfold computedGroup
  infer_instance

instance : Made acts (code.computed inner) := by
  unfold computed
  refine .bind fun c => ?_
  dsimp only
  split
  · infer_instance
  refine .bind fun space => .bind fun c => ?_
  split
  · infer_instance
  generalize takeModifiers {} code.lookback.length code.lookback = taken
  infer_instance

instance : Made acts (code.readMember inner) := by
  unfold readMember
  refine .bind fun c => ?_
  split
  · infer_instance
  · exact .bind fun word => by split <;> infer_instance

instance : Made acts (code.readSubject inner) := by
  unfold readSubject
  infer_instance

instance (safe : Bool) (name : Text) : Made acts (trackedRead inner safe name) := by
  unfold trackedRead
  infer_instance

instance (marker : Marker) : Made acts (code.reactiveRead inner marker) := by
  unfold reactiveRead
  refine .bind fun c => ?_
  extract_lets spread member first operand
  split
  · infer_instance
  refine .bind fun safe => ?_
  extract_lets rest
  -- what comes after the operand is the same for members and subjects
  have hrest : ∀ p, Made acts (rest p) := by
    rintro ⟨code, _ | name⟩
    · exact .result _
    · dsimp only [rest]
      infer_instance
  split <;> exact .bind hrest

variable [Allows acts .text] [Allows acts .scope]

instance : Made acts (code.step inner) := by
  unfold step
  refine .bind fun found => ?_
  dsimp only
  split
  · infer_instance
  · infer_instance
  · infer_instance
  · refine .bind fun params => .bind fun code => ?_
    cases params <;> dsimp only <;> infer_instance
  · infer_instance
  · infer_instance
  · infer_instance
  · infer_instance
  · infer_instance
  split
  · infer_instance
  · exact .bind fun entry => by split <;> infer_instance

instance (fuel : Nat) : Made acts (run inner fuel code) := by
  induction fuel generalizing code with
  | zero => exact .halt _
  | succ fuel ih =>
    unfold run
    infer_instance

end Code

instance (depth : Nat) (text : Text) (base : Nat) (tracked : Bool) :
    Made acts (expandAt depth text base tracked) := by
  induction depth generalizing acts text base tracked with
  | zero => exact .halt _
  | succ depth ih => exact .fragment inferInstance

instance (purpose : Purpose) (text : Text) (base : Nat) (tracked : Bool) :
    Made acts (Expansion.expand purpose text base tracked) :=
  inferInstanceAs (Made acts (expandAt _ text base tracked))

/-- Nothing but the warnings changes in the session around a fragment. -/
theorem expand_session {text : Text} {base : Nat} {tracked : Bool} {e : Expr}
    (h : expand text base tracked s = .ok (e, s')) : s' = { s with warnings := s'.warnings } := by
  obtain ⟨faults, rfl⟩ := expandWith_session (Made.steps inferInstance) h
  rfl

/-! ## Chains and tags -/

instance (chain : Chain) [Allows acts .text] : Made acts chain.flush := by
  unfold Chain.flush
  infer_instance

instance (name : Text) (start : Nat) (value : RawValue) :
    Made acts (StartTag.valueSource name start value) := by
  cases value <;> unfold StartTag.valueSource <;> infer_instance

instance : StartTag.readValue.Forward := by
  unfold StartTag.readValue
  infer_instance

instance : readClosingTag.Forward := by
  unfold readClosingTag
  infer_instance

section

variable [Allows acts .read]

instance (marker : Char) (tracked : Bool) : Made acts (readMarker marker tracked) := by
  unfold readMarker
  infer_instance

instance (chain : Chain) (marker : Char) (tracked : Bool) :
    Made acts (chain.textMarker marker tracked) := by
  unfold Chain.textMarker
  infer_instance

namespace StartTag

variable (tag : StartTag)

instance : Made acts tag.readAttribute := by
  unfold readAttribute
  infer_instance

instance (fuel : Nat) : Made acts (tag.readAttributes fuel) := by
  induction fuel generalizing tag with
  | zero => exact .halt _
  | succ fuel ih =>
    unfold readAttributes
    infer_instance

instance (at_ : Nat) : Made acts (read at_) := by
  unfold read
  infer_instance

end StartTag
end

/-! ## Statements -/

namespace Foreach

instance {α : Type} (step : Scan α) (c : Cursor) : Made acts (onHead step c) := by
  unfold onHead
  split <;> infer_instance

instance (c : Cursor) : Made acts (readExpanded c) := by
  unfold readExpanded
  infer_instance

instance (c : Cursor) : Made acts (readSubject c) := by
  unfold readSubject
  infer_instance

instance (inner : Text) (base : Nat) : Made acts (readHead inner base) := by
  unfold readHead
  infer_instance

end Foreach

instance (b : StyleBuffer) [Allows acts .text] : Made acts b.flush := by
  unfold StyleBuffer.flush
  infer_instance

/-- A host that adds to the text of the output what it holds. -/
class TextHost.Lawful (H : Type) [TextHost H] : Prop where
  flush : ∀ {acts : List Act} [Allows acts .text] (host : H), Made acts (flush host)

instance : TextHost.Lawful Chain where
  flush chain := inferInstanceAs (Made _ chain.flush)

instance : TextHost.Lawful StyleBuffer where
  flush b := inferInstanceAs (Made _ b.flush)

section

variable {H : Type} [TextHost H] [hH : TextHost.Lawful H] (host : H)

instance [Allows acts .text] : Made acts (TextHost.flush host) :=
  hH.flush host

instance [Allows acts .text] : Made acts (TextHost.boundary host) := by
  unfold TextHost.boundary
  infer_instance

namespace Tracker

instance (keyword : Keyword) : (readKeyword keyword).Forward := by
  unfold readKeyword
  infer_instance

instance (k : Tracker) (index : Nat) : (k.atLineStart index).Forward := by
  unfold atLineStart
  infer_instance

variable [Allows acts .read]

instance (keyword : Keyword) [Allows acts .slot] : Made acts (branchHead keyword) := by
  unfold branchHead
  infer_instance

variable [Allows acts .text]

instance (word : Text) (closing : List Char) : Made acts (declaration host word closing) := by
  unfold declaration
  refine .bind fun host => .bind fun _ => .bind fun _ => .bind fun found => .bind fun _ => ?_
  dsimp only
  split
  · refine .bind fun _ => .bind fun _ => .bind fun blanks => .bind fun _ => .bind fun start => ?_
    infer_instance
  · infer_instance
  · infer_instance

variable (k : Tracker) [Allows acts .slot]

instance (keyword : Keyword) (continued : Option Statement) :
    Made acts (openPart k host keyword continued) := by
  unfold openPart
  refine .bind fun host => .bind fun at_ => .bind fun _ => .bind fun stop => ?_
  dsimp only
  cases continued with
  | none | some => exact .bind fun start => .bind fun o => inferInstance

instance : Made acts (keyword? k host) := by
  unfold keyword?
  refine .bind fun c => ?_
  dsimp only
  split
  · infer_instance
  next word form _ => cases form <;> dsimp only <;> infer_instance

variable [Allows acts .edit]

instance (st : Statement) : Made acts (closePart st) := by
  unfold closePart
  infer_instance

instance (atLineBreak : Bool) : Made acts (close k host atLineBreak) := by
  unfold close
  refine .bind fun host => ?_
  split
  · infer_instance
  · infer_instance
  refine .bind fun st => .bind fun c => ?_
  dsimp only
  split <;> infer_instance

instance (c : Char) : Made acts (dispatch k host c) := by
  unfold dispatch
  split
  · infer_instance
  split
  · infer_instance
  · exact .bind fun r => by split <;> infer_instance

end Tracker
end

instance (st : Statement) [Allows acts .edit] : Made acts st.makeReactive := by
  unfold Statement.makeReactive
  infer_instance

instance (k : Tracker) [Allows acts .edit] : Made acts k.finish := by
  unfold Tracker.finish
  split <;> infer_instance

/-- A brace that closes nothing gives a warning, if such warnings are wanted. -/
def Tracker.warnStray (inText : Bool) (at_ : Nat) : Option Closed → Compile Unit
  | some .stray => do
    if (← get).settings.warnFallbacks then warn (.strayBrace inText) ⟨at_, at_ + 1⟩
  | _ => pure ()

instance (inText : Bool) (at_ : Nat) (closed : Option Closed) :
    Made acts (Tracker.warnStray inText at_ closed) := by
  unfold Tracker.warnStray
  split
  · exact .look (fun _ => inferInstance) fun _ _ => rfl
  · infer_instance

theorem Tracker.warnStray_bind {α : Type} (inText : Bool) (at_ : Nat) (x : Compile α) :
    (do
      if (← get).settings.warnFallbacks then warn (.strayBrace inText) ⟨at_, at_ + 1⟩
      x) = warnStray inText at_ (some .stray) >>= fun _ => x := by
  funext s
  have hget {β : Type} (f : Session → Compile β) : (get >>= f) s = f s s := rfl
  rw [hget, warnStray, bind_apply, hget]
  split <;> rfl

/-! ## Regions -/

namespace Markup

theorem trackStatement_eq [Expansion] [Editor] (r : Markup) (k : Tracker) (c : Char) :
    r.trackStatement k c = do
    let at_ ← position
    let (statements, chain, closed) ← k.dispatch r.chain c
    Tracker.warnStray true at_ closed
    return { r with chain, statements := some statements } := by
  unfold trackStatement
  refine congrArg _ (funext fun at_ => congrArg _ (funext ?_))
  rintro ⟨k', chain, _ | _ | _ | _⟩
  · rfl
  · rfl
  · rfl
  · exact Tracker.warnStray_bind true at_ _

instance (children : Bool) (attributes : Attributes) : Made acts (create children attributes) := by
  unfold create
  infer_instance

variable (r : Markup) [Allows acts .text] [Allows acts .edit]

instance : Made acts r.finish := by
  unfold finish
  refine .bind fun _ => ?_
  split <;> infer_instance

variable [Allows acts .read]

instance (c : Char) : Made acts (r.character c) := by
  unfold character
  refine .bind fun _ => ?_
  split
  · infer_instance
  · exact .bind fun cur => by split <;> infer_instance

variable [Allows acts .slot]

instance (statements : Tracker) (c : Char) : Made acts (r.trackStatement statements c) := by
  rw [trackStatement_eq]
  refine .bind fun at_ => .bind fun tracked => ?_
  dsimp only
  infer_instance

instance : Made acts r.step := by
  unfold step
  refine .bind fun found => ?_
  dsimp only
  split <;> infer_instance

end Markup

namespace Script

instance (attributes : Attributes) [Allows acts .name] : Made acts (create attributes) := by
  unfold create
  infer_instance

instance (r : Script) [Allows acts .read] : Made acts r.step := by
  unfold step
  refine .bind fun found => ?_
  dsimp only
  split <;> infer_instance

instance (r : Script) [Allows acts .text] : Made acts r.finish := by
  unfold finish
  infer_instance

end Script

instance (r : Comment) [Allows acts .read] : Made acts r.step := by
  unfold Comment.step
  refine .bind fun found => ?_
  dsimp only
  split <;> infer_instance

namespace Stylesheet

/-- The blocks that stay when the tracker has closed something. -/
def remaining (r : Stylesheet) : Option Closed → List StyleBlock
  | some (.block id) => r.blocks.drop (r.blocks.length - id)
  | _ => r.blocks

/-- The region when the tracker has dealt with a character. -/
def tracked (r : Stylesheet) (c : Char) (at_ : Nat) (statements : Tracker) (buffer : StyleBuffer)
    (closed : Option Closed) : Stylesheet :=
  { r with
    statements
    buffer :=
      if statements.recognized == r.statements.recognized && c != '}' && c != '\n' then
        buffer.startAt at_
      else buffer
    blocks := r.remaining closed
    folds := r.folds && statements.recognized == r.statements.recognized }

theorem trackStatement_eq [Expansion] [Editor] (r : Stylesheet) (c : Char) (at_ : Nat) :
    r.trackStatement c at_ = do
    let (statements, buffer, closed) ← r.statements.dispatch r.buffer c
    Tracker.warnStray false at_ closed
    return r.tracked c at_ statements buffer closed := by
  unfold trackStatement
  refine congrArg _ (funext ?_)
  rintro ⟨k, b, closed⟩
  have hrest : ∀ blocks, blocks = r.remaining closed →
      (if k.recognized != r.statements.recognized then
        pure { r with statements := k, buffer := b, blocks, folds := false }
      else
        pure { r with
          statements := k, blocks
          buffer := if c != '}' && c != '\n' then b.startAt at_ else b } : Compile Stylesheet) =
        pure (r.tracked c at_ k b closed) := by
    rintro _ rfl
    unfold tracked
    cases hsame : k.recognized == r.statements.recognized <;> simp [bne, hsame]
  rcases closed with _ | _ | _ | _
  · exact hrest _ rfl
  · exact hrest _ rfl
  · exact hrest _ rfl
  · exact (Tracker.warnStray_bind false at_ _).trans (congrArg _ (funext fun _ => hrest _ rfl))

variable (r : Stylesheet)

instance (attributes : Attributes) [Allows acts .name] : Made acts (create attributes) := by
  unfold create
  infer_instance

instance (ps : List Piece) : Made acts (joined ps) := by
  unfold joined
  infer_instance

instance (value : List Piece) (span : Span) : Made acts (declarationValue value span) := by
  unfold declarationValue
  split
  · refine .bind fun o => ?_
    dsimp only
    split <;> infer_instance
  · infer_instance

section

variable [Allows acts .read]

instance (marker : Char) (at_ : Nat) : Made acts (r.pushMarker marker at_) := by
  unfold pushMarker
  infer_instance

instance (at_ : Nat) : Made acts (r.slash at_) := by
  unfold slash
  infer_instance

end

variable [Allows acts .text]

instance : Made acts r.takeStatement := by
  unfold takeStatement
  infer_instance

instance (key value : List Piece) (span : Span) : Made acts (r.writeDeclaration key value span) := by
  unfold writeDeclaration
  refine .bind fun keySource => .bind fun read => ?_
  obtain ⟨source, _ | value⟩ := read
  · infer_instance
  · refine .bind fun _ => ?_
    dsimp only
    split <;> infer_instance

instance (body : List Piece) : Made acts (r.writeStatement body) := by
  unfold writeStatement
  refine .bind fun source => .bind fun _ => ?_
  split <;> infer_instance

instance (stop : Nat) : Made acts (r.endStatement stop) := by
  unfold endStatement
  refine .bind fun taken => ?_
  dsimp only
  split
  · infer_instance
  · split <;> infer_instance

instance (at_ : Nat) [Allows acts .name] : Made acts (r.openBlock at_) := by
  unfold openBlock
  refine .bind fun taken => .bind fun o => ?_
  split <;> infer_instance

instance (c : Char) (at_ : Nat) [Allows acts .read] [Allows acts .name] :
    Made acts (r.character c at_) := by
  unfold character
  infer_instance

instance [Allows acts .mark] [Allows acts .slot] : Made acts r.start := by
  unfold start
  infer_instance

variable [Allows acts .edit]

instance [Allows acts .cut] : Made acts r.finish := by
  unfold finish
  refine .bind fun _ => .bind fun finished => .look (fun s => ?_) fun _ _ => rfl
  dsimp only
  split
  · infer_instance
  · cases r.head <;> infer_instance

variable [Allows acts .read] [Allows acts .slot]

instance (c : Char) (at_ : Nat) : Made acts (r.trackStatement c at_) := by
  rw [trackStatement_eq]
  refine .bind fun tracked => ?_
  dsimp only
  infer_instance

instance [Allows acts .name] : Made acts r.step := by
  unfold step
  refine .bind fun found => .bind fun at_ => ?_
  dsimp only
  split <;> infer_instance

end Stylesheet

namespace Region

variable (r : Region) [Allows acts .text]

instance (l : Link) : Made acts (r.accept l) := by
  cases r <;> unfold accept <;> infer_instance

instance [Allows acts .mark] [Allows acts .slot] : Made acts r.start := by
  cases r <;> unfold start <;> infer_instance

instance [Allows acts .edit] [Allows acts .cut] : Made acts r.finish := by
  cases r <;> unfold finish <;> infer_instance

instance [Allows acts .read] [Allows acts .scope] [Allows acts .name] [Allows acts .slot]
    [Allows acts .edit] : Made acts r.step := by
  cases r <;> unfold step <;> infer_instance

end Region

/-! ## Documents -/

namespace Document

instance {α : Type} (registry : Registry) (name : Text) (span : Span) :
    Made acts (unknownMode registry name span : Compile α) := by
  unfold unknownMode
  infer_instance

instance (registry : Registry) (tag : StartTag) (attributes : Attributes) :
    Made acts (chooseMode registry tag attributes) := by
  unfold chooseMode
  split
  · split <;> infer_instance
  · split <;> infer_instance

instance (attributes : Attributes) (used : List AttributeKey) (cause : Text → Cause) :
    Made acts (reportLeftovers attributes used cause) := by
  unfold reportLeftovers
  infer_instance

instance (tag : StartTag) (attributes : Attributes) (region : Region) [Allows acts .text]
    [Allows acts .scope] : Made acts (openElement tag attributes region) := by
  unfold openElement
  exact .bind fun _ => .look (fun _ => inferInstance) fun _ _ => rfl

instance (tag : OpenTag) [Allows acts .read] : Made acts (closeTag tag) := by
  unfold closeTag
  infer_instance

end Document
end Patchwork
