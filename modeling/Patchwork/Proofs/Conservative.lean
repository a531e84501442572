import Mathlib.Data.List.Infix
import Patchwork.Proofs.Progress
import Patchwork.Proofs.Quiet

/-!
# Statement tracking changes nothing where there are no statements

A document is compiled twice, with statements recognized and without. If no line of it begins a
statement and no closing brace is escaped, the result is the same (`compile_tracking`).

The two runs do not go in step, because a region with a tracker stops more often. But whenever it
stops for the tracker, the other run could have stopped there as well and gone on from there
(`Resumes`). So each step of the run with trackers is matched by one step of the other run, or it only
brings nearer the place where the other run stops (`advance_cases`). Between the steps the sessions
are the same, and the regions that are open differ in idle trackers only (`Frame.Watched`).
-/

namespace Patchwork

open Compile List Region

/-! ## Attributes -/

namespace Attributes

/-- The attributes with statements recognized, where this is asked for. -/
def tracking (b : Bool) (a : Attributes) : Attributes :=
  { a with logic := a.logic || b }

theorem set_tracking (b : Bool) (a : Attributes) (key : AttributeKey) (value : RawValue) :
    ∃ b', (a.tracking b).set key value = (a.set key value).map (tracking b') := by
  cases key with
  | logic =>
    -- a value that is written replaces the one that was handed down
    refine ⟨false, ?_⟩
    unfold set
    cases value.flag? with
    | none => rfl
    | some v =>
      show Except.ok _ = Except.ok { a with logic := v || false }
      rw [Bool.or_false]
      rfl
  | trimmed | ownScope =>
    refine ⟨b, ?_⟩
    unfold set
    cases value.flag? <;> rfl
  | dialect =>
    refine ⟨b, ?_⟩
    unfold set
    cases value.text?.bind Dialect.ofName? <;> rfl
  | scope | mode =>
    refine ⟨b, ?_⟩
    unfold set
    cases value.text? <;> rfl

theorem apply_tracking (b : Bool) (a : Attributes) (raw : RawAttribute) :
    ∃ b', (a.tracking b).apply raw = (a.apply raw).map (tracking b') := by
  unfold apply
  cases AttributeKey.ofName? raw.name with
  | none => exact ⟨b, rfl⟩
  | some key =>
    obtain ⟨b', hset⟩ := set_tracking b a key raw.value
    refine ⟨b', ?_⟩
    dsimp only
    rw [hset]
    cases a.set key raw.value <;> rfl

theorem foldlM_apply_tracking (raw : List RawAttribute) : ∀ (b : Bool) (a : Attributes),
    ∃ b', raw.foldlM apply (a.tracking b) = (raw.foldlM apply a).map (tracking b') := by
  induction raw with
  | nil => exact fun b a => ⟨b, rfl⟩
  | cons r raw ih =>
    intro b a
    obtain ⟨b1, hfirst⟩ := apply_tracking b a r
    rw [foldlM_cons, foldlM_cons, hfirst]
    cases a.apply r with
    | error f => exact ⟨b1, rfl⟩
    | ok a1 => exact ih b1 a1

theorem resolve_tracking (raw : List RawAttribute) (b : Bool) (parent : Attributes) :
    ∃ b', resolve raw (parent.tracking b) = (resolve raw parent).map (tracking b') :=
  foldlM_apply_tracking raw b parent.inherit

end Attributes

/-! ## Regions -/

/-- Two regions that are the same, or the second has an idle tracker in addition. Its region has begun
at a place in `S`, which is before the position `p` unless nothing has been read in it. -/
inductive Region.Watched (S : Nat → Prop) (p : Nat) : Region → Region → Prop where
  | same (r : Region) : Watched S p r r
  | idle {r : Markup} {k : Tracker} (untracked : r.statements = none) (idle : k.Idle)
      (start : S k.regionStart) (begun : k.regionStart ≤ p)
      (since : r.chain.current = [] ∨ k.regionStart < p) :
      Watched S p (.markup r) (.markup (r.tracking k))

namespace Region.Watched

variable {S S' : Nat → Prop} {p q : Nat} {r r' : Region} {s : Session}

variable (h : r.Watched S p r')
include h

theorem mono (hle : p ≤ q) : r.Watched S q r' := by
  cases h with
  | same => exact .same _
  | idle untracked idle start begun since =>
    exact .idle untracked idle start (Nat.le_trans begun hle)
      (since.imp_right fun hlt => Nat.lt_of_lt_of_le hlt hle)

theorem imp (hS : ∀ n, S n → S' n) : r.Watched S' p r' := by
  cases h with
  | same => exact .same _
  | idle untracked idle start begun since => exact .idle untracked idle (hS _ start) begun since

theorem elementTerminator : r'.elementTerminator = r.elementTerminator := by
  cases h <;> rfl

theorem after? (o : Output) : r'.after? o = r.after? o := by
  cases h <;> rfl

theorem link? (o : Output) : r'.link? o = r.link? o := by
  cases h <;> rfl

theorem finish : r'.finish = r.finish := by
  cases h with
  | same => rfl
  | @idle r k untracked idle =>
    show Markup.finish _ = Markup.finish _
    unfold Markup.finish Markup.tracking
    dsimp only
    rw [untracked, Tracker.finish_idle idle]

theorem accept (l : Link) :
    Tandem (r.accept l) (r'.accept l) s fun r1 r1' _ => r1.Watched S p r1' := by
  cases h with
  | same => exact .refl fun _ _ _ => .same _
  | idle untracked idle start begun since =>
    exact .after fun o s1 _ => .pure (.idle untracked idle start begun (.inl rfl))

end Region.Watched

theorem Region.create_watched (spec : ModeSpec) (attributes : Attributes) (b : Bool) (s : Session) :
    Tandem (create spec attributes) (create spec (attributes.tracking b)) s fun r r' s1 =>
      r.Watched (· = s1.cursor.position) s1.cursor.position r' := by
  have hmarkup : ∀ children s1, Tandem (Markup.create children attributes)
      (Markup.create children (attributes.tracking b)) s1 fun r r' s2 =>
        (Region.markup r).Watched (· = s2.cursor.position) s2.cursor.position (.markup r') := by
    intro children s1
    refine .after fun start s2 hstart => .pure ?_
    cases hstart
    obtain ⟨logic⟩ := attributes
    cases logic with
    | true => exact .same _
    | false =>
      cases b with
      | false => exact .same _
      | true => exact .idle rfl ⟨rfl, rfl⟩ rfl (Nat.le_refl _) (.inl rfl)
  refine .after fun _ s1 _ => ?_
  split
  · exact .pure (.same _)
  · exact (hmarkup true s1).bind fun r r' s2 h => .pure h
  · exact (hmarkup false s1).bind fun r r' s2 h => .pure h
  · exact .refl fun _ _ _ => .same _
  · exact .refl fun _ _ _ => .same _
  · exact .pure (.same _)

theorem Region.step_markup (m : Markup) (s : Session) :
    (markup m).step s = (m.step s).map fun p => ((markup p.1.1, p.1.2), p.2) := by
  show (m.step >>= fun p => pure (markup p.1, p.2)) s = _
  rw [bind_apply]
  cases m.step s <;> rfl

/-! ## Frames -/

/-- Two frames that differ in an idle tracker at most, and in whether statements are recognized. -/
structure Frame.Watched (S : Nat → Prop) (p : Nat) (frame frame' : Frame) : Prop where
  region : frame.region.Watched S p frame'.region
  attributes : ∃ b, frame'.attributes = frame.attributes.tracking b
  others : frame' = { frame with region := frame'.region, attributes := frame'.attributes }

namespace Document

variable {S S' : Nat → Prop} {p q : Nat} {frame frame' : Frame} {outer outer' : List Frame}
  {s : Session}

theorem watched_mono (h : List.Forall₂ (Frame.Watched S p) outer outer') (hle : p ≤ q) :
    List.Forall₂ (Frame.Watched S q) outer outer' :=
  h.imp fun _ _ h => ⟨h.region.mono hle, h.attributes, h.others⟩

/-- The end of a region comes to the same. -/
theorem leave_watched (h : frame.Watched S p frame') : leave frame' = leave frame := by
  rw [h.others]
  unfold leave
  rw [h.region.finish]
  simp only [h.region.after?]

theorem endDocument_watched (h : frame.Watched S p frame') :
    endDocument frame' = endDocument frame := by
  unfold endDocument
  rw [leave_watched h, h.others]

theorem openElement_watched {r r' : Region} (h : r.Watched S p r') (tag : StartTag)
    (attributes : Attributes) (b : Bool) :
    openElement tag (attributes.tracking b) r' = openElement tag attributes r := by
  cases h <;> rfl

theorem enter_watched (spec : ModeSpec) (attributes : Attributes) (b : Bool)
    (dialect : Option Dialect) (tag : Option OpenTag) {front front' : Region → Compile Unit}
    [∀ r, Keeps Session.cursor (front r)]
    (hfront : ∀ (S : Nat → Prop) (p : Nat) (r r' : Region), r.Watched S p r' → front' r' = front r) :
    Tandem (enter spec attributes dialect tag front)
      (enter spec (attributes.tracking b) dialect tag front') s fun frame frame' s1 =>
        frame.Watched (· = s1.cursor.position) s1.cursor.position frame' := by
  refine .after fun s0 s1 _ => ?_
  extract_lets rest rest'
  have hrest : ∀ u s2, Tandem (rest u) (rest' u) s2 fun frame frame' s1 =>
      frame.Watched (· = s1.cursor.position) s1.cursor.position frame' := by
    intro u s2
    refine (create_watched spec attributes b s2).bind fun r r' s3 hregion => ?_
    rw [hfront _ _ r r' hregion]
    refine .after fun _ s4 h4 => .after fun mark s5 h5 => ?_
    have hcursor : s5.cursor = s3.cursor :=
      (Keeps.same Session.cursor h5).trans (Keeps.same Session.cursor h4)
    rw [← hcursor] at hregion
    have hstart : Tandem r.start r'.start s5 fun r r' s6 =>
        r.Watched (· = s6.cursor.position) s6.cursor.position r' := by
      cases hregion with
      | same => exact .refl fun _ _ _ => .same _
      | idle untracked idle start begun since =>
        exact .pure (.idle untracked idle start begun since)
    exact hstart.bind fun r r' s6 h => .pure ⟨h, ⟨b, rfl⟩, rfl⟩
  split
  · exact .after fun _ s2 _ => hrest () s2
  · exact hrest () s1

theorem openChild_watched (registry : Registry) {parent parent' : Frame}
    (h : parent.Watched S p parent') :
    Tandem (openChild registry parent) (openChild registry parent') s fun child child' s1 =>
      Option.Rel (Frame.Watched (· = s1.cursor.position) s1.cursor.position) child child' := by
  obtain ⟨b, hattributes⟩ := h.attributes
  unfold openChild
  rw [hattributes, h.region.elementTerminator]
  refine .after fun start s1 _ => ?_
  refine .after fun isComment s2 _ => ?_
  split
  · refine .after fun stop s3 _ => ?_
    split
    · exact .fail ..
    exact (enter_watched _ _ b _ _ fun _ _ _ _ _ => rfl).bind fun child child' s4 h =>
      .pure (.some h)
  · refine .after fun tag s3 _ => ?_
    obtain ⟨b', hresolve⟩ := Attributes.resolve_tracking tag.region b parent.attributes
    rw [hresolve]
    cases Attributes.resolve tag.region parent.attributes with
    | error f => exact .error _
    | ok attributes =>
      refine .after fun spec s4 _ => ?_
      split
      · exact .after fun _ s5 _ => .after fun o s6 _ => .after fun _ s7 _ => .pure .none
      refine (enter_watched _ _ b' _ _ fun _ _ _ _ hr => ?_).bind fun child child' s5 h =>
        .pure (.some h)
      exact openElement_watched hr tag attributes b'

theorem closeRegion_watched (h : frame.Watched S q frame')
    (houter : List.Forall₂ (Frame.Watched S p) outer outer') :
    Tandem (closeRegion frame outer) (closeRegion frame' outer') s fun r r' _ =>
      r'.2 = r.2 ∧ List.Forall₂ (Frame.Watched S p) r.1 r'.1 := by
  have htag : frame'.tag = frame.tag := by
    rw [h.others]
  have hhead : (outer'.head?.map (·.region.elementTerminator)) =
      outer.head?.map (·.region.elementTerminator) := by
    cases houter with
    | nil => rfl
    | cons hparent => exact congrArg some hparent.region.elementTerminator
  unfold closeRegion
  rw [htag, leave_watched h, hhead]
  split
  · exact .after fun start s1 _ => .after fun name s2 _ => .after fun stop s3 _ => .fail ..
  next tag _ =>
    split
    · exact .after fun _ s1 _ => .after fun faults s2 _ => .after fun _ s3 _ => .after fun _ s4 _ =>
        .pure ⟨rfl, houter⟩
    refine .after fun o s1 _ => ?_
    rw [h.region.link?]
    refine .after fun faults s2 _ => ?_
    cases hlink : frame.region.link? o with
    | none => exact .pure ⟨rfl, houter⟩
    | some link =>
      cases houter with
      | nil => exact .pure ⟨rfl, .nil⟩
      | cons hparent houter =>
        refine (hparent.region.accept link).bind fun region region' s3 hregion => .pure ?_
        refine ⟨rfl, .cons ⟨hregion, hparent.attributes, ?_⟩ houter⟩
        conv_lhs => rw [hparent.others]

/-! ## Steps -/

/-- If the steps of the innermost regions go together, then so does all that follows them. Of the
regions that begin it has to be known that they begin at a place in `S`. -/
theorem advance_watched (registry : Registry) (h : frame.Watched S p frame')
    (houter : List.Forall₂ (Frame.Watched S p) outer outer')
    (hstep : Tandem frame.region.step frame'.region.step s fun x x' _ =>
      x'.2 = x.2 ∧ ∀ q, p < q → x.1.Watched S q x'.1) :
    Tandem (advance registry frame outer) (advance registry frame' outer') s fun r r' s1 =>
      r'.2 = r.2 ∧ ((r'.1 ≠ [] → p < s1.cursor.position) →
        (r.1.length = outer.length + 2 → S s1.cursor.position) →
          List.Forall₂ (Frame.Watched S s1.cursor.position) r.1 r'.1) := by
  refine hstep.bind ?_
  rintro ⟨region, step⟩ ⟨region', step'⟩ s1 ⟨hsame, hregion⟩
  dsimp only at hsame hregion ⊢
  subst hsame
  have hframe : ∀ q, p < q →
      Frame.Watched S q { frame with region } { frame' with region := region' } := by
    intro q hq
    refine ⟨hregion q hq, h.attributes, ?_⟩
    conv_lhs => rw [h.others]
  have hframes : ∀ {s2 : Session}, p < s2.cursor.position →
      List.Forall₂ (Frame.Watched S s2.cursor.position) ({ frame with region } :: outer)
        ({ frame' with region := region' } :: outer') := fun hlt =>
    .cons (hframe _ hlt) (watched_mono houter (Nat.le_of_lt hlt))
  cases step' with
  | next => exact .pure ⟨rfl, fun hlt _ => hframes (hlt (cons_ne_nil _ _))⟩
  | child =>
    refine (openChild_watched registry (hframe _ (Nat.lt_succ_self p))).bind ?_
    intro child child' s2 hchild
    cases hchild with
    | none => exact .pure ⟨rfl, fun hlt _ => hframes (hlt (cons_ne_nil _ _))⟩
    | some hchild =>
      refine .pure ⟨rfl, fun hlt hstart => .cons ?_ (hframes (hlt (cons_ne_nil _ _)))⟩
      refine ⟨hchild.region.imp ?_, hchild.attributes, hchild.others⟩
      rintro _ rfl
      exact hstart rfl
  | close =>
    refine (closeRegion_watched (hframe _ (Nat.lt_succ_self p)) houter).mono ?_
    rintro ⟨frames, faults⟩ ⟨frames', faults'⟩ s2 ⟨hfaults, hframes⟩
    refine ⟨hfaults, fun hlt _ => ?_⟩
    cases hframes with
    | nil => exact .nil
    | cons hfirst hrest =>
      exact watched_mono (.cons hfirst hrest) (Nat.le_of_lt (hlt (cons_ne_nil _ _)))
  | eof =>
    rw [endDocument_watched (hframe _ (Nat.lt_succ_self p))]
    exact .after fun faults s2 _ => .pure ⟨rfl, fun _ _ => .nil⟩

/-- A step comes to the same as one that is made later, but for the place where something was found
last, when the document ends with it. -/
def Resumes (x y : Except Halt ((List Frame × List Fault) × Session)) : Prop :=
  x = y ∨ ∃ n, x = y.map (fun r => (r.1, r.2.withMatch n)) ∧ ∀ r, y = .ok r → r.1.1 = []

theorem Resumes.refl (x : Except Halt ((List Frame × List Fault) × Session)) : Resumes x x :=
  .inl rfl

variable {x : Except Halt ((List Frame × List Fault) × Session)} {frames : List Frame}
  {faults : List Fault}

theorem Resumes.trans {y z : Except Halt ((List Frame × List Fault) × Session)} (hxy : Resumes x y)
    (hyz : Resumes y z) : Resumes x z := by
  rcases hxy with rfl | ⟨n, rfl, hend⟩
  · exact hyz
  rcases hyz with rfl | ⟨m, rfl, hend'⟩
  · exact .inr ⟨n, rfl, hend⟩
  · refine .inr ⟨n, ?_, hend'⟩
    cases z <;> rfl

theorem advance_resumes (registry : Registry) {r r2 : Markup} {s2 : Session}
    (hregion : frame.region = .markup r) (h : Markup.Resumes (r.step s) (r2.step s2)) :
    Resumes (advance registry frame outer s)
      (advance registry { frame with region := .markup r2 } outer s2) := by
  unfold advance
  rw [hregion, bind_apply, bind_apply, step_markup, step_markup]
  rcases h with hsame | ⟨m, s3, n, huntracked, hlater, hnow⟩
  · rw [hsame]
    exact .inl rfl
  · -- the document ends, and only its end is still to be written
    have hfinish : Unread (.withMatch n) (Region.finish (.markup m)) := by
      show Unread (.withMatch n) m.finish
      unfold Markup.finish Chain.flush
      rw [huntracked]
      infer_instance
    have hend : Unread (.withMatch n) (endDocument { frame with region := .markup m } >>=
        fun faults => pure (([], faults) : List Frame × List Fault)) := inferInstance
    rw [hnow, hlater]
    refine .inr ⟨n, hend.later s3, ?_⟩
    rintro ⟨r, s4⟩ hr
    obtain ⟨faults, s5, -, hdone⟩ := bind_eq_ok.mp hr
    cases hdone
    rfl

/-- Each step of the run with trackers is matched by one of the other run, or it is a smaller one, after
which the other run may be taken up. -/
theorem advance_cases (registry : Registry) {source : Text} (hquiet : Tracker.Quiet source)
    (hwarn : s.settings.warnFallbacks = false) (hbase : s.cursor.base = 0)
    (hinput : s.cursor.input = source)
    (hescapes : frame'.region.escaped = true → s.cursor.past.head? = some '\\')
    (h : frame.Watched (Tracker.QuietAt source) s.cursor.position frame')
    (houter : List.Forall₂ (Frame.Watched (Tracker.QuietAt source) s.cursor.position) outer outer') :
    (Tandem (advance registry frame outer) (advance registry frame' outer') s fun r r' s1 =>
      r'.2 = r.2 ∧ ((r'.1 ≠ [] → s.cursor.position < s1.cursor.position) →
        (r.1.length = outer.length + 2 → Tracker.QuietAt source s1.cursor.position) →
          List.Forall₂ (Frame.Watched (Tracker.QuietAt source) s1.cursor.position) r.1 r'.1)) ∨
      ∃ frame2 frame2' s2, advance registry frame' outer' s = .ok ((frame2' :: outer', []), s2) ∧
        (∀ q, s.cursor.position < q → frame2.Watched (Tracker.QuietAt source) q frame2') ∧
        Resumes (advance registry frame outer s) (advance registry frame2 outer s2) := by
  have hregion := h.region
  generalize hr : frame.region = region at hregion
  generalize hr' : frame'.region = region' at hregion
  cases hregion with
  | same =>
    refine .inl (advance_watched registry h houter ?_)
    rw [hr, hr']
    exact .refl fun _ _ _ => ⟨rfl, fun q _ => .same _⟩
  | @idle r k untracked idle start begun since =>
    have hunmoved : k.Unmoved source r.chain.current s.cursor := by
      refine ⟨hbase, hinput, hquiet, start, begun, since, ?_⟩
      rw [hr'] at hescapes
      exact hescapes
    have hwatched : ∀ {m : Markup} {q : Nat}, m.statements = none → s.cursor.position < q →
        (Region.markup m).Watched (Tracker.QuietAt source) q (.markup (m.tracking k)) :=
      fun hm hq => .idle hm idle start (Nat.le_of_lt (Nat.lt_of_le_of_lt begun hq))
        (.inr (Nat.lt_of_le_of_lt begun hq))
    rcases Markup.step_idle untracked idle hunmoved hwarn with hstep | ⟨t, s2, hstep, hresumes⟩
    · refine .inl (advance_watched registry h houter ?_)
      rw [hr, hr']
      refine hstep.bind ?_
      rintro ⟨m, step⟩ _ s1 ⟨rfl, hm⟩
      exact .pure ⟨rfl, fun q hq => hwatched hm hq⟩
    · refine .inr ⟨{ frame with region := .markup { r with chain := r.chain.pushText t } },
        { frame' with region := .markup (.tracking k { r with chain := r.chain.pushText t }) }, s2,
        ?_, fun q hq => ⟨hwatched untracked hq, h.attributes, ?_⟩, advance_resumes registry hr hresumes⟩
      · have hsmall := step_markup (r.tracking k) s
        rw [hstep, ← hr'] at hsmall
        exact bind_of_ok hsmall rfl
      · conv_lhs => rw [h.others]

/-! ## Runs -/

/-- Two runs that show the same: the same code and warnings, or the same halt, with the same faults. -/
inductive Run.Matches : Run → Run → Prop where
  | done {s s' : Session} (output : s'.output = s.output) (warnings : s'.warnings = s.warnings)
      (faults : List Fault) : Matches (.done s faults) (.done s' faults)
  | halted (h : Halt) (faults : List Fault) : Matches (.halted h faults) (.halted h faults)

theorem Resumes.eq_error {h : Halt} (hx : Resumes x (.error h)) : x = .error h := by
  rcases hx with rfl | ⟨n, rfl, -⟩ <;> rfl

theorem Resumes.eq_ok (hx : Resumes x (.ok ((frames, faults), s))) :
    ∃ s', x = .ok ((frames, faults), s') ∧ s'.output = s.output ∧ s'.warnings = s.warnings ∧
      (frames ≠ [] → s' = s) := by
  rcases hx with rfl | ⟨n, rfl, hend⟩
  · exact ⟨s, rfl, rfl, rfl, fun _ => rfl⟩
  · exact ⟨s.withMatch n, rfl, rfl, rfl, fun hne => absurd (hend _ rfl) hne⟩

variable {registry : Registry} {settings : Settings} {source : Text} {n : Nat}

theorem run_of_ok {fuel : Nat} {more : List Fault} {s1 : Session}
    (h : advance registry frame outer s = .ok ((frames, more), s1)) :
    run registry (fuel + 1) (frame :: outer) faults s =
      run registry fuel frames (faults ++ more) s1 := by
  rw [run, h]

theorem run_of_error {fuel : Nat} {h : Halt} (hadvance : advance registry frame outer s = .error h) :
    run registry (fuel + 1) (frame :: outer) faults s = .halted h faults := by
  rw [run, hadvance]

theorem run_nil (fuel : Nat) (faults : List Fault) (s : Session) :
    run registry fuel [] faults s = .done s faults := by
  cases fuel <;> rfl

/-- A region begins with a step after which one more is open. -/
theorem enteredAt_succ {before : List Frame} {s0 : Session}
    (hbefore : stateAfter registry settings source n = some (before, s0))
    (hafter : stateAfter registry settings source (n + 1) = some (frame :: outer, s))
    (hlength : outer.length = before.length) :
    enteredAt registry settings source (n + 1) = some (frame, s) := by
  unfold enteredAt
  dsimp only
  rw [hbefore, hafter]
  exact if_pos hlength

theorem enteredAt_le (hn : enteredAt registry settings source n = some (frame, s)) :
    n ≤ source.length := by
  obtain ⟨outer, hopen, -⟩ := stateAfter_of_enteredAt hn
  have hlength := stateAfter_length hopen
  omega

/-- The cursor of a run stands at a place of the document, and a step brings it forward. -/
theorem advance_forward {s1 : Session}
    (hn : stateAfter registry settings source n = some (frame :: outer, s))
    (hadvance : advance registry frame outer s = .ok ((frames, faults), s1)) (hne : frames ≠ []) :
    s.cursor.position < s1.cursor.position := by
  obtain ⟨hholds, hframed⟩ := framed_stateAfter hn
  obtain ⟨hgoes, hadvanced⟩ := (advance_settles (stretch_expands settings source .split) registry
    hframed hholds).result _ _ hadvance
  exact hgoes.moved.position_lt (hadvanced.reads hne)

theorem quietAt_of_begins (hn : stateAfter registry settings source n = some (frames, s))
    (hbegins : Tracker.begins s.cursor.rest = false) :
    Tracker.QuietAt source s.cursor.position := by
  have hreads := (framed_stateAfter hn).1.cursor
  refine ⟨s.cursor.past.reverse, s.cursor.rest, hreads.text_eq, ?_, hbegins⟩
  rw [hreads.position_eq]
  exact Nat.zero_add _

/-- The two runs side by side. The run with trackers has come to a state from which the other run may be
taken up, after at most as many steps. -/
theorem run_watched {a : Attributes} (hwarn : settings.warnFallbacks = false)
    (hquiet : Tracker.Quiet source)
    (hregions : ∀ n frame s, enteredAt registry settings source n = some (frame, s) →
      Tracker.begins s.cursor.rest = false) {m n n' : Nat} {frame frame' frame0 : Frame}
    {outer outer' : List Frame} {s s0 : Session} {faults : List Fault}
    (hm : n' + m = source.length + 1)
    (hn' : stateAfter registry { settings with attributes := a } source n' =
      some (frame' :: outer', s.withAttributes a))
    (hn : stateAfter registry settings source n = some (frame0 :: outer, s0))
    (hresumes : Resumes (advance registry frame0 outer s0) (advance registry frame outer s))
    (hframes : List.Forall₂ (Frame.Watched (Tracker.QuietAt source) s.cursor.position)
      (frame :: outer) (frame' :: outer')) :
    Run.Matches (run registry m (frame' :: outer') faults (s.withAttributes a))
      (run registry (source.length + 1 - n) (frame0 :: outer) faults s0) := by
  induction m generalizing n n' frame frame' frame0 outer outer' s s0 faults with
  | zero =>
    have hlength := stateAfter_length hn'
    omega
  | succ m ih =>
    obtain ⟨hframe, houter⟩ := forall₂_cons.mp hframes
    obtain ⟨hholds, hreading, -⟩ := framed_stateAfter hn'
    have hsilent : s.settings.warnFallbacks = false := by
      have hsettings := congrArg Settings.warnFallbacks (ordered_stateAfter hn').settings
      exact hsettings.trans hwarn
    have hlater := Unread.later (φ := .withAttributes a) (x := advance registry frame' outer') s
    have hfuel : source.length + 1 - n = source.length - n + 1 := by
      have hlength := stateAfter_length hn
      omega
    rw [hfuel]
    rcases advance_cases registry hquiet hsilent hholds.cursor.base hholds.cursor.input
      hreading.escapes hframe houter with htandem | ⟨frame2, frame2', s2, hsmall, hwatched, hagain⟩
    · unfold Tandem at htandem
      generalize advance registry frame outer s = x at htandem hresumes
      generalize advance registry frame' outer' s = y at htandem hlater
      cases htandem with
      | error h =>
        rw [run_of_error hlater, run_of_error hresumes.eq_error]
        exact .halted h faults
      | @ok r r' s1 hpost =>
        obtain ⟨frames, more⟩ := r
        obtain ⟨frames', more'⟩ := r'
        obtain ⟨hmore, hpost⟩ := hpost
        subst hmore
        obtain ⟨s1', hstep, houtput, hwarnings, hsame⟩ := hresumes.eq_ok
        have hafter' := stateAfter_succ.mpr ⟨_, _, _, _, hn', hlater⟩
        have hafter := stateAfter_succ.mpr ⟨_, _, _, _, hn, hstep⟩
        have hstart : frames.length = outer.length + 2 →
            Tracker.QuietAt source s1.cursor.position := by
          intro hlength
          cases frames with
          | nil => cases hlength
          | cons child others =>
            obtain rfl := hsame (cons_ne_nil _ _)
            have hentered := enteredAt_succ hn hafter (Nat.succ.inj hlength)
            exact quietAt_of_begins hafter (hregions _ _ _ hentered)
        have hforward := advance_forward hn' hlater
        have hwatched := hpost hforward hstart
        rw [run_of_ok hlater, run_of_ok hstep]
        cases hwatched with
        | nil =>
          rw [run_nil, run_nil]
          exact .done (s := s1.withAttributes a) houtput hwarnings _
        | cons hchild hothers =>
          obtain rfl := hsame (cons_ne_nil _ _)
          rw [show source.length - n = source.length + 1 - (n + 1) by omega]
          exact ih (by omega) hafter' hafter (.refl _) (.cons hchild hothers)
    · rw [hsmall] at hlater
      have hlt := advance_forward hn' hlater (cons_ne_nil _ _)
      rw [run_of_ok hlater, append_nil, ← hfuel]
      exact ih (by omega) (stateAfter_succ.mpr ⟨_, _, _, _, hn', hlater⟩) hn
        (hresumes.trans hagain) (.cons (hwatched _ hlt) (watched_mono houter (Nat.le_of_lt hlt)))

def rootMode? (registry : Registry) (settings : Settings) : Option ModeSpec :=
  if settings.rootMode.isEmpty then registry.default else registry.lookup? settings.rootMode

theorem enterRoot_of_none (h : rootMode? registry s.settings = none) :
    enterRoot registry s = unknownMode registry s.settings.rootMode ⟨0, 0⟩ s := by
  unfold rootMode? at h
  refine bind_of_ok rfl ?_
  rw [h]

theorem enterRoot_of_some {spec : ModeSpec} (h : rootMode? registry s.settings = some spec) :
    enterRoot registry s =
      enter spec s.settings.attributes s.settings.attributes.dialect none (fun _ => pure ()) s := by
  unfold rootMode? at h
  refine bind_of_ok rfl ?_
  rw [h]

theorem enterRoot_watched (registry : Registry) (b : Bool) (s : Session) :
    ∃ y, Meet (fun root root' s1 => root.Watched (· = s1.cursor.position) s1.cursor.position root')
        (enterRoot registry s) y ∧
      enterRoot registry (s.withAttributes (s.settings.attributes.tracking b)) =
        y.map fun r => (r.1, r.2.withAttributes (s.settings.attributes.tracking b)) := by
  cases hspec : rootMode? registry s.settings with
  | none =>
    refine ⟨.error _, ?_, enterRoot_of_none hspec⟩
    rw [enterRoot_of_none hspec]
    exact .error _
  | some spec =>
    refine ⟨enter spec (s.settings.attributes.tracking b) s.settings.attributes.dialect none
      (fun _ => pure ()) s, ?_, ?_⟩
    · rw [enterRoot_of_some hspec]
      exact enter_watched spec s.settings.attributes b _ none fun _ _ _ _ _ => rfl
    · have hspec' : rootMode? registry
          (s.withAttributes (s.settings.attributes.tracking b)).settings = some spec := hspec
      exact (enterRoot_of_some hspec').trans (Unread.later s)

theorem process_watched (b : Bool) (hwarn : settings.warnFallbacks = false)
    (hquiet : Tracker.Quiet source)
    (hregions : ∀ n frame s, enteredAt registry settings source n = some (frame, s) →
      Tracker.begins s.cursor.rest = false) :
    Run.Matches
      (process registry { settings with attributes := settings.attributes.tracking b } source)
      (process registry settings source) := by
  obtain ⟨y, hmeet, hroot'⟩ := enterRoot_watched registry b (Session.start settings source)
  generalize hroot : enterRoot registry (Session.start settings source) = x at hmeet
  unfold process
  cases hmeet with
  | error h =>
    have hroot' : enterRoot registry (Session.start
        { settings with attributes := settings.attributes.tracking b } source) = .error h := hroot'
    rw [hroot, hroot']
    exact .halted h []
  | @ok root root' s hwatched =>
    have hroot' : enterRoot registry (Session.start
        { settings with attributes := settings.attributes.tracking b } source) =
          .ok (root', s.withAttributes (settings.attributes.tracking b)) := hroot'
    have hn := stateAfter_zero.mpr ⟨root, hroot, rfl⟩
    have hn' := stateAfter_zero.mpr ⟨root', hroot', rfl⟩
    have hentered : enteredAt registry settings source 0 = some (root, s) := by
      unfold enteredAt
      rw [hn]
    have hstart := quietAt_of_begins hn (hregions _ _ _ hentered)
    rw [hroot, hroot']
    refine run_watched hwarn hquiet hregions (Nat.zero_add _) hn' hn (.refl _) (.cons ?_ .nil)
    refine ⟨hwatched.region.imp ?_, hwatched.attributes, hwatched.others⟩
    rintro _ rfl
    exact hstart

end Document

def Settings.tracking (b : Bool) (settings : Settings) : Settings :=
  { settings with attributes := { settings.attributes with logic := b } }

open Document

/-- To recognize statements changes nothing in a document in which no line begins one, in no region, and
no closing brace is escaped. Braces that close nothing stay text, and so do keywords within a line and
the word `else`. -/
theorem compile_tracking (registry : Registry) (settings : Settings) (file : Nat) {source : Text}
    (hwarn : settings.warnFallbacks = false) (hquiet : Tracker.Quiet source)
    (hregions : ∀ n frame s,
      enteredAt registry (settings.tracking false) source n = some (frame, s) →
        Tracker.begins s.cursor.rest = false) :
    compileWith registry (settings.tracking true) file source =
      compileWith registry (settings.tracking false) file source := by
  have hmatches : Run.Matches (process registry (settings.tracking true) source)
      (process registry (settings.tracking false) source) := by
    have hsettings : settings.tracking true = { settings.tracking false with
        attributes := (settings.tracking false).attributes.tracking true } := rfl
    rw [hsettings]
    exact process_watched true hwarn hquiet hregions
  unfold compileWith
  generalize process registry (settings.tracking true) source = x,
    process registry (settings.tracking false) source = y at hmatches
  cases hmatches with
  | done houtput hwarnings faults =>
    cases faults with
    | nil =>
      dsimp only
      rw [houtput, hwarnings]
    | cons => rfl
  | halted h faults => rfl

/-- A brace that closes nothing, a lone `else` and keywords within a line stay as they are. -/
theorem compile_tracking_mixed :
    let source : Text := "a \x7d else\nan if<b>not for\x7d</b>"
    let settings : Settings := { rootMode := "html" }
    settings.warnFallbacks = false ∧ Tracker.Quiet source ∧
      (∀ n frame s, enteredAt .standard (settings.tracking false) source n = some (frame, s) →
        Tracker.begins s.cursor.rest = false) ∧
      compile (settings.tracking true) 0 source =
        .compiled ("__rt.chain(__context, [__rt.text, `a \x7d else\nan if`]);__rt.element(" ++
          "__context, \"b\", \x7b\x7d, __context => \x7b__rt.chain(__context, [__rt.text, " ++
          "`not for\x7d`]);\x7d);") [] := by
  intro source settings
  have hlines : ∀ t ∈ source.tails, t.head? = some '\n' → Tracker.begins t.tail = false := by
    decide +kernel +revert
  have hbraces : ¬['\\', '}'] <:+: source := by decide +kernel +revert
  have hentered : ∀ n ≤ source.length, ∀ e ∈ enteredAt .standard (settings.tracking false) source n,
      Tracker.begins e.2.cursor.rest = false := by
    decide +kernel +revert
  have hquiet : Tracker.Quiet source :=
    ⟨fun line hline => hlines ('\n' :: line) ((List.mem_tails _ _).mpr hline) rfl, hbraces⟩
  have hregions : ∀ n frame s,
      enteredAt .standard (settings.tracking false) source n = some (frame, s) →
        Tracker.begins s.cursor.rest = false := fun n frame s hn =>
    hentered n (enteredAt_le hn) (frame, s) hn
  refine ⟨rfl, hquiet, hregions, (compile_tracking .standard settings 0 rfl hquiet hregions).trans ?_⟩
  clear hlines hbraces hentered hquiet hregions
  decide +kernel +revert

end Patchwork
