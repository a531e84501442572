import Patchwork.Document
import Patchwork.Proofs.ParallelRegions

/-!
# The dialect does not decide about documents

A document is compiled for one dialect and for the other. The two runs open and close the same
regions at the same places, and the regions that are open stay alike (`Frame.Alike`). So one run
comes to a halt where the other does, with the same fault, and every warning is given by both.

The slots that are without a value at the end of a region are found in the code, which is not the
same on both sides. But they are the slots that the region waits for (`advance_agree`), and regions
that are alike wait with the same faults (`Region.map_snd_waiting_eq`).

Main result: `verdict_same_in_dialects`. Without its code, what comes of a document is the same in
both dialects.
-/

namespace Patchwork

open Compile Region

/-! ## Tags -/

namespace StartTag

/-- Two tags that are the same but for the code of the element's attributes. -/
structure Alike (tag tag' : StartTag) : Prop where
  name : tag'.name = tag.name
  span : tag'.span = tag.span
  region : tag'.region = tag.region
  selfClosing : tag'.selfClosing = tag.selfClosing

theorem valueSource_parallel (name : Text) (start : Nat) (value : RawValue) :
    Parallel (valueSource name start value) (valueSource name start value) fun _ _ => True := by
  cases value with
  | flag | text => exact .pure trivial
  | expression t =>
    refine (expand_alike _ _ _).bind fun e e' he => ?_
    rw [show e'.reactive = e.reactive from he]
    split
    · exact .output fun _ _ _ => .pure trivial
    · exact .pure trivial

variable {tag tag' : StartTag}

theorem readAttribute_parallel (h : tag.Alike tag') :
    Parallel tag.readAttribute tag'.readAttribute Alike := by
  refine .after fun start => .after fun isRegion => ?_
  refine .after fun name => ?_
  extract_lets rest rest'
  have hrest : ∀ u, Parallel (rest u) (rest' u) Alike := by
    intro u
    refine .after fun value => .after fun stop => ?_
    split
    · refine .pure ⟨h.name, h.span, ?_, h.selfClosing⟩
      exact congrArg (· ++ [⟨name, value, ⟨start, stop⟩⟩]) h.region
    refine (valueSource_parallel name start value).bind fun _ _ _ => .pure ?_
    exact ⟨h.name, h.span, h.region, h.selfClosing⟩
  split
  · exact .after fun c => (Parallel.fail _ _ _).same hrest
  · exact hrest ()

theorem readAttributes_parallel (h : tag.Alike tag') (fuel : Nat) :
    Parallel (tag.readAttributes fuel) (tag'.readAttributes fuel) Alike := by
  induction fuel generalizing tag tag' with
  | zero => exact .throw _
  | succ fuel ih =>
    refine .after fun _ => .after fun empty => ?_
    split
    · exact .pure ⟨h.name, h.span, h.region, rfl⟩
    refine .after fun ends => ?_
    split
    · exact .pure h
    refine .after fun c => ?_
    split
    · rw [h.name, h.span]
      exact .fail _ _ _
    · exact (readAttribute_parallel h).bind fun _ _ h => ih h

theorem read_parallel (at_ : Nat) : Parallel (read at_) (read at_) Alike := by
  refine .after fun name => .after fun stop => ?_
  exact .after fun c => readAttributes_parallel ⟨rfl, rfl, rfl, rfl⟩ _

end StartTag

/-! ## Steps of the loop -/

/-- Two open regions that return to the same when they end, the dialect aside. -/
structure Frame.Alike (frame frame' : Frame) : Prop where
  region : frame.region.Alike frame'.region
  attributes : frame'.attributes = frame.attributes
  tag : frame'.tag = frame.tag
  savedOptions : frame'.savedOptions = frame.savedOptions

namespace Document

theorem enter_parallel (spec : ModeSpec) (attributes : Attributes) (dialect : Option Dialect)
    (tag : Option OpenTag) {front front' : Region → Compile Unit}
    (hfront : ∀ r r', Region.Alike r r' → Parallel (front r) (front' r') Eq) :
    Parallel (enter spec attributes dialect tag front) (enter spec attributes dialect tag front')
      Frame.Alike := by
  refine .get fun s s' hs => ?_
  extract_lets rest rest'
  have hrest : ∀ u, Parallel (rest u) (rest' u) Frame.Alike := by
    intro u
    refine (create_parallel spec attributes).bind fun r r' hr => ?_
    refine (hfront r r' hr).same fun _ => ?_
    refine .onOutput (fun _ => ⟨rfl, rfl⟩) (fun _ => ⟨rfl, rfl⟩) fun _ _ => ?_
    refine (start_parallel hr).bind fun r r' hr => .pure ⟨hr, rfl, rfl, ?_⟩
    exact congrArg Cursor.options hs.cursor
  split
  next dialect =>
    have hdialect : Parallel (modifyOutput fun o => { o with dialect })
        (modifyOutput fun o => { o with dialect }) Eq :=
      .modifyOutput (fun _ _ h => ⟨h.names, h.scopes⟩) fun _ _ hn => ⟨hn.names, hn.scopes⟩
    exact hdialect.same hrest
  · exact hrest ()

variable (registry : Registry) (attributes : Attributes)

theorem enterRoot_parallel : Parallel (enterRoot registry) (enterRoot registry) Frame.Alike := by
  refine .get fun s s' hs => ?_
  obtain ⟨dialect, hsettings⟩ := hs.settings
  rw [hsettings]
  dsimp only
  generalize (if s.settings.rootMode.isEmpty then registry.default
    else registry.lookup? s.settings.rootMode) = mode
  cases mode with
  | none => exact .fail _ _ _
  | some spec => exact enter_parallel _ _ _ _ fun _ _ _ => .pure rfl

theorem chooseMode_parallel {tag tag' : StartTag} (h : tag.Alike tag') (attributes : Attributes) :
    Parallel (chooseMode registry tag attributes) (chooseMode registry tag' attributes) Eq := by
  unfold chooseMode
  rw [h.name, h.span, h.region]
  split
  · split
    · exact .pure rfl
    · exact .fail _ _ _
  split
  · exact .pure rfl
  · exact .pure rfl
  · exact .fail _ _ _

theorem reportLeftovers_parallel (used : List AttributeKey) (cause : Text → Cause) :
    Parallel (reportLeftovers attributes used cause) (reportLeftovers attributes used cause)
      Eq := by
  unfold reportLeftovers
  generalize attributes.leftovers used = left
  induction left with
  | nil => exact .pure rfl
  | cons entry left ih => exact .after fun _ => ih

theorem openElement_parallel (tag tag' : StartTag) (attributes : Attributes) {r r' : Region}
    (hr : r.Alike r') :
    Parallel (openElement tag attributes r) (openElement tag' attributes r') Eq := by
  unfold openElement
  rw [usedAttributes_eq hr, name_eq hr]
  refine (reportLeftovers_parallel _ _ _).same fun _ => .get fun s s' hs => ?_
  obtain ⟨dialect, hsettings⟩ := hs.settings
  rw [hsettings]
  refine .after fun _ => ?_
  exact .modifyOutput (fun _ _ h => Code.startFunction_alike h _)
    fun _ _ hn => Code.startFunction_named hn _

variable {frame frame' : Frame} {outer outer' : List Frame}

theorem openChild_parallel (h : frame.Alike frame') :
    Parallel (openChild registry frame) (openChild registry frame') (Option.Rel Frame.Alike) := by
  unfold openChild
  rw [h.attributes]
  refine .after fun at_ => .after fun comment => ?_
  split
  · refine .after fun stop => ?_
    split
    · exact .fail _ _ _
    · refine (enter_parallel _ _ _ _ fun _ _ _ => .pure rfl).bind fun _ _ h => .pure (.some h)
  refine (StartTag.read_parallel _).bind fun tag tag' htag => ?_
  rw [htag.region, htag.selfClosing, htag.name, htag.span]
  split
  · exact .throw _
  next attributes _ =>
    refine (chooseMode_parallel registry htag attributes).same fun spec => ?_
    split
    · refine (reportLeftovers_parallel _ _ _).same fun _ => .output fun _ _ _ => ?_
      exact .after fun _ => .pure .none
    refine (enter_parallel _ _ _ _ fun _ _ => openElement_parallel tag tag' _).bind ?_
    exact fun _ _ h => .pure (.some h)

/-- A text that is only code may be written on one side alone. -/
theorem emitSome_parallel (t t' : Option Text) : Parallel (emitSome t) (emitSome t') Eq := by
  have hsilent : ∀ t, Silent (emitSome t) fun _ => True := by
    rintro (_ | t)
    · exact .pure trivial
    · exact .emit t
  exact (hsilent t).parallel (hsilent t') fun _ _ _ _ => rfl

/-- The end of a region. The slots without a value are looked for in the code on each side. -/
theorem leave_parallel (h : frame.Alike frame') :
    Parallel (leave frame) (leave frame') fun _ _ => True := by
  rw [leave_eq, leave_eq, h.tag]
  refine (finish_parallel h.region).same fun _ => .output fun o o' _ => ?_
  refine (emitSome_parallel _ _).same fun _ => ?_
  refine .onOutput (fun _ => ⟨rfl, rfl⟩) (fun _ => ⟨rfl, rfl⟩) fun _ _ => ?_
  refine .output fun o o' _ => (emitSome_parallel _ _).same fun _ => ?_
  refine Parallel.bind (P := Eq) ?_ fun _ _ _ => .pure trivial
  intro names s s' hs hn
  refine .ok rfl ⟨?_, hs.warnings, hs.settings, hs.output.names, hs.output.scopes⟩
    ⟨hn.names, hn.scopes⟩
  dsimp only
  rw [h.savedOptions, hs.cursor]

theorem closeTag_parallel (tag : OpenTag) : Parallel (closeTag tag) (closeTag tag) Eq := by
  refine .after fun at_ => .after fun name => ?_
  split
  · exact .after fun stop => .fail _ _ _
  · exact .pure rfl

theorem link?_alike (o o' : Output) {r r' : Region} (h : r.Alike r') :
    Option.Rel (fun _ _ => True) (r.link? o) (r'.link? o') := by
  cases h with
  | comment => exact .some trivial
  | code | markup | script | stylesheet => exact .none

theorem closeRegion_parallel (h : frame.Alike frame')
    (houter : List.Forall₂ Frame.Alike outer outer') :
    Parallel (closeRegion frame outer) (closeRegion frame' outer')
      fun r r' => List.Forall₂ Frame.Alike r.1 r'.1 := by
  unfold closeRegion
  rw [h.tag]
  split
  · refine .after fun at_ => .after fun name => ?_
    exact .after fun stop => .fail _ _ _
  next tag _ =>
    split
    · refine (closeTag_parallel tag).same fun _ => (leave_parallel h).bind fun _ _ _ => ?_
      refine (Parallel.modifyOutput (fun _ _ ho => Code.endScope_alike ho)
        fun _ _ hn => Code.endScope_named hn).same fun _ => ?_
      exact .after fun _ => .pure houter
    refine .output fun o o' _ => (leave_parallel h).bind fun _ _ _ => ?_
    have hlink := link?_alike o o' h.region
    generalize frame.region.link? o = link, frame'.region.link? o' = link' at hlink ⊢
    cases hlink with
    | none => exact .pure houter
    | @some link link' _ =>
      cases houter with
      | nil => exact .pure .nil
      | cons hparent hframes =>
        refine (accept_parallel hparent.region link link').bind fun _ _ hr => .pure ?_
        exact .cons ⟨hr, hparent.attributes, hparent.tag, hparent.savedOptions⟩ hframes

theorem endDocument_parallel (h : frame.Alike frame') :
    Parallel (endDocument frame) (endDocument frame') fun _ _ => True := by
  unfold endDocument
  rw [h.tag]
  split
  · exact leave_parallel h
  · exact .fail _ _ _

theorem advance_parallel (h : frame.Alike frame') (houter : List.Forall₂ Frame.Alike outer outer') :
    Parallel (advance registry frame outer) (advance registry frame' outer')
      fun r r' => List.Forall₂ Frame.Alike r.1 r'.1 := by
  refine (step_parallel h.region).bind ?_
  rintro ⟨region, step⟩ ⟨region', _⟩ ⟨hregion, ⟨⟩⟩
  have h1 : Frame.Alike { frame with region } { frame' with region := region' } :=
    ⟨hregion, h.attributes, h.tag, h.savedOptions⟩
  cases step with
  | next => exact .pure (.cons h1 houter)
  | child =>
    refine (openChild_parallel registry h1).bind fun child child' hchild => ?_
    cases hchild with
    | none => exact .pure (.cons h1 houter)
    | some hchild => exact .pure (.cons hchild (.cons h1 houter))
  | close => exact closeRegion_parallel h1 houter
  | eof => exact (endDocument_parallel h1).bind fun _ _ _ => .pure .nil

/-- A step leaves regions that are alike, in both states of the loop, and finds the same slots
without a value. -/
theorem advance_ends (h : frame.Alike frame') (houter : List.Forall₂ Frame.Alike outer outer')
    {N : Names} {s s' : Session} (hs : s.Alike s') (hn : s.output.Named N)
    (hsound : Sound (frame :: outer) s) (hsound' : Sound (frame' :: outer') s') :
    Ends N (fun r r' => List.Forall₂ Frame.Alike r.1 r'.1 ∧ r'.2 = r.2)
      (advance registry frame outer s) (advance registry frame' outer' s') := by
  have hends := advance_parallel registry h houter N s s' hs hn
  cases hadvance : advance registry frame outer s with
  | error halt =>
    rw [hadvance] at hends
    generalize advance registry frame' outer' s' = end' at hends ⊢
    cases hends with
    | error => exact .error halt
  | ok r =>
    cases hadvance' : advance registry frame' outer' s' with
    | error halt => rw [hadvance, hadvance'] at hends; cases hends
    | ok r' =>
      rw [hadvance, hadvance'] at hends
      cases hends with
      | @ok r r' s1 s1' hframes hs1 hn1 =>
        refine .ok ⟨hframes, ?_⟩ hs1 hn1
        obtain ⟨-, -, region, step, s2, hstep, -, hfaults⟩ :=
          (advance_agree (h := .spent) registry hsound).result _ _ hadvance
        obtain ⟨-, -, region', step', s2', hstep', -, hfaults'⟩ :=
          (advance_agree (h := .spent) registry hsound').result _ _ hadvance'
        have hsteps := step_parallel h.region N s s' hs hn
        rw [hstep, hstep'] at hsteps
        cases hsteps with
        | ok hregion =>
          obtain ⟨hregion, rfl⟩ := hregion
          rw [hfaults, hfaults', map_snd_waiting_eq hregion]

/-! ## Runs -/

/-- Two runs that have come to the same end. -/
inductive Run.Alike : Run → Run → Prop where
  | done {s s' : Session} (faults : List Fault) (hs : s.Alike s') :
      Alike (.done s faults) (.done s' faults)
  | halted (h : Halt) (faults : List Fault) : Alike (.halted h faults) (.halted h faults)

theorem run_alike {N : Names} (fuel : Nat) {frames frames' : List Frame} {faults : List Fault}
    {s s' : Session} (hframes : List.Forall₂ Frame.Alike frames frames') (hs : s.Alike s')
    (hn : s.output.Named N) (hsound : Sound frames s) (hsound' : Sound frames' s') :
    (run registry fuel frames faults s).Alike (run registry fuel frames' faults s') := by
  induction fuel generalizing frames frames' faults s s' with
  | zero =>
    cases hframes with
    | nil => exact .done faults hs
    | cons => exact .halted .spent faults
  | succ fuel ih =>
    cases hframes with
    | nil => exact .done faults hs
    | @cons frame frame' outer outer' hframe houter =>
      have hends := advance_ends registry hframe houter hs hn hsound hsound'
      have hkeeps := (advance_agree (h := .spent) registry hsound).result
      have hkeeps' := (advance_agree (h := .spent) registry hsound').result
      unfold run
      generalize advance registry frame outer s = end1,
        advance registry frame' outer' s' = end2 at hends hkeeps hkeeps' ⊢
      cases hends with
      | error halt => exact .halted halt faults
      | @ok r r' s1 s1' hr hs1 hn1 =>
        obtain ⟨frames1', _⟩ := r'
        obtain ⟨hframes1, rfl⟩ := hr
        exact ih hframes1 hs1 hn1 (hkeeps _ _ rfl).1 (hkeeps' _ _ rfl).1

theorem process_alike (settings : Settings) (dialect dialect' : Dialect) (source : Text) :
    (process registry { settings with dialect } source).Alike
      (process registry { settings with dialect := dialect' } source) := by
  have hs : (Session.start { settings with dialect } source).Alike
      (Session.start { settings with dialect := dialect' } source) :=
    ⟨rfl, rfl, ⟨dialect', rfl⟩, rfl, rfl⟩
  have hends := enterRoot_parallel registry settings.names _ _ hs ⟨rfl, nofun⟩
  have hsound : ∀ settings root s,
      enterRoot registry (Session.start settings source) = .ok (root, s) → Sound [root] s :=
    fun _ _ _ => sound_enterRoot
  have hsound1 := hsound { settings with dialect }
  have hsound2 := hsound { settings with dialect := dialect' }
  unfold process
  generalize enterRoot registry (Session.start { settings with dialect } source) = end1,
    enterRoot registry (Session.start { settings with dialect := dialect' } source) = end2
    at hends hsound1 hsound2 ⊢
  cases hends with
  | error halt => exact .halted halt []
  | ok hroot hs1 hn1 =>
    exact run_alike registry _ (.cons hroot .nil) hs1 hn1 (hsound1 _ _ rfl) (hsound2 _ _ rfl)

end Document

def Outcome.withoutCode : Outcome → Outcome
  | .compiled _ warnings => .compiled [] warnings
  | .rejected errors => .rejected errors
  | .stopped => .stopped

/-- A document compiles in both dialects or in neither. If it does not, the errors are the same, and
if it does, the warnings are. -/
theorem Document.verdict_same_in_dialects (registry : Registry) (settings : Settings) (file : Nat)
    (source : Text) :
    (compileWith registry { settings with dialect := .modern } file source).withoutCode =
      (compileWith registry { settings with dialect := .legacy } file source).withoutCode := by
  have hruns := process_alike registry settings .modern .legacy source
  unfold compileWith
  generalize process registry { settings with dialect := .modern } source = run,
    process registry { settings with dialect := .legacy } source = run' at hruns ⊢
  cases hruns with
  | halted halt faults => rfl
  | done faults hs =>
    cases faults with
    | nil =>
      exact congrArg (fun warnings => Outcome.compiled [] (warnings.map (⟨·, file⟩)))
        hs.warnings.symm
    | cons => rfl

end Patchwork
