import Patchwork.Proofs.Frames
import Patchwork.Proofs.Turns

/-!
# Invariants of regions

`enteredAt` gives the regions as they are when they have just begun, before anything in them has been
read. Every one comes from `enter` (`forall_enteredAt`).

A stylesheet has no child regions, so it is innermost as long as it is open. What holds when it begins
and is kept by its steps holds as long as it is read (`forall_stylesheetAfter`).
-/

namespace Patchwork

open Compile

namespace Document

variable {I : Region → Prop} {s : Session} {frame : Frame} {outer : List Frame}

theorem closeRegion_invariant
    (haccept : ∀ l r s, I r → Gives (Region.accept l r) s fun r' _ => I r')
    (h : ∀ frame ∈ outer, I frame.region) :
    Gives (closeRegion frame outer) s fun r _ => ∀ frame ∈ r.1, I frame.region := by
  refine closeRegion_frames (P := fun frames => ∀ frame ∈ frames, I frame.region) h ?_
  rintro link parent frames s rfl
  obtain ⟨hparent, hframes⟩ := List.forall_mem_cons.mp h
  refine (haccept link _ s hparent).mono fun region _ hregion => ?_
  exact List.forall_mem_cons.mpr ⟨hregion, hframes⟩

/-- What is written between the creation and the start of a region: nothing, or the front of its
element. -/
def IsFront (attributes : Attributes) (front : Region → Compile Unit) : Prop :=
  (front = fun _ => pure ()) ∨ ∃ tag, front = openElement tag attributes

variable {P : Frame → Session → Prop}

/-- What holds of every region that is entered holds of those that begin with a tag. -/
theorem openChild_entered
    (henter : ∀ spec attributes dialect tag front s, IsFront attributes front →
      Gives (enter spec attributes dialect tag front) s P)
    (registry : Registry) (parent : Frame) :
    Gives (openChild registry parent) s fun child s' => ∀ frame ∈ child, P frame s' := by
  refine (openChild_opening registry parent s).mono fun child s' h => ?_
  cases h with
  | comment _ _ h =>
    rintro _ ⟨⟩
    exact (henter _ _ _ _ _ _ (.inl rfl)).result _ _ h
  | element _ _ _ h =>
    rintro _ ⟨⟩
    exact (henter _ _ _ _ _ _ (.inr ⟨_, rfl⟩)).result _ _ h
  | empty => exact fun _ h => absurd h (Option.not_mem_none _)

/-! ## Regions that have just begun -/

/-- The region that has begun with a step, and the session then. The document itself has begun
before any steps. -/
def enteredAt (registry : Registry) (settings : Settings) (source : Text) :
    Nat → Option (Frame × Session)
  | 0 =>
    match stateAfter registry settings source 0 with
    | some (root :: _, s) => some (root, s)
    | _ => none
  | n + 1 =>
    match stateAfter registry settings source n, stateAfter registry settings source (n + 1) with
    | some (before, _), some (frame :: outer, s) =>
      if outer.length = before.length then some (frame, s) else none
    | _, _ => none

/-- A region that has just begun is the innermost one, and one more is open than before. -/
theorem stateAfter_of_enteredAt {registry : Registry} {settings : Settings} {source : Text}
    {n : Nat} (hn : enteredAt registry settings source n = some (frame, s)) :
    ∃ outer, stateAfter registry settings source n = some (frame :: outer, s) ∧
      ∀ m, n = m + 1 → ∃ before s0, stateAfter registry settings source m = some (before, s0) ∧
        outer.length = before.length := by
  unfold enteredAt at hn
  split at hn
  · split at hn
    next root outer s1 hroot =>
      cases hn
      exact ⟨outer, hroot, fun _ h => by cases h⟩
    · cases hn
  next n =>
    split at hn
    next before s0 child outer s' hbefore hafter =>
      split at hn
      next hlength =>
        cases hn
        refine ⟨outer, hafter, ?_⟩
        rintro _ ⟨⟩
        exact ⟨before, s0, hbefore, hlength⟩
      · cases hn
    · cases hn

theorem advance_entered
    (henter : ∀ spec attributes dialect tag front s, IsFront attributes front →
      Gives (enter spec attributes dialect tag front) s P)
    (registry : Registry) (frame : Frame) (outer : List Frame) :
    Gives (advance registry frame outer) s fun r s' =>
      r.1.length = outer.length + 2 → ∀ child ∈ r.1.head?, P child s' := by
  refine .after fun p s1 => ?_
  obtain ⟨region, step⟩ := p
  have hless {m : Nat} {p : Prop} (hm : m ≤ outer.length + 1) (h : m = outer.length + 2) : p := by
    omega
  cases step with
  | next => exact .pure (hless (Nat.le_refl _))
  | child =>
    refine (openChild_entered henter registry _).bind fun child s2 hchild => ?_
    cases child with
    | none => exact .pure (hless (Nat.le_refl _))
    | some child => exact .pure fun _ => hchild
  | close =>
    refine (closeRegion_frames (P := (·.length = outer.length)) rfl ?_).mono fun r s2 hr =>
      hless (hr ▸ Nat.le_succ _)
    rintro link parent frames s rfl
    exact (Agree.any _ s).mono fun _ _ _ => rfl
  | eof => exact .after fun _ s2 => .pure (hless (Nat.zero_le _))

theorem forall_enteredAt
    (henter : ∀ spec attributes dialect tag front s, IsFront attributes front →
      Gives (enter spec attributes dialect tag front) s P)
    {registry : Registry} {settings : Settings} {source : Text} {n : Nat}
    (hn : enteredAt registry settings source n = some (frame, s)) : P frame s := by
  obtain ⟨outer, hafter, hbefore⟩ := stateAfter_of_enteredAt hn
  cases n with
  | zero =>
    obtain ⟨root, hroot, ⟨⟩⟩ := stateAfter_zero.mp hafter
    exact (enterRoot_of fun _ _ => henter _ _ _ _ _ _ (.inl rfl)).result _ _ hroot
  | succ n =>
    obtain ⟨last, rest, s0, faults, hstate, hadvance⟩ := stateAfter_succ.mp hafter
    obtain ⟨before, s1, hbefore, hlength⟩ := hbefore n rfl
    cases hstate.symm.trans hbefore
    refine (advance_entered henter registry _ _).result _ _ hadvance ?_ _ rfl
    exact congrArg (· + 1) hlength

end Document

/-! ## Stylesheets -/

def Region.stylesheet? : Region → Option Stylesheet
  | stylesheet r => some r
  | code _ | markup _ | script _ | comment _ => none

def Stylesheet.created (attributes : Attributes) (m at_ : Nat) : Stylesheet where
  statements := { regionStart := at_, wraps := false }
  root := ⟨"__s" ++ Text.ofNat m, (Style.Sheet.scope {} attributes.scope).2⟩
  sheet := (Style.Sheet.scope {} attributes.scope).1
  folds := !attributes.ownScope
  selector := attributes.scope
  ownScope := attributes.ownScope

namespace Document

theorem create_stylesheet (spec : ModeSpec) (attributes : Attributes) (s : Session) :
    Gives (Region.create spec attributes) s fun region s' =>
      ∀ r ∈ region.stylesheet?, ∃ m < s'.output.nextVar, ∃ at_,
        r = Stylesheet.created attributes m at_ := by
  have hnone {P : Stylesheet → Prop} : ∀ r ∈ (none : Option Stylesheet), P r :=
    fun _ h => absurd h (Option.not_mem_none _)
  refine .after fun _ s1 => ?_
  split
  · exact .pure hnone
  · exact .after fun _ s2 => .pure hnone
  · exact .after fun _ s2 => .pure hnone
  · exact .after fun _ s2 => .pure hnone
  · have hcreate : Gives (Stylesheet.create attributes) s1
        fun r s2 => ∃ m < s2.output.nextVar, ∃ at_, r = Stylesheet.created attributes m at_ :=
      .of_eq rfl ⟨_, Nat.lt_succ_self _, _, rfl⟩
    refine hcreate.bind fun r s2 hr => .pure ?_
    rintro _ ⟨⟩
    exact hr
  · exact .pure hnone

/-- A stylesheet that has just begun is as it was created, but for its place in the output. -/
theorem enter_stylesheet (spec : ModeSpec) (attributes : Attributes) (dialect : Option Dialect)
    (tag : Option OpenTag) (front : Region → Compile Unit) (s : Session) :
    Gives (enter spec attributes dialect tag front) s fun frame _ =>
      ∀ r ∈ frame.region.stylesheet?, ∃ m at_ mark head,
        r = { Stylesheet.created attributes m at_ with mark, head } := by
  refine enter_of ((create_stylesheet spec attributes _).mono fun region s1 hregion => ?_)
  refine (Agree.any _ s1).mono fun _ s2 _ => ?_
  cases region with
  | stylesheet r =>
    obtain ⟨m, -, at_, rfl⟩ := hregion r rfl
    have hstart : Gives (Stylesheet.created attributes m at_).start s2.marked fun r' _ =>
        ∃ mark head, r' = { Stylesheet.created attributes m at_ with mark, head } :=
      .after fun mark s3 => .after fun o s4 => .after fun _ s5 => .after fun head s6 =>
        .pure ⟨mark, some head, rfl⟩
    refine hstart.bind fun r' s3 hr => .pure ?_
    rintro _ ⟨⟩
    exact ⟨m, at_, hr⟩
  | code | markup | script | comment => exact .pure fun _ h => absurd h (Option.not_mem_none _)

theorem step_stylesheet? {region : Region} (h : region.stylesheet? = none) :
    Gives region.step s fun p _ => p.1.stylesheet? = none := by
  cases region with
  | stylesheet r => cases h
  | code | markup | script | comment => exact .after fun p s1 => .pure rfl

theorem accept_stylesheet? (l : Link) (region : Region) (s : Session)
    (h : region.stylesheet? = none) :
    Gives (region.accept l) s fun region' _ => region'.stylesheet? = none := by
  cases region with
  | stylesheet r => cases h
  | markup => exact .after fun r s1 => .pure rfl
  | code | script | comment => exact .after fun o s1 => .after fun _ s2 => .pure rfl

/-- If a stylesheet is open it is innermost, and it has a property. -/
structure Innermost (P : Stylesheet → Session → Prop) (frames : List Frame) (s : Session) :
    Prop where
  innermost : ∀ frame ∈ frames.head?, ∀ r ∈ frame.region.stylesheet?, P r s
  outer : ∀ frame ∈ frames.tail, frame.region.stylesheet? = none

/-- The stylesheet that is read on with the next step after a number of them, and the session. -/
def stylesheetAfter (registry : Registry) (settings : Settings) (source : Text) (n : Nat) :
    Option (Stylesheet × Session) :=
  match stateAfter registry settings source n with
  | some (frame :: _, s) =>
    match frame.region with
    | .stylesheet r => some (r, s)
    | _ => none
  | _ => none

section

variable {P : Stylesheet → Session → Prop} {registry : Registry} {settings : Settings}
  {source : Text} {n : Nat} {frames : List Frame} {r : Stylesheet}

theorem Innermost.of_none (h : ∀ frame ∈ frames, frame.region.stylesheet? = none) :
    Innermost P frames s where
  innermost frame hframe r hr := by
    rw [h frame (List.mem_of_mem_head? hframe)] at hr
    cases hr
  outer frame hframe := h frame (List.mem_of_mem_tail hframe)

theorem stylesheetAfter_eq_some
    (hn : stylesheetAfter registry settings source n = some (r, s)) :
    ∃ frame outer, stateAfter registry settings source n = some (frame :: outer, s) ∧
      frame.region = .stylesheet r := by
  unfold stylesheetAfter at hn
  split at hn
  next frame outer s0 hstate =>
    split at hn
    next r0 hregion =>
      cases hn
      exact ⟨frame, outer, hstate, hregion⟩
    · cases hn
  · cases hn

theorem sound_stylesheetAfter
    (hn : stylesheetAfter registry settings source n = some (r, s)) :
    ∃ old front, r.Sound old front s := by
  obtain ⟨frame, outer, hstate, hregion⟩ := stylesheetAfter_eq_some hn
  obtain ⟨front, -, hsound, -⟩ := (sound_stateAfter hstate).uncons
  rw [hregion] at hsound
  exact ⟨_, front, hsound.formed, hsound.inZone⟩

variable (hbegun : ∀ attributes m at_ mark head s,
    P { Stylesheet.created attributes m at_ with mark, head } s)
  (hstep : ∀ {r : Stylesheet} {old front s}, r.Sound old front s → P r s →
    Gives r.step s fun p s' => P p.1 s')
include hbegun

theorem enter_innermost (spec : ModeSpec) (attributes : Attributes) (dialect : Option Dialect)
    (tag : Option OpenTag) (front : Region → Compile Unit) (s : Session) :
    Gives (enter spec attributes dialect tag front) s fun frame s' =>
      ∀ r ∈ frame.region.stylesheet?, P r s' := by
  refine (enter_stylesheet spec attributes dialect tag front s).mono fun frame s' h r hr => ?_
  obtain ⟨m, at_, mark, head, rfl⟩ := h r hr
  exact hbegun ..

include hstep

theorem advance_innermost (hs : Sound (frame :: outer) s) (h : Innermost P (frame :: outer) s) :
    Gives (advance registry frame outer) s fun r s' => Innermost P r.1 s' := by
  obtain ⟨front, -, hsound, -⟩ := hs.uncons
  have hstep : Gives frame.region.step s fun p s' =>
      (∀ r ∈ p.1.stylesheet?, P r s') ∧ (p.2 = .child → p.1.stylesheet? = none) := by
    cases hregion : frame.region with
    | stylesheet r =>
      rw [hregion] at hsound
      have hr : P r s := h.innermost frame rfl r (congrArg Region.stylesheet? hregion)
      refine ((hstep ⟨hsound.formed, hsound.inZone⟩ hr).and (r.step_childless s)).bind ?_
      rintro ⟨r', step⟩ s1 ⟨hr', hchildless⟩
      refine .pure ⟨?_, fun hchild => absurd hchild hchildless⟩
      rintro _ ⟨⟩
      exact hr'
    | code | markup | script | comment =>
      refine (step_stylesheet? rfl).mono fun p s' hp => ⟨fun r hr => ?_, fun _ => hp⟩
      rw [hp] at hr
      cases hr
  refine hstep.bind ?_
  rintro ⟨region, step⟩ s1 ⟨hregion, hchild⟩
  cases step with
  | next =>
    refine .pure ⟨?_, h.outer⟩
    rintro _ ⟨⟩
    exact hregion
  | child =>
    refine (openChild_entered (fun _ _ _ _ _ _ _ => enter_innermost hbegun ..) registry _).bind ?_
    intro child s2 h2
    have houter : ∀ other ∈ ({ frame with region } : Frame) :: outer,
        other.region.stylesheet? = none := List.forall_mem_cons.mpr ⟨hchild rfl, h.outer⟩
    cases child with
    | none => exact .pure (.of_none houter)
    | some child => exact .pure ⟨h2, houter⟩
  | close =>
    exact (closeRegion_invariant accept_stylesheet? h.outer).mono fun r s2 hr => .of_none hr
  | eof => exact .after fun _ s2 => .pure (.of_none fun _ h => absurd h List.not_mem_nil)

/-- What holds of every stylesheet that has just begun, and is kept by its steps, holds of every
stylesheet that a run comes to. -/
theorem forall_stylesheetAfter (hn : stylesheetAfter registry settings source n = some (r, s)) :
    P r s := by
  obtain ⟨frame, outer, hstate, hregion⟩ := stylesheetAfter_eq_some hn
  have h : Innermost P (frame :: outer) s := by
    refine forall_stateAfter (fun root s hroot => ?_) (fun _ _ _ _ _ _ hn h hadvance =>
      (advance_innermost hbegun hstep (sound_stateAfter hn) h).result _ _ hadvance) hstate
    refine ⟨?_, fun _ h => absurd h List.not_mem_nil⟩
    rintro _ ⟨⟩
    exact (enterRoot_of fun _ _ => enter_innermost hbegun ..).result _ _ hroot
  exact h.innermost frame rfl r (congrArg Region.stylesheet? hregion)

end

end Document

end Patchwork
