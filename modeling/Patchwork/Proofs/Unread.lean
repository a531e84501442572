import Patchwork.Proofs.TagTexts

/-!
# What is never read

A change of the session that a computation takes no notice of may be made before the computation or
after it: `Unread φ x`. Two changes matter. The attributes of the document itself are read when the
document is entered, and after that never again (`Session.withAttributes`); regions carry attributes
of their own. And at the end of a document nobody asks any more where a search has last found
something (`Session.withMatch`).

Like `Keeps`, it is found by instance search: what is made of acts reads no attributes of the
document.
-/

namespace Patchwork

open Compile

set_option synthInstance.maxSize 512

/-- The session with another place where something was found last. -/
def Session.withMatch (n : Nat) (s : Session) : Session :=
  { s with cursor := { s.cursor with lastMatch := n } }

/-- A change of the session that has nothing to do with the output, or with what searches pass
over. -/
class Session.Apart (φ : Session → Session) : Prop where
  output : ∀ s, (φ s).output = s.output
  update : ∀ s o, φ { s with output := o } = { φ s with output := o }
  options : ∀ s o, φ { s with cursor := { s.cursor with options := o } } =
    { φ s with cursor := { (φ s).cursor with options := o } }

instance (a : Attributes) : Session.Apart (.withAttributes a) :=
  ⟨fun _ => rfl, fun _ _ => rfl, fun _ _ => rfl⟩

instance (n : Nat) : Session.Apart (.withMatch n) :=
  ⟨fun _ => rfl, fun _ _ => rfl, fun _ _ => rfl⟩

/-- A computation that takes no notice of a change of the session. -/
class Unread {α : Type} (φ : Session → Session) (x : Compile α) : Prop where
  later : ∀ s, x (φ s) = (x s).map fun r => (r.1, φ r.2)

namespace Unread

variable {α β : Type} {φ : Session → Session}

theorem bind {x : Compile α} {f : α → Compile β} [hx : Unread φ x] (hf : ∀ a, Unread φ (f a)) :
    Unread φ (x >>= f) where
  later s := by
    rw [bind_apply, bind_apply, hx.later s]
    cases x s with
    | error h => rfl
    | ok r => exact (hf r.1).later r.2

instance (x : Compile α) (f : α → Compile β) [Unread φ x] [hf : ∀ a, Unread φ (f a)] :
    Unread φ (x >>= f) :=
  bind hf

instance (a : α) : Unread φ (pure a) :=
  ⟨fun _ => rfl⟩

instance (p : Prop) [Decidable p] (x y : Compile α) [Unread φ x] [Unread φ y] :
    Unread φ (if p then x else y) := by
  split <;> infer_instance

instance (h : Halt) : Unread φ (throw h : Compile α) :=
  ⟨fun _ => rfl⟩

instance (cause : Cause) (start stop : Nat) : Unread φ (fail cause start stop : Compile α) :=
  ⟨fun _ => rfl⟩

/-- A computation may look at the session, if it does not look at what is changed. -/
theorem get {f : Session → Compile α} (hf : ∀ s, Unread φ (f s)) (hsame : ∀ s, f (φ s) = f s) :
    Unread φ (MonadState.get >>= f) where
  later s := by
    show f (φ s) (φ s) = _
    rw [hsame]
    exact (hf s).later s

theorem of_modify {step : Session → Session} (hstep : ∀ s, step (φ s) = φ (step s)) :
    Unread φ (modify step : Compile PUnit) where
  later s := by
    show Except.ok (PUnit.unit, step (φ s)) = Except.ok (PUnit.unit, φ (step s))
    rw [hstep]

/-! ## Elementary steps -/

section

variable [hφ : Session.Apart φ]

instance : Unread φ output :=
  get (fun _ => inferInstance) fun s => by rw [hφ.output]

instance (step : Output → Output × α) : Unread φ (onOutput step) where
  later s := by
    show Except.ok ((step (φ s).output).2, { φ s with output := (step (φ s).output).1 }) =
      Except.ok ((step s.output).2, φ { s with output := (step s.output).1 })
    rw [hφ.output, hφ.update s (step s.output).1]

instance (step : Output → Output) : Unread φ (modifyOutput step) :=
  of_modify fun s => by rw [hφ.output, hφ.update s (step s.output)]

instance (t : Text) : Unread φ (emit t) :=
  inferInstanceAs (Unread φ (modifyOutput _))

end

end Unread

variable {a : Attributes}

/-- The attributes of the document itself are not read by anything that is made of acts. -/
theorem Made.unread {α : Type} {acts : List Act} {x : Compile α} (hx : Made acts x) :
    Unread (.withAttributes a) x := by
  induction hx with
  | result a => infer_instance
  | seq _ _ ihx ihf => exact .bind ihf
  | halt h => infer_instance
  | look _ hsame ih => exact .get ih fun s => hsame s a
  | reads step _ =>
    refine ⟨fun s => ?_⟩
    dsimp only [scan, Session.withAttributes]
    cases step s.cursor <;> rfl
  | warns | acts => exact ⟨fun _ => rfl⟩
  | @fragment _ inner text base tracked _ ih =>
    -- a fragment is read in a session of its own, with the same settings
    refine ⟨fun s => ?_⟩
    let fragment : Session :=
      { cursor := .ofText text base, output := s.output.fork, settings := s.settings
        warnings := [] }
    have hrun := ih.later fragment
    show (Code.run inner (text.length + 1) { tracked, fragment := true }
      (fragment.withAttributes a) >>= _) = Except.map _ (Code.run inner (text.length + 1)
        { tracked, fragment := true } fragment >>= _)
    rw [hrun]
    cases Code.run inner (text.length + 1) { tracked, fragment := true } fragment <;> rfl

instance (priority := low) {α : Type} (x : Compile α)
    [hx : Made [.read, .text, .scope, .name, .slot, .edit, .mark, .cut] x] :
    Unread (.withAttributes a) x :=
  hx.unread

namespace Region

instance (spec : ModeSpec) (attributes : Attributes) :
    Unread (.withAttributes a) (create spec attributes) := by
  unfold create
  have hoptions : Unread (.withAttributes a) (modify fun s : Session =>
      { s with cursor := { s.cursor with options := spec.options } } : Compile PUnit) :=
    .of_modify fun _ => rfl
  refine .bind fun _ => ?_
  split <;> infer_instance

end Region

/-! ## Documents -/

namespace Document

instance (spec : ModeSpec) (attributes : Attributes) (dialect : Option Dialect)
    (tag : Option OpenTag) (front : Region → Compile Unit)
    [∀ region, Unread (.withAttributes a) (front region)] :
    Unread (.withAttributes a) (enter spec attributes dialect tag front) := by
  unfold enter
  refine .get (fun s => ?_) fun _ => rfl
  dsimp only
  split <;> infer_instance

instance (registry : Registry) (parent : Frame) :
    Unread (.withAttributes a) (openChild registry parent) := by
  unfold openChild
  refine .bind fun start => .bind fun isComment => ?_
  split
  · refine .bind fun stop => ?_
    dsimp only
    split <;> infer_instance
  refine .bind fun tag => ?_
  split
  · infer_instance
  · infer_instance

instance {φ : Session → Session} [hφ : Session.Apart φ] (frame : Frame)
    [Unread φ frame.region.finish] : Unread φ (leave frame) := by
  unfold leave
  have hback : Unread φ (modify fun s : Session =>
      { s with
        cursor := { s.cursor with options := frame.savedOptions }
        output := { s.output with dialect := frame.savedDialect } } : Compile PUnit) := by
    refine .of_modify fun s => ((hφ.update
      { s with cursor := { s.cursor with options := frame.savedOptions } } _).trans ?_).symm
    rw [hφ.options s, hφ.output]
  refine .bind fun _ => .bind fun o => ?_
  dsimp only
  split <;> infer_instance

instance (frame : Frame) (outer : List Frame) :
    Unread (.withAttributes a) (closeRegion frame outer) := by
  unfold closeRegion
  split
  · infer_instance
  split
  · infer_instance
  refine .bind fun o => .bind fun faults => ?_
  split <;> infer_instance

instance {φ : Session → Session} [Session.Apart φ] (frame : Frame)
    [Unread φ frame.region.finish] : Unread φ (endDocument frame) := by
  unfold endDocument
  split <;> infer_instance

instance (registry : Registry) (frame : Frame) (outer : List Frame) :
    Unread (.withAttributes a) (advance registry frame outer) := by
  unfold advance
  refine .bind fun p => ?_
  obtain ⟨region, step⟩ := p
  cases step with
  | next => infer_instance
  | child => exact .bind fun child => by cases child <;> infer_instance
  | close | eof => infer_instance

end Document
end Patchwork
