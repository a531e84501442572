import Patchwork.Proofs.Frames

/-!
# No edit is lost

An edit of a slot that does not exist or is frozen does nothing, and nothing is reported. So the
code that the compiler generates is right only if this never happens. `edits_reach_their_slots` says
that it does not: a compiler that halts at the first such edit does the same as the compiler, on
every document, with all settings and all modes.

That an edit finds a slot does not say yet that it finds the right one, since the slots of a
stylesheet that folds are cut away and their numbers given out again. The theorem also says what
becomes of the slots that open regions hold, from step to step: no two of them are the same, none of
them moves, and what happens in a region, its end included, leaves those of the regions around it as
they are.
-/

namespace Patchwork.Document

/-- Every edit changes the slot that it is meant for. Whatever the halt `h` is, the compiler that
halts with it at an edit without an open slot comes to the same result. In every state of a run the
slots that open regions hold are different and open, those that wait for a branch to be closed carry
the fault of this very branch, and a step keeps them in their places. -/
theorem edits_reach_their_slots (registry : Registry) (settings : Settings) (source : Text) :
    (∀ h, @process (.strict h) registry settings source =
      @process .direct registry settings source) ∧
    ∀ n frames s, stateAfter registry settings source n = some (frames, s) →
      (held frames).Nodup ∧
      (∀ id ∈ held frames, s.output.isOpen id = true) ∧
      (∀ frame ∈ frames, ∀ w ∈ frame.region.waiting,
        (s.output.slot? w.1).bind Slot.unresolved? = some w.2) ∧
      ∀ frame outer, frames = frame :: outer → ∀ frames' faults s',
        advance registry frame outer s = .ok ((frames', faults), s') →
          Steady frame outer frames' s.output s'.output := by
  refine ⟨fun h => ?_, fun n frames s hn => ?_⟩
  · unfold process
    split
    next => rfl
    next root s hroot => exact run_strict (sound_enterRoot hroot)
  · have hs := sound_stateAfter hn
    refine ⟨hs.stacked.nodup, fun id hid => ?_, fun frame hframe w hw => ?_, ?_⟩
    · exact (Output.isOpen_iff hs.placed id).mpr (hs.stacked.opened hid)
    · obtain ⟨slot, hslot, hf⟩ := hs.stacked.unresolved (List.mem_flatMap.mpr ⟨frame, hframe, hw⟩)
      rw [Output.slot?_eq hs.placed, hslot]
      exact hf
    · rintro frame outer rfl frames' faults s' hstep
      exact ((advance_agree (h := .spent) registry hs).result _ _ hstep).2.1

/-- A child element ends inside a branch that is open. -/
theorem edits_reach_their_slots_in_branch :
    ∃ frame outer s frames' faults s',
      stateAfter .standard { rootMode := "html", attributes := { logic := true } }
        "if (*a) \x7b<b>x</b>\x7d" 2 = some (frame :: outer, s) ∧
      held outer = [⟨0⟩, ⟨1⟩, ⟨2⟩] ∧
      advance .standard frame outer s = .ok ((frames', faults), s') ∧
      Steady frame outer frames' s.output s'.output := by
  have hrun : (stateAfter .standard { rootMode := "html", attributes := { logic := true } }
      "if (*a) \x7b<b>x</b>\x7d" 2).any (fun
        | (frame :: outer, s) =>
          held outer == [⟨0⟩, ⟨1⟩, ⟨2⟩] && (advance .standard frame outer s).isOk
        | ([], _) => false) = true := by decide +kernel
  obtain ⟨⟨frames, s⟩, hstate, hok⟩ := (Option.any_eq_true _ _).mp hrun
  cases frames with
  | nil => cases hok
  | cons frame outer =>
    obtain ⟨hheld, hok⟩ := Bool.and_eq_true_iff.mp hok
    cases hstep : advance .standard frame outer s with
    | error h =>
      rw [hstep] at hok
      cases hok
    | ok r =>
      obtain ⟨⟨frames', faults⟩, s'⟩ := r
      refine ⟨frame, outer, s, frames', faults, s', hstate, eq_of_beq hheld, hstep, ?_⟩
      exact ((edits_reach_their_slots _ _ _).2 2 _ s hstate).2.2.2 frame outer rfl _ _ s' hstep

end Patchwork.Document
