import Patchwork.Proofs.Frames

/-!
# Statements that are never closed

A statement that is still open when its region ends is a fault. Nothing checks for this directly:
the branch that is read last has a slot without a value before it, and when a region ends, the slots
made in it that have none are reported. A region lies in others, which look at the same slots again
when they end; by then they are frozen.

`unclosed_reported_once` says what comes of this: the faults of a run that reaches the end of the
document are those of the statements that were open when their own region ended, each of them once,
the regions in the order in which they ended and the statements of a region in the order of the
text. The document compiles if there are none.
-/

namespace Patchwork

open List

/-- The faults of the statements that are open, outermost first. -/
def Region.unclosed (r : Region) : List Fault :=
  (r.tracker?.map fun k => k.openStatements.map Statement.unclosed).getD []

theorem Region.map_snd_waiting (r : Region) : r.waiting.map Prod.snd = r.unclosed := by
  unfold waiting unclosed
  cases r.tracker? with
  | none => rfl
  | some k =>
    rw [Option.map_some, Option.map_some, Option.getD_some, Option.getD_some, Tracker.waiting,
      map_map]
    rfl

/-- An open statement is reported as a construct that is not closed, in these words. -/
theorem Region.of_mem_unclosed {r : Region} {f : Fault} (hf : f ∈ r.unclosed) :
    f.cause.kind = .malformed ∧
      ∃ keyword : Keyword, f.cause.message = "`" ++ keyword.text ++ "` block is never closed" := by
  unfold unclosed at hf
  cases hk : r.tracker? with
  | none =>
    rw [hk] at hf
    cases hf
  | some k =>
    rw [hk] at hf
    obtain ⟨st, -, rfl⟩ := mem_map.mp hf
    exact ⟨rfl, st.last.keyword, rfl⟩

namespace Document

/-- The regions that come to their end in a run, in that order, each as it is then. -/
def endings (registry : Registry) : (fuel : Nat) → List Frame → Session → List Region
  | fuel + 1, frame :: outer, s =>
    match advance registry frame outer s with
    | .ok ((frames, _), s') =>
      ((ending? frame s).map Prod.fst).toList ++ endings registry fuel frames s'
    | .error _ => []
  | _, _, _ => []

def endedRegions (registry : Registry) (settings : Settings) (source : Text) : List Region :=
  match enterRoot registry (Session.start settings source) with
  | .ok (root, s) => endings registry (source.length + 1) [root] s
  | .error _ => []

/-- The faults of statements that are open when their region ends. -/
def reports (registry : Registry) (settings : Settings) (source : Text) : List Fault :=
  (endedRegions registry settings source).flatMap Region.unclosed

def Run.isDone : Run → Bool
  | .done _ _ => true
  | .halted _ _ => false

theorem Run.eq_done_of_isDone {r : Run} (h : r.isDone = true) : ∃ s faults, r = .done s faults := by
  cases r with
  | done s faults => exact ⟨s, faults, rfl⟩
  | halted h' faults => cases h

def InTextOrder (faults : List Fault) : Prop :=
  faults.Pairwise fun a b => a.span.start ≤ b.span.start

variable {registry : Registry} {frame : Frame} {outer frames : List Frame} {s s' : Session}
  {faults : List Fault}

/-- A step reports the open statements of the region that ends with it, and nothing else. -/
theorem advance_reports (hs : Sound (frame :: outer) s)
    (hstep : advance registry frame outer s = .ok ((frames, faults), s')) :
    Sound frames s' ∧ faults = ((ending? frame s).map Prod.fst).toList.flatMap Region.unclosed ∧
      ∀ r ∈ (ending? frame s).map Prod.fst, InTextOrder r.unclosed := by
  obtain ⟨hs', -, region, step, s1, hregion, horder, hfaults⟩ :=
    (advance_agree (h := .spent) registry hs).result _ _ hstep
  have hending : (ending? frame s).map Prod.fst =
      if endsRegion step then some region else none := by
    rw [ending?, hregion]
    exact apply_ite (Option.map Prod.fst) ..
  rw [Region.map_snd_waiting] at hfaults
  -- a step that ends no region reports nothing, and one that ends one reports what waits in it
  refine ⟨hs', ?_, ?_⟩
  · refine Eq.trans hfaults ?_
    rw [hending]
    cases endsRegion step with
    | true => exact (append_nil _).symm
    | false => rfl
  · intro r hr
    rw [hending] at hr
    cases hend : endsRegion step with
    | true =>
      rw [hend] at hr
      cases hr
      rw [InTextOrder, ← Region.map_snd_waiting, pairwise_map]
      exact horder.ordered
    | false =>
      rw [hend] at hr
      cases hr

theorem run_reports {fuel : Nat} {frames : List Frame} {before after : List Fault} {s s' : Session}
    (hs : Sound frames s) (hrun : run registry fuel frames before s = .done s' after) :
    after = before ++ (endings registry fuel frames s).flatMap Region.unclosed ∧
      ∀ r ∈ endings registry fuel frames s, InTextOrder r.unclosed := by
  fun_induction run registry fuel frames before s with
  | case1 fuel =>
    cases hrun
    have hnone : endings registry fuel [] s' = [] := by cases fuel <;> rfl
    rw [hnone]
    exact ⟨(append_nil _).symm, forall_mem_nil _⟩
  | case2 | case3 => cases hrun
  | case4 fuel frame outer before s frames more s1 hstep ih =>
    unfold endings
    obtain ⟨hs1, hmore, horder⟩ := advance_reports hs hstep
    obtain ⟨hafter, hrest⟩ := ih hs1 hrun
    rw [hstep]
    refine ⟨?_, fun r hr => ?_⟩
    · rw [hafter, hmore, flatMap_append, append_assoc]
    · rcases mem_append.mp hr with hr | hr
      · exact horder r (Option.mem_toList.mp hr)
      · exact hrest r hr

/-- When a document has been read to its end, there is one fault for each statement that was open
when its own region ended: a construct that is not closed, at the keyword of the branch that was
open. The regions come in the order in which they ended, and the statements of a region in the order
of the text. The document compiles if there are none, and else these are the errors. -/
theorem unclosed_reported_once {settings : Settings} {source : Text} (file : Nat)
    (hdone : process registry settings source = .done s faults) :
    faults = reports registry settings source ∧
    (∀ r ∈ endedRegions registry settings source, InTextOrder r.unclosed) ∧
    (∀ f ∈ faults, f.cause.kind = .malformed ∧
      ∃ keyword : Keyword, f.cause.message = "`" ++ keyword.text ++ "` block is never closed") ∧
    compileWith registry settings file source =
      if reports registry settings source = [] then
        .compiled s.output.finish (s.warnings.map (⟨·, file⟩))
      else .rejected ((reports registry settings source).map (⟨·, file⟩)) := by
  have hrun : faults = reports registry settings source ∧
      ∀ r ∈ endedRegions registry settings source, InTextOrder r.unclosed := by
    unfold process at hdone
    unfold reports endedRegions
    split at hdone
    next => cases hdone
    next root s₀ hroot =>
      rw [hroot]
      exact run_reports (sound_enterRoot hroot) hdone
  refine ⟨hrun.1, hrun.2, fun f hf => ?_, ?_⟩
  · rw [hrun.1] at hf
    obtain ⟨r, -, hf⟩ := List.mem_flatMap.mp hf
    exact Region.of_mem_unclosed hf
  · rw [compileWith, hdone, hrun.1]
    cases reports registry settings source with
    | nil | cons => rfl

/-- One statement is open in an element, and one in the document around it. -/
theorem unclosed_reported_once_nested :
    ∃ s faults,
      process .standard { rootMode := "html", attributes := { logic := true } }
        "if (a) \x7b\n<b>\nwhile (c) \x7b\n</b>" = .done s faults ∧
      compileWith .standard { rootMode := "html", attributes := { logic := true } } 0
        "if (a) \x7b\n<b>\nwhile (c) \x7b\n</b>" = .rejected
          [⟨⟨.statementOpen "while", ⟨13, 18⟩⟩, 0⟩, ⟨⟨.statementOpen "if", ⟨0, 2⟩⟩, 0⟩] := by
  have hrun : (process .standard { rootMode := "html", attributes := { logic := true } }
      "if (a) \x7b\n<b>\nwhile (c) \x7b\n</b>").isDone = true := by decide +kernel
  have hreports : reports .standard { rootMode := "html", attributes := { logic := true } }
      "if (a) \x7b\n<b>\nwhile (c) \x7b\n</b>" =
        [⟨.statementOpen "while", ⟨13, 18⟩⟩, ⟨.statementOpen "if", ⟨0, 2⟩⟩] := by decide +kernel
  obtain ⟨s, faults, hdone⟩ := Run.eq_done_of_isDone hrun
  refine ⟨s, faults, hdone, ?_⟩
  rw [(unclosed_reported_once 0 hdone).2.2.2, hreports]
  rfl

end Document
end Patchwork
