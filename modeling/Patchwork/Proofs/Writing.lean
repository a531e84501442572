import Patchwork.Proofs.Acts

/-!
# What only writes

The parts of the compiler that touch no slot: code and its shorthands, markers and chains, the heads
of statements, tags, and the statements of stylesheets. They are made of acts that read on, add text
to the output, or do nothing to its nodes, so each is a computation that only writes.
-/

namespace Patchwork

open Compile

abbrev Act.writing : List Act :=
  [.read, .text, .scope, .name]

theorem Session.Steps.wrote {s s' : Session} (h : s.Steps Act.writing s') : s.Wrote s' := by
  induction h with
  | refl => exact .refl _
  | warn _ faults ih => exact ih.trans ⟨.refl _, .refl _⟩
  | act _ hact hdoes ih =>
    refine ih.trans ?_
    cases hdoes with
    | read h => exact ⟨.refl _, h.moved⟩
    | text t => exact ⟨.add _ _, .refl _⟩
    | scope | freshVar | freshId => exact ⟨.of_eq rfl rfl, .refl _⟩
    | slot | edit | mark | cut => exact absurd hact (by decide)

variable {α β : Type} {x : Compile α} [hx : Made Act.writing x] {f g : α → Compile β} {s s' : Session}
  {Q : β → Session → Prop}

theorem Session.Wrote.of_made {a : α} (h : x s = .ok (a, s')) : s.Wrote s' :=
  (hx.steps h).wrote

theorem Agree.of_made : Gives x s fun _ s' => s.Wrote s' :=
  ⟨rfl, fun _ _ => .of_made⟩

theorem Agree.wrote (hf : ∀ a s', s.Wrote s' → Agree (f a) (g a) s' Q) :
    Agree (x >>= f) (x >>= g) s Q :=
  of_made.bind hf

/-- Writing text on the way keeps the zone. -/
theorem Agree.writing {old : Moment} {front : List Node} {ids : List SlotId}
    {waiting : List (SlotId × Fault)} (hz : s.InZone old front ids waiting)
    (hf : ∀ a s', s'.InZone old front ids waiting → Agree (f a) (g a) s' Q) :
    Agree (x >>= f) (x >>= g) s Q :=
  .wrote fun a s' hw => hf a s' (hz.wrote hw)

end Patchwork
