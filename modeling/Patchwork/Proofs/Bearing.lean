import Patchwork.Proofs.Tracking

/-!
# The bearing of a session

A session reads and writes in some manner: there is what its searches pass over, the dialect and the
names of the code, and the settings of the compilation. This is its `Bearing`. Only the begin and
the end of a region change it. All that a region does between them leaves the bearing alone, and
what expands code or tracks statements leaves the counters of fresh names alone too.

`Keeps view x` says that a computation leaves a view of the session as it is. It is found by
instance search: what is made of acts that leave the view alone keeps it (`View`).
-/

namespace Patchwork

open Compile Output Session
open Lexeme (ScanOptions)

/-- The manner in which a session reads and writes. -/
structure Bearing where
  /-- What searches pass over. -/
  options : ScanOptions
  dialect : Dialect
  names : Names
  settings : Settings

namespace Session

def bearing (s : Session) : Bearing :=
  ⟨s.cursor.options, s.output.dialect, s.output.names, s.settings⟩

def standing (s : Session) : Bearing × Nat × Nat :=
  (s.bearing, s.output.nextVar, s.output.nextId)

/-- What a computation that only reads leaves alone. -/
def written (s : Session) : Output × Settings :=
  (s.output, s.settings)

end Session

/-- A computation that leaves a view of the session as it is. -/
class Keeps {α β : Type} (view : Session → β) (x : Compile α) : Prop where
  kept : ∀ s a s', x s = .ok (a, s') → view s' = view s

namespace Keeps

variable {α β γ : Type} {view : Session → γ}

theorem same (view : Session → γ) {x : Compile α} [hx : Keeps view x] {s s' : Session} {a : α}
    (h : x s = .ok (a, s')) : view s' = view s :=
  hx.kept s a s' h

theorem bind {x : Compile α} {f : α → Compile β} [hx : Keeps view x]
    (hf : ∀ a, Keeps view (f a)) : Keeps view (x >>= f) where
  kept s b s' h := by
    obtain ⟨a, s1, h1, h2⟩ := Compile.bind_eq_ok.mp h
    exact ((hf a).kept s1 b s' h2).trans (hx.kept s a s1 h1)

instance (x : Compile α) (f : α → Compile β) [Keeps view x] [hf : ∀ a, Keeps view (f a)] :
    Keeps view (x >>= f) :=
  bind hf

instance (a : α) : Keeps view (pure a) where
  kept := by
    rintro s _ _ ⟨⟩
    rfl

instance : Keeps view (get : Compile Session) where
  kept := by
    rintro s _ _ ⟨⟩
    rfl

instance : Keeps view cursor :=
  inferInstanceAs (Keeps view (get >>= fun _ => pure _))

instance : Keeps view position :=
  inferInstanceAs (Keeps view (get >>= fun _ => pure _))

instance : Keeps view output :=
  inferInstanceAs (Keeps view (get >>= fun _ => pure _))

end Keeps

theorem Agree.of_keeps {α β : Type} (view : Session → β) (x : Compile α) [hx : Keeps view x]
    (s : Session) : Gives x s fun _ s' => view s' = view s :=
  ⟨rfl, hx.kept s⟩

theorem Agree.keeping {α β γ : Type} (view : Session → γ) {x : Compile α} [Keeps view x]
    {f g : α → Compile β} {s : Session} {Q : β → Session → Prop}
    (hf : ∀ a s', view s' = view s → Agree (f a) (g a) s' Q) : Agree (x >>= f) (x >>= g) s Q :=
  (Agree.of_keeps view x s).bind hf

/-! ## Views that acts leave alone -/

/-- A view of the session that the acts leave as it is. -/
class View {β : Type} (view : Session → β) (acts : outParam (List Act)) : Prop where
  kept : ∀ {s s' : Session} {act : Act}, act ∈ acts → act.Does s s' → view s' = view s
  warned : ∀ (s : Session) (warnings : List Fault), view { s with warnings } = view s

theorem View.same {β : Type} (view : Session → β) {acts : List Act} [hview : View view acts]
    {s s' : Session} (h : s.Steps acts s') : view s' = view s := by
  induction h with
  | refl => rfl
  | act _ hact hdoes ih => exact (hview.kept hact hdoes).trans ih
  | warn _ faults ih => exact (hview.warned _ _).trans ih

instance (priority := low) {α β : Type} (view : Session → β) (acts : List Act) (x : Compile α)
    [View view acts] [hx : Made acts x] : Keeps view x where
  kept _ _ _ h := View.same view (hx.steps h)

theorem Session.standing_of_fork {s : Session} {o : Output} (h : o.fork = s.output.fork) :
    ({ s with output := o } : Session).standing = s.standing := by
  have hdialect : o.dialect = s.output.dialect := congrArg (·.dialect) h
  have hnames : o.names = s.output.names := congrArg (·.names) h
  have hvar : o.nextVar = s.output.nextVar := congrArg (·.nextVar) h
  have hid : o.nextId = s.output.nextId := congrArg (·.nextId) h
  rw [standing, standing, bearing, bearing]
  rw [hdialect, hnames, hvar, hid]

instance : View Session.standing [.read, .text, .scope, .slot, .edit, .mark, .cut] where
  warned _ _ := rfl
  kept hact hdoes := by
    cases hdoes with
    | read h =>
      rw [Session.standing, Session.standing, Session.bearing, Session.bearing]
      dsimp only
      rw [h.options]
    | text t => exact standing_of_fork (fork_add _ t)
    | scope | slot | mark => rfl
    | edit e => exact standing_of_fork (fork_edit _ e)
    | cut mark t => exact standing_of_fork (fork_add _ t)
    | freshVar | freshId => exact absurd hact (by decide)

instance : View Session.bearing [.read, .text, .scope, .name, .slot, .edit, .mark, .cut] where
  warned _ _ := rfl
  kept {s s' act} _ hdoes := by
    by_cases hname : act = .name
    · subst hname
      cases hdoes <;> rfl
    · have hact : act ∈ [Act.read, .text, .scope, .slot, .edit, .mark, .cut] := by
        cases act with
        | name => exact absurd rfl hname
        | read | text | scope | slot | edit | mark | cut => decide
      exact congrArg Prod.fst ((inferInstance : View Session.standing _).kept hact hdoes)

instance : View Session.written [.read] where
  warned _ _ := rfl
  kept hact hdoes := by
    cases hdoes with
    | read => rfl
    | text | scope | freshVar | freshId | slot | edit | mark | cut => exact absurd hact (by decide)

instance : View Session.cursor [.text, .scope, .name, .slot, .edit, .mark, .cut] where
  warned _ _ := rfl
  kept hact hdoes := by
    cases hdoes with
    | read => exact absurd hact (by decide)
    | text | scope | freshVar | freshId | slot | edit | mark | cut => rfl

instance (mark : Nat) : Keeps Session.bearing (onOutput (·.endRegion mark)) where
  kept := by
    rintro s _ _ ⟨⟩
    rfl

end Patchwork
