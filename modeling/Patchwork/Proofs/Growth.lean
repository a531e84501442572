import Patchwork.Proofs.Frames

/-!
# Code that is there to stay

Text that has been written stays where it is, and only what slots hold can still change. So the nodes
of an output already say something about the code that comes of them: it has the texts among the
nodes, in their order, with any text in the place of a slot (`Makes`).

`Extends` says that nodes have come of others by writing on. Text, new slots and edits keep to it, and
so does every step of a region that does not cut away what it has written. Only a stylesheet may do
that, at its end.
-/

namespace Patchwork

open Compile List

/-- A code that the nodes make when their slots hold some texts. -/
inductive Makes : List Node → Text → Prop where
  | nil : Makes [] []
  | text {nodes : List Node} {code : Text} (t : Text) (h : Makes nodes code) :
      Makes (.text t :: nodes) (t ++ code)
  | slot {nodes : List Node} {code : Text} (s : Slot) (held : Text) (h : Makes nodes code) :
      Makes (.slot s :: nodes) (held ++ code)

namespace Makes

variable {nodes a b : List Node} {code t : Text}

/-- The slots may hold what they hold now. -/
theorem content (nodes : List Node) : Makes nodes (nodes.flatMap Node.content) := by
  induction nodes with
  | nil => exact .nil
  | cons node nodes ih =>
    cases node with
    | text t => exact .text t ih
    | slot s => exact .slot s _ ih

theorem split (h : Makes (a ++ b) code) :
    ∃ before more, code = before ++ more ∧ Makes a before ∧ Makes b more := by
  induction a generalizing code with
  | nil => exact ⟨[], code, rfl, .nil, h⟩
  | cons node a ih =>
    cases h with
    | text t h =>
      obtain ⟨before, more, rfl, ha, hb⟩ := ih h
      exact ⟨t ++ before, more, (append_assoc ..).symm, .text t ha, hb⟩
    | slot s held h =>
      obtain ⟨before, more, rfl, ha, hb⟩ := ih h
      exact ⟨held ++ before, more, (append_assoc ..).symm, .slot s held ha, hb⟩

theorem append {before more : Text} (ha : Makes a before) (hb : Makes b more) :
    Makes (a ++ b) (before ++ more) := by
  induction ha with
  | nil => exact hb
  | text t _ ih =>
    rw [append_assoc]
    exact .text t ih
  | slot s held _ ih =>
    rw [append_assoc]
    exact .slot s held ih

theorem of_singleton (h : Makes [.text t] code) : code = t := by
  cases h with
  | text _ h =>
    cases h
    exact append_nil t

theorem singleton (t : Text) : Makes [.text t] t := by
  have h := Makes.text t .nil
  rwa [append_nil] at h

theorem of_add {o : Output} (h : Makes (o.add t).nodes code) :
    ∃ before, code = before ++ t ∧ Makes o.nodes before := by
  unfold Output.add at h
  split at h
  next hempty =>
    rw [List.isEmpty_iff.mp hempty]
    exact ⟨code, (append_nil _).symm, h⟩
  split at h
  next last hlast =>
    -- the text joins the last one
    obtain ⟨front, hfront⟩ := getLast?_eq_some_iff.mp hlast
    rw [hfront, dropLast_concat] at h
    obtain ⟨before, more, rfl, ha, hb⟩ := split h
    rw [of_singleton hb, hfront]
    exact ⟨before ++ last, (append_assoc ..).symm, ha.append (singleton last)⟩
  · obtain ⟨before, more, rfl, ha, hb⟩ := split h
    rw [of_singleton hb]
    exact ⟨before, rfl, ha⟩

/-- What the slots hold now does not show. -/
theorem of_shape (hshape : a.map Node.shape = b.map Node.shape) (h : Makes a code) : Makes b code := by
  induction h generalizing b with
  | nil =>
    rw [map_eq_nil_iff.mp hshape.symm]
    exact .nil
  | text t _ ih | slot s held _ ih =>
    obtain ⟨y, b, rfl, hy, hb⟩ := map_eq_cons_iff.mp hshape.symm
    cases y <;> cases hy
    constructor
    exact ih hb.symm

end Makes

/-- Nodes have come of others by writing on: a code that they make begins with one that those make. -/
def Extends (nodes nodes' : List Node) : Prop :=
  ∀ code, Makes nodes' code → ∃ before more, code = before ++ more ∧ Makes nodes before

namespace Extends

variable {a b c : List Node} {o : Output}

theorem refl (a : List Node) : Extends a a := fun code h =>
  ⟨code, [], (append_nil code).symm, h⟩

theorem trans (hab : Extends a b) (hbc : Extends b c) : Extends a c := by
  intro code h
  obtain ⟨before, more, rfl, hb⟩ := hbc code h
  obtain ⟨before', more', rfl, ha⟩ := hab before hb
  exact ⟨before', more' ++ more, append_assoc .., ha⟩

theorem append (a b : List Node) : Extends a (a ++ b) := by
  intro code h
  obtain ⟨before, more, hcode, ha, -⟩ := h.split
  exact ⟨before, more, hcode, ha⟩

theorem of_isPrefix (h : a <+: b) : Extends a b := by
  obtain ⟨more, rfl⟩ := h
  exact append a more

theorem add (o : Output) (t : Text) : Extends o.nodes (o.add t).nodes := by
  intro code h
  obtain ⟨before, hcode, ho⟩ := h.of_add
  exact ⟨before, t, hcode, ho⟩

theorem wrote {o' : Output} (h : o.Wrote o') : Extends o.nodes o'.nodes := by
  obtain ⟨t, hnodes, -⟩ := h
  rw [hnodes]
  exact add o t

theorem edit (o : Output) (e : Edit) : Extends o.nodes (o.edit e).nodes := fun code h =>
  refl _ code (h.of_shape (o.shape_edit e))

theorem endRegion (o : Output) (mark : Nat) : Extends o.nodes (o.endRegion mark).1.nodes :=
  fun code h => refl _ code (h.of_shape (o.shape_endRegion mark))

end Extends

/-- What has been written on ends with a text. -/
def EndsWith (t : Text) (nodes nodes' : List Node) : Prop :=
  ∀ code, Makes nodes' code → ∃ before more, code = before ++ (more ++ t) ∧ Makes nodes before

section

variable {a b c : List Node} {o : Output} {t : Text}

theorem Extends.endsWith (h : Extends a b) : EndsWith [] a b := by
  simpa only [EndsWith, append_nil, Extends] using h

theorem EndsWith.extends (h : EndsWith t a b) : Extends a b := by
  intro code hb
  obtain ⟨before, more, hcode, ha⟩ := h code hb
  exact ⟨before, more ++ t, hcode, ha⟩

theorem EndsWith.add (h : EndsWith t a o.nodes) (more : Text) :
    EndsWith (t ++ more) a (o.add more).nodes := by
  intro code hadded
  obtain ⟨_, rfl, ho⟩ := hadded.of_add
  obtain ⟨before, own, rfl, ha⟩ := h _ ho
  exact ⟨before, own, by simp only [append_assoc], ha⟩

theorem Extends.trans_endsWith (hab : Extends a b) (hbc : EndsWith t b c) : EndsWith t a c := by
  intro code h
  obtain ⟨_, more, rfl, hb⟩ := hbc code h
  obtain ⟨before, more', rfl, ha⟩ := hab _ hb
  exact ⟨before, more' ++ more, by simp only [append_assoc], ha⟩

end

/-! ## Computations that write on -/

abbrev Act.extending : List Act :=
  [.read, .text, .scope, .slot, .edit]

theorem Session.Steps.extends {s s' : Session} (h : s.Steps Act.extending s') :
    Extends s.output.nodes s'.output.nodes := by
  induction h with
  | refl => exact .refl _
  | warn _ faults ih => exact ih
  | act _ hact hdoes ih =>
    refine ih.trans ?_
    cases hdoes with
    | read | scope => exact .refl _
    | text t => exact .add _ t
    | slot => exact .append _ _
    | edit e => exact .edit _ e
    | freshVar | freshId | mark | cut => exact absurd hact (by decide)

theorem Agree.of_extending {α : Type} (x : Compile α) [hx : Made Act.extending x] (s : Session) :
    Gives x s fun _ s' => Extends s.output.nodes s'.output.nodes :=
  ⟨rfl, fun _ _ h => (hx.steps h).extends⟩

namespace Region

def lasting : Region → Bool
  | stylesheet _ => false
  | _ => true

variable {r : Region}

theorem step_extending (h : r.lasting = true) : Made Act.extending r.step := by
  cases r with
  | stylesheet r => cases h
  | code | markup | script | comment =>
    unfold step
    infer_instance

theorem finish_extending (h : r.lasting = true) : Made Act.extending r.finish := by
  cases r with
  | stylesheet r => cases h
  | code | markup | script | comment =>
    unfold finish
    infer_instance

end Region
end Patchwork
