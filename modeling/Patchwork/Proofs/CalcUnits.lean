import Patchwork.Style.Calc

/-!
# The units of a calculation

A calculation is gone through twice: its units are checked, and it is carried out. Both take in the
units of the literals from left to right, and both stop at the first one that does not fit. Here the
units are put in a list (`Calc.units`), and what the two do is said of this list.

The check takes in this list (`absorbUnits_eq`), and the evaluation takes in what the check does
(`evalIn_snd`), so the two report the same clash. Which one it is depends on the first unit alone
(`UnitScope.unify_some`).
-/

namespace Patchwork.Style

open List

namespace UnitScope

def unify (scope : UnitScope) : List Measure → Except UnitClash UnitScope
  | [] => .ok scope
  | u :: us =>
    match scope with
    | none => unify (some u) us
    | some expected => if expected = u then unify (some expected) us else .error ⟨expected, u⟩

theorem unify_append (us vs : List Measure) : ∀ scope : UnitScope,
    unify scope (us ++ vs) = unify scope us >>= fun scope => unify scope vs := by
  induction us with
  | nil => exact fun _ => rfl
  | cons u us ih =>
    intro scope
    cases scope with
    | none => exact ih (some u)
    | some expected =>
      rw [cons_append, unify, unify]
      split
      · exact ih (some expected)
      · rfl

theorem unify_some (expected : Measure) (us : List Measure) : unify (some expected) us =
      match us.find? (· != expected) with
      | none => .ok (some expected)
      | some found => .error ⟨expected, found⟩ := by
  induction us with
  | nil => rfl
  | cons u us ih =>
    rw [unify]
    split
    next h => rw [ih, find?_cons_of_neg (by simp [h])]
    next h => rw [find?_cons_of_pos (by simpa using Ne.symm h)]

end UnitScope

namespace Calc

open UnitScope

def units : Calc → List Measure
  | literal q => q.unit.toList
  | running _ => []
  | negate e | group e => e.units
  | binary _ l r => l.units ++ r.units

theorem absorbUnits_eq (e : Calc) : ∀ scope, e.absorbUnits scope = unify scope e.units := by
  induction e with
  | literal q =>
    intro scope
    obtain ⟨value, unit⟩ := q
    cases unit with
    | none => rfl
    | some found =>
      cases scope with
      | none => rfl
      | some expected =>
        show Except.map Prod.snd (if expected = found then .ok (value, some expected)
            else .error (UnitClash.mk expected found)) =
          if expected = found then .ok (some expected) else .error (UnitClash.mk expected found)
        split <;> rfl
  | running source => exact fun _ => rfl
  | negate e ih | group e ih => exact ih
  | binary o l r ihl ihr =>
    intro scope
    rw [absorbUnits, ihl, units, unify_append]
    exact congrArg _ (funext ihr)

theorem evalIn_snd (e : Calc) : ∀ scope, (e.evalIn scope).map Prod.snd = e.absorbUnits scope := by
  induction e with
  | literal | running => exact fun _ => rfl
  | negate e ih =>
    intro scope
    rw [evalIn, absorbUnits, ← ih]
    cases e.evalIn scope <;> rfl
  | group e ih => exact ih
  | binary o l r ihl ihr =>
    intro scope
    rw [evalIn, absorbUnits, ← ihl]
    cases l.evalIn scope with
    | error clash => rfl
    | ok p =>
      show _ = r.absorbUnits p.2
      rw [← ihr]
      show Except.map Prod.snd (r.evalIn p.2 >>= _) = _
      cases r.evalIn p.2 <;> rfl

variable {e : Calc}

theorem checkUnits_of_nil (h : e.units = []) : e.checkUnits = .ok () := by
  rw [checkUnits, absorbUnits_eq, h]
  rfl

/-- The first unit is the one that all others are compared with. -/
theorem checkUnits_of_cons {u : Measure} {us : List Measure} (h : e.units = u :: us) :
    e.checkUnits = match us.find? (· != u) with
      | none => .ok ()
      | some found => .error ⟨u, found⟩ := by
  rw [checkUnits, absorbUnits_eq, h, unify, unify_some]
  split <;> rfl

theorem checkUnits_eq_ok_iff : e.checkUnits = .ok () ↔ ∀ u ∈ e.units, ∀ v ∈ e.units, u = v := by
  cases h : e.units with
  | nil => exact ⟨nofun, fun _ => checkUnits_of_nil h⟩
  | cons u us =>
    rw [checkUnits_of_cons h]
    constructor
    · intro hok
      split at hok
      next hnone =>
        -- every unit is the first one
        have hall : ∀ v ∈ u :: us, v = u := by
          refine forall_mem_cons.mpr ⟨rfl, fun v hv => ?_⟩
          simpa using find?_eq_none.mp hnone v hv
        exact fun v hv w hw => (hall v hv).trans (hall w hw).symm
      · cases hok
    · intro hall
      have hnone : us.find? (· != u) = none := by
        refine find?_eq_none.mpr fun v hv => ?_
        simpa using hall v (mem_cons_of_mem u hv) u mem_cons_self
      rw [hnone]

theorem checkUnits_eq_error_iff {clash : UnitClash} :
    e.checkUnits = .error clash ↔ e.units.head? = some clash.expected ∧
      e.units.find? (· != clash.expected) = some clash.found := by
  cases h : e.units with
  | nil =>
    rw [checkUnits_of_nil h]
    exact ⟨nofun, nofun⟩
  | cons u us =>
    have hfirst : (u :: us).find? (· != u) = us.find? (· != u) := find?_cons_of_neg (by simp)
    rw [checkUnits_of_cons h]
    constructor
    · intro herror
      split at herror
      · cases herror
      next found hfound =>
        cases herror
        exact ⟨rfl, hfirst.trans hfound⟩
    · rintro ⟨hexpected, hfound⟩
      cases Option.some.inj hexpected
      rw [← hfirst, hfound]

/-- Without running operands, the evaluation reports the clash that the check reports. -/
theorem evaluate_eq_error_iff {clash : UnitClash} :
    e.evaluate = .error clash ↔ e.hasRunning = false ∧ e.checkUnits = .error clash := by
  rw [evaluate, checkUnits, ← evalIn_snd]
  cases e.hasRunning with
  | true => exact ⟨nofun, nofun⟩
  | false =>
    cases e.evalIn none with
    | error c => exact ⟨fun h => ⟨rfl, by cases h; rfl⟩, fun h => by cases h.2; rfl⟩
    | ok p => exact ⟨nofun, nofun⟩

theorem absorbUnits_of_evaluate {q : Quantity} (h : e.evaluate = .ok (some q)) :
    e.absorbUnits none = .ok q.unit := by
  rw [evaluate] at h
  rw [← evalIn_snd]
  split at h
  · cases h
  cases hp : e.evalIn none with
  | error c =>
    rw [hp] at h
    cases h
  | ok p =>
    rw [hp] at h
    have hq : (if p.1.isFinite then some (UnitScope.finish p.2 p.1) else none) = some q :=
      Except.ok.inj h
    split at hq
    · cases hq
      rfl
    · cases hq

theorem unit_of_evaluate {q : Quantity} (h : e.evaluate = .ok (some q)) :
    q.unit = e.units.head? := by
  have hunits := absorbUnits_of_evaluate h
  rw [absorbUnits_eq] at hunits
  cases hus : e.units with
  | nil =>
    rw [hus] at hunits
    exact (Except.ok.inj hunits).symm
  | cons u us =>
    rw [hus, unify, unify_some] at hunits
    split at hunits
    · exact (Except.ok.inj hunits).symm
    · cases hunits

/-- The check of the units and the evaluation agree. They report the same clash, where the evaluation
gets to the units; so it does not fail once the check has passed. The check passes exactly if all
units are the same, and else it names the first one and the next that differs from it. A quantity that
comes out has the unit that they all are, or none if there are none. -/
theorem check_agrees_with_evaluation (e : Calc) :
    (∀ clash, e.evaluate = .error clash ↔ e.hasRunning = false ∧ e.checkUnits = .error clash) ∧
      (e.checkUnits = .ok () ↔ ∀ u ∈ e.units, ∀ v ∈ e.units, u = v) ∧
      (∀ clash, e.checkUnits = .error clash ↔ e.units.head? = some clash.expected ∧
        e.units.find? (· != clash.expected) = some clash.found) ∧
      ∀ q, e.evaluate = .ok (some q) →
        (∀ u ∈ e.units, q.unit = some u) ∧ (e.units = [] → q.unit = none) := by
  refine ⟨fun _ => evaluate_eq_error_iff, checkUnits_eq_ok_iff, fun _ => checkUnits_eq_error_iff, ?_⟩
  intro q hq
  have hunit := unit_of_evaluate hq
  refine ⟨fun u hu => ?_, fun hnil => by rw [hunit, hnil, List.head?_nil]⟩
  -- the evaluation succeeds, so the check does, and the first unit is every other
  have hok : e.checkUnits = .ok () := by
    rw [checkUnits, absorbUnits_of_evaluate hq]
    rfl
  have hsame := checkUnits_eq_ok_iff.mp hok
  cases hus : e.units with
  | nil => exact absurd (hus ▸ hu) List.not_mem_nil
  | cons v us => rw [hunit, hus, List.head?_cons, hsame u hu v (hus ▸ List.mem_cons_self)]

theorem check_agrees_with_evaluation_sum :
    ∃ (e : Calc) (q : Quantity), e = .binary .add (.literal ⟨10.0, some .px⟩)
        (.binary .mul (.literal ⟨2.0, none⟩) (.group (.negate (.literal ⟨1.5, some .px⟩)))) ∧
      e.evaluate = .ok (some q) ∧ e.units = [.px, .px] ∧ q.unit = some .px := by
  let e : Calc := .binary .add (.literal ⟨10.0, some .px⟩)
    (.binary .mul (.literal ⟨2.0, none⟩) (.group (.negate (.literal ⟨1.5, some .px⟩))))
  have hsome : e.evaluate.toOption.join.isSome = true := by decide +kernel
  obtain ⟨q, hq⟩ := Option.isSome_iff_exists.mp hsome
  have hq : e.evaluate = .ok (some q) := by
    cases h : e.evaluate with
    | error c =>
      rw [h] at hq
      cases hq
    | ok r =>
      rw [h] at hq
      exact congrArg _ hq
  exact ⟨e, q, rfl, hq, rfl, ((check_agrees_with_evaluation e).2.2.2 q hq).1 .px List.mem_cons_self⟩

end Calc
end Patchwork.Style
