import Mathlib.Data.List.Induction
import Patchwork.Proofs.TagTexts

/-!
# Inherited attributes

Regions stand inside one another, and each may have attributes on its own tag. `Attributes.nested`
resolves them level by level, from the defaults on.

Main result: `Attributes.levels_resolved`. If no attribute is wrong, the result is what the tags declare
(`Declared`): a field that is handed down has the value of the last attribute of its name in the
innermost level that has one, and any other field that of the last one in the innermost level of all.
Otherwise the fault is at the first attribute that is wrong, whatever its level.

A `Field` knows its attribute and how values of it are read. That an attribute changes its own field and
no other is part of it, so what levels of attributes come to is proved for all fields at once.
-/

namespace Patchwork

open List

/-- Is the value one that the attribute can have? -/
def AttributeKey.admits (value : RawValue) : AttributeKey → Bool
  | logic | trimmed | ownScope => value.flag?.isSome
  | dialect => (value.text?.bind Dialect.ofName?).isSome
  | scope | mode => value.text?.isSome

/-- Is the name unknown, or the value none that the attribute can have? -/
def RawAttribute.wrong (raw : RawAttribute) : Bool :=
  !(AttributeKey.ofName? raw.name).any (·.admits raw.value)

/-- The attribute with its place, if its name is known. -/
def RawAttribute.located? (raw : RawAttribute) : Option (AttributeKey × Span) :=
  (AttributeKey.ofName? raw.name).map (·, raw.span)

theorem AttributeKey.ofName?_name (key : AttributeKey) : ofName? key.name = some key := by
  cases key <;> rfl

theorem AttributeKey.name_of_ofName? {name : Text} {key : AttributeKey}
    (h : ofName? name = some key) : name = key.name := by
  have hname : (key.name == name) = true := find?_some (p := fun k => AttributeKey.name k == name) h
  exact (eq_of_beq hname).symm

namespace Attributes

/-- A field of the attributes, with the attribute that sets it and what a value of it stands for. An
attribute sets its own field and leaves the others alone. -/
structure Field (β : Type) where
  key : AttributeKey
  get : Attributes → β
  read : RawValue → Option β
  set_eq : ∀ {a a' : Attributes} {key' : AttributeKey} {value : RawValue},
    a.set key' value = .ok a' → (if key' = key then read value else some (get a)) = some (get a') := by
      intro a a' key' value h
      cases key' <;> simp only [set] at h <;> split at h <;> cases h <;> simp [*]
  get_explicit : ∀ (a : Attributes) (explicit : List (AttributeKey × Span)),
    get { a with explicit } = get a := by
      intro a explicit
      rfl

namespace Field

def logic : Field Bool :=
  { key := .logic, get := Attributes.logic, read := RawValue.flag? }

def trimmed : Field Bool :=
  { key := .trimmed, get := Attributes.trimmed, read := RawValue.flag? }

def dialect : Field (Option Dialect) where
  key := .dialect
  get := Attributes.dialect
  read value := (value.text?.bind Dialect.ofName?).map some

def scope : Field (Option Text) :=
  { key := .scope, get := Attributes.scope, read := fun value => value.text?.map some }

def ownScope : Field Bool :=
  { key := .ownScope, get := Attributes.ownScope, read := RawValue.flag? }

def mode : Field (Option Text) :=
  { key := .mode, get := Attributes.mode, read := fun value => value.text?.map some }

/-- What the last attribute of the field's name stands for. -/
def value {β : Type} (f : Field β) (level : List RawAttribute) : Option β :=
  (level.reverse.find? (·.name == f.key.name)).bind (f.read ·.value)

end Field

/-- The attributes of the innermost of some regions that stand inside one another. -/
def nested (levels : List (List RawAttribute)) : Except Fault Attributes :=
  levels.foldlM (fun parent level => resolve level parent) {}

/-- The attributes are what the tags declare. -/
structure Declared (levels : List (List RawAttribute)) (a : Attributes) : Prop where
  logic : a.logic = (levels.reverse.findSome? Field.logic.value).getD false
  trimmed : a.trimmed = (levels.reverse.findSome? Field.trimmed.value).getD true
  dialect : a.dialect = (levels.reverse.findSome? Field.dialect.value).getD none
  scope : a.scope = (Field.scope.value (levels.getLastD [])).getD none
  ownScope : a.ownScope = (Field.ownScope.value (levels.getLastD [])).getD false
  mode : a.mode = (Field.mode.value (levels.getLastD [])).getD none
  leftovers : ∀ used, a.leftovers used =
    ((levels.getLastD []).filterMap RawAttribute.located?).filter fun p =>
      (p.1 = .scope ∨ p.1 = .ownScope) ∧ p.1 ∉ used

/-! ## One attribute -/

variable {a a' : Attributes} {raw : RawAttribute}

/-- A value is taken if the attribute can have it, and refused otherwise. -/
theorem set_cases (a : Attributes) (key : AttributeKey) (value : RawValue) :
    (key.admits value = true ∧ ∃ a', a.set key value = .ok a' ∧ a'.explicit = a.explicit) ∨
      (key.admits value = false ∧ ∃ expected, a.set key value = .error expected) := by
  cases key <;> simp only [set, AttributeKey.admits] <;> split <;> simp [*]

/-- An attribute is refused where it stands, or sets its field and has its place among the explicit
ones. -/
theorem apply_cases (a : Attributes) (raw : RawAttribute) :
    (raw.wrong = true ∧ ∃ cause, a.apply raw = .error ⟨cause, raw.span⟩) ∨
      raw.wrong = false ∧ ∃ key a1, raw.name = key.name ∧ a.set key raw.value = .ok a1 ∧
        a.apply raw = .ok { a1 with explicit := a.explicit ++ [(key, raw.span)] } := by
  unfold RawAttribute.wrong apply
  cases hname : AttributeKey.ofName? raw.name with
  | none => exact .inl ⟨rfl, _, rfl⟩
  | some key =>
    rcases a.set_cases key raw.value with ⟨hadmits, a1, hset, hexplicit⟩ | ⟨hadmits, expected, hset⟩
    · refine .inr ⟨by simp [hadmits], key, a1, AttributeKey.name_of_ofName? hname, hset, ?_⟩
      simp only [hset, hexplicit]
    · exact .inl ⟨by simp [hadmits], _, by simp only [hset]; rfl⟩

/-! ## Levels -/

/-- The first wrong attribute accounts for the result. -/
def Faulted (raws : List RawAttribute) : Except Fault Attributes → Prop
  | .ok _ => raws.find? RawAttribute.wrong = none
  | .error f => (raws.find? RawAttribute.wrong).map RawAttribute.span = some f.span

/-- A result that there is no fault in is worked on. -/
theorem Faulted.bind {front back : List RawAttribute} {x : Except Fault Attributes}
    {f : Attributes → Except Fault Attributes} (hx : Faulted front x)
    (hf : ∀ a, Faulted back (f a)) : Faulted (front ++ back) (x >>= f) := by
  cases x with
  | error fault =>
    obtain ⟨raw, hraw, hspan⟩ := Option.map_eq_some_iff.mp hx
    show ((front ++ back).find? _).map _ = _
    rw [find?_append, hraw, Option.some_or, Option.map_some, hspan]
  | ok a =>
    have hfind : (front ++ back).find? RawAttribute.wrong = back.find? RawAttribute.wrong := by
      rw [find?_append, show front.find? RawAttribute.wrong = none from hx, Option.none_or]
    show Faulted (front ++ back) (f a)
    have hback := hf a
    unfold Faulted at hback ⊢
    rwa [hfind]

theorem foldlM_faulted (level : List RawAttribute) (a : Attributes) :
    Faulted level (level.foldlM apply a) := by
  induction level generalizing a with
  | nil => exact rfl
  | cons raw level ih =>
    have hraw : Faulted [raw] (a.apply raw) := by
      rcases a.apply_cases raw with ⟨hwrong, cause, happly⟩ | ⟨hwrong, key, a1, -, -, happly⟩
      · rw [happly, Faulted, find?_singleton, if_pos hwrong, Option.map_some]
      · rw [happly, Faulted, find?_singleton, if_neg (by simp [hwrong])]
    exact hraw.bind ih

theorem nested_faulted (levels : List (List RawAttribute)) :
    Faulted levels.flatten (nested levels) := by
  suffices h : ∀ a, Faulted levels.flatten (levels.foldlM (fun parent level => resolve level parent) a)
    from h {}
  induction levels with
  | nil => exact fun _ => rfl
  | cons level levels ih => exact fun a => (foldlM_faulted level a.inherit).bind ih

theorem foldlM_concat_eq_ok {α β : Type} {f : β → α → Except Fault β} {xs : List α} {x : α} {b b' : β}
    (h : (xs ++ [x]).foldlM f b = .ok b') : ∃ b1, xs.foldlM f b = .ok b1 ∧ f b1 x = .ok b' := by
  rw [foldlM_append] at h
  cases hxs : xs.foldlM f b with
  | error => rw [hxs] at h; cases h
  | ok b1 =>
    rw [hxs] at h
    exact ⟨b1, rfl, (bind_pure (f b1 x)).symm.trans h⟩

/-- What is written last on a tag stands. -/
theorem Field.get_foldlM {β : Type} (f : Field β) {level : List RawAttribute} :
    ∀ {a'}, level.foldlM apply a = .ok a' → f.get a' = (f.value level).getD (f.get a) := by
  induction level using reverseRecOn with
  | nil =>
    rintro _ ⟨⟩
    rfl
  | append_singleton level raw ih =>
    intro a' h
    obtain ⟨a1, hlevel, happly'⟩ := foldlM_concat_eq_ok h
    rcases a1.apply_cases raw with ⟨-, cause, happly⟩ | ⟨-, key, a2, hname, hset, happly⟩
    · cases happly.symm.trans happly'
    · cases happly.symm.trans happly'
      have hfield := f.set_eq hset
      rw [f.get_explicit, value, reverse_append, reverse_singleton, singleton_append, find?_cons]
      split at hfield
      next hkey =>
        rw [hname, hkey, beq_self_eq_true, Option.bind_some, hfield, Option.getD_some]
      next hkey =>
        have hother : (raw.name == f.key.name) = false := by
          rw [hname, beq_eq_false_iff_ne]
          intro heq
          have hfound := key.ofName?_name
          rw [heq, f.key.ofName?_name] at hfound
          exact hkey (Option.some.inj hfound).symm
        rw [hother, ← Option.some.inj hfield]
        exact ih hlevel

variable {levels : List (List RawAttribute)} {β : Type}

/-- A field that is handed down comes from the innermost level that writes it. -/
theorem Field.get_inherited (f : Field β) (hinherit : ∀ a : Attributes, f.get a.inherit = f.get a) :
    ∀ {a}, nested levels = .ok a → f.get a = (levels.reverse.findSome? f.value).getD (f.get {}) := by
  induction levels using reverseRecOn with
  | nil =>
    rintro _ ⟨⟩
    rfl
  | append_singleton levels level ih =>
    intro a h
    obtain ⟨parent, hparent, hlevel⟩ := foldlM_concat_eq_ok h
    rw [f.get_foldlM hlevel, hinherit, ih hparent, reverse_append, reverse_singleton,
      singleton_append, findSome?_cons]
    cases f.value level <;> rfl

/-- The innermost level has the last word. -/
theorem nested_last (h : nested levels = .ok a) :
    ∃ parent : Attributes, (levels.getLastD []).foldlM apply parent.inherit = .ok a := by
  rcases eq_nil_or_concat levels with rfl | ⟨levels, level, rfl⟩
  · cases h
    exact ⟨{}, rfl⟩
  · rw [concat_eq_append] at h ⊢
    obtain ⟨parent, -, hlevel⟩ := foldlM_concat_eq_ok h
    exact ⟨parent, by rwa [getLastD_concat]⟩

/-- Any other field comes from the innermost level of all. -/
theorem Field.get_own (f : Field β) (hinherit : ∀ a : Attributes, f.get a.inherit = f.get {})
    (h : nested levels = .ok a) : f.get a = (f.value (levels.getLastD [])).getD (f.get {}) := by
  obtain ⟨parent, hlevel⟩ := nested_last h
  rw [f.get_foldlM hlevel, hinherit]

/-- The explicit attributes are those of the tag, in order. -/
theorem explicit_foldlM {level : List RawAttribute} (h : level.foldlM apply a = .ok a') :
    a'.explicit = a.explicit ++ level.filterMap RawAttribute.located? := by
  induction level generalizing a with
  | nil =>
    cases h
    exact (append_nil _).symm
  | cons raw level ih =>
    rw [foldlM_cons] at h
    rcases a.apply_cases raw with ⟨-, cause, happly⟩ | ⟨-, key, a1, hname, -, happly⟩
    · rw [happly] at h
      cases h
    · rw [happly] at h
      rw [ih h, filterMap_cons, RawAttribute.located?, hname, key.ofName?_name, append_assoc]
      rfl

theorem explicit_nested (h : nested levels = .ok a) :
    a.explicit = (levels.getLastD []).filterMap RawAttribute.located? := by
  obtain ⟨parent, hlevel⟩ := nested_last h
  exact explicit_foldlM hlevel

theorem leftovers_eq (a : Attributes) (used : List AttributeKey) :
    a.leftovers used = a.explicit.filter fun p => (p.1 = .scope ∨ p.1 = .ownScope) ∧ p.1 ∉ used := by
  refine filter_congr fun p _ => ?_
  obtain ⟨key, span⟩ := p
  cases key <;> simp [AttributeKey.inherited]

/-- The attributes of nested regions are what their tags declare, or the first wrong attribute is at
fault. -/
theorem levels_resolved (levels : List (List RawAttribute)) :
    match nested levels with
    | .ok a => levels.flatten.find? RawAttribute.wrong = none ∧ Declared levels a
    | .error f => (levels.flatten.find? RawAttribute.wrong).map RawAttribute.span = some f.span := by
  have hfaulted := nested_faulted levels
  cases h : nested levels with
  | error f => rwa [h] at hfaulted
  | ok a =>
    rw [h] at hfaulted
    exact ⟨hfaulted, Field.logic.get_inherited (fun _ => rfl) h,
      Field.trimmed.get_inherited (fun _ => rfl) h, Field.dialect.get_inherited (fun _ => rfl) h,
      Field.scope.get_own (fun _ => rfl) h, Field.ownScope.get_own (fun _ => rfl) h,
      Field.mode.get_own (fun _ => rfl) h, fun used => explicit_nested h ▸ a.leftovers_eq used⟩

end Attributes
end Patchwork
