import Patchwork.Diagnostic
import Patchwork.Style.Sheet

/-!
# Settings

The settings of a compilation, and the attributes of a region. Region attributes are written on a
tag with a `#` in front and are resolved on top of the attributes of the enclosing region:
`Attributes.resolve` gives the attributes of the region, or says which attribute is wrong.
-/

namespace Patchwork

/-- The shape of generated functions and joined texts. -/
inductive Dialect where
  /-- Arrow functions and templates. -/
  | modern
  /-- `function` expressions bound to `this`, and sums of strings. -/
  | legacy
  deriving DecidableEq, Repr

namespace Dialect

def ofName? (name : Text) : Option Dialect :=
  if name == "modern" || name == "es6" then some modern
  else if name == "legacy" || name == "es5" then some legacy
  else none

def name : Dialect → Text
  | modern => "modern"
  | legacy => "legacy"

end Dialect

/-- The region attributes. -/
inductive AttributeKey where
  /-- Are statements recognized in a text region? -/
  | logic
  /-- Is text made of blanks alone kept out of chains? -/
  | trimmed
  | dialect
  /-- The root selector of a stylesheet region. -/
  | scope
  /-- Does the region get a scope of its own when the generated code runs? -/
  | ownScope
  | mode
  deriving DecidableEq, Repr

namespace AttributeKey

def all : List AttributeKey :=
  [logic, trimmed, dialect, scope, ownScope, mode]

def name : AttributeKey → Text
  | logic => "logic"
  | trimmed => "trimmed"
  | dialect => "dialect"
  | scope => "scope"
  | ownScope => "scoped"
  | mode => "mode"

def text (key : AttributeKey) : Text :=
  '#' :: key.name

def ofName? (name : Text) : Option AttributeKey :=
  all.find? (·.name == name)

/-- Does a child region start from its parent's value? -/
def inherited : AttributeKey → Bool
  | logic | trimmed | dialect => true
  | scope | ownScope | mode => false

end AttributeKey

/-- The value of an attribute as it is written. -/
inductive RawValue where
  /-- The name alone. -/
  | flag
  | text (t : Text)
  | expression (source : Text)
  deriving DecidableEq, Repr

namespace RawValue

def flag? : RawValue → Option Bool
  | flag => some true
  | text t => if t == "true" then some true else if t == "false" then some false else none
  | expression _ => none

def text? : RawValue → Option Text
  | text t => some t
  | flag | expression _ => none

end RawValue

/-- A region attribute as it is written on a tag. -/
structure RawAttribute where
  name : Text
  value : RawValue
  span : Span
  deriving DecidableEq, Repr

/-- The attributes of a region. -/
structure Attributes where
  logic : Bool := false
  trimmed : Bool := true
  dialect : Option Dialect := none
  scope : Option Text := none
  ownScope : Bool := false
  mode : Option Text := none
  /-- The attributes written on the region's own tag, in order. -/
  explicit : List (AttributeKey × Span) := []
  deriving DecidableEq, Repr

namespace Attributes

def inherit (a : Attributes) : Attributes :=
  { logic := a.logic, trimmed := a.trimmed, dialect := a.dialect }

def set (a : Attributes) (key : AttributeKey) (value : RawValue) : Except Text Attributes :=
  match key with
  | .logic =>
    match value.flag? with
    | some b => .ok { a with logic := b }
    | none => .error "a boolean"
  | .trimmed =>
    match value.flag? with
    | some b => .ok { a with trimmed := b }
    | none => .error "a boolean"
  | .ownScope =>
    match value.flag? with
    | some b => .ok { a with ownScope := b }
    | none => .error "a boolean"
  | .dialect =>
    match value.text?.bind Dialect.ofName? with
    | some d => .ok { a with dialect := some d }
    | none => .error "`modern` or `legacy`"
  | .scope =>
    match value.text? with
    | some t => .ok { a with scope := some t }
    | none => .error "a selector string"
  | .mode =>
    match value.text? with
    | some t => .ok { a with mode := some t }
    | none => .error "a mode name"

def apply (a : Attributes) (raw : RawAttribute) : Except Fault Attributes :=
  match AttributeKey.ofName? raw.name with
  | none => .error ⟨.attributeUnknown raw.name (AttributeKey.all.map AttributeKey.text), raw.span⟩
  | some key =>
    match a.set key raw.value with
    | .ok a => .ok { a with explicit := a.explicit ++ [(key, raw.span)] }
    | .error expected => .error ⟨.attributeValue key.text expected, raw.span⟩

/-- The attributes of a region: what is written on its tag, on top of what its parent hands down. -/
def resolve (raw : List RawAttribute) (parent : Attributes) : Except Fault Attributes :=
  raw.foldlM apply parent.inherit

/-- The attributes written on the tag that `used` does not list. Those that are handed down and the
choice of a mode always count as used. -/
def leftovers (a : Attributes) (used : List AttributeKey) : List (AttributeKey × Span) :=
  a.explicit.filter fun (key, _) => !used.contains key && !key.inherited && key != .mode

end Attributes

/-- The names that generated code refers to. -/
structure Names where
  runtime : Text := "__rt"
  context : Text := "__context"
  /-- The parameter that collects what reactive code reads. -/
  tracker : Text := "__tracker"
  /-- The parameter of unit arithmetic and of chained reads. -/
  value : Text := "__value"
  deriving DecidableEq, Repr

/-- The settings of a compilation. -/
structure Settings where
  dialect : Dialect := .modern
  names : Names := {}
  rootMode : Text := "code"
  /-- The attributes of the document itself, from which all regions inherit. -/
  attributes : Attributes := {}
  /-- How stylesheets are written that are rendered at compile time. -/
  layout : Style.Layout := .compact
  /-- Is text reported that is only kept as text because it closes nothing? -/
  warnFallbacks : Bool := false
  deriving DecidableEq, Repr

end Patchwork
