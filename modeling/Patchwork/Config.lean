import Patchwork.Settings
import Patchwork.Toml

/-!
# Configuration files

A configuration file sets some of the settings of a compilation. `Config.parse?` reads one, and
`Config.apply` writes what it says over given settings.
-/

namespace Patchwork

/-- What a configuration file says. Everything may be left out. -/
structure Config where
  dialect : Option Text := none
  mode : Option Text := none
  runtime : Option Text := none
  context : Option Text := none
  logic : Option Bool := none
  trimmed : Option Bool := none
  layout : Option Text := none
  warnFallbacks : Option Bool := none
  deriving DecidableEq, Repr

/-- A name that a configuration file uses and that stands for nothing. -/
inductive ConfigError where
  | dialect (name : Text)
  | layout (name : Text)
  deriving DecidableEq, Repr

def ConfigError.message : ConfigError → Text
  | dialect name => "unknown dialect '" ++ name ++ "'"
  | layout name => "unknown style format '" ++ name ++ "'"

namespace Config

def keys : List Text :=
  ["dialect", "mode", "runtime", "context", "logic", "trimmed", "style_format", "strict_warnings"]

/-- What a table says, if it has only known keys and each has a value of the right kind. -/
def ofTable? (t : Toml.Table) : Option Config := do
  if !Toml.onlyKeys t keys then none
  return {
    dialect := ← Toml.optional? t "dialect" Toml.text?
    mode := ← Toml.optional? t "mode" Toml.text?
    runtime := ← Toml.optional? t "runtime" Toml.text?
    context := ← Toml.optional? t "context" Toml.text?
    logic := ← Toml.optional? t "logic" Toml.bool?
    trimmed := ← Toml.optional? t "trimmed" Toml.bool?
    layout := ← Toml.optional? t "style_format" Toml.text?
    warnFallbacks := ← Toml.optional? t "strict_warnings" Toml.bool? }

def parse? (t : Text) : Option Config :=
  (Toml.parse? t).bind ofTable?

def dialectNamed (name : Text) : Except ConfigError Dialect :=
  match Dialect.ofName? name with
  | some d => .ok d
  | none => .error (.dialect name)

def layoutNamed (name : Text) : Except ConfigError Style.Layout :=
  if name == "compact" then .ok .compact
  else if name == "indented" then .ok .indented
  else .error (.layout name)

/-- Settings with what the file says written over them. Of two names that stand for nothing that of
the dialect is reported. -/
def apply (c : Config) (s : Settings) : Except ConfigError Settings := do
  let dialect ← (c.dialect.map dialectNamed).getD (.ok s.dialect)
  let layout ← (c.layout.map layoutNamed).getD (.ok s.layout)
  return { s with
    dialect
    layout
    rootMode := c.mode.getD s.rootMode
    names :=
      { s.names with
        runtime := c.runtime.getD s.names.runtime
        context := c.context.getD s.names.context }
    attributes :=
      { s.attributes with
        logic := c.logic.getD s.attributes.logic
        trimmed := c.trimmed.getD s.attributes.trimmed }
    warnFallbacks := c.warnFallbacks.getD s.warnFallbacks }

end Config
end Patchwork
