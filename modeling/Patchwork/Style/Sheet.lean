import Patchwork.Text.Basic

/-!
# Stylesheets

A `Sheet` is a tree of rules, declarations and statements. It is built through scopes: a `Scope`
knows the selectors that lead to it, where its declarations go and where the rules selected inside
it go. Rules are not nested in the way they are written: a selected rule is placed next to its
parent, or inside the enclosing at-rule, under a selector that already includes the parent's.

Rules are kept in one list and refer to each other by place; a rule only ever holds rules that were
added after it. `Sheet.render` writes a sheet in one of two layouts.
-/

namespace Patchwork.Style

/-- What a rule or the sheet itself holds. -/
inductive Item where
  /-- The rule at a place of the sheet's list. -/
  | rule (index : Nat)
  | declaration (key value : Text)
  | statement (text : Text)
  deriving DecidableEq, Repr

/-- A selector and what its block holds. -/
structure Rule where
  selector : Text
  items : List Item
  deriving DecidableEq, Repr

/-- A place that holds items. -/
inductive Place where
  | root
  | rule (index : Nat)
  deriving DecidableEq, Repr

/-- A sheet: the items at its top and all its rules. -/
structure Sheet where
  root : List Item := []
  rules : List Rule := []
  deriving DecidableEq, Repr

/-- A position from which declarations and rules are added. -/
structure Scope where
  /-- Where rules selected from this scope go. -/
  rulesAt : Place
  /-- Where declarations of this scope go. -/
  itemsAt : Place
  selectors : List Text
  /-- Are selectors taken as they are, without those of the parents? -/
  absolute : Bool
  deriving DecidableEq, Repr

/-- The layouts a sheet can be written in. -/
inductive Layout where
  /-- `a{b:c;}` with nothing between items. -/
  | compact
  /-- One item to a line, blocks indented by two blanks. -/
  | indented
  deriving DecidableEq, Repr

namespace Sheet

def addItem (sheet : Sheet) (place : Place) (item : Item) : Sheet :=
  match place with
  | .root => { sheet with root := sheet.root ++ [item] }
  | .rule i =>
    { sheet with rules := sheet.rules.modify i fun r => { r with items := r.items ++ [item] } }

def addRule (sheet : Sheet) (place : Place) (selector : Text) : Sheet × Place :=
  let index := sheet.rules.length
  let sheet := { sheet with rules := sheet.rules ++ [Rule.mk selector []] }
  (sheet.addItem place (.rule index), .rule index)

def scope (sheet : Sheet) (selector : Option Text) : Sheet × Scope :=
  match selector with
  | some selector =>
    let (sheet, rule) := sheet.addRule .root selector
    (sheet, ⟨.root, rule, [selector], false⟩)
  | none => (sheet, ⟨.root, .root, [], false⟩)

/-- The selectors one part of a selector list stands for inside a scope: the parents put in for
`&`, or else put before the part. -/
def combine (scope : Scope) (part : Text) : List Text :=
  if part.contains '&' && !scope.selectors.isEmpty then
    scope.selectors.map fun parent => Text.replaceChar '&' parent part
  else if !scope.selectors.isEmpty && !scope.absolute then
    scope.selectors.map fun parent => parent ++ ' ' :: part
  else [part]

/-- The scope of a block inside a scope. An at-rule goes to the top of the sheet and repeats the
selectors of the scope inside. -/
def select (sheet : Sheet) (scope : Scope) (selector : Text) : Sheet × Scope :=
  let selector := Text.trim selector
  match Text.after? ['@'] selector with
  | some name =>
    let (sheet, rule) := sheet.addRule .root selector
    let (sheet, items) :=
      if scope.selectors.isEmpty then (sheet, rule)
      else sheet.addRule rule (Text.join ", " scope.selectors)
    (sheet, ⟨rule, items, scope.selectors, Text.startsWith "keyframes" name⟩)
  | none =>
    let selectors := (Text.splitOn ',' selector).flatMap fun part => combine scope (Text.trim part)
    let (sheet, rule) := sheet.addRule scope.rulesAt (Text.join ", " selectors)
    (sheet, ⟨scope.rulesAt, rule, selectors, false⟩)

/-- Add a declaration; a list of keys declares each of them. -/
def value (sheet : Sheet) (scope : Scope) (key value : Text) : Sheet :=
  (Text.splitOn ',' key).foldl
    (fun sheet key => sheet.addItem scope.itemsAt (.declaration (Text.trim key) value)) sheet

def stat (sheet : Sheet) (statement : Text) : Sheet :=
  sheet.addItem .root (.statement (Text.trim statement))

/-- Write an item in the compact layout, going at most `depth` rules deep. A rule that holds
nothing is left out. -/
def compactItem (sheet : Sheet) : (depth : Nat) → Item → Text
  | _, .declaration key value => key ++ ':' :: value ++ [';']
  | _, .statement text => text ++ [';']
  | 0, .rule _ => []
  | depth + 1, .rule index =>
    match sheet.rules[index]? with
    | some rule =>
      if rule.items.isEmpty then []
      else rule.selector ++ '{' :: rule.items.flatMap (sheet.compactItem depth) ++ ['}']
    | none => []

/-- Write an item in the indented layout, going at most `depth` rules deep. -/
def indentedItem (sheet : Sheet) : (depth : Nat) → (indent : Text) → Item → Text
  | _, indent, .declaration key value => indent ++ key ++ ": " ++ value ++ ";\n"
  | _, indent, .statement text => indent ++ text ++ ";\n"
  | 0, _, .rule _ => []
  | depth + 1, indent, .rule index =>
    match sheet.rules[index]? with
    | some rule =>
      if rule.items.isEmpty then []
      else
        indent ++ rule.selector ++ " \x7b\n" ++
          rule.items.flatMap (sheet.indentedItem depth ("  " ++ indent)) ++ indent ++ "\x7d\n"
    | none => []

/-- A sheet as css. No chain of nested rules is longer than the list of rules. -/
def render (sheet : Sheet) : Layout → Text
  | .compact => sheet.root.flatMap (sheet.compactItem sheet.rules.length)
  | .indented => sheet.root.flatMap (sheet.indentedItem sheet.rules.length [])

end Sheet
end Patchwork.Style
