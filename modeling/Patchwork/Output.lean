import Patchwork.Settings

/-!
# Output

Generated code is collected as a list of nodes: texts, and slots whose value can still change. A
slot keeps its place; what it holds is read when the code is put together by `Output.finish`. A slot
may be pending: it then has no value yet, and a fault is reported if it still has none when its
region ends.

`Output.mark` notes a place. `Output.endRegion` freezes the slots made since a mark, and
`Output.replaceSince` drops everything made since a mark. Slots are known by their number
(`SlotId`); numbers are given again after a replacement.

The output also knows the dialect and the names of the generated code, and gives out fresh names.
-/

namespace Patchwork

/-- A part of the output that can still change. -/
structure Slot where
  value : Option Text
  frozen : Bool := false
  /-- Reported when the region ends and there is no value. -/
  pending : Option Fault := none
  deriving DecidableEq, Repr

/-- A part of the output. -/
inductive Node where
  | text (t : Text)
  | slot (s : Slot)
  deriving DecidableEq, Repr

namespace Node

def content : Node → Text
  | text t => t
  | slot s => s.value.getD []

def unresolved? : Node → Option Fault
  | text _ => none
  | slot s => if s.frozen || s.value.isSome then none else s.pending

/-- A slot that cannot change any more. -/
def freeze : Node → Node
  | text t => text t
  | slot s => slot { s with frozen := true }

/-- Change the value of a slot that is not frozen. -/
def update (f : Option Text → Text) : Node → Node
  | text t => text t
  | slot s => if s.frozen then slot s else slot { s with value := some (f s.value) }

end Node

/-- The number of a slot. -/
structure SlotId where
  index : Nat
  deriving DecidableEq, Repr

/-- How the value of a slot changes. -/
inductive Change where
  | set (value : Text)
  | append (t : Text)
  | prepend (t : Text)
  deriving DecidableEq, Repr

/-- The value after a change. A slot that has none counts as empty. -/
def Change.apply : Change → Option Text → Text
  | set value, _ => value
  | append t, value => value.getD [] ++ t
  | prepend t, value => t ++ value.getD []

/-- A change of one slot. -/
structure Edit where
  slot : SlotId
  change : Change
  deriving DecidableEq, Repr

/-- A block of the code being generated. -/
inductive CodeScope where
  | function (context : Option Text)
  | block
  deriving DecidableEq, Repr

/-- The code generated so far. -/
structure Output where
  nodes : List Node := []
  /-- The place of each slot among the nodes. -/
  slots : List Nat := []
  /-- The blocks that are open, innermost first. -/
  scopes : List CodeScope := []
  dialect : Dialect
  names : Names
  nextVar : Nat := 0
  nextId : Nat := 0
  deriving DecidableEq, Repr

namespace Output

/-- Nothing generated yet. -/
def empty (settings : Settings) : Output :=
  { dialect := settings.dialect, names := settings.names }

/-- An output for a fragment, which goes on with the names given out. -/
def fork (o : Output) : Output :=
  { o with nodes := [], slots := [] }

/-- Take back the counters of an output that was made by `fork`. -/
def join (o fragment : Output) : Output :=
  { o with
    nextVar := max o.nextVar fragment.nextVar
    nextId := max o.nextId fragment.nextId }

def add (o : Output) (t : Text) : Output :=
  if t.isEmpty then o
  else
    match o.nodes.getLast? with
    | some (.text last) => { o with nodes := o.nodes.dropLast ++ [Node.text (last ++ t)] }
    | _ => { o with nodes := o.nodes ++ [Node.text t] }

def pushSlot (o : Output) (s : Slot) : Output × SlotId :=
  ({ o with nodes := o.nodes ++ [Node.slot s], slots := o.slots ++ [o.nodes.length] },
    ⟨o.slots.length⟩)

def addSlot (o : Output) (initial : Text) : Output × SlotId :=
  o.pushSlot { value := some initial }

def addPendingSlot (o : Output) (fault : Fault) : Output × SlotId :=
  o.pushSlot { value := none, pending := some fault }

/-- Change the value of a slot. A slot that does not exist or is frozen stays as it is. -/
def update (o : Output) (id : SlotId) (f : Option Text → Text) : Output :=
  match o.slots[id.index]? with
  | some i => { o with nodes := o.nodes.modify i (Node.update f) }
  | none => o

def edit (o : Output) (e : Edit) : Output :=
  o.update e.slot e.change.apply

def set (o : Output) (id : SlotId) (value : Text) : Output :=
  o.edit ⟨id, .set value⟩

def append (o : Output) (id : SlotId) (t : Text) : Output :=
  o.edit ⟨id, .append t⟩

def prepend (o : Output) (id : SlotId) (t : Text) : Output :=
  o.edit ⟨id, .prepend t⟩

/-- Note the present place. Text added later does not join the text before it. -/
def mark (o : Output) : Output × Nat :=
  ({ o with nodes := o.nodes ++ [Node.text []] }, o.nodes.length)

/-- Freeze the slots made since a mark, and report those that are not frozen yet and have no
value. -/
def endRegion (o : Output) (mark : Nat) : Output × List Fault :=
  let region := o.nodes.drop mark
  ({ o with nodes := o.nodes.take mark ++ region.map Node.freeze },
    region.filterMap Node.unresolved?)

def replaceSince (o : Output) (mark : Nat) (t : Text) : Output :=
  let nodes := o.nodes.take mark
  { o with nodes := nodes, slots := o.slots.filter (· < nodes.length) }.add t

/-- The code. -/
def finish (o : Output) : Text :=
  o.nodes.flatMap Node.content

/-- Enter the body of a function. It binds the render context if one of its parameters, without its
default value, has that name. -/
def startFunction (o : Output) (params : Text) : Output :=
  let binds := (Text.splitOn ',' params).any fun p =>
    Text.trim (p.takeWhile (· != '=')) == o.names.context
  let context := if binds then some o.names.context else none
  { o with scopes := .function context :: o.scopes }

def startBlock (o : Output) : Output :=
  { o with scopes := .block :: o.scopes }

/-- Leave the innermost block. -/
def endScope (o : Output) : Output :=
  { o with scopes := o.scopes.drop 1 }

/-- The render context: that of the innermost function that binds one, or else the document's. -/
def context (o : Output) : Text :=
  (o.scopes.findSome? fun
    | .function context => context
    | .block => none).getD o.names.context

/-- A helper of the runtime. -/
def feature (o : Output) (name : Text) : Text :=
  o.names.runtime ++ '.' :: name

def freshVar (o : Output) : Output × Text :=
  ({ o with nextVar := o.nextVar + 1 }, "__s" ++ Text.ofNat o.nextVar)

def freshId (o : Output) : Output × Nat :=
  ({ o with nextId := o.nextId + 1 }, o.nextId)

def arrowParams (params : Text) : Text :=
  if !params.isEmpty && params.all Text.isWordChar then params else '(' :: params ++ [')']

/-- A function that returns an expression. -/
def arrow (o : Output) (params body : Text) : Text :=
  match o.dialect with
  | .modern => arrowParams params ++ " => " ++ body
  | .legacy => "function(" ++ params ++ ")\x7breturn " ++ body ++ "\x7d.bind(this)"

def functionOpen (o : Output) (params : Text) : Text :=
  match o.dialect with
  | .modern => arrowParams params ++ " => \x7b"
  | .legacy => "function(" ++ params ++ ")\x7b"

def functionClose (o : Output) : Text :=
  match o.dialect with
  | .modern => "\x7d"
  | .legacy => "\x7d.bind(this)"

def declare (o : Output) : Text :=
  match o.dialect with
  | .modern => "const"
  | .legacy => "var"

/-- A value that is computed again whenever something it reads through the tracker changes. -/
def wrapReactive (o : Output) (source : Text) : Text :=
  o.feature "coff" ++ '(' :: o.context ++ ", " ++ o.arrow o.names.tracker source ++ [')']

end Output
end Patchwork
