import Patchwork.Chain

/-!
# Statements

Control flow written inside a text region: `if` with its branches, loops and `foreach`. Whether a
statement must become a wrapper that renders again when a reactive value changes is only known once
every branch has been read. So what depends on it is written to slots, and `Statement.makeReactive`
edits them when the region ends.
-/

namespace Patchwork

/-- The keywords that begin a branch. -/
inductive Keyword where
  | ifTrue | elseIf | otherwise | forLoop | whileLoop | switch | foreach
  deriving DecidableEq, Repr

namespace Keyword

def text : Keyword → Text
  | ifTrue => "if"
  | elseIf => "else if"
  | otherwise => "else"
  | forLoop => "for"
  | whileLoop => "while"
  | switch => "switch"
  | foreach => "foreach"

/-- May another branch follow? -/
def continuable : Keyword → Bool
  | ifTrue | elseIf => true
  | _ => false

end Keyword

/-- One branch of a statement. -/
structure Part where
  keyword : Keyword
  span : Span
  /-- The expanded condition; `else` and `foreach` have none. -/
  condition : Option Text
  reactive : Bool
  /-- Is the body without braces, so that the line break ends it? -/
  inline : Bool
  /-- The slot before the branch, which has no value until the branch is closed. -/
  declStart : SlotId
  decl : SlotId
  /-- The slot of the parameters of a `foreach`, and the parameters. -/
  params : Option (SlotId × Text)
  close : Option SlotId
  deriving DecidableEq, Repr

/-- What a `foreach` goes through. -/
inductive Iteration where
  | array | object | range
  deriving DecidableEq, Repr

/-- The head of a `foreach`. -/
structure Each where
  iteration : Iteration
  /-- The iterated expression as it is written. -/
  unparsed : Text
  /-- The iterated expression, expanded. -/
  source : Text
  deriving DecidableEq, Repr

/-- A statement: the branch read last, and those before it in order. -/
structure Statement where
  keyword : Keyword
  earlier : List Part
  last : Part
  /-- Does some branch read a reactive value? -/
  reactive : Bool
  start : SlotId
  context : Text
  /-- What follows the end of the last branch. -/
  trailer : Text
  each : Option Each
  deriving DecidableEq, Repr

namespace Statement

/-- The branches in order. -/
def parts (s : Statement) : List Part :=
  s.earlier ++ [s.last]

def addPart (s : Statement) (p : Part) : Statement :=
  { s with earlier := s.parts, last := p, reactive := s.reactive || p.reactive }

end Statement

def callbackHead (dialect : Dialect) (params : Text) : Text :=
  match dialect with
  | .modern => '(' :: params ++ ") =>"
  | .legacy => "function(" ++ params ++ ")"

/-- The reactive value that an iterated expression is, when it is nothing but a read. -/
def bareRead? (unparsed : Text) : Option Text :=
  match Text.trim unparsed with
  | '*' :: name =>
    if name.head?.any Text.isWordStart && name.all (fun c => Text.isWordChar c || c == '.') &&
        !Text.endsWithChar '.' name then some name
    else none
  | _ => none

namespace Statement

/-- The part of the choice between branches that the branch with a number adds: its number, after its
condition if it has one. -/
def choice (p : Part) (i : Nat) : Text :=
  match p.condition with
  | some condition => condition ++ " ? " ++ Text.ofNat i ++ " : "
  | none => Text.ofNat i

/-- The number of the branch to run, as an expression: the first whose condition holds, and `-1` if
none does. -/
def selector (parts : List Part) : Text :=
  parts.zipIdx.flatMap (fun (p, i) => choice p i) ++
    if parts.getLast?.any (·.keyword != .otherwise) then "-1" else ""

/-- The edits that make a branch of an `if` an argument of the wrapper. -/
def armEdits (dialect : Dialect) (context : Text) (p : Part) : List Edit :=
  let head : Text :=
    match dialect with
    | .modern => ", " ++ context ++ " =>"
    | .legacy => ", function(" ++ context ++ ")"
  let back : List Edit :=
    match dialect, p.close with
    | .legacy, some close => [⟨close, .set "\x7d.bind(this)"⟩]
    | _, _ => []
  ⟨p.declStart, .set head⟩ :: ⟨p.decl, .set []⟩ :: back

/-- The edits that make an `if` a choice that is made again when a condition changes. -/
def choiceEdits (s : Statement) (close : SlotId) (o : Output) : List Edit :=
  let choose := o.arrow o.names.tracker (selector s.parts)
  s.parts.flatMap (armEdits o.dialect s.context) ++
    [⟨s.start, .set (o.feature "bindFlowIfElse" ++ '(' :: s.context ++ ", " ++ choose)⟩,
     ⟨close, .append ");"⟩]

/-- The edits that make a `foreach` one that is run again when the collection changes. -/
def eachEdits (s : Statement) (each : Each) (o : Output) : List Edit :=
  let source := (bareRead? each.unparsed).getD (o.wrapReactive each.source)
  let feature : Text := if each.iteration == .object then "bindFlowEachObject" else "bindFlowEach"
  let first := s.parts.headD s.last
  ⟨first.decl, .set (o.feature feature ++ '(' :: s.context ++ ", " ++ source ++ ", ")⟩ ::
    match first.params with
    | some (slot, params) =>
      let params := if params.isEmpty then s.context else s.context ++ ", " ++ params
      [⟨slot, .set (callbackHead o.dialect params)⟩]
    | none => []

def flowEdits (s : Statement) (close : SlotId) (o : Output) : List Edit :=
  let flow := o.feature "bindFlow" ++ '(' :: s.context ++ ", "
  match o.dialect with
  | .modern =>
    [⟨s.start, .prepend (flow ++ o.names.tracker ++ " => " ++ s.context ++ " => \x7b")⟩,
     ⟨close, .append "\x7d);"⟩]
  | .legacy =>
    [⟨s.start, .prepend
       (flow ++ "function(" ++ o.names.tracker ++ ")\x7breturn function(" ++ s.context ++ ")\x7b")⟩,
     ⟨close, .append "\x7d.bind(this)\x7d.bind(this));"⟩]

/-- The edits that make a closed statement one that follows the reactive values it reads. -/
def edits (s : Statement) (o : Output) : List Edit :=
  match s.last.close with
  | none => []
  | some close =>
    match s.keyword, s.each with
    | .ifTrue, _ => s.choiceEdits close o
    | .foreach, some each =>
      if each.iteration == .range then s.flowEdits close o else s.eachEdits each o
    | _, _ => s.flowEdits close o

def makeReactive [Editor] (s : Statement) : Compile Unit := do
  (s.edits (← Compile.output)).forM Editor.edit

end Statement
end Patchwork
