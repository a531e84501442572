import Patchwork.Region.Basic
import Patchwork.StartTag

/-!
# Documents

`compile` compiles a document. It keeps a stack of frames, one for each region that is open. The
innermost region reads on until a tag begins a child region, until its own closing tag, or until the
end of the document. Between regions the document has elements, whose tags are read here, and
comments.
-/

namespace Patchwork

open Lexeme (ScanOptions)

/-- What a tag has opened. -/
inductive TagKind where
  | element | comment
  deriving DecidableEq, Repr

/-- A tag that is open. -/
structure OpenTag where
  kind : TagKind
  name : Text
  span : Span
  deriving DecidableEq, Repr

/-- A region that is open, with what to return to when it ends. -/
structure Frame where
  region : Region
  attributes : Attributes
  tag : Option OpenTag
  savedOptions : ScanOptions
  savedDialect : Dialect
  /-- The place in the output where the region begins. -/
  mark : Nat
  deriving DecidableEq, Repr

namespace Document

open Compile

/-- Begin a region of a mode: `front` is written between its creation and its start. -/
def enter (spec : ModeSpec) (attributes : Attributes) (dialect : Option Dialect)
    (tag : Option OpenTag) (front : Region → Compile Unit) : Compile Frame := do
  let s ← get
  match dialect with
  | some dialect => modifyOutput fun o => { o with dialect }
  | none => pure ()
  let region ← Region.create spec attributes
  front region
  let mark ← onOutput Output.mark
  let region ← region.start
  return { region, attributes, tag, savedOptions := s.cursor.options
           savedDialect := s.output.dialect, mark }

def unknownMode {α : Type} (registry : Registry) (name : Text) (span : Span) : Compile α :=
  fail (.modeUnknown name registry.known) span.start span.stop

def enterRoot (registry : Registry) : Compile Frame := do
  let settings := (← get).settings
  let name := settings.rootMode
  match if name.isEmpty then registry.default else registry.lookup? name with
  | none => unknownMode registry name ⟨0, 0⟩
  | some spec =>
    let attributes := settings.attributes
    enter spec attributes attributes.dialect none fun _ => pure ()

/-- The mode of an element's content: the one its attributes name, or the one that reads this
element, or that of markup. -/
def chooseMode (registry : Registry) (tag : StartTag) (attributes : Attributes) :
    Compile ModeSpec := do
  match attributes.mode with
  | some name =>
    match registry.lookup? name with
    | some spec => return spec
    | none =>
      let raw := tag.region.find? (·.name == AttributeKey.mode.name)
      unknownMode registry name ((raw.map RawAttribute.span).getD tag.span)
  | none =>
    match registry.forTag? tag.name, registry.lookup? "html" with
    | some spec, _ | none, some spec => return spec
    | none, none => unknownMode registry "html" tag.span

def reportLeftovers (attributes : Attributes) (used : List AttributeKey)
    (cause : Text → Cause) : Compile Unit :=
  (attributes.leftovers used).forM fun (key, span) => warn (cause key.text) span

def elementCall (o : Output) (name : Text) (attributes : List (Text × Text)) : Text :=
  o.feature "element" ++ '(' :: o.context ++ ", " ++ Text.quote name ++ ", " ++
    StartTag.attributeObject attributes

/-- Write the front of an element with content, and enter its function. -/
def openElement (tag : StartTag) (attributes : Attributes) (region : Region) : Compile Unit := do
  reportLeftovers attributes region.usedAttributes (.attributeUnused · region.name)
  let s ← get
  let context := s.settings.names.context
  emit (elementCall s.output tag.name (tag.attributes ++ region.elementAttributes) ++ ", " ++
    s.output.functionOpen context)
  modifyOutput (·.startFunction context)

section

variable [Expansion]

/-- A `<` that begins a tag or a comment has been read in a region. -/
def openChild (registry : Registry) (parent : Frame) : Compile (Option Frame) := do
  let at_ := (← position) - 1
  if ← scan (Scan.readText "!--") then
    let span : Span := ⟨at_, ← position⟩
    match registry.lookup? "__comment" with
    | none => unknownMode registry "__comment" span
    | some spec =>
      let tag : OpenTag := ⟨.comment, "!--", span⟩
      return some (← enter spec parent.attributes.inherit none (some tag) fun _ => pure ())
  else
    let tag ← StartTag.read at_
    match Attributes.resolve tag.region parent.attributes with
    | .error f => throw (.fault f)
    | .ok attributes =>
      let spec ← chooseMode registry tag attributes
      if tag.selfClosing then
        reportLeftovers attributes [] .attributeOnEmpty
        emit (elementCall (← output) tag.name tag.attributes ++ ')' ::
          parent.region.elementTerminator)
        return none
      else
        let opened : OpenTag := ⟨.element, tag.name, tag.span⟩
        return some (← enter spec attributes attributes.dialect (some opened)
          (openElement tag attributes))

variable [Editor]

/-- End a region and return to what was before it. The answer are the slots left without a value. -/
def leave (frame : Frame) : Compile (List Fault) := do
  frame.region.finish
  match frame.region.after? (← output) with
  | some call => emit (call ++ [';'])
  | none => pure ()
  let faults ← onOutput (·.endRegion frame.mark)
  if frame.tag.any (·.kind == .element) then emit (← output).functionClose
  modify fun s =>
    { s with
      cursor := { s.cursor with options := frame.savedOptions }
      output := { s.output with dialect := frame.savedDialect } }
  return faults

def closeTag (tag : OpenTag) : Compile Unit := do
  let at_ := (← position) - 1
  let name ← scan readClosingTag
  if !name.isEmpty && name != tag.name then
    fail (.closesOther name tag.name tag.span.start) at_ (← position)

/-- The innermost region has met its end. A comment becomes a link of the region around it. -/
def closeRegion (frame : Frame) (outer : List Frame) : Compile (List Frame × List Fault) := do
  match frame.tag with
  | none =>
    let at_ := (← position) - 1
    let name ← scan readClosingTag
    fail (.closesNothing name) at_ (← position)
  | some tag =>
    match tag.kind with
    | .element =>
      closeTag tag
      let faults ← leave frame
      modifyOutput Output.endScope
      emit (')' :: (outer.head?.map (·.region.elementTerminator)).getD ";")
      return (outer, faults)
    | .comment =>
      let link := frame.region.link? (← output)
      let faults ← leave frame
      match link, outer with
      | some link, parent :: frames =>
        let region ← parent.region.accept link
        return ({ parent with region } :: frames, faults)
      | _, _ => return (outer, faults)

def endDocument (frame : Frame) : Compile (List Fault) := do
  match frame.tag with
  | none => leave frame
  | some tag =>
    let cause : Cause :=
      match tag.kind with
      | .element => .elementOpen tag.name
      | .comment => .markupCommentOpen
    fail cause tag.span.start tag.span.stop

/-- One step of the innermost region, and what it leads to: the frames that are open afterwards, and
the slots that a region which ended left without a value. -/
def advance (registry : Registry) (frame : Frame) (outer : List Frame) :
    Compile (List Frame × List Fault) := do
  let (region, step) ← frame.region.step
  let frame := { frame with region }
  match step with
  | .next => return (frame :: outer, [])
  | .child =>
    match ← openChild registry frame with
    | some child => return (child :: frame :: outer, [])
    | none => return (frame :: outer, [])
  | .close => closeRegion frame outer
  | .eof => return ([], ← endDocument frame)

/-- How a document has been read: to its end, or with a halt. Either way with the faults found in
regions that had ended. -/
inductive Run where
  | done (s : Session) (faults : List Fault)
  | halted (h : Halt) (faults : List Fault)
  deriving DecidableEq, Repr

/-- Read on until no region is open. Every step but the last reads a character. -/
def run (registry : Registry) : (fuel : Nat) → List Frame → List Fault → Session → Run
  | _, [], faults, s => .done s faults
  | 0, _ :: _, faults, _ => .halted .spent faults
  | fuel + 1, frame :: outer, faults, s =>
    match advance registry frame outer s with
    | .error h => .halted h faults
    | .ok ((frames, more), s) => run registry fuel frames (faults ++ more) s

end

def process [Editor] (registry : Registry) (settings : Settings) (source : Text) : Run :=
  match enterRoot registry (Session.start settings source) with
  | .error h => .halted h []
  | .ok (root, s) => run registry (source.length + 1) [root] [] s

end Document

/-- What comes of a document. -/
inductive Outcome where
  | compiled (code : Text) (warnings : List Diagnostic)
  | rejected (errors : List Diagnostic)
  /-- No answer, because a text was cut inside a character or a bound was reached. -/
  | stopped
  deriving DecidableEq, Repr

def compileWith (registry : Registry) (settings : Settings) (file : Nat) (source : Text) :
    Outcome :=
  match Document.process registry settings source with
  | .done s [] => .compiled s.output.finish (s.warnings.map (⟨·, file⟩))
  | .done _ faults => .rejected (faults.map (⟨·, file⟩))
  | .halted (.fault f) faults => .rejected ((faults ++ [f]).map (⟨·, file⟩))
  | .halted _ _ => .stopped

def compile (settings : Settings) (file : Nat) (source : Text) : Outcome :=
  compileWith .standard settings file source

end Patchwork
