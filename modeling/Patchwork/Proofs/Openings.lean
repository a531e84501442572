import Patchwork.Proofs.Acts

/-!
# How regions begin and end

The functions that begin a region and that return to the one around it are put together of a few
parts. What they lead to is said here once, in terms of these parts: for the region itself
(`enter_of`), for the tag that it stands behind (`openChild_opening`) and for the frames that are
left when it has ended (`closeRegion_frames`).
-/

namespace Patchwork

open Compile

def Session.inDialect (s : Session) (dialect : Option Dialect) : Session :=
  { s with output := { s.output with dialect := dialect.getD s.output.dialect } }

def Session.marked (s : Session) : Session :=
  { s with output := s.output.mark.1 }

theorem Session.length_marked (s : Session) :
    s.marked.output.nodes.length = s.output.nodes.length + 1 :=
  List.length_append

/-- The mode of the content of an element: the one that is asked for, or the one that reads this
element, or that of markup. -/
def Registry.forElement? (registry : Registry) (name : Text) : Option Text → Option ModeSpec
  | some mode => registry.lookup? mode
  | none => registry.forTag? name <|> registry.lookup? "html"

def Compile.emitSome : Option Text → Compile Unit
  | some t => emit t
  | none => pure ()

instance {acts : List Act} (t : Option Text) [Allows acts .text] : Made acts (emitSome t) := by
  unfold emitSome
  split <;> infer_instance

namespace Document

variable {registry : Registry} {s : Session} {frame : Frame} {outer : List Frame}

/-- A region is created in its dialect, what stands in front of it is written, and it starts behind
its mark. -/
theorem enter_of {spec : ModeSpec} {attributes : Attributes} {dialect : Option Dialect}
    {tag : Option OpenTag} {front : Region → Compile Unit} {P : Frame → Session → Prop}
    (h : Gives (Region.create spec attributes) (s.inDialect dialect) fun region s1 =>
        Gives (front region) s1 fun _ s2 =>
          Gives region.start s2.marked fun region s3 =>
            P ⟨region, attributes, tag, s.cursor.options, s.output.dialect,
              s2.output.nodes.length⟩ s3) :
    Gives (enter spec attributes dialect tag front) s P := by
  refine .session ?_
  extract_lets rest
  have hrest : Gives (rest ()) (s.inDialect dialect) P := by
    refine h.bind fun region s1 h1 => h1.bind fun _ s2 h2 => ?_
    have hmark : Gives (onOutput Output.mark) s2 fun mark s3 =>
        s2.output.nodes.length = mark ∧ s2.marked = s3 :=
      .of_eq rfl ⟨rfl, rfl⟩
    refine hmark.bind ?_
    rintro _ _ ⟨rfl, rfl⟩
    exact h2.bind fun region s3 h3 => .pure h3
  cases dialect with
  | none => exact hrest
  | some dialect =>
    refine Agree.bind (P := fun _ s1 => s.inDialect (some dialect) = s1) (.of_eq rfl rfl) ?_
    rintro _ _ rfl
    exact hrest

/-- The document itself is a region of the mode that the settings ask for. -/
theorem enterRoot_of {P : Frame → Session → Prop}
    (h : ∀ spec, (if s.settings.rootMode.isEmpty then registry.default
        else registry.lookup? s.settings.rootMode) = some spec →
      Gives (enter spec s.settings.attributes s.settings.attributes.dialect none fun _ => pure ())
        s P) :
    Gives (enterRoot registry) s P := by
  refine .session ?_
  dsimp only
  split
  · exact .fail ..
  next spec hspec => exact h spec hspec

theorem chooseMode_eq_ok {registry : Registry} {tag : StartTag} {attributes : Attributes}
    {spec : ModeSpec} {s s' : Session} :
    chooseMode registry tag attributes s = .ok (spec, s') ↔
      registry.forElement? tag.name attributes.mode = some spec ∧ s = s' := by
  have hfound (found : ModeSpec) : (pure found : Compile ModeSpec) s = .ok (spec, s') ↔
      some found = some spec ∧ s = s' := by
    constructor
    · rintro ⟨⟩
      exact ⟨rfl, rfl⟩
    · rintro ⟨⟨⟩, rfl⟩
      rfl
  unfold chooseMode Registry.forElement?
  cases attributes.mode with
  | some name =>
    dsimp only
    cases registry.lookup? name with
    | some found => exact hfound found
    | none => exact ⟨nofun, nofun⟩
  | none =>
    cases registry.forTag? tag.name with
    | some found => exact hfound found
    | none =>
      cases registry.lookup? "html" with
      | some found => exact hfound found
      | none => exact ⟨nofun, nofun⟩

/-- What a tag leads to: the region of a comment or of an element, or an element without content. -/
inductive Opening (registry : Registry) (parent : Frame) (s : Session) :
    Option Frame → Session → Prop where
  | comment {s1 s' : Session} {spec : ModeSpec} {span : Span} {child : Frame}
      (hread : scan (Scan.readText "!--") s = .ok (true, s1))
      (hspec : registry.lookup? "__comment" = some spec)
      (henter : enter spec parent.attributes.inherit none (some ⟨.comment, "!--", span⟩)
        (fun _ => pure ()) s1 = .ok (child, s')) : Opening registry parent s (some child) s'
  | element {s1 s2 s' : Session} {tag : StartTag} {attributes : Attributes} {spec : ModeSpec}
      {child : Frame} (hread : scan (Scan.readText "!--") s = .ok (false, s1))
      (htag : StartTag.read (s.cursor.position - 1) s1 = .ok (tag, s2))
      (hspec : registry.forElement? tag.name attributes.mode = some spec)
      (henter : enter spec attributes attributes.dialect (some ⟨.element, tag.name, tag.span⟩)
        (openElement tag attributes) s2 = .ok (child, s')) :
      Opening registry parent s (some child) s'
  | empty {s' : Session} (h : s.Steps [.read, .text] s') : Opening registry parent s none s'

theorem openChild_opening (registry : Registry) (parent : Frame) (s : Session) :
    Gives (openChild registry parent) s (Opening registry parent s) := by
  refine .position ?_
  refine .given fun isComment s1 hread => ?_
  cases isComment with
  | true =>
    refine .position ?_
    split
    · exact .fail ..
    next spec hspec =>
      refine .given fun child s' henter => .pure ?_
      exact .comment hread hspec henter
  | false =>
    refine .given fun tag s2 htag => ?_
    split
    · exact .throw _
    next attributes _ =>
      refine .given fun spec _ hmode => ?_
      obtain ⟨hspec, rfl⟩ := chooseMode_eq_ok.mp hmode
      split
      · have hsteps : s.Steps [.read, .text] s2 :=
          (Made.steps inferInstance hread).trans (Made.steps inferInstance htag)
        refine .given fun _ s3 h3 => ?_
        refine .given fun o s4 h4 => ?_
        refine .given fun _ s5 h5 => .pure (.empty (hsteps.trans ?_))
        exact (Made.steps inferInstance h3).trans
          ((Made.steps inferInstance h4).trans (Made.steps inferInstance h5))
      · refine .given fun child s' henter => .pure ?_
        exact .element hread htag hspec henter

/-- At the end of a region a call may be written behind it, then its slots are frozen, and the function
of an element is closed. -/
theorem leave_eq [Editor] (frame : Frame) : leave frame = do
    frame.region.finish
    emitSome ((frame.region.after? (← output)).map (· ++ [';']))
    let faults ← onOutput (·.endRegion frame.mark)
    let o ← output
    emitSome (if frame.tag.any (·.kind == .element) then some o.functionClose else none)
    modify fun s => { s with
      cursor := { s.cursor with options := frame.savedOptions }
      output := { s.output with dialect := frame.savedDialect } }
    return faults := by
  funext s
  unfold leave
  refine bind_congr fun _ s1 _ => ?_
  refine bind_congr fun o s2 _ => ?_
  cases frame.region.after? o <;> cases frame.tag.any (·.kind == .element) <;> rfl

/-- The end of a region leaves the frames around it. A comment becomes a link of the region that it
stands in. -/
theorem closeRegion_frames {P : List Frame → Prop} (h : P outer)
    (haccept : ∀ link parent frames s, outer = parent :: frames →
      Gives (parent.region.accept link) s fun region _ =>
        P ({ parent with region } :: frames)) :
    Gives (closeRegion frame outer) s fun r _ => P r.1 := by
  unfold closeRegion
  split
  · exact .after fun start s1 => .after fun name s2 => .after fun stop s3 => .fail ..
  next tag _ =>
    split
    · exact .after fun _ s1 => .after fun faults s2 => .after fun _ s3 => .after fun _ s4 => .pure h
    refine .after fun o s1 => .after fun faults s2 => ?_
    split
    next link parent frames _ =>
      exact (haccept link parent frames s2 rfl).bind fun region s3 hregion => .pure hregion
    · exact .pure h

end Document
end Patchwork
