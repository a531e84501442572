import Patchwork.Proofs.Bearing
import Patchwork.Proofs.Frames

/-!
# What is in force in a region

What searches pass over and the dialect of the code belong to the session, and each region sets them
when it begins. The frame of the region keeps what was in force before, and gives it back at the
region's end (`Saved`). As nothing else changes them (`Keeps`), they are at all times those of the
innermost region: searches pass over what its mode says, and the dialect is that of the nearest region
around which sets one (`InForce`).

The function of an element is opened when its region begins, and closed at the end of the region. The
dialect is the same at both places, whatever lies between them.
-/

namespace Patchwork

open Compile List Bool Option Output Region
open Lexeme (ScanOptions)

/-- What a computation keeps is the same after it. -/
theorem Agree.emitted (t : Text) (s : Session) : Gives (Compile.emit t) s fun _ s' =>
      s'.bearing = s.bearing ∧ s'.output.finish = s.output.finish ++ t :=
  Agree.and (.of_keeps _ _ s) ⟨rfl, by rintro _ _ ⟨⟩; exact finish_add _ t⟩

theorem Output.functionClose_congr {o o' : Output} (h : o'.dialect = o.dialect) :
    o'.functionClose = o.functionClose := by
  rw [functionClose, functionClose, h]

theorem Output.functionOpen_congr {o o' : Output} (h : o'.dialect = o.dialect) (params : Text) :
    o'.functionOpen params = o.functionOpen params := by
  rw [functionOpen, functionOpen, h]

/-! ## Modes of regions -/

namespace Region

def mode : Region → Mode
  | code _ => .code
  | markup r => if r.children then .html else .css
  | script _ => .script
  | stylesheet _ => .stylesheet
  | comment _ => .comment

end Region

theorem Markup.character_children (r : Markup) (c : Char) (s : Session) :
    Gives (r.character c) s fun p _ => p.1.children = r.children := by
  refine .after fun _ s1 => ?_
  split
  · exact .after fun chain s2 => .pure rfl
  refine .after fun cur s2 => ?_
  split
  · exact .after fun chain s3 => .pure rfl
  · exact .after fun o s3 => .pure rfl
  · exact .pure rfl
  · exact .pure rfl

theorem Markup.trackStatement_children (r : Markup) (k : Tracker) (c : Char) (s : Session) :
    Gives (r.trackStatement k c) s fun r' _ => r'.children = r.children := by
  rw [Markup.trackStatement_eq]
  exact .after fun at_ s1 => .after fun tracked s2 => .after fun _ s3 => .pure rfl

theorem Markup.step_children (r : Markup) (s : Session) :
    Gives r.step s fun p _ => p.1.children = r.children := by
  refine .after fun found s1 => ?_
  dsimp only
  split
  · exact .pure rfl
  · split
    · exact (trackStatement_children _ _ _ s1).bind fun r' s2 h => .pure h
    · exact character_children _ _ s1
  · exact character_children _ _ s1

namespace Region

theorem create_mode (spec : ModeSpec) (attributes : Attributes) (s : Session) :
    Gives (create spec attributes) s fun r s' =>
      r.mode = spec.mode ∧ s'.bearing = { s.bearing with options := spec.options } := by
  have hset : Gives (modify fun s => { s with cursor := { s.cursor with options := spec.options } })
      s
      fun _ s' => s'.bearing = { s.bearing with options := spec.options } :=
    .of_eq rfl rfl
  refine hset.bind fun _ s1 h1 => ?_
  rw [← h1]
  have hmarkup : ∀ children, Gives (Markup.create children attributes) s1 fun r s' =>
        r.children = children ∧ s'.bearing = s1.bearing := fun children =>
    Agree.and (.after fun at_ s2 => .pure rfl) (.of_keeps _ _ s1)
  split
  next hmode => exact .pure ⟨hmode.symm, rfl⟩
  next hmode =>
    refine (hmarkup true).bind fun r s2 ⟨hchildren, hb⟩ => .pure ⟨?_, hb⟩
    rw [hmode, mode, hchildren]
    rfl
  next hmode =>
    refine (hmarkup false).bind fun r s2 ⟨hchildren, hb⟩ => .pure ⟨?_, hb⟩
    rw [hmode, mode, hchildren]
    rfl
  next hmode =>
    exact (Agree.of_keeps Session.bearing (Script.create attributes) s1).bind
      fun r s2 hb => .pure ⟨hmode.symm, hb⟩
  next hmode =>
    exact (Agree.of_keeps Session.bearing (Stylesheet.create attributes) s1).bind
      fun r s2 hb => .pure ⟨hmode.symm, hb⟩
  next hmode => exact .pure ⟨hmode.symm, rfl⟩

theorem start_mode (r : Region) (s : Session) : Gives r.start s fun r' _ => r'.mode = r.mode := by
  cases r with
  | stylesheet r => exact .after fun r' s' => .pure rfl
  | code | markup | script | comment => exact .pure rfl

theorem step_mode (r : Region) (s : Session) : Gives r.step s fun p _ => p.1.mode = r.mode := by
  cases r with
  | markup r =>
    refine (r.step_children s).bind fun p s' h => .pure ?_
    exact congrArg (fun children : Bool => if children then Mode.html else Mode.css) h
  | code | script | stylesheet | comment => exact .after fun p s' => .pure rfl

theorem accept_mode (l : Link) (r : Region) (s : Session) :
    Gives (r.accept l) s fun r' _ => r'.mode = r.mode := by
  cases r with
  | markup r => exact .after fun o s' => .pure rfl
  | code | script | stylesheet | comment => exact .after fun o s1 => .after fun _ s2 => .pure rfl

end Region

/-! ## What is in force -/

def Frame.isElement (frame : Frame) : Bool :=
  frame.tag.any (·.kind == .element)

def Frame.spec? (registry : Registry) (settings : Settings) (frame : Frame) : Option ModeSpec :=
  match frame.tag with
  | none =>
    if settings.rootMode.isEmpty then registry.default else registry.lookup? settings.rootMode
  | some ⟨.comment, _, _⟩ => registry.lookup? "__comment"
  | some ⟨.element, name, _⟩ => registry.forElement? name frame.attributes.mode

namespace Document

/-- The dialect that the nearest region sets which sets one. -/
def dialectOf (settings : Settings) (frames : List Frame) : Dialect :=
  (frames.findSome? (·.attributes.dialect)).getD settings.dialect

section

variable (registry : Registry) (settings : Settings)

/-- Searches pass over what the mode of the innermost region says, and the dialect is that of the
nearest region which sets one. -/
structure InForce (frames : List Frame) (options : ScanOptions) (dialect : Dialect) : Prop where
  options : ∀ frame ∈ frames.head?, ∃ spec, frame.spec? registry settings = some spec ∧
    spec.mode = frame.region.mode ∧ options = spec.options
  dialect : dialect = dialectOf settings frames

/-- Each frame keeps what was in force around its region. -/
def Saved : List Frame → Prop
  | [] => True
  | frame :: outer =>
    InForce registry settings outer frame.savedOptions frame.savedDialect ∧ Saved outer

/-- The innermost region is in force, and each region can give back what was before it. -/
structure Ordered (frames : List Frame) (s : Session) : Prop where
  inForce : InForce registry settings frames s.cursor.options s.output.dialect
  saved : Saved registry settings frames
  settings : s.settings = settings

end

variable {registry : Registry} {settings : Settings} {s : Session} {frame : Frame}
  {outer : List Frame}

variable {region : Region} {frames : List Frame} {spec : ModeSpec} {nodes : List Node}

/-- A region may change as long as it is read in the same mode. -/
theorem InForce.replace {options : ScanOptions} {dialect : Dialect}
    (h : InForce registry settings (frame :: outer) options dialect)
    (hmode : region.mode = frame.region.mode) :
    InForce registry settings ({ frame with region } :: outer) options dialect := by
  refine ⟨?_, h.dialect⟩
  rintro _ ⟨⟩
  obtain ⟨spec, hspec, hsame, hoptions⟩ := h.options frame rfl
  exact ⟨spec, hspec, hsame.trans hmode.symm, hoptions⟩

theorem Ordered.replace (h : Ordered registry settings (frame :: outer) s)
    (hmode : region.mode = frame.region.mode) :
    Ordered registry settings ({ frame with region } :: outer) s :=
  ⟨h.inForce.replace hmode, h.saved, h.settings⟩

theorem Ordered.of_bearing {s' : Session} (h : Ordered registry settings frames s)
    (hb : s'.bearing = s.bearing) :
    Ordered registry settings frames s' := by
  have hoptions : s'.cursor.options = s.cursor.options := congrArg Bearing.options hb
  have hdialect : s'.output.dialect = s.output.dialect := congrArg Bearing.dialect hb
  have hsettings : s'.settings = s.settings := congrArg Bearing.settings hb
  exact ⟨hoptions ▸ hdialect ▸ h.inForce, h.saved, hsettings.trans h.settings⟩

/-- A region that begins puts its mode and dialect in force, and keeps what was before. -/
theorem enter_bearing {attributes : Attributes} {dialect : Option Dialect} {tag : Option OpenTag}
    {before : Region → Compile Unit} [∀ r, Keeps Session.bearing (before r)] :
    Gives (enter spec attributes dialect tag before) s fun frame s' =>
        frame.attributes = attributes ∧ frame.tag = tag ∧ frame.region.mode = spec.mode ∧
        frame.savedOptions = s.cursor.options ∧ frame.savedDialect = s.output.dialect ∧
        s'.bearing = { s.bearing with
          options := spec.options, dialect := dialect.getD s.output.dialect } := by
  refine enter_of ((create_mode spec attributes _).mono fun region s1 ⟨hmode, h1⟩ => ?_)
  refine (Agree.of_keeps Session.bearing (before region) s1).mono fun _ s2 h2 => ?_
  refine ((region.start_mode _).and (.of_keeps Session.bearing _ _)).mono ?_
  rintro region' s3 ⟨hmode', h3⟩
  refine ⟨rfl, rfl, hmode'.trans hmode, rfl, rfl, ?_⟩
  rw [h3, show s2.marked.bearing = s2.bearing from rfl, h2, h1]
  rfl

theorem enterRoot_ordered (registry : Registry) (settings : Settings) (source : Text) :
    Gives (enterRoot registry) (Session.start settings source) fun root s' =>
      root.tag = none ∧ Ordered registry settings [root] s' := by
  refine enterRoot_of fun spec hspec => enter_bearing.mono ?_
  rintro root s' ⟨hattributes, htag, hmode, hoptions, hdialect, hb⟩
  have hdialect' : s'.output.dialect = settings.attributes.dialect.getD settings.dialect :=
    congrArg Bearing.dialect hb
  have houter : InForce registry settings [] root.savedOptions root.savedDialect :=
    ⟨fun _ h => absurd h (not_mem_none _), hdialect⟩
  refine ⟨htag, ⟨?_, ?_⟩, ⟨houter, trivial⟩, congrArg Bearing.settings hb⟩
  · rintro _ ⟨⟩
    refine ⟨spec, ?_, hmode.symm, congrArg Bearing.options hb⟩
    rw [Frame.spec?, htag]
    exact hspec
  · rw [hdialect', dialectOf, findSome?_singleton, hattributes]
    rfl

/-- The dialect is that of a region which sets one, or else the one around it. -/
theorem dialectOf_cons (settings : Settings) (frame : Frame) (outer : List Frame) :
    dialectOf settings (frame :: outer) =
      frame.attributes.dialect.getD (dialectOf settings outer) := by
  rw [dialectOf, findSome?_cons]
  cases frame.attributes.dialect <;> rfl

/-- A child region puts itself in force. -/
theorem Ordered.enter {child : Frame} {s' : Session} (dialect : Option Dialect)
    (h : Ordered registry settings (frame :: outer) s)
    (hspec : child.spec? registry settings = some spec) (hmode : child.region.mode = spec.mode)
    (hoptions : child.savedOptions = s.cursor.options)
    (hdialect : child.savedDialect = s.output.dialect) (hb : s'.bearing = { s.bearing with
      options := spec.options, dialect := dialect.getD s.output.dialect })
    (hsets : dialect.getD (dialectOf settings (frame :: outer)) =
      dialectOf settings (child :: frame :: outer)) :
    Ordered registry settings (child :: frame :: outer) s' := by
  refine ⟨⟨?_, ?_⟩, ⟨?_, h.saved⟩, (congrArg Bearing.settings hb).trans h.settings⟩
  · rintro _ ⟨⟩
    exact ⟨spec, hspec, hmode.symm, congrArg Bearing.options hb⟩
  · rw [← hsets, ← h.inForce.dialect]
    exact congrArg Bearing.dialect hb
  · rw [hoptions, hdialect]
    exact h.inForce

/-- A child region is in force after its tag. An empty element leaves its parent in force. -/
theorem openChild_ordered (h : Ordered registry settings (frame :: outer) s) :
    Gives (openChild registry frame) s fun child s' =>
      Ordered registry settings (child.toList ++ frame :: outer) s' := by
  refine (openChild_opening registry frame s).mono fun child s' hchild => ?_
  cases hchild with
  | comment hread hspec henter =>
    have hs := h.of_bearing (Keeps.same Session.bearing hread)
    obtain ⟨hattributes, htag, hmode, hoptions, hdialect, hb⟩ := enter_bearing.result _ _ henter
    refine hs.enter none ?_ hmode hoptions hdialect hb ?_
    · rw [Frame.spec?, htag]
      exact hspec
    · -- a comment has the dialect of its parent
      rw [dialectOf_cons settings _ (frame :: outer), dialectOf_cons, hattributes,
        Attributes.inherit]
      cases frame.attributes.dialect <;> rfl
  | @element s1 s2 _ tag attributes spec _ hread htag hspec henter =>
    have hs := (h.of_bearing (Keeps.same Session.bearing hread)).of_bearing
      (Keeps.same Session.bearing htag)
    obtain ⟨hattributes, htag, hmode, hoptions, hdialect, hb⟩ := enter_bearing.result _ _ henter
    refine hs.enter attributes.dialect ?_ hmode hoptions hdialect hb ?_
    · rw [Frame.spec?, htag, hattributes]
      exact hspec
    · rw [dialectOf_cons settings _ (frame :: outer), hattributes]
  | empty hsteps => exact h.of_bearing (View.same Session.bearing (hsteps.mono (by decide)))

/-- The end of a region gives back what was in force before it. An element's function is closed
before that. -/
theorem leave_bearing (frame : Frame) (s : Session) : Gives (leave frame) s fun _ s' =>
      s'.bearing = { s.bearing with
        options := frame.savedOptions, dialect := frame.savedDialect } ∧
      (frame.isElement → ∃ code, s'.output.finish = code ++ s.output.functionClose) := by
  rw [leave_eq]
  refine .keeping Session.bearing fun _ s1 h1 => ?_
  refine .keeping Session.bearing fun o s2 h2 => ?_
  refine .keeping Session.bearing fun _ s3 h3 => ?_
  refine .keeping Session.bearing fun faults s4 h4 => ?_
  have h4 := h4.trans (h3.trans (h2.trans h1))
  refine .session ?_
  split
  · refine (Agree.emitted _ s4).bind fun _ s5 ⟨h5, hfinish⟩ => ?_
    refine .of_eq rfl ⟨?_, fun _ => ⟨s4.output.finish, ?_⟩⟩
    · rw [← h4, ← h5]
      rfl
    · rw [← functionClose_congr (congrArg Bearing.dialect h4)]
      exact hfinish
  next hother =>
    refine .of_eq rfl ⟨?_, fun helement => absurd helement hother⟩
    rw [← h4]
    rfl

/-- The end of a region puts the region around it in force again. If it is that of an element, the
code ends with the end of its function and of its call. -/
theorem closeRegion_ordered (h : Ordered registry settings (frame :: outer) s) :
    Gives (closeRegion frame outer) s fun r s' =>
      Ordered registry settings r.1 s' ∧
      (frame.isElement → ∃ code, s'.output.finish = code ++ s.output.functionClose ++
        ')' :: (outer.head?.map (·.region.elementTerminator)).getD ";") := by
  have hback : ∀ {s1 s2 : Session}, s1.bearing = s.bearing → s2.bearing = { s1.bearing with
      options := frame.savedOptions, dialect := frame.savedDialect } →
      Ordered registry settings outer s2 := by
    intro s1 s2 h1 h2
    rw [h1] at h2
    have hoptions : s2.cursor.options = frame.savedOptions := congrArg Bearing.options h2
    have hdialect : s2.output.dialect = frame.savedDialect := congrArg Bearing.dialect h2
    refine ⟨?_, h.saved.2, (congrArg Bearing.settings h2).trans h.settings⟩
    rw [hoptions, hdialect]
    exact h.saved.1
  unfold closeRegion
  split
  · exact .after fun start s1 => .after fun name s2 => .after fun stop s3 => .fail ..
  next tag htag =>
    split
    · refine .keeping Session.bearing fun _ s1 h1 => ?_
      refine (leave_bearing frame s1).bind fun faults s2 ⟨h2, hcode⟩ => ?_
      have hscope : Gives (modifyOutput Output.endScope) s2
          fun _ s' => s'.bearing = s2.bearing ∧ s'.output.finish = s2.output.finish :=
        Agree.and (.of_keeps _ _ s2) ⟨rfl, by rintro _ _ ⟨⟩; rfl⟩
      refine hscope.bind fun _ s3 ⟨h3, hfinish⟩ => ?_
      refine (Agree.emitted _ s3).bind fun _ s4 ⟨h4, hend⟩ => .pure ?_
      refine ⟨((hback h1 h2).of_bearing h3).of_bearing h4, fun helement => ?_⟩
      obtain ⟨code, hcode⟩ := hcode helement
      refine ⟨code, ?_⟩
      rw [hend, hfinish, hcode, functionClose_congr (congrArg Bearing.dialect h1)]
    next hkind =>
      have hother : ¬ frame.isElement := by
        rw [Frame.isElement, htag, any_some, hkind]
        decide
      refine .keeping Session.bearing fun o s1 h1 => ?_
      refine (leave_bearing frame s1).bind fun faults s2 ⟨h2, _⟩ => ?_
      split
      next link parent frames _ =>
        refine ((accept_mode link _ s2).and (.of_keeps Session.bearing _ s2)).bind ?_
        rintro region s3 ⟨hmode, h3⟩
        refine .pure ⟨?_, fun helement => absurd helement hother⟩
        exact ((hback h1 h2).replace hmode).of_bearing h3
      · exact .pure ⟨hback h1 h2, fun helement => absurd helement hother⟩

theorem endDocument_bearing (frame : Frame) (s : Session) : Gives (endDocument frame) s fun _ s' =>
      frame.tag = none ∧ s'.bearing = { s.bearing with
        options := frame.savedOptions, dialect := frame.savedDialect } := by
  unfold endDocument
  split
  next htag => exact (leave_bearing frame s).mono fun faults s' h => ⟨htag, h.1⟩
  · exact .fail ..

/-- One step of the innermost region leaves the right region in force, whatever it leads to. -/
theorem advance_ordered (hs : Sound (frame :: outer) s)
    (h : Ordered registry settings (frame :: outer) s) :
    Gives (advance registry frame outer) s fun r s' =>
      Ordered registry settings r.1 s' ∧
      (frame.isElement → r.1.length = outer.length → ∃ code,
        s'.output.finish = code ++ s.output.functionClose ++
          ')' :: (outer.head?.map (·.region.elementTerminator)).getD ";") := by
  refine ((frame.region.step_mode s).and (.of_keeps Session.bearing _ s)).bind ?_
  rintro ⟨region, step⟩ s1 ⟨hmode, h1⟩
  have hs1 : Ordered registry settings ({ frame with region } :: outer) s1 :=
    (h.replace hmode).of_bearing h1
  cases step with
  | next =>
    refine .pure ⟨hs1, fun _ hlength => ?_⟩
    exact absurd hlength (Nat.succ_ne_self _)
  | child =>
    refine (openChild_ordered hs1).bind fun child s2 hchild => ?_
    cases child with
    | none => exact .pure ⟨hchild, fun _ hlength => absurd hlength (Nat.succ_ne_self _)⟩
    | some child =>
      refine .pure ⟨hchild, fun _ hlength => ?_⟩
      have hlonger : outer.length + 1 + 1 = outer.length := hlength
      omega
  | close =>
    refine (closeRegion_ordered hs1).mono fun r s2 ⟨hr, hcode⟩ => ⟨hr, fun helement _ => ?_⟩
    rw [← functionClose_congr (congrArg Bearing.dialect h1)]
    exact hcode helement
  | eof =>
    refine (endDocument_bearing _ s1).bind fun faults s2 ⟨htag, h2⟩ => .pure ⟨⟨?_, trivial, ?_⟩, ?_⟩
    · -- only the document itself has no tag, and nothing is around it
      have houter : outer = [] := by
        cases hs.stacked with
        | cons _ _ _ _ root _ => exact root htag
      have hsaved := h.saved.1.dialect
      rw [houter] at hsaved
      have hdialect : s2.output.dialect = frame.savedDialect := congrArg Bearing.dialect h2
      exact ⟨fun _ h => absurd h (not_mem_none _), hdialect.trans hsaved⟩
    · exact (congrArg Bearing.settings h2).trans hs1.settings
    · have hother : frame.isElement = false := congrArg (Option.any _) htag
      exact fun helement => absurd (hother.symm.trans helement) false_ne_true

/-! ## The functions of elements -/

def functionFront (settings : Settings) (dialect : Dialect) : Text :=
  ({ Output.empty settings with dialect } : Output).functionOpen settings.names.context

/-- Before the region of every element stands the front of its function, in the dialect that is in
force in the region. -/
def Fronted (settings : Settings) : List Frame → List Node → Prop
  | [], _ => True
  | frame :: outer, nodes =>
    (frame.isElement → ∃ code, (nodes.take frame.mark).flatMap Node.content =
      code ++ functionFront settings (dialectOf settings (frame :: outer))) ∧
    Fronted settings outer (nodes.take frame.mark)

/-- Only what lies before the innermost region counts. -/
theorem Fronted.replace {nodes' : List Node} (h : Fronted settings (frame :: outer) nodes)
    (htake : nodes'.take frame.mark = nodes.take frame.mark) :
    Fronted settings ({ frame with region } :: outer) nodes' := by
  rw [Fronted, htake]
  exact h

theorem Fronted.extend (h : Fronted settings frames nodes)
    (hmark : ∀ frame ∈ frames.head?, frame.mark ≤ nodes.length) (more : List Node) :
    Fronted settings frames (nodes ++ more) := by
  cases frames with
  | nil => trivial
  | cons frame outer =>
    rw [Fronted, take_append_of_le_length (hmark frame rfl)]
    exact h

theorem functionFront_eq {o : Output} {settings : Settings} (params : Text)
    (hparams : params = settings.names.context) :
    functionFront settings o.dialect = o.functionOpen params := by
  rw [hparams]
  exact functionOpen_congr rfl _

theorem openElement_front (tag : StartTag) (attributes : Attributes) (region : Region)
    (s : Session) :
    Gives (openElement tag attributes region) s fun _ s' =>
      ∃ code, s'.output.finish = code ++ functionFront s'.settings s'.output.dialect := by
  refine .after fun _ s1 => ?_
  refine .session ?_
  refine (Agree.emitted _ s1).bind fun _ s2 ⟨h2, hfinish⟩ => ?_
  refine .of_eq rfl ⟨s1.output.finish ++ (elementCall s1.output tag.name
    (tag.attributes ++ region.elementAttributes) ++ ", "), ?_⟩
  have hdialect : s2.output.dialect = s1.output.dialect := congrArg Bearing.dialect h2
  have hsettings : s2.settings = s1.settings := congrArg Bearing.settings h2
  show s2.output.finish = _ ++ functionFront s2.settings s2.output.dialect
  rw [hfinish, hdialect, hsettings, functionFront_eq _ rfl, ← append_assoc]

/-- The region of an element begins behind the front of its function. -/
theorem enter_front {attributes : Attributes} {dialect : Option Dialect} {opened : Option OpenTag}
    {tag : StartTag} (hs : s.output.Placed) :
    Gives (enter spec attributes dialect opened (openElement tag attributes)) s
      fun frame s' => ∃ code, (s'.output.nodes.take frame.mark).flatMap Node.content =
        code ++ functionFront s'.settings s'.output.dialect := by
  refine enter_of ((create_fresh _ _ _).mono ?_)
  rintro region s1 ⟨hw1, hregion⟩
  refine ((openElement_front tag attributes region s1).and .of_made).mono ?_
  rintro _ s2 ⟨⟨code, hcode⟩, hw2⟩
  have hs1 : (s.inDialect dialect).output.Placed := hs
  have hz : s2.marked.InZone s2.now s2.output.nodes [] [] :=
    ⟨⟨(hw2.output.placed (hw1.output.placed hs1)).mark, prefix_refl _, Zone.empty _⟩, .nil _,
      Nat.le_refl _⟩
  refine ((start_agree hregion hz s2.length_marked).and
    (.of_keeps Session.bearing _ s2.marked)).mono ?_
  rintro region' s3 ⟨hr, hb⟩
  have hdialect : s3.output.dialect = s2.output.dialect := congrArg Bearing.dialect hb
  have hsettings : s3.settings = s2.settings := congrArg Bearing.settings hb
  refine ⟨code, ?_⟩
  rw [take_mark hr.inZone.output.zone, hdialect, hsettings]
  exact hcode

theorem openChild_front (hs : s.output.Placed) : Gives (openChild registry frame) s fun opened s' =>
      ∀ child ∈ opened, Frame.isElement child → ∃ code,
        (s'.output.nodes.take child.mark).flatMap Node.content =
          code ++ functionFront s'.settings s'.output.dialect := by
  refine (openChild_opening registry frame s).mono fun opened s' h => ?_
  cases h with
  | comment _ _ henter =>
    rintro _ ⟨⟩ helement
    obtain ⟨-, htag, -⟩ := enter_bearing.result _ _ henter
    rw [Frame.isElement, htag] at helement
    cases helement
  | element hread htag _ henter =>
    rintro _ ⟨⟩ -
    have hsteps : s.Steps Act.writing _ :=
      (Made.steps inferInstance hread).trans (Made.steps inferInstance htag)
    exact (enter_front (hsteps.wrote.output.placed hs)).result _ _ henter
  | empty => exact fun _ h => absurd h (not_mem_none _)

theorem closeRegion_fronted (h : Fronted settings outer nodes) :
    Gives (closeRegion frame outer) s fun r _ => Fronted settings r.1 nodes := by
  refine closeRegion_frames (P := (Fronted settings · nodes)) h ?_
  rintro link parent frames s rfl
  exact (Agree.any _ s).mono fun _ _ _ => h

/-- One step of the innermost region keeps the fronts of all open functions. -/
theorem advance_fronted (hs : Sound (frame :: outer) s)
    (ho : Ordered registry settings (frame :: outer) s)
    (h : Fronted settings (frame :: outer) s.output.nodes) :
    Gives (advance registry frame outer) s fun r s' => Fronted settings r.1 s'.output.nodes := by
  obtain ⟨front, mark, hr, root, outside⟩ := hs.uncons
  refine ((step_agree (h := .spent) hr).right.and
    ((frame.region.step_mode s).and (.of_keeps Session.bearing _ s))).bind ?_
  rintro ⟨region, step⟩ s1 ⟨⟨hr1, -⟩, hmode, h1⟩
  have hmark : ({ frame with region } : Frame).mark = front.length := mark
  have ho1 : Ordered registry settings ({ frame with region } :: outer) s1 :=
    (ho.replace hmode).of_bearing h1
  -- the innermost region goes on, after some more text perhaps
  have hgoesOn : ∀ s2, s1.Wrote s2 →
      Fronted settings ({ frame with region } :: outer) s2.output.nodes := by
    intro s2 hw2
    refine h.replace ?_
    rw [mark, take_mark hr.inZone.output.zone, take_mark (hr1.inZone.wrote hw2).output.zone]
  cases step with
  | next => exact .pure (hgoesOn s1 (.refl s1))
  | child =>
    refine ((openChild_agree registry _ hr1.inZone.output.placed).and
      ((openChild_front hr1.inZone.output.placed).and (openChild_ordered ho1))).bind ?_
    rintro child s2 ⟨hopened, hfront, ho2⟩
    cases child with
    | none => exact .pure (hgoesOn s2 hopened)
    | some child =>
      obtain ⟨⟨s3, hw3, hmark3, hsound⟩, -⟩ := hopened
      refine .pure ⟨fun helement => ?_, ?_⟩
      · rw [← ho2.settings, ← show _ = dialectOf _ _ from ho2.settings ▸ ho2.inForce.dialect]
        exact hfront child rfl helement
      · rw [hmark3, take_mark hsound.inZone.output.zone]
        exact hgoesOn s3 hw3
  | close =>
    have houter : Fronted settings outer front := by
      have houter := h.2
      rw [mark, take_mark hr.inZone.output.zone] at houter
      exact houter
    refine ((closeRegion_agree (h := .spent) hmark hr1 outside).right.and
      (closeRegion_fronted houter)).mono ?_
    rintro ⟨frames, faults⟩ s2 ⟨⟨hz, hstacked, -⟩, hframes⟩
    obtain ⟨back, -, hnodes, -⟩ := hz.output.zone.split
    rw [hnodes]
    exact hframes.extend hstacked.mark_le back
  | eof => exact .after fun _ _ => .pure trivial

/-! ## Runs -/

variable {source : Text}

theorem ordered_stateAfter {n : Nat} {s : Session}
    (hn : stateAfter registry settings source n = some (frames, s)) :
    Ordered registry settings frames s :=
  forall_stateAfter
    (fun _ _ hroot => ((enterRoot_ordered registry settings source).result _ _ hroot).2)
    (fun _ _ _ _ _ _ hbefore h hstep =>
      ((advance_ordered (sound_stateAfter hbefore) h).result _ _ hstep).1) hn

theorem fronted_stateAfter {n : Nat} {s : Session}
    (hn : stateAfter registry settings source n = some (frames, s)) :
    Fronted settings frames s.output.nodes := by
  refine forall_stateAfter (P := fun frames s => Fronted settings frames s.output.nodes) ?_ ?_ hn
  · intro root s hroot
    obtain ⟨htag, -⟩ := (enterRoot_ordered registry settings source).result _ _ hroot
    have hother : root.isElement = false := congrArg (Option.any _) htag
    exact ⟨fun helement => absurd (hother.symm.trans helement) false_ne_true, trivial⟩
  · intro n frame outer s r s' hbefore h hstep
    exact (advance_fronted (sound_stateAfter hbefore) (ordered_stateAfter hbefore) h).result _ _ hstep

/-- After any number of steps, searches pass over what the mode of the innermost region says, and
code is written in the dialect of the nearest region that sets one. So the function of an element is
opened and closed in the same dialect: at its end the front that stands before its region is that of
the dialect in which its end is written. -/
theorem region_state_restored {n : Nat} {frames : List Frame} {s : Session}
    (hn : stateAfter registry settings source n = some (frames, s)) :
    (∀ frame ∈ frames.head?, ∃ spec, frame.spec? registry settings = some spec ∧
      spec.mode = frame.region.mode ∧ s.cursor.options = spec.options) ∧
    s.output.dialect = (frames.findSome? (·.attributes.dialect)).getD settings.dialect ∧
    ∀ frame outer, frames = frame :: outer → frame.isElement →
      (∃ code, (s.output.nodes.take frame.mark).flatMap Node.content =
        code ++ s.output.functionOpen settings.names.context) ∧
      ∀ frames' s', stateAfter registry settings source (n + 1) = some (frames', s') →
        frames'.length = outer.length → ∃ code,
          s'.output.finish = code ++ s.output.functionClose ++
            ')' :: (outer.head?.map (·.region.elementTerminator)).getD ";" := by
  have ho := ordered_stateAfter hn
  refine ⟨ho.inForce.options, ho.inForce.dialect, ?_⟩
  rintro frame outer rfl helement
  constructor
  · obtain ⟨code, hcode⟩ := (fronted_stateAfter hn).1 helement
    refine ⟨code, ?_⟩
    rw [hcode, ← ho.inForce.dialect, functionFront_eq _ rfl]
  · intro frames' s' hnext hlength
    rw [stateAfter, hn] at hnext
    dsimp only at hnext
    split at hnext
    next hadvance =>
      cases hnext
      exact ((advance_ordered (sound_stateAfter hn) ho).result _ _ hadvance).2 helement hlength
    next => cases hnext

theorem region_state_restored_nested :
    ∃ frame outer s frames' s',
      stateAfter .standard { rootMode := "html" }
        "<div #dialect=legacy><!-- a --><br/><p #dialect=modern>x</p></div>" 6 =
          some (frame :: outer, s) ∧
      stateAfter .standard { rootMode := "html" }
        "<div #dialect=legacy><!-- a --><br/><p #dialect=modern>x</p></div>" 7 =
          some (frames', s') ∧
      frame.isElement ∧ frames'.length = outer.length ∧ s.output.dialect = .legacy ∧
      (∃ spec, frame.spec? .standard { rootMode := "html" } = some spec ∧
        spec.mode = frame.region.mode ∧ s.cursor.options = spec.options) ∧
      (∃ code, (s.output.nodes.take frame.mark).flatMap Node.content =
        code ++ s.output.functionOpen "__context") ∧
      ∃ code, s'.output.finish = code ++ s.output.functionClose ++
        ')' :: (outer.head?.map (·.region.elementTerminator)).getD ";" := by
  have hrun : ((stateAfter .standard { rootMode := "html" }
      "<div #dialect=legacy><!-- a --><br/><p #dialect=modern>x</p></div>" 6).any fun before =>
      (stateAfter .standard { rootMode := "html" }
        "<div #dialect=legacy><!-- a --><br/><p #dialect=modern>x</p></div>" 7).any fun after =>
        before.1.head?.any (·.isElement) && after.1.length + 1 == before.1.length &&
          before.2.output.dialect == .legacy) = true := by
    decide +kernel
  obtain ⟨⟨frames, s⟩, hn, hrun⟩ := (Option.any_eq_true _ _).mp hrun
  obtain ⟨⟨frames', s'⟩, hnext, htests⟩ := (Option.any_eq_true _ _).mp hrun
  simp only [Bool.and_eq_true, beq_iff_eq] at htests
  obtain ⟨⟨helement, hlength⟩, hdialect⟩ := htests
  cases frames with
  | nil => cases helement
  | cons frame outer =>
    have hlength : frames'.length = outer.length := Nat.succ.inj hlength
    obtain ⟨hspec, -, helements⟩ := region_state_restored hn
    obtain ⟨hopen, hclose⟩ := helements frame outer rfl helement
    exact ⟨frame, outer, s, frames', s', hn, hnext, helement, hlength, hdialect,
      hspec frame rfl, hopen, hclose frames' s' hnext hlength⟩

end Document
end Patchwork
