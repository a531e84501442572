import Patchwork.Proofs.Progress
import Patchwork.Proofs.Recording
import Patchwork.Proofs.TagTexts

/-!
# Nesting

A document that compiles is well nested, and so is its code. Both are cut into segments, side by side
(`Segment`): a segment is the tag that opens or closes a region, with what is written for it, or a
part of the content of one region. The segments of a document that has been read nest (`Nested`): each
closing tag belongs to the region that was opened last and is still open, and between the front of an
element's call and the end of its function stands the code of its region.

While a document is read, the segments up to the cursor lie in the regions that are open
(`Unfinished`). What the code of a region is can still change in its slots, so this holds of whatever
the output may come to (`Makes`); only a stylesheet may still take back what it has written, and it
has no children. One step of the loop adds its segments (`advance_adds`), and a run adds them all
(`segments_stateAfter`).
-/

namespace Patchwork

open Compile List Text Region

/-! ## Segments -/

/-- What is done to the stack of regions. -/
inductive Bracket where
  | opens (tag : OpenTag) (mode : Mode)
  | closes (tag : OpenTag)
  deriving DecidableEq, Repr

/-- A part of a document, and the code that comes of it. -/
structure Segment where
  source : Text
  code : Text
  bracket : Option Bracket := none
  deriving DecidableEq, Repr

namespace Segment

def sources (segments : List Segment) : Text :=
  segments.flatMap source

def codes (segments : List Segment) : Text :=
  segments.flatMap code

/-- The brackets among segments that begin at a position, each with the position behind it. -/
def brackets : Nat → List Segment → List (Bracket × Nat)
  | _, [] => []
  | at_, g :: segments =>
    let stop := at_ + bytes g.source
    (g.bracket.map (·, stop)).toList ++ brackets stop segments

variable (a b : List Segment)

@[simp]
theorem sources_append : sources (a ++ b) = sources a ++ sources b := flatMap_append

@[simp]
theorem codes_append : codes (a ++ b) = codes a ++ codes b := flatMap_append

@[simp]
theorem sources_cons (g : Segment) : sources (g :: a) = g.source ++ sources a := rfl

@[simp]
theorem codes_cons (g : Segment) : codes (g :: a) = g.code ++ codes a := rfl

@[simp]
theorem sources_nil : sources [] = [] := rfl

@[simp]
theorem codes_nil : codes [] = [] := rfl

theorem brackets_append (at_ : Nat) :
    brackets at_ (a ++ b) = brackets at_ a ++ brackets (at_ + bytes (sources a)) b := by
  induction a generalizing at_ with
  | nil => rfl
  | cons g a ih =>
    rw [cons_append, brackets, brackets, ih, sources_cons, bytes_append, ← Nat.add_assoc,
      append_assoc]

end Segment

def functionEnd (settings : Settings) (dialect : Dialect) : Text :=
  ({ Output.empty settings with dialect } : Output).functionClose

section

variable (settings : Settings) (dialect : Dialect)

/-- A segment opens a region of a mode. -/
inductive Opens : Mode → OpenTag → Segment → Prop where
  | element {mode : Mode} {name : Text} {span : Span} (rest : Text)
      (attributes : List (Text × Text)) :
      Opens mode ⟨.element, name, span⟩
        { source := '<' :: (name ++ (rest ++ ">"))
          code := Document.elementCall (.empty settings) name attributes ++ ", " ++
            Document.functionFront settings dialect
          bracket := some (.opens ⟨.element, name, span⟩ mode) }
  | comment {name : Text} {span : Span} :
      Opens .comment ⟨.comment, name, span⟩
        { source := "<!--", code := [], bracket := some (.opens ⟨.comment, name, span⟩ .comment) }

/-- A segment closes a region of a mode that lies in one of the mode `outside`. The tag of an element
has its name or none. An element that is read as a comment is has its tag behind a `-->`. -/
inductive Closes (outside : Mode) : Mode → OpenTag → Segment → Prop where
  | element {mode : Mode} {name : Text} {span : Span} {closing blanks : Text}
      (named : closing = name ∨ closing = []) (blank : blanks.all Text.isBlank = true) :
      Closes outside mode ⟨.element, name, span⟩
        { source := mode.closer ++ '/' :: (closing ++ (blanks ++ ">"))
          code := functionEnd settings dialect ++ ')' :: outside.terminator
          bracket := some (.closes ⟨.element, name, span⟩) }
  | comment {name : Text} {span : Span} :
      Closes outside .comment ⟨.comment, name, span⟩
        { source := "-->", code := [], bracket := some (.closes ⟨.comment, name, span⟩) }

end

variable {settings : Settings} {dialect : Dialect} {tag : OpenTag}

theorem Opens.bracket {mode : Mode} {opening : Segment}
    (h : Opens settings dialect mode tag opening) :
    opening.bracket = some (.opens tag mode) := by
  cases h <;> rfl

theorem Opens.mode_eq {mode : Mode} {opening : Segment}
    (h : Opens settings dialect mode tag opening) (hkind : tag.kind = .comment) :
    mode = .comment := by
  cases h with
  | element => cases hkind
  | comment => rfl

theorem Closes.bracket {outside inside : Mode} {closing : Segment}
    (h : Closes settings dialect outside inside tag closing) :
    closing.bracket = some (.closes tag) := by
  cases h <;> rfl

/-- Segments of a region nest: there is its own content, and there are whole regions in it. -/
inductive Nested (settings : Settings) : Mode → List Segment → Prop where
  | nil {mode : Mode} : Nested settings mode []
  | own {mode : Mode} {segments : List Segment} (source code : Text)
      (h : Nested settings mode segments) : Nested settings mode (⟨source, code, none⟩ :: segments)
  | region {outside inside : Mode} {dialect : Dialect} {tag : OpenTag} {opening closing : Segment}
      {inner segments : List Segment} (opens : Opens settings dialect inside tag opening)
      (content : Nested settings inside inner)
      (closes : Closes settings dialect outside inside tag closing)
      (h : Nested settings outside segments) :
      Nested settings outside (opening :: (inner ++ closing :: segments))

namespace Nested

variable {settings : Settings} {mode : Mode} {a b : List Segment}

theorem append (ha : Nested settings mode a) (hb : Nested settings mode b) :
    Nested settings mode (a ++ b) := by
  induction ha with
  | nil => exact hb
  | own source code _ ih => exact .own source code (ih hb)
  | region opens content closes _ _ ih =>
    rw [cons_append, append_assoc]
    exact .region opens content closes (ih hb)

theorem single (source code : Text) : Nested settings mode [⟨source, code, none⟩] :=
  .own source code .nil

end Nested

/-- What a region will leave as it is, the slots aside. -/
def Frame.settled (frame : Frame) (nodes : List Node) : List Node :=
  if frame.region.lasting then nodes else nodes.take frame.mark

namespace Document

/-- The segments that have been read while some regions are open. -/
inductive Unfinished (settings : Settings) : List Frame → List Segment → Prop where
  | ended {mode : Mode} {segments : List Segment} (h : Nested settings mode segments) :
      Unfinished settings [] segments
  | root {frame : Frame} {segments : List Segment} (tag : frame.tag = none)
      (h : Nested settings frame.region.mode segments) : Unfinished settings [frame] segments
  | child {frame parent : Frame} {outer : List Frame} {open_ : OpenTag} {opening : Segment}
      {before inner : List Segment} (tag : frame.tag = some open_)
      (lasting : parent.region.lasting = true)
      (outside : Unfinished settings (parent :: outer) before)
      (opens : Opens settings (dialectOf settings (frame :: parent :: outer)) frame.region.mode open_
        opening)
      (h : Nested settings frame.region.mode inner) :
      Unfinished settings (frame :: parent :: outer) (before ++ opening :: inner)

namespace Unfinished

variable {settings : Settings} {frame : Frame} {outer : List Frame} {segments more : List Segment}

/-- The innermost region goes on. -/
theorem append (h : Unfinished settings (frame :: outer) segments)
    (hmore : Nested settings frame.region.mode more) :
    Unfinished settings (frame :: outer) (segments ++ more) := by
  cases h with
  | root tag h => exact .root tag (h.append hmore)
  | child tag lasting outside opens h =>
    rw [append_assoc]
    exact .child tag lasting outside opens (h.append hmore)

theorem replace {region : Region} (h : Unfinished settings (frame :: outer) segments)
    (hmode : region.mode = frame.region.mode) :
    Unfinished settings ({ frame with region } :: outer) segments := by
  cases h with
  | root tag h => exact .root tag (hmode ▸ h)
  | child tag lasting outside opens h =>
    refine .child tag lasting outside ?_ (hmode ▸ h)
    rw [hmode]
    exact opens

end Unfinished

/-- What the regions that are open will leave as it is, the slots aside. -/
def settled : List Frame → List Node → List Node
  | [], nodes => nodes
  | frame :: _, nodes => frame.settled nodes

end Document

/-! ## What is read and written for tags -/

/-- What lies ahead, and what has been written. -/
def Session.extent (s : Session) : Text × List Node :=
  (s.cursor.rest, s.output.nodes)

instance : View Session.extent [.scope, .name] where
  warned _ _ := rfl
  kept hact hdoes := by
    cases hdoes with
    | scope | freshVar | freshId => rfl
    | read | text | slot | edit | mark | cut => exact absurd hact (by decide)

namespace Region

instance (spec : ModeSpec) (attributes : Attributes) : Keeps Session.extent (create spec attributes) := by
  have hset : Keeps Session.extent
      (modify fun s => { s with cursor := { s.cursor with options := spec.options } }) :=
    ⟨by rintro s _ _ ⟨⟩; rfl⟩
  unfold create
  refine .bind fun _ => ?_
  split <;> infer_instance

/-- Only a stylesheet writes a front. -/
theorem start_lasting (r : Region) (s : Session) : Gives r.start s fun r' s' =>
      r'.lasting = r.lasting ∧ s'.cursor = s.cursor ∧ (r.lasting = true → s' = s) := by
  cases r with
  | stylesheet r =>
    refine .keeping Session.cursor fun r' s' h => .pure ⟨rfl, h, ?_⟩
    exact nofun
  | code | markup | script | comment => exact .pure ⟨rfl, rfl, fun _ => rfl⟩

end Region

namespace Document

variable {N : Names} {registry : Registry} {settings : Settings} {s : Session} {frame : Frame}
  {outer : List Frame} {old : Moment} {front : List Node}

theorem elementCall_eq {o : Output} (ho : o.Named settings.names) (name : Text)
    (attributes : List (Text × Text)) :
    elementCall o name attributes = elementCall (.empty settings) name attributes := by
  have hempty : (Output.empty settings).Named settings.names := ⟨rfl, fun _ h => by cases h⟩
  rw [elementCall, elementCall, Output.feature, Output.feature, ho.names, ho.context, hempty.names,
    hempty.context]

theorem functionEnd_eq {o : Output} : functionEnd settings o.dialect = o.functionClose :=
  Output.functionClose_congr rfl

/-- What the tag of an element writes before its region. -/
def ElementFront (settings : Settings) (name : Text) (dialect : Dialect) (t : Text) : Prop :=
  ∃ attributes, t = elementCall (.empty settings) name attributes ++ ", " ++
    functionFront settings dialect

theorem openElement_code (tag : StartTag) (attributes : Attributes) (region : Region)
    (hn : s.output.Named settings.names) (hsettings : s.settings = settings) :
    Gives (openElement tag attributes region) s fun _ s' =>
      s'.cursor = s.cursor ∧ ∃ t, ElementFront settings tag.name s.output.dialect t ∧
        s'.output.nodes = (s.output.add t).nodes := by
  refine ((Agree.of_keeps Session.cursor _ s).and (.of_keeps Session.written _ s)).bind ?_
  rintro _ s1 ⟨hcursor, hwritten⟩
  have houtput : s1.output = s.output := congrArg Prod.fst hwritten
  have hsettings1 : s1.settings = settings := (congrArg Prod.snd hwritten).trans hsettings
  refine .session ?_
  rw [hsettings1]
  refine .of_eq rfl ⟨hcursor, _, ⟨tag.attributes ++ region.elementAttributes, rfl⟩, ?_⟩
  rw [← elementCall_eq hn, ← houtput]
  rfl

/-- A region begins behind what is written in front of it. -/
theorem enter_code {spec : ModeSpec} {attributes : Attributes} {dialect : Option Dialect}
    {tag : Option OpenTag} {before : Region → Compile Unit} {F : Dialect → Text → Prop}
    [∀ r, Keeps Session.bearing (before r)] [∀ r, Made Act.writing (before r)]
    (hs : s.output.Placed) (hn : s.output.Named N)
    (hbefore : ∀ r s1, s1.output.Named N → s1.settings = s.settings →
      Gives (before r) s1 fun _ s' =>
      s'.cursor = s1.cursor ∧ ∃ t, F s1.output.dialect t ∧
        s'.output.nodes = (s1.output.add t).nodes) :
    Gives (enter spec attributes dialect tag before) s
      fun frame s' => s'.cursor.rest = s.cursor.rest ∧ ∃ t, F s'.output.dialect t ∧
        EndsWith t s.output.nodes (frame.settled s'.output.nodes) := by
  have hn0 : (s.inDialect dialect).output.Named N := ⟨hn.names, hn.scopes⟩
  have hs0 : (s.inDialect dialect).output.Placed := hs
  have hcreated := (create_fresh spec attributes _).and
    ((Agree.of_keeps Session.extent (Region.create spec attributes) (s.inDialect dialect)).and
      (create_mode spec attributes _))
  refine enter_of ⟨rfl, fun region s1 hcreate => ?_⟩
  obtain ⟨⟨hw1, hfresh⟩, hextent, -, hb1⟩ := hcreated.result _ _ hcreate
  have hn1 := ((create_parallel spec attributes).named hn0 hcreate).2
  refine ((hbefore region s1 hn1 (congrArg Bearing.settings hb1)).and
    (Agree.of_made.and (.of_keeps Session.bearing _ s1))).mono ?_
  rintro _ s2 ⟨⟨hcursor2, t, ht, hnodes2⟩, hw2, hb2⟩
  have hz : s2.marked.InZone s2.now s2.output.nodes [] [] :=
    ⟨⟨(hw2.output.placed (hw1.output.placed hs0)).mark, prefix_refl _, Zone.empty _⟩, .nil _,
      Nat.le_refl _⟩
  refine ((start_agree hfresh hz s2.length_marked).and ((region.start_lasting _).and
    (.of_keeps Session.bearing _ s2.marked))).mono ?_
  rintro region' s3 ⟨hr, ⟨hlasting, hcursor3, hsame⟩, hb3⟩
  have hdialect : s3.output.dialect = s1.output.dialect := congrArg Bearing.dialect (hb3.trans hb2)
  refine ⟨?_, t, hdialect ▸ ht, fun p hp => ?_⟩
  · rw [hcursor3, show s2.marked.cursor = s2.cursor from rfl, hcursor2]
    exact congrArg Prod.fst hextent
  · have hmade : Makes s2.output.nodes p := by
      unfold Frame.settled at hp
      split at hp
      next hlasts =>
        -- the mark is an empty text
        rw [hsame (hlasting ▸ hlasts)] at hp
        obtain ⟨q, more, rfl, hq, hmore⟩ := hp.split
        rw [Makes.of_singleton hmore, append_nil]
        exact hq
      · rwa [take_mark hr.inZone.output.zone] at hp
    rw [hnodes2] at hmade
    obtain ⟨q, rfl, hq⟩ := hmade.of_add
    have hnodes1 : s1.output.nodes = s.output.nodes := congrArg Prod.snd hextent
    exact ⟨q, [], rfl, hnodes1 ▸ hq⟩

/-- A tag opens a region, and the region is entered behind what is written for the tag. -/
theorem openChild_opens (hcomments : ∀ spec ∈ registry.lookup? "__comment", spec.mode = .comment)
    (hs : s.output.Placed) (hn : s.output.Named settings.names) (hsettings : s.settings = settings) :
    Gives (openChild registry frame) s fun child s' =>
      ∀ f ∈ child, ∃ tag opening, Frame.tag f = some tag ∧
        Opens settings s'.output.dialect f.region.mode tag opening ∧
        '<' :: s.cursor.rest = opening.source ++ s'.cursor.rest ∧
        EndsWith opening.code s.output.nodes (f.settled s'.output.nodes) := by
  refine (openChild_opening registry frame s).mono fun child s' hchild => ?_
  cases hchild with
  | @comment s1 _ spec _ _ hread hspec henter =>
    have hwritten : s1.written = s.written := Keeps.same Session.written hread
    have houtput : s1.output = s.output := congrArg Prod.fst hwritten
    rw [← houtput] at hs hn ⊢
    obtain ⟨_, hcursor, rfl⟩ := scan_eq_ok.mp hread
    rcases Scan.readText_cases hcursor with ⟨-, hrest⟩ | ⟨h, -⟩
    · obtain ⟨hrest', t, rfl, hmakes⟩ := (enter_code (F := fun _ t => t = []) hs hn
        fun _ _ _ _ => .pure ⟨rfl, [], rfl, rfl⟩).result _ _ henter
      obtain ⟨-, htag, hmode, -⟩ := enter_bearing.result _ _ henter
      rintro _ ⟨⟩
      rw [hmode, hcomments spec hspec]
      refine ⟨_, _, htag, .comment, ?_, hmakes⟩
      rw [hrest, hrest']
      rfl
    · cases h
  | @element s1 s2 _ tag attributes _ _ hread htag _ henter =>
    have hwritten : s2.written = s.written :=
      (Keeps.same Session.written htag).trans (Keeps.same Session.written hread)
    have houtput : s2.output = s.output := congrArg Prod.fst hwritten
    rw [← houtput] at hs hn ⊢
    obtain ⟨t, ht⟩ := (StartTag.read_text _ s1).result _ _ htag
    obtain ⟨_, hcursor, rfl⟩ := scan_eq_ok.mp hread
    rcases Scan.readText_cases hcursor with ⟨h, -⟩ | ⟨-, hsame⟩
    · cases h
    · obtain ⟨hrest, code, ⟨written, rfl⟩, hmakes⟩ := (enter_code hs hn
        fun r s3 hn3 hsettings3 => openElement_code tag attributes r hn3
          (hsettings3.trans ((congrArg Prod.snd hwritten).trans hsettings))).result _ _ henter
      obtain ⟨-, htag, hmode, -⟩ := enter_bearing.result _ _ henter
      rintro _ ⟨⟩
      refine ⟨_, _, htag, .element t written, ?_, hmakes⟩
      rw [← hsame, ht, hrest]
      simp
  | empty => exact fun _ h => absurd h (Option.not_mem_none _)

theorem finish_settled (hmark : frame.mark = front.length) (hr : frame.region.Sound old front s) :
    Gives frame.region.finish s fun _ s' =>
      Extends (frame.settled s.output.nodes) s'.output.nodes := by
  unfold Frame.settled
  split
  next hlasting =>
    have := finish_extending hlasting
    exact Agree.of_extending _ s
  rw [hmark, take_mark hr.inZone.output.zone]
  exact (finish_agree (h := .spent) hr).right.mono fun _ s' hz =>
    .of_isPrefix hz.output.zone.front_isPrefix

/-- Behind the code of a region stands the end of its function, if it is that of an element. -/
theorem leave_code (hmark : frame.mark = front.length) (hr : frame.region.Sound old front s) :
    Gives (leave frame) s fun _ s' => s'.cursor.rest = s.cursor.rest ∧
      EndsWith (if frame.isElement then s.output.functionClose else [])
        (frame.settled s.output.nodes) s'.output.nodes := by
  rw [leave_eq]
  refine ((finish_settled hmark hr).and ((Agree.of_keeps Session.cursor _ s).and
    (.of_keeps Session.bearing _ s))).bind ?_
  rintro _ s1 ⟨hextends1, hcursor1, hb1⟩
  refine .keeping id fun o s2 h2 => ?_
  cases h2
  refine ((Agree.of_keeps Session.cursor _ s1).and ((Agree.of_keeps Session.bearing _ s1).and
    .of_made)).bind ?_
  rintro _ s2 ⟨hcursor2, hb2, hw2⟩
  have hend : Gives (onOutput (·.endRegion frame.mark)) s2 fun _ s' => s'.cursor = s2.cursor ∧
      s'.output.dialect = s2.output.dialect ∧ Extends s2.output.nodes s'.output.nodes :=
    .of_eq rfl ⟨rfl, rfl, .endRegion _ _⟩
  refine hend.bind ?_
  rintro faults s3 ⟨hcursor3, hdialect3, hextends3⟩
  have hextends := (hextends1.trans (.wrote hw2.output)).trans hextends3
  have hrest3 : s3.cursor.rest = s.cursor.rest :=
    congrArg Cursor.rest (hcursor3.trans (hcursor2.trans hcursor1))
  have hdialect : s3.output.dialect = s.output.dialect :=
    hdialect3.trans (congrArg Bearing.dialect (hb2.trans hb1))
  refine .session ?_
  split
  next helement =>
    rw [if_pos (show frame.isElement = true from helement), ← Output.functionClose_congr hdialect]
    exact .of_eq rfl ⟨hrest3, hextends.endsWith.add _⟩
  next hother =>
    rw [if_neg (show ¬frame.isElement = true from hother)]
    exact .of_eq rfl ⟨hrest3, hextends.endsWith⟩

theorem closeTag_text (tag : OpenTag) (s : Session) :
    Gives (closeTag tag) s fun _ s' => ∃ closing blanks,
      (closing = tag.name ∨ closing = []) ∧ blanks.all Text.isBlank = true ∧
        s.cursor.rest = '/' :: (closing ++ (blanks ++ '>' :: s'.cursor.rest)) := by
  refine .keeping id fun at_ s1 h1 => ?_
  cases h1
  refine (Agree.scan fun name c h => Scan.readClosingTag_eq h).bind fun name s2 h2 => ?_
  obtain ⟨blanks, hblanks, hrest⟩ := h2
  split
  · exact .after fun stop s3 => .fail ..
  next hname =>
    refine .pure ⟨name, blanks, ?_, hblanks, hrest⟩
    rw [Bool.and_eq_true, not_and_or, Bool.not_eq_true', Bool.not_eq_false, List.isEmpty_iff,
      bne_iff_ne, not_not] at hname
    exact hname.symm

/-- A region is closed where its tag is, or at the end of a comment. What it has written stands before
what is written for the tag. A comment goes to the region around it. -/
theorem closeRegion_closes (settings : Settings) {tag : OpenTag} {parent : Frame}
    (hmark : frame.mark = front.length)
    (hr : frame.region.Sound old front s) (htag : frame.tag = some tag)
    (hcomment : tag.kind = .comment → frame.region.mode = .comment) :
    Gives (closeRegion frame (parent :: outer)) s fun r s' =>
      ∃ closing region, r.1 = { parent with region } :: outer ∧ region.mode = parent.region.mode ∧
        Closes settings s.output.dialect parent.region.mode frame.region.mode tag closing ∧
        frame.region.mode.closer ++ s.cursor.rest = closing.source ++ s'.cursor.rest ∧
        EndsWith closing.code (frame.settled s.output.nodes) s'.output.nodes := by
  unfold closeRegion
  rw [htag]
  obtain ⟨_ | _, name, span⟩ := tag
  · have helement : frame.isElement = true := by
      rw [Frame.isElement, htag]
      rfl
    refine ((closeTag_text _ s).and ((Agree.of_keeps Session.written _ s).and
      .of_made)).bind ?_
    rintro _ s1 ⟨⟨closing, blanks, hname, hblanks, hrest⟩, hwritten, hw1⟩
    have houtput : s1.output = s.output := congrArg Prod.fst hwritten
    refine (leave_code hmark ⟨hr.formed, hr.inZone.wrote hw1⟩).bind ?_
    rintro faults s2 ⟨hrest2, hmakes⟩
    rw [if_pos helement, houtput] at hmakes
    refine .of_eq rfl ⟨_, parent.region, rfl, rfl, .element hname hblanks, ?_, ?_⟩
    · show _ = frame.region.mode.closer ++ _ ++ s2.cursor.rest
      rw [hrest, hrest2]
      simp
    · rw [functionEnd_eq, ← elementTerminator_mode]
      exact EndsWith.add (o := s2.output.endScope) hmakes _
  · have hother : ¬frame.isElement = true := by
      rw [Frame.isElement, htag]
      exact Bool.false_ne_true
    have hmode := hcomment rfl
    refine .keeping id fun o s1 h1 => ?_
    cases h1
    refine (leave_code hmark hr).bind ?_
    rintro faults s2 ⟨hrest2, hmakes⟩
    rw [if_neg hother] at hmakes
    rw [hmode, ← hrest2]
    split
    next link parent' frames _ heq =>
      cases heq
      refine ((accept_mode link _ s2).and ((Agree.of_keeps Session.cursor _ s2).and
        (parent.region.accept_keeps link s2))).bind ?_
      rintro region s3 ⟨hregion, hcursor3, hw3, -⟩
      refine .pure ⟨_, region, rfl, hregion, .comment, ?_, ?_⟩
      · rw [hcursor3]
        rfl
      · exact (hmakes.extends.trans (.wrote hw3.output)).endsWith
    · exact .pure ⟨_, parent.region, rfl, rfl, .comment, rfl, hmakes⟩

theorem closeRegion_root (frame : Frame) (htag : frame.tag = none) (s : Session) :
    Gives (closeRegion frame outer) s fun _ _ => False := by
  unfold closeRegion
  rw [htag]
  exact .after fun at_ s1 => .after fun name s2 => .after fun stop s3 => .fail ..

theorem endDocument_code (hmark : frame.mark = front.length) (hr : frame.region.Sound old front s) :
    Gives (endDocument frame) s fun _ s' =>
      frame.tag = none ∧ s'.cursor.rest = s.cursor.rest ∧
        Extends (frame.settled s.output.nodes) s'.output.nodes := by
  unfold endDocument
  split
  next htag =>
    exact (leave_code hmark hr).mono fun _ s' ⟨hrest, hmakes⟩ => ⟨htag, hrest, hmakes.extends⟩
  · exact .fail ..

/-! ## Steps of the loop -/

def change? (before after : List Frame) : Option Bracket :=
  if before.length < after.length then
    after.head?.bind fun frame => frame.tag.map (.opens · frame.region.mode)
  else if after.length < before.length then
    before.head?.bind fun frame => frame.tag.map .closes
  else none

/-- A step from a state to another adds segments to those that have been read. Whatever code the
output may come to after the step, a part of it is one that it might have come to before. -/
def Adds (settings : Settings) (frames : List Frame) (s : Session) (frames' : List Frame)
    (s' : Session) : Prop :=
  ∀ p', Makes (settled frames' s'.output.nodes) p' → ∃ p more,
    p' = p ++ Segment.codes more ∧ Makes (settled frames s.output.nodes) p ∧
    s.cursor.rest = Segment.sources more ++ s'.cursor.rest ∧
    (∀ at_, Segment.brackets at_ more =
      ((change? frames frames').map (·, at_ + bytes (Segment.sources more))).toList) ∧
    (frames' = [] → s'.cursor.rest = []) ∧ ∀ segments, Unfinished settings frames segments → Unfinished settings frames' (segments ++ more)

section Adds

variable {region : Region} {s' : Session} {t : Text}

/-- A step adds a part of the content of the innermost region, and then some tags. -/
theorem adds_of {frames frames' : List Frame} {g : List Segment}
    (hread : s.cursor.rest = t ++ (Segment.sources g ++ s'.cursor.rest))
    (hmakes : EndsWith (Segment.codes g) (settled frames s.output.nodes)
      (settled frames' s'.output.nodes))
    (hbrackets : ∀ at_, Segment.brackets at_ g =
      ((change? frames frames').map (·, at_ + bytes (Segment.sources g))).toList)
    (hend : frames' = [] → s'.cursor.rest = [])
    (h : ∀ code segments, Unfinished settings frames segments →
      Unfinished settings frames' (segments ++ ⟨t, code, none⟩ :: g)) :
    Adds settings frames s frames' s' := by
  intro p' hp'
  obtain ⟨q, code, rfl, hq⟩ := hmakes p' hp'
  refine ⟨q, ⟨t, code, none⟩ :: g, rfl, hq, ?_, fun at_ => ?_, hend, h code⟩
  · rw [Segment.sources_cons, append_assoc]
    exact hread
  · rw [Segment.brackets, hbrackets, Segment.sources_cons, bytes_append, Nat.add_assoc]
    rfl

theorem adds_own (hmode : region.mode = frame.region.mode)
    (hread : s.cursor.rest = t ++ s'.cursor.rest)
    (hextends : Extends (frame.settled s.output.nodes)
      (({ frame with region } : Frame).settled s'.output.nodes)) :
    Adds settings (frame :: outer) s ({ frame with region } :: outer) s' := by
  refine adds_of (g := []) hread hextends.endsWith (fun at_ => ?_) (fun h => by cases h)
    fun code segments h => ?_
  · simp [Segment.brackets, change?]
  · exact (h.append (.single t code)).replace hmode

theorem adds_opening {child : Frame} {tag : OpenTag} {opening : Segment}
    (hmode : region.mode = frame.region.mode) (hlasting : frame.region.lasting = true)
    (htag : child.tag = some tag)
    (hopens : Opens settings (dialectOf settings (child :: { frame with region } :: outer))
      child.region.mode tag opening)
    (hread : s.cursor.rest = t ++ (opening.source ++ s'.cursor.rest))
    (hmakes : EndsWith opening.code (frame.settled s.output.nodes)
      (child.settled s'.output.nodes)) :
    Adds settings (frame :: outer) s (child :: { frame with region } :: outer) s' := by
  refine adds_of (t := t) (g := [opening]) (by simpa using hread) (by simpa [settled] using hmakes)
    (fun at_ => ?_) (fun h => by cases h) fun code segments h => ?_
  · simp [Segment.brackets, change?, hopens.bracket, htag]
  · have hparent := (h.append (.single t code)).replace hmode
    rw [← lasting_congr hmode] at hlasting
    have hchild := Unfinished.child htag hlasting hparent hopens .nil
    rwa [append_assoc] at hchild

theorem adds_closing {parent : Frame} {tag : OpenTag} {closing : Segment}
    (hmode : region.mode = parent.region.mode) (htag : frame.tag = some tag)
    (hcloses : Closes settings (dialectOf settings (frame :: parent :: outer)) parent.region.mode
      frame.region.mode tag closing)
    (hread : s.cursor.rest = t ++ (closing.source ++ s'.cursor.rest))
    (hmakes : EndsWith closing.code (frame.settled s.output.nodes)
      (({ parent with region } : Frame).settled s'.output.nodes)) :
    Adds settings (frame :: parent :: outer) s ({ parent with region } :: outer) s' := by
  refine adds_of (t := t) (g := [closing]) (by simpa using hread) (by simpa [settled] using hmakes)
    (fun at_ => ?_) (fun h => by cases h) fun code segments h => ?_
  · simp [Segment.brackets, change?, hcloses.bracket, htag, Nat.add_assoc]
  · cases h with
    | @child _ _ _ open_ opening before inner tag' lasting outside opens h =>
      cases htag.symm.trans tag'
      have hregion : Nested settings parent.region.mode
          (opening :: ((inner ++ [⟨t, code, none⟩]) ++ [closing])) :=
        .region opens (h.append (.single t code)) hcloses .nil
      have hafter := (outside.append hregion).replace hmode
      simpa using hafter

theorem adds_end (htag : frame.tag = none) (hend : s'.cursor.rest = [])
    (hextends : Extends (frame.settled s.output.nodes) s'.output.nodes) :
    Adds settings (frame :: outer) s [] s' := by
  refine adds_of (t := s.cursor.rest) (g := []) (by simp [hend]) hextends.endsWith (fun at_ => ?_)
    (fun _ => hend) fun code segments h => ?_
  · simp [Segment.brackets, change?, htag]
  · cases h with
    | root tag h => exact .ended (h.append (.single _ _))
    | child tag => cases htag.symm.trans tag

end Adds

theorem step_settled (hmark : frame.mark = front.length) (hr : frame.region.Sound old front s) :
    Gives frame.region.step s fun p s' =>
      Extends (frame.settled s.output.nodes)
        (({ frame with region := p.1 } : Frame).settled s'.output.nodes) := by
  by_cases hlasting : frame.region.lasting = true
  · have := step_extending hlasting
    refine ((frame.region.step_mode s).and (Agree.of_extending _ s)).mono fun p s' ⟨hmode, hextends⟩ => ?_
    have hlasting' : p.1.lasting = true := lasting_congr hmode ▸ hlasting
    rw [Frame.settled, Frame.settled, if_pos hlasting, if_pos hlasting']
    exact hextends
  · refine ((frame.region.step_mode s).and (step_agree (h := .spent) hr).right).mono
      fun p s' ⟨hmode, hr', _⟩ => ?_
    have hlasting' : ¬p.1.lasting = true := lasting_congr hmode ▸ hlasting
    rw [Frame.settled, Frame.settled, if_neg hlasting, if_neg hlasting']
    rw [hmark, take_mark hr.inZone.output.zone, take_mark hr'.inZone.output.zone]
    exact .refl _

/-- One step of the innermost region adds its segments, and those of what it leads to. -/
theorem advance_adds {segments : List Segment}
    (hcomments : ∀ spec ∈ registry.lookup? "__comment", spec.mode = .comment)
    (hs : Sound (frame :: outer) s) (ho : Ordered registry settings (frame :: outer) s)
    (hn : s.output.Named settings.names) (halike : frame.region.Alike frame.region)
    (hreads : Gives frame.region.step s fun p s' =>
      s.cursor.Moved s'.cursor ∧ s.Reads s' p.1.closer p.2)
    (h : Unfinished settings (frame :: outer) segments) :
    Gives (advance registry frame outer) s fun r s' => Adds settings (frame :: outer) s r.1 s' := by
  obtain ⟨front, mark, hr, root, outside⟩ := hs.uncons
  refine (((step_agree (h := .spent) hr).right.and (step_settled mark hr)).and
    (((frame.region.step_mode s).and (.of_keeps Session.bearing _ s)).and
      (hreads.and (frame.region.step_lasting s)))).bindOf ?_
  rintro ⟨region, step⟩ s1 hstep ⟨⟨⟨hr1, -⟩, hextends⟩, ⟨hmode, hb1⟩, ⟨hmoved, hread⟩, hchild⟩
  obtain ⟨t, ht⟩ := hmoved.rest_eq
  have hn1 := ((step_parallel halike).named hn hstep).2
  have hmark : ({ frame with region } : Frame).mark = front.length := mark
  have ho1 : Ordered registry settings ({ frame with region } :: outer) s1 :=
    (ho.replace hmode).of_bearing hb1
  cases step with
  | next => exact .pure (adds_own hmode ht hextends)
  | child =>
    have hlasting := hchild rfl
    have hlasting1 : region.lasting = true := lasting_congr hmode ▸ hlasting
    have hsettled : ∀ nodes, ({ frame with region } : Frame).settled nodes = nodes :=
      fun nodes => if_pos hlasting1
    obtain ⟨before, hbefore⟩ := hread.child rfl
    refine (((openChild_agree registry _ hr1.inZone.output.placed).and
      (openChild_opens hcomments hr1.inZone.output.placed hn1 ho1.settings)).and
        (openChild_ordered ho1)).bind ?_
    rintro child s2 ⟨⟨hopened, hopens⟩, ho2⟩
    cases child with
    | none =>
      obtain ⟨t2, ht2⟩ := hopened.forward.rest_eq
      refine .pure (adds_own (t := t ++ t2) hmode ?_ ?_)
      · rw [ht, ht2, append_assoc]
      · refine hextends.trans ?_
        rw [hsettled, hsettled]
        exact .wrote hopened.output
    | some child =>
      obtain ⟨tag, opening, htag, hopening, hrest, hmakes⟩ := hopens child rfl
      rw [show s2.output.dialect = _ from ho2.inForce.dialect] at hopening
      rw [hsettled] at hextends
      refine .pure (adds_opening (t := before) hmode hlasting htag hopening ?_
        (hextends.trans_endsWith hmakes))
      rw [hbefore, ← hrest]
      rfl
  | close =>
    obtain ⟨before, hbefore⟩ := hread.close rfl
    cases h with
    | root tag =>
      exact (closeRegion_root { frame with region } tag s1).mono fun _ _ h => h.elim
    | @child _ parent outer open_ opening _ _ tag lasting _ opens =>
      have hdialect : s1.output.dialect = dialectOf settings (frame :: parent :: outer) :=
        ho1.inForce.dialect
      refine (closeRegion_closes settings hmark hr1 tag fun hkind =>
        hmode.trans (opens.mode_eq hkind)).mono ?_
      rintro ⟨_, faults⟩ s2 ⟨closing, region', rfl, hmode', hcloses, hrest, hmakes⟩
      rw [hdialect, hmode] at hcloses
      refine adds_closing (t := before) hmode' tag hcloses ?_ ?_
      · rw [hbefore, ← hrest, closer_mode]
      · have hlasting' : region'.lasting = true := lasting_congr hmode' ▸ lasting
        rw [Frame.settled.eq_def { parent with region := region' }, if_pos hlasting']
        exact hextends.trans_endsWith hmakes
  | eof =>
    refine Agree.bind (endDocument_code hmark hr1) fun faults s2 ⟨htag, hrest2, hend⟩ => ?_
    exact .pure (adds_end htag (hrest2.trans (hread.ended rfl)) (hextends.trans hend))

/-! ## Runs -/

section

variable (registry : Registry) (settings : Settings) (source : Text)

/-- The brackets of a number of steps of a run: how each changed the stack of regions, and where the
cursor stood after it. -/
def bracketsAfter : Nat → List (Bracket × Nat)
  | 0 => []
  | n + 1 =>
    bracketsAfter n ++
      match stateAfter registry settings source n, stateAfter registry settings source (n + 1) with
      | some (before, _), some (after, s) =>
        ((change? before after).map (·, s.cursor.position)).toList
      | _, _ => []

end

variable {source : Text} {n : Nat} {frames : List Frame}

/-- After any number of steps the text that has been read, and the code that the output may come to,
are cut into segments which lie in the regions that are open. -/
theorem segments_stateAfter
    (hcomments : ∀ spec ∈ registry.lookup? "__comment", spec.mode = .comment)
    (hn : stateAfter registry settings source n = some (frames, s)) :
    ∀ p, Makes (settled frames s.output.nodes) p → ∃ segments,
      Segment.sources segments ++ s.cursor.rest = source ∧ Segment.codes segments = p ∧
      Segment.brackets 0 segments = bracketsAfter registry settings source n ∧
      (frames = [] → s.cursor.rest = []) ∧ Unfinished settings frames segments := by
  induction n generalizing frames s with
  | zero =>
    obtain ⟨root, hroot, rfl⟩ := stateAfter_zero.mp hn
    intro p hp
    obtain ⟨front, hfront, -⟩ := (onward_of_goes (framed_stateAfter hn).1.goes).between
    obtain ⟨htag, -⟩ := (enterRoot_ordered registry settings source).result _ _ hroot
    refine ⟨[⟨front, p, none⟩], ?_, append_nil p, rfl, fun h => (by cases h), .root htag (.single _ _)⟩
    simpa using hfront.symm
  | succ n ih =>
    obtain ⟨frame, outer, s0, faults, hbefore, hadvance⟩ := stateAfter_succ.mp hn
    obtain ⟨halike, hnamed⟩ := named_stateAfter hbefore
    obtain ⟨hholds, hframe, houter⟩ := framed_stateAfter hbefore
    have hreads : Gives frame.region.step s0 fun p s' =>
        s0.cursor.Moved s'.cursor ∧ s0.Reads s' p.1.closer p.2 := by
      refine ⟨rfl, fun r s' hstep => ?_⟩
      obtain ⟨hgoes, hstepped⟩ := (step_settles (stretch_expands settings source .split)
        hframe.noted hframe.escapes hholds).result _ _ hstep
      exact ⟨hgoes.moved, hstepped.toReads⟩
    -- what the output holds now shows that some segments lie in the open regions
    obtain ⟨held, -, -, -, -, hheld⟩ := ih hbefore _ (Makes.content _)
    have hadds := (advance_adds hcomments (sound_stateAfter hbefore) (ordered_stateAfter hbefore)
      hnamed (forall₂_cons.mp halike).1.region hreads hheld).result _ _ hadvance
    intro p' hp'
    obtain ⟨p, more, rfl, hp, hrest, hbrackets, hend, hunfinished⟩ := hadds p' hp'
    obtain ⟨segments, hsource, rfl, hearlier, -, h⟩ := ih hbefore p hp
    have hread : Segment.sources (segments ++ more) ++ s.cursor.rest = source := by
      rw [Segment.sources_append, append_assoc, ← hrest, hsource]
    refine ⟨segments ++ more, hread, Segment.codes_append .., ?_, hend, hunfinished segments h⟩
    have hposition : s.cursor.position = bytes (Segment.sources (segments ++ more)) := by
      obtain ⟨front, hfront, hposition⟩ := (onward_of_goes (framed_stateAfter hn).1.goes).between
      rw [hposition, append_cancel_right (hread.trans hfront)]
    rw [Segment.brackets_append, hearlier, hbrackets, bracketsAfter, hbefore, hn]
    dsimp only
    rw [hposition, Segment.sources_append, bytes_append, Nat.zero_add]

theorem process_halted {halt : Halt}
    (hn : stateAfter registry settings source n = some (frame :: outer, s))
    (hadvance : advance registry frame outer s = .error halt) :
    ∃ faults, process registry settings source = .halted halt faults := by
  have hle := stateAfter_length hn
  obtain ⟨faults, hrun⟩ := process_stateAfter hn (by omega)
  obtain ⟨fuel, hfuel⟩ : ∃ fuel, source.length + 1 - n = fuel + 1 := ⟨source.length - n, by omega⟩
  refine ⟨faults, ?_⟩
  rw [hrun, hfuel, run, hadvance]

/-- The last of the errors is this one. -/
def RejectedWith (outcome : Outcome) (cause : Cause) (start stop file : Nat) : Prop :=
  ∃ errors, outcome = .rejected (errors ++ [⟨⟨cause, ⟨start, stop⟩⟩, file⟩])

theorem rejected_of_fault {cause : Cause} {start stop : Nat} (file : Nat)
    (hn : stateAfter registry settings source n = some (frame :: outer, s))
    (hadvance : advance registry frame outer s = .error (.fault ⟨cause, ⟨start, stop⟩⟩)) :
    RejectedWith (compileWith registry settings file source) cause start stop file := by
  obtain ⟨faults, hprocess⟩ := process_halted hn hadvance
  refine ⟨faults.map (⟨·, file⟩), ?_⟩
  rw [compileWith, hprocess]
  dsimp only
  rw [map_append]
  rfl

def unclosed (tag : OpenTag) : Cause :=
  match tag.kind with
  | .element => .elementOpen tag.name
  | .comment => .markupCommentOpen

section Faults

variable {region : Region} {s1 : Session} {tag : OpenTag} {name : Text} {c : Cursor}

theorem advance_unclosed (hstep : frame.region.step s = .ok ((region, .eof), s1))
    (htag : frame.tag = some tag) :
    advance registry frame outer s =
      .error (.fault ⟨unclosed tag, ⟨tag.span.start, tag.span.stop⟩⟩) := by
  rw [advance, bind_apply, hstep]
  show (endDocument { frame with region } >>= _) s1 = _
  rw [htag]
  rfl

theorem advance_closesNothing (hstep : frame.region.step s = .ok ((region, .close), s1))
    (htag : frame.tag = none) (hname : readClosingTag s1.cursor = .ok name c) :
    advance registry frame outer s =
      .error (.fault ⟨.closesNothing name, ⟨s1.cursor.position - 1, c.position⟩⟩) := by
  rw [advance, bind_apply, hstep]
  show closeRegion { frame with region } outer s1 = _
  rw [htag]
  show (scan readClosingTag >>= fun name => position >>= fun stop =>
    fail (.closesNothing name) (s1.cursor.position - 1) stop) s1 = _
  rw [bind_apply, scan_eq_ok.mpr ⟨c, hname, rfl⟩]
  rfl

theorem advance_closesOther (hstep : frame.region.step s = .ok ((region, .close), s1))
    (htag : frame.tag = some tag) (hkind : tag.kind = .element)
    (hname : readClosingTag s1.cursor = .ok name c) (hne : name ≠ []) (hother : name ≠ tag.name) :
    advance registry frame outer s = .error (.fault
      ⟨.closesOther name tag.name tag.span.start, ⟨s1.cursor.position - 1, c.position⟩⟩) := by
  have hclose : closeTag tag s1 = .error (.fault
      ⟨.closesOther name tag.name tag.span.start, ⟨s1.cursor.position - 1, c.position⟩⟩) := by
    show (scan readClosingTag >>= fun name => if !name.isEmpty && name != tag.name then
      position >>= fun stop => fail (.closesOther name tag.name tag.span.start)
        (s1.cursor.position - 1) stop else pure ()) s1 = _
    have hwrong : (!name.isEmpty && name != tag.name) = true := by
      simp [hne, hother]
    rw [bind_apply, scan_eq_ok.mpr ⟨c, hname, rfl⟩]
    dsimp only
    rw [if_pos hwrong]
    rfl
  rw [advance, bind_apply, hstep]
  show closeRegion { frame with region } outer s1 = _
  rw [closeRegion, htag]
  dsimp only
  rw [hkind]
  dsimp only
  rw [bind_apply, hclose]

end Faults

theorem comments_standard :
    ∀ spec ∈ Registry.standard.lookup? "__comment", spec.mode = .comment := by
  rintro _ ⟨⟩
  rfl

/-- What the step after a number of others comes to: the region that is read, the step, and the
session after it. -/
def stepAt (registry : Registry) (settings : Settings) (source : Text) (n : Nat) :
    Option (Frame × Step × Session) :=
  match stateAfter registry settings source n with
  | some (frame :: _, s) =>
    match frame.region.step s with
    | .ok ((_, step), s1) => some (frame, step, s1)
    | .error _ => none
  | _ => none

theorem stepAt_eq {step : Step} {s1 : Session}
    (h : stepAt registry settings source n = some (frame, step, s1)) :
    ∃ outer s region, stateAfter registry settings source n = some (frame :: outer, s) ∧
      frame.region.step s = .ok ((region, step), s1) := by
  unfold stepAt at h
  split at h
  next frame' outer s hn =>
    split at h
    next region step' s' hstep =>
      cases h
      exact ⟨outer, s, region, hn, hstep⟩
    · cases h
  · cases h

theorem exists_stepAt_of_any {step : Step} {tag : Option OpenTag} {c : Cursor}
    (h : ((stepAt registry settings source n).any fun met =>
      met.1.tag == tag && met.2.1 == step && met.2.2.cursor == c) = true) :
    ∃ frame s, stepAt registry settings source n = some (frame, step, s) ∧ frame.tag = tag ∧
      s.cursor = c := by
  obtain ⟨⟨frame, step', s⟩, hat, htests⟩ := (Option.any_eq_true _ _).mp h
  simp only [Bool.and_eq_true, beq_iff_eq] at htests
  obtain ⟨⟨htag, rfl⟩, hcursor⟩ := htests
  exact ⟨frame, s, hat, htag, hcursor⟩

end Document
end Patchwork
