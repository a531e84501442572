import Patchwork.Proofs.Excerpts
import Patchwork.Proofs.Openings
import Patchwork.Proofs.StatementPlaces
import Patchwork.Proofs.TextItems

/-!
# Text documents

A document of text, markers, comments and elements without content is compiled item by item: nothing
is lost, and nothing changes its place. Text reaches the chain in the pieces that lie between the
characters a search stops at, and the chain puts them together again.

`Document.Leads` says that a run goes on from one state to another. `leads_item` is the step: reading
an item gives the chain what the item contributes. `run_items` goes through the whole document, and
`text_document_code` says what its code is.
-/

namespace Patchwork

open Compile List Text Bool

/-! ## Runs that go on -/

namespace Document

/-- With enough steps for what is left of the document, a run from one state comes to what a run
from the other state comes to. -/
def Leads (frames : List Frame) (s : Session) (frames' : List Frame) (s' : Session) : Prop :=
  ∀ fuel, s.cursor.rest.length < fuel → ∃ fuel', s'.cursor.rest.length < fuel' ∧
    run .standard fuel frames [] s = run .standard fuel' frames' [] s'

namespace Leads

variable {frames frames' frames'' outer : List Frame} {frame : Frame} {s s' s'' : Session}

theorem refl (frames : List Frame) (s : Session) : Leads frames s frames s := fun fuel hfuel =>
  ⟨fuel, hfuel, rfl⟩

theorem trans (h : Leads frames s frames' s') (h' : Leads frames' s' frames'' s'') :
    Leads frames s frames'' s'' := by
  intro fuel hfuel
  obtain ⟨fuel1, hfuel1, hrun1⟩ := h fuel hfuel
  obtain ⟨fuel2, hfuel2, hrun2⟩ := h' fuel1 hfuel1
  exact ⟨fuel2, hfuel2, hrun1.trans hrun2⟩

/-- A step that reads something and reports no fault. -/
theorem step (h : advance .standard frame outer s = .ok ((frames', []), s'))
    (hlt : s'.cursor.rest.length < s.cursor.rest.length) :
    Leads (frame :: outer) s frames' s' := by
  intro fuel hfuel
  obtain ⟨fuel, rfl⟩ := Nat.exists_eq_add_of_lt (Nat.zero_lt_of_lt hfuel)
  refine ⟨fuel, by omega, ?_⟩
  rw [Nat.zero_add, run, h]
  rfl

variable {region : Region} {s1 : Session}

theorem next (h : frame.region.step s = .ok ((region, .next), s'))
    (hlt : s'.cursor.rest.length < s.cursor.rest.length) :
    Leads (frame :: outer) s ({ frame with region } :: outer) s' := by
  refine step ?_ hlt
  unfold advance
  rw [bind_apply, h]
  rfl

/-- A child begins, or is passed over if it has no content. -/
theorem child {f : Option Frame} (h : frame.region.step s = .ok ((region, .child), s1))
    (hchild : openChild .standard { frame with region } s1 = .ok (f, s'))
    (hlt : s'.cursor.rest.length < s.cursor.rest.length) :
    Leads (frame :: outer) s (f.toList ++ { frame with region } :: outer) s' := by
  refine step ?_ hlt
  unfold advance
  rw [bind_apply, h]
  refine bind_of_ok hchild ?_
  cases f <;> rfl

theorem close (h : frame.region.step s = .ok ((region, .close), s1))
    (hclose : closeRegion { frame with region } outer s1 = .ok ((frames', []), s'))
    (hlt : s'.cursor.rest.length < s.cursor.rest.length) :
    Leads (frame :: outer) s frames' s' := by
  refine step ?_ hlt
  unfold advance
  rw [bind_apply, h]
  exact hclose

theorem of_step_eq (h : frame.region.step s = region.step s')
    (hle : s'.cursor.rest.length ≤ s.cursor.rest.length) :
    Leads (frame :: outer) s ({ frame with region } :: outer) s' := by
  intro fuel hfuel
  have hadvance : advance .standard frame outer s =
      advance .standard { frame with region } outer s' := by
    unfold advance
    rw [bind_apply, bind_apply, h]
  refine ⟨fuel, by omega, ?_⟩
  obtain ⟨fuel, rfl⟩ := Nat.exists_eq_add_of_lt (Nat.zero_lt_of_lt hfuel)
  rw [run, run, hadvance]

end Leads
end Document

namespace TextDocument

open Document

/-! ## The state between items -/

def rootOutput (settings : Settings) : Output :=
  { Output.empty settings with
    dialect := settings.attributes.dialect.getD settings.dialect }

def markup (chain : Chain) : Region :=
  .markup { chain, statements := none, children := true }

/-- A text region without statements. -/
abbrev bare (chain : Chain) : Markup :=
  { chain, statements := none, children := true }

def root (settings : Settings) (chain : Chain) : Frame :=
  { region := markup chain
    attributes := settings.attributes
    tag := none
    savedOptions := .inCode
    savedDialect := settings.dialect
    mark := 0 }

/-- A session that has `rest` ahead, at a position, and has written `code`. -/
structure Reads (settings : Settings) (position : Nat) (rest code : Text) (s : Session) : Prop where
  position : s.cursor.position = position
  rest : s.cursor.rest = rest
  options : s.cursor.options = .inText
  fork : s.output.fork = rootOutput settings
  noSlots : slotsOf s.output.nodes = []
  code : s.output.finish = code
  settings : s.settings = settings

namespace Reads

variable {settings : Settings} {position : Nat} {rest code : Text} {s : Session}

theorem advance {t : Text} (h : Reads settings position (t ++ rest) code s) {c : Cursor}
    (hc : c = { s.cursor.advance t.length with lastMatch := c.lastMatch })
    (warnings : List Fault) :
    Reads settings (position + bytes t) rest code { s with cursor := c, warnings } where
  position := by
    rw [hc]
    show (s.cursor.advance t.length).position = _
    rw [Cursor.position_advance, h.position, h.rest, take_left]
  rest := by
    rw [hc]
    show s.cursor.rest.drop t.length = rest
    rw [h.rest, drop_left]
  options := by
    rw [hc]
    exact h.options
  fork := h.fork
  noSlots := h.noSlots
  code := h.code
  settings := h.settings

/-- What lies ahead has become less. -/
theorem length_lt {t code' : Text} {position' : Nat} {s' : Session}
    (h : Reads settings position (t ++ rest) code s) (ht : t ≠ [])
    (h' : Reads settings position' rest code' s') :
    s'.cursor.rest.length < s.cursor.rest.length := by
  have hpos := length_pos_of_ne_nil ht
  rw [h'.rest, h.rest, length_append]
  omega

theorem emit (h : Reads settings position rest code s) (t : Text) :
    Reads settings position rest (code ++ t) { s with output := s.output.add t } where
  position := h.position
  rest := h.rest
  options := h.options
  fork := (Output.fork_add _ t).trans h.fork
  noSlots := (Output.slotsOf_add _ t).trans h.noSlots
  code := by rw [Output.finish_add, h.code]
  settings := h.settings

/-- A search does not stop at a character that is not looked for, so it may begin after it. -/
theorem find_skip {α β : Type} {chars : List Char} {consume : Bool} {c : Char}
    {f g : Found → Compile α} {k : α → Compile β} (h : Reads settings position (c :: rest) code s)
    (hc : chars.contains c = false)
    (hfg : ∀ found, f { found with before := c :: found.before } = g found) :
    (scan (Scan.find chars false consume) >>= f >>= k) s =
      (scan (Scan.find chars false consume) >>= g >>= k)
        { s with cursor := s.cursor.advance 1 } := by
  simp only [bind_apply, scan, Scan.find_inText_cons h.options h.rest hc, ← hfg]
  cases Scan.find chars false consume (s.cursor.advance 1) <;> rfl

end Reads

variable {rest code : Text} {settings : Settings} {position : Nat} {s : Session} {chain : Chain}
  {c : Char}

/-- The next character has been found by a search, and has been read. -/
def taken (s : Session) : Session :=
  { s with cursor := { s.cursor with lastMatch := s.cursor.position }.advance 1 }

theorem Reads.taken (h : Reads settings position (c :: rest) code s) :
    Reads settings (position + c.utf8Size) rest code (taken s) :=
  h.advance (t := [c]) rfl _

theorem Reads.readText {t : Text} (h : Reads settings position (t ++ rest) code s) :
    scan (Scan.readText t) s = .ok (true, { s with cursor := s.cursor.advance t.length }) := by
  have hstarts : startsWith t s.cursor.rest = true := by
    rw [h.rest]
    exact List.isPrefixOf_iff_prefix.mpr (prefix_append ..)
  refine scan_eq_ok.mpr ⟨_, ?_, rfl⟩
  rw [Scan.readText, if_pos hstarts]

/-! ## Text -/

theorem pushText_char (chain : Chain) (c : Char) (t : Text) :
    chain.pushText (c :: t) = (chain.pushText [c]).pushText t := by
  show { chain with current := chain.current.pushText ([c] ++ t) } = _
  rw [← pushText_pushText]
  rfl

theorem step_skip (h : Reads settings position (c :: rest) code s)
    (hc : Markup.breakpoints.contains c = false) :
    (markup chain).step s =
      (markup (chain.pushText [c])).step { s with cursor := s.cursor.advance 1 } :=
  h.find_skip hc fun found => by rw [pushText_char]

/-- At a character that is looked for, the region deals with it at once. -/
theorem step_here (h : Reads settings position (c :: rest) code s)
    (hc : Markup.breakpoints.contains c = true) :
    (markup chain).step s =
      (Markup.character (bare chain) c >>= fun p =>
        pure (Region.markup p.1, p.2))
        { s with cursor := { s.cursor with lastMatch := s.cursor.position } } := by
  have hfind : Scan.find (Markup.breakpoints ++ []) false false s.cursor =
      .ok ⟨[], some c⟩ { s.cursor with lastMatch := s.cursor.position } :=
    Scan.find_here h.rest hc
  have hstep : Markup.step (bare chain) s =
      Markup.character (bare chain) c
        { s with cursor := { s.cursor with lastMatch := s.cursor.position } } := by
    unfold Markup.step
    dsimp only [Option.map_none, Option.getD_none]
    rw [bind_apply, scan, hfind]
    rfl
  show (Markup.step _ >>= _) s = _
  rw [bind_apply, bind_apply, hstep]

theorem character_plain (hplain : if c == '<' then TagStart.ofText (s.cursor.advance 1).rest = .none
      else (s.cursor.advance 1).peek? ≠ some '{') :
    Markup.character (bare chain) c s =
      .ok ((bare (chain.pushText [c]), .next),
        { s with cursor := s.cursor.advance 1 }) := by
  refine bind_of_ok rfl ?_
  split at hplain
  next hc =>
    obtain rfl := eq_of_beq hc
    refine bind_of_ok rfl ?_
    rw [hplain]
    rfl
  next hc =>
    rw [if_pos (by simpa using hc)]
    refine bind_eq_ok.mpr ⟨chain.pushText [c], _, bind_of_ok rfl ?_, rfl⟩
    rw [if_pos (bne_iff_ne.mpr hplain)]
    rfl

theorem leads_char (chain : Chain) (h : Reads settings position (c :: rest) code s)
    (hplain : (if c == '<' then TagStart.ofText rest == .none
      else !(Markup.breakpoints.contains c && rest.head? == some '{')) = true) :
    ∃ s', Leads [root settings chain] s [root settings (chain.pushText [c])] s' ∧
      Reads settings (position + c.utf8Size) rest code s' := by
  have h1 := h.taken
  have hlt := h.length_lt (t := [c]) (cons_ne_nil _ _) h1
  by_cases hc : Markup.breakpoints.contains c = true
  · have hstep : (markup chain).step s = .ok ((markup (chain.pushText [c]), .next), taken s) := by
      refine (step_here h hc).trans (bind_of_ok (character_plain ?_) rfl)
      show if c == '<' then TagStart.ofText (taken s).cursor.rest = .none
        else (taken s).cursor.rest.head? ≠ some '{'
      rw [h1.rest]
      split at hplain
      next htag =>
        rw [if_pos htag]
        exact eq_of_beq hplain
      next htag =>
        rw [if_neg htag]
        rw [hc] at hplain
        simpa using hplain
    exact ⟨taken s, .next hstep hlt, h1⟩
  · exact ⟨_, .of_step_eq (step_skip h (eq_false_iff.mpr hc)) (le_of_lt hlt),
      h.advance (t := [c]) rfl _⟩

theorem leads_text {following : Text} {t : Text} :
    ∀ {position : Nat} {chain : Chain} {s : Session},
      Reads settings position (t ++ following) code s → isPlain following t = true →
      ∃ s', Leads [root settings chain] s [root settings (chain.pushText t)] s' ∧
        Reads settings (position + bytes t) following code s' := by
  induction t with
  | nil =>
    intro position chain s h _
    exact ⟨s, .refl _ _, h⟩
  | cons c t ih =>
    intro position chain s h hplain
    rw [isPlain, and_eq_true] at hplain
    obtain ⟨s1, hleads1, h1⟩ := leads_char chain h hplain.1
    obtain ⟨s2, hleads2, h2⟩ := ih h1 hplain.2
    refine ⟨s2, hleads1.trans ?_, ?_⟩
    · rwa [← pushText_char] at hleads2
    · rwa [Nat.add_assoc] at h2

/-! ## Markers -/

theorem toOption_eq_some {ε α : Type} {x : Except ε α} {a : α} (h : x.toOption = some a) :
    x = .ok a := by
  cases x with
  | error e => cases h
  | ok b =>
    cases h
    rfl

theorem guard_eq_some_iff {b : Bool} {u : Unit} :
    (guard (b = true) : Option Unit) = some u ↔ b = true := by
  cases b with
  | false => exact ⟨nofun, nofun⟩
  | true => exact ⟨fun _ => rfl, fun _ => rfl⟩

section Markers

variable {settings : Settings} {position : Nat} {inner following code : Text} {s s0 : Session}
  {e : Expr}

theorem readEnclosed_braced {c : Cursor}
    (hrest : c.rest = '{' :: (inner ++ ['}']) ++ following)
    (hgroup : Lexeme.group c.position ('{' :: (inner ++ ['}'])) = .ok (inner.length + 2)) :
    Scan.readEnclosed c = .ok inner (c.advance (inner.length + 2)) := by
  have hskip : Scan.skipGroup c = .ok ('{' :: (inner ++ ['}'])) (c.advance (inner.length + 2)) := by
    unfold Scan.skipGroup Scan.lexeme
    rw [hrest, Lexeme.group_append rfl hgroup]
    dsimp only
    rw [take_left' (by simp)]
  exact (Scan.bind_ok hskip _).trans (Scan.whole_eq_ok.mpr ⟨inner?_eq rfl rfl inner, rfl⟩)

theorem leads_textMarker {chain chain' : Chain} {c : Char} {rest : Text} {s2 : Session}
    (h : Reads settings position (c :: rest) code s) (hc : Markup.breakpoints.contains c = true)
    (hother : (c != '<') = true) (hmarker : chain.textMarker c true (taken s) = .ok (chain', s2))
    (hlt : s2.cursor.rest.length < s.cursor.rest.length) :
    Leads [root settings chain] s [root settings chain'] s2 := by
  have hcharacter : Markup.character (bare chain) c
      { s with cursor := { s.cursor with lastMatch := s.cursor.position } } =
      .ok ((bare chain', .next), s2) := by
    refine bind_of_ok rfl ?_
    rw [if_pos hother]
    exact bind_of_ok hmarker rfl
  exact .next ((step_here h hc).trans (bind_of_ok hcharacter rfl)) hlt

theorem readMarker_braced (marker : Char) {position0 : Nat}
    (h : Reads settings position ('{' :: (inner ++ ['}']) ++ following) code s)
    (hgroup : Lexeme.group position ('{' :: (inner ++ ['}'])) = .ok (inner.length + 2))
    (hexpand : expand inner (position + 1) true
      (excerpt settings (rootOutput settings) [] position0) = .ok (e, s0)) :
    ∃ warnings, readMarker marker true s =
      .ok (if marker == '%' then
          { e with source := s.output.feature "stringify" ++ '(' :: e.source ++ [')'] }
        else if marker == '@' then
          { e with source := s.output.feature "quote" ++ '(' :: e.source ++ [')'] }
        else e, { s with cursor := s.cursor.advance (inner.length + 2), warnings }) := by
  obtain ⟨warnings, hE⟩ := expand_excerpt (S := { s with
    cursor := s.cursor.advance (inner.length + 2) }) hexpand h.fork h.settings
  refine ⟨warnings, ?_⟩
  have hread := readEnclosed_braced h.rest (h.position ▸ hgroup)
  rw [← h.position] at hE
  refine bind_of_ok rfl (bind_of_ok (scan_eq_ok.mpr ⟨_, hread, rfl⟩) ?_)
  refine bind_of_ok hE (bind_of_ok rfl ?_)
  split
  · rfl
  · split <;> rfl

/-- A marker is accepted if it is closed by its last brace and what it encloses can be expanded. -/
theorem contribution?_marker {insertion : Insertion} {o : Output} {c : Contribution}
    (h : Item.contribution? settings o position (.marker insertion inner) = some c) :
    Lexeme.group (position + 1) ('{' :: (inner ++ ['}'])) = .ok (inner.length + 2) ∧
      ∃ e s0, expand inner (position + 2) true (excerpt settings o [] position) = .ok (e, s0) ∧
        c = insert o e insertion := by
  obtain ⟨_, hgroup, h⟩ := Option.bind_eq_some_iff.mp h
  obtain ⟨⟨e, s0⟩, hexpand, hc⟩ := Option.bind_eq_some_iff.mp h
  cases hc
  refine ⟨?_, e, s0, toOption_eq_some hexpand, rfl⟩
  rw [toOption_eq_some (eq_of_beq (guard_eq_some_iff.mp hgroup))]
  simp

theorem leads_marker (chain : Chain) {insertion : Insertion} {c : Contribution}
    (h : Reads settings position ((Item.marker insertion inner).source ++ following) code s)
    (hescaped : chain.current.endsWith '\\' = false)
    (hc : Item.contribution? settings (rootOutput settings) position (.marker insertion inner) =
      some c) :
    ∃ s', Leads [root settings chain] s
        [root settings (feed (rootOutput settings) chain c).1] s' ∧
      Reads settings (position + bytes (Item.marker insertion inner).source) following
        (code ++ (feed (rootOutput settings) chain c).2) s' := by
  obtain ⟨hgroup, e, s0, hexpand, rfl⟩ := contribution?_marker hc
  have hchar : Markup.breakpoints.contains insertion.char = true := by cases insertion <;> rfl
  have hsize : insertion.char.utf8Size = 1 := by cases insertion <;> rfl
  -- the marker is read, and then what it encloses
  have h1 : Reads settings (position + 1) ('{' :: (inner ++ ['}']) ++ following) code (taken s) :=
    hsize ▸ h.taken
  obtain ⟨warnings, hread⟩ := readMarker_braced insertion.char h1 hgroup hexpand
  let s2 : Session :=
    { taken s with cursor := (taken s).cursor.advance (inner.length + 2), warnings }
  have h2 : Reads settings (position + bytes (Item.marker insertion inner).source) following
      code s2 := by
    have hread := h1.advance (c := s2.cursor) (by simp [s2]) warnings
    rw [Nat.add_assoc] at hread
    rwa [Item.source, bytes, hsize]
  have hmarker : chain.textMarker insertion.char true (taken s) =
      .ok ((feed (rootOutput settings) chain (insert (rootOutput settings) e insertion)).1, s2) := by
    have hpeek : (taken s).cursor.peek? = some '{' := by
      rw [Cursor.peek?, h1.rest]
      rfl
    refine bind_of_ok rfl ?_
    rw [if_neg (by rw [hpeek]; decide), hescaped]
    refine bind_of_ok hread ?_
    rw [← h1.fork]
    cases insertion <;> rfl
  have hother : (insertion.char != '<') = true := by cases insertion <;> decide
  refine ⟨s2, leads_textMarker h hchar hother hmarker (h.length_lt (cons_ne_nil _ _) h2), ?_⟩
  have hsilent : (feed (rootOutput settings) chain (insert (rootOutput settings) e insertion)).2 =
      [] := by
    cases insertion <;> rfl
  rw [hsilent, append_nil]
  exact h2

end Markers

/-! ## Comments -/

section Comments

variable {settings : Settings} {position : Nat} {inner following code : Text} {s : Session}

def commentFrame (settings : Settings) (span : Span) (mark : Nat) (chain : Chain) : Frame :=
  { region := .comment ⟨chain⟩
    attributes := settings.attributes.inherit
    tag := some ⟨.comment, "!--", span⟩
    savedOptions := .inText
    savedDialect := (rootOutput settings).dialect
    mark }

variable {c : Char} (chain : Chain)

theorem holds_cons {p : Text} {t : Text} (h : Text.holds p (c :: t) = false) :
    startsWith p (c :: t) = false ∧ Text.holds p t = false := by
  unfold Text.holds indexOf? at h
  split at h
  · cases h
  next hstarts =>
    refine ⟨eq_false_iff.mpr hstarts, ?_⟩
    rwa [Option.isSome_map] at h

theorem endRegion_of_noSlots {o : Output} (h : slotsOf o.nodes = []) (mark : Nat) :
    o.endRegion mark = (o, []) := by
  have htext : ∀ node ∈ o.nodes.drop mark, ∃ t, node = .text t := by
    intro node hnode
    have hslot := filterMap_eq_nil_iff.mp h node (mem_of_mem_drop hnode)
    cases node with
    | text t => exact ⟨t, rfl⟩
    | slot slot => cases hslot
  have hfreeze : (o.nodes.drop mark).map Node.freeze = o.nodes.drop mark := by
    refine (map_congr_left fun node hnode => ?_).trans (map_id _)
    obtain ⟨t, rfl⟩ := htext node hnode
    rfl
  have hresolved : (o.nodes.drop mark).filterMap Node.unresolved? = [] := by
    refine filterMap_eq_nil_iff.mpr fun node hnode => ?_
    obtain ⟨t, rfl⟩ := htext node hnode
    rfl
  rw [Output.endRegion, hfreeze, hresolved, take_append_drop]

/-- A region without slots ends without faults, and what was in force before it is so again. -/
theorem leave_of_noSlots {frame : Frame} {s1 : Session}
    (hfinish : frame.region.finish s = .ok ((), s1))
    (hplain : (frame.tag.any (·.kind == .element), frame.region.after? s1.output) = (false, none))
    (h : slotsOf s1.output.nodes = []) :
    leave frame s = .ok ([], { s1 with
      cursor := { s1.cursor with options := frame.savedOptions }
      output := { s1.output with dialect := frame.savedDialect } }) := by
  obtain ⟨hother, hnone⟩ := Prod.mk.inj hplain
  have hend : onOutput (·.endRegion frame.mark) s1 = .ok ([], s1) := by
    rw [onOutput, endRegion_of_noSlots h]
  refine bind_of_ok hfinish (bind_of_ok rfl ?_)
  rw [hnone]
  refine bind_of_ok hend ?_
  rw [hother]
  rfl

/-- A comment begins with `<!--`, which ends the text before it. -/
theorem leads_commentStart (h : Reads settings position ("<!--" ++ following) code s) :
    ∃ s' span mark, Leads [root settings chain] s
        [commentFrame settings span mark Comment.create.chain,
          root settings (chain.addCurrent (rootOutput settings))] s' ∧
      Reads settings (position + 4) following code s' := by
  let s1 := taken s
  let s2 : Session := { s1 with cursor := s1.cursor.advance 3 }
  let s3 : Session := { s2 with
    cursor := { s2.cursor with options := .inText }
    output := { s2.output with nodes := s2.output.nodes ++ [.text []] } }
  have h1 : Reads settings (position + 1) ("!--" ++ following) code s1 := h.taken
  have h2 : Reads settings (position + 4) following code s2 := h1.advance rfl _
  have h3 : Reads settings (position + 4) following code s3 := by
    refine ⟨h2.position, h2.rest, rfl, h2.fork, ?_, ?_, h2.settings⟩
    · rw [slotsOf_append, h2.noSlots]
      rfl
    · rw [Output.finish, flatMap_append, ← Output.finish, h2.code]
      exact append_nil _
  have hstep : (markup chain).step s = .ok ((markup (chain.addCurrent s.output), .child), s1) := by
    refine (step_here h rfl).trans (bind_eq_ok.mpr
      ⟨(bare (chain.addCurrent s.output), .child), s1, ?_, rfl⟩)
    refine bind_of_ok rfl (bind_eq_ok.mpr ⟨s1.cursor, s1, rfl, ?_⟩)
    have hcomment : TagStart.ofText s1.cursor.rest = .comment := by
      rw [h1.rest]
      rfl
    rw [hcomment]
    rfl
  have hopen : openChild .standard (root settings (chain.addCurrent s.output)) s1 =
      .ok (some (commentFrame settings ⟨s1.cursor.position - 1, s2.cursor.position⟩
        s2.output.nodes.length Comment.create.chain), s3) := by
    have hsaved : s2.output.dialect = (rootOutput settings).dialect := by
      rw [← h2.fork]
      rfl
    refine bind_of_ok rfl (bind_of_ok h1.readText ?_)
    rw [commentFrame, ← hsaved, ← h2.options]
    rfl
  refine ⟨s3, ⟨s1.cursor.position - 1, s2.cursor.position⟩, s2.output.nodes.length, ?_, h3⟩
  rw [← h.fork]
  exact Leads.child (f := some _) hstep hopen (h.length_lt (cons_ne_nil _ _) h3)

theorem comment_step_skip {chain : Chain} {rest : Text}
    (h : Reads settings position (c :: rest) code s) (hc : Comment.breakpoints.contains c = false) :
    (Region.comment ⟨chain⟩).step s =
      (Region.comment ⟨chain.pushText [c]⟩).step { s with cursor := s.cursor.advance 1 } :=
  h.find_skip hc fun found => by rw [pushText_char]

theorem leads_commentChar {span : Span} {mark : Nat} {outer : List Frame} {rest : Text}
    (h : Reads settings position (c :: rest) code s) (hclose : startsWith "-->" (c :: rest) = false)
    (hmarker : startsWith "$\x7b" (c :: rest) = false) :
    ∃ s', Leads (commentFrame settings span mark chain :: outer) s
        (commentFrame settings span mark (chain.pushText [c]) :: outer) s' ∧
      Reads settings (position + c.utf8Size) rest code s' := by
  have h1 := h.taken
  have hlt := h.length_lt (t := [c]) (cons_ne_nil _ _) h1
  by_cases hc : Comment.breakpoints.contains c = true
  · refine ⟨taken s, .next ?_ hlt, h1⟩
    have hscan : scan (Scan.find Comment.breakpoints false true) s =
        .ok (⟨[], some c⟩, taken s) :=
      scan_eq_ok.mpr ⟨_, Scan.find_here h.rest hc, rfl⟩
    refine bind_eq_ok.mpr
      ⟨(⟨chain.pushText [c]⟩, .next), taken s, bind_of_ok hscan ?_, rfl⟩
    rcases mem_pair.mp (contains_iff_mem.mp hc) with rfl | rfl
    · have hpeek : ((taken s).cursor.peek? != some '{') = true := by
        rw [bne_iff_ne, Cursor.peek?, h1.rest]
        intro hhead
        obtain ⟨t, rfl⟩ := head?_eq_some_iff.mp hhead
        cases hmarker
      refine bind_eq_ok.mpr ⟨chain.pushText ['$'], taken s, bind_of_ok rfl ?_, rfl⟩
      rw [if_pos hpeek]
      rfl
    · have hnot : scan (Scan.readText "->") (taken s) = .ok (false, taken s) := by
        refine scan_eq_ok.mpr ⟨(taken s).cursor, ?_, rfl⟩
        rw [Scan.readText, if_neg]
        rw [h1.rest]
        exact eq_false_iff.mp hclose
      exact bind_of_ok hnot rfl
  · exact ⟨_, .of_step_eq (comment_step_skip h (eq_false_iff.mpr hc)) (le_of_lt hlt),
      h.advance (t := [c]) rfl _⟩

theorem leads_commentText {span : Span} {mark : Nat} {outer : List Frame} {inner : Text} :
    ∀ {position : Nat} {chain : Chain} {s : Session},
      Reads settings position (inner ++ ("-->" ++ following)) code s →
      Text.holds "-->" inner = false → Text.holds "$\x7b" inner = false →
      ∃ s', Leads (commentFrame settings span mark chain :: outer) s
          (commentFrame settings span mark (chain.pushText inner) :: outer) s' ∧
        Reads settings (position + bytes inner) ("-->" ++ following) code s' := by
  induction inner with
  | nil =>
    intro position chain s h _ _
    exact ⟨s, .refl _ _, h⟩
  | cons c t ih =>
    intro position chain s h hclose hmarker
    obtain ⟨hnotClose, hclose⟩ := holds_cons hclose
    obtain ⟨hnotMarker, hmarker⟩ := holds_cons hmarker
    -- the end of the comment does not begin before its own first character
    have hlater : startsWith "-->" (c :: t ++ ("-->" ++ following)) = false := by
      rcases t with _ | ⟨d, _ | ⟨e, t⟩⟩
      · simp [startsWith, isPrefixOf]
      · simp [startsWith, isPrefixOf]
      · exact (startsWith_append (by simp) _).trans hnotClose
    have hplain : startsWith "$\x7b" (c :: t ++ ("-->" ++ following)) = false := by
      cases t with
      | nil => simp [startsWith, isPrefixOf]
      | cons d t => exact (startsWith_append (by simp) _).trans hnotMarker
    obtain ⟨s1, hleads1, h1⟩ := leads_commentChar chain h hlater hplain
    obtain ⟨s2, hleads2, h2⟩ := ih h1 hclose hmarker
    refine ⟨s2, hleads1.trans ?_, ?_⟩
    · rwa [← pushText_char] at hleads2
    · rwa [Nat.add_assoc] at h2

theorem leads_commentEnd (span : Span) (mark : Nat) (chain outer : Chain)
    (h : Reads settings position ("-->" ++ following) code s) :
    ∃ s', Leads [commentFrame settings span mark chain, root settings outer] s
        [root settings (outer.pushLink (rootOutput settings)
          (Comment.link ⟨chain⟩ (rootOutput settings)))] s' ∧
      Reads settings (position + 3) following code s' := by
  let s1 := taken s
  let s2 : Session := { s1 with cursor := s1.cursor.advance 2 }
  have h1 : Reads settings (position + 1) ("->" ++ following) code s1 := h.taken
  have h2 : Reads settings (position + 3) following code s2 := h1.advance rfl _
  have hstep : (Region.comment ⟨chain⟩).step s = .ok ((.comment ⟨chain⟩, .close), s2) := by
    have hscan : scan (Scan.find Comment.breakpoints false true) s = .ok (⟨[], some '-'⟩, s1) :=
      scan_eq_ok.mpr ⟨_, Scan.find_here h.rest rfl, rfl⟩
    exact bind_of_ok (bind_of_ok hscan (bind_of_ok h1.readText rfl)) rfl
  let s3 : Session := { s2 with
    cursor := { s2.cursor with options := .inText }
    output := { s2.output with dialect := (rootOutput settings).dialect } }
  have h3 : Reads settings (position + 3) following code s3 := by
    refine ⟨h2.position, h2.rest, rfl, ?_, h2.noSlots, h2.code, h2.settings⟩
    show { s2.output.fork with dialect := (rootOutput settings).dialect } = _
    rw [h2.fork]
  have hleave : leave (commentFrame settings span mark chain) s2 = .ok ([], s3) :=
    leave_of_noSlots rfl rfl h2.noSlots
  have hclose : closeRegion (commentFrame settings span mark chain) [root settings outer] s2 =
      .ok (([root settings (outer.pushLink s3.output (Comment.link ⟨chain⟩ s2.output))], []),
        s3) := by
    refine bind_of_ok rfl (bind_of_ok hleave ?_)
    rfl
  have hlink : Comment.link ⟨chain⟩ s2.output = Comment.link ⟨chain⟩ (rootOutput settings) := by
    rw [← h2.fork]
    rfl
  have hpush (l : Link) : outer.pushLink s3.output l = outer.pushLink (rootOutput settings) l := by
    rw [← h3.fork]
    rfl
  rw [hlink, hpush] at hclose
  exact ⟨s3, .close hstep hclose (h.length_lt (cons_ne_nil _ _) h3), h3⟩

theorem comment_link (o : Output) (inner : Text) :
    Comment.link ⟨Comment.create.chain.pushText inner⟩ o = commentLink o inner := by
  cases inner with
  | nil => rfl
  | cons c t =>
    obtain ⟨nodes, slots, scopes, dialect, names, nextVar, nextId⟩ := o
    cases dialect <;> rfl

theorem pushLink_addCurrent (o : Output) (l : Link) :
    (chain.addCurrent o).pushLink o l = chain.pushLink o l := by
  have htwice : (chain.addCurrent o).addCurrent o = chain.addCurrent o := by
    show { chain.addCurrent o with links := (chain.addCurrent o).links ++ [] } = _
    rw [append_nil]
  rw [Chain.pushLink, htwice]
  rfl

theorem leads_comment
    (h : Reads settings position ((Item.comment inner).source ++ following) code s)
    (hclose : Text.holds "-->" inner = false) (hmarker : Text.holds "$\x7b" inner = false) :
    ∃ s', Leads [root settings chain] s
        [root settings (chain.pushLink (rootOutput settings)
          (commentLink (rootOutput settings) inner))] s' ∧
      Reads settings (position + bytes (Item.comment inner).source) following code s' := by
  rw [Item.source, append_assoc, append_assoc] at h
  obtain ⟨s1, span, mark, hleads1, h1⟩ := leads_commentStart chain h
  obtain ⟨s2, hleads2, h2⟩ := leads_commentText h1 hclose hmarker
  obtain ⟨s3, hleads3, h3⟩ := leads_commentEnd span mark (Comment.create.chain.pushText inner)
    (chain.addCurrent (rootOutput settings)) h2
  refine ⟨s3, (hleads1.trans hleads2).trans ?_, ?_⟩
  · rw [← comment_link, ← pushLink_addCurrent]
    exact hleads3
  · have hbytes : bytes (Item.comment inner).source = 4 + bytes inner + 3 := by
      rw [Item.source, bytes_append, bytes_append]
      rfl
    rw [hbytes, ← Nat.add_assoc, ← Nat.add_assoc]
    exact h3

end Comments

/-! ## Elements without content -/

section Elements

variable {settings : Settings} {position : Nat} {text following code : Text} {s : Session}

/-- An element is accepted if its text is a tag without content, with region attributes and a mode
that exist. -/
theorem contribution?_element {o : Output} {c : Contribution}
    (h : Item.contribution? settings o position (.element text) = some c) :
    ∃ tag s0 attributes spec s1,
      StartTag.read position (excerpt settings o text (position + 1)) = .ok (tag, s0) ∧
      tag.selfClosing = true ∧ s0.cursor.rest = [] ∧
      Attributes.resolve tag.region settings.attributes = .ok attributes ∧
      chooseMode .standard tag attributes s0 = .ok (spec, s1) ∧
      c = .call (elementCall o tag.name tag.attributes ++ ");") := by
  obtain ⟨⟨tag, s0⟩, hread, h⟩ := Option.bind_eq_some_iff.mp h
  obtain ⟨_, hends, h⟩ := Option.bind_eq_some_iff.mp h
  obtain ⟨attributes, hresolve, h⟩ := Option.bind_eq_some_iff.mp h
  obtain ⟨⟨spec, s1⟩, hmode, hc⟩ := Option.bind_eq_some_iff.mp h
  obtain ⟨hclosed, hend⟩ := and_eq_true_iff.mp (guard_eq_some_iff.mp hends)
  cases hc
  exact ⟨tag, s0, attributes, spec, s1, toOption_eq_some hread, hclosed, List.isEmpty_iff.mp hend,
    toOption_eq_some hresolve, toOption_eq_some hmode, rfl⟩

theorem ofText_eq_element {t : Text} :
    TagStart.ofText t = .element ↔ ∃ c u, t = c :: u ∧ TagStart.startsName c = true := by
  constructor
  · intro h
    unfold TagStart.ofText at h
    split at h
    · cases h
    split at h
    · split at h <;> cases h
    split at h
    next hname =>
      obtain ⟨c, hc, hname⟩ := Option.any_eq_true _ _ |>.mp hname
      obtain ⟨u, rfl⟩ := head?_eq_some_iff.mp hc
      exact ⟨c, u, rfl, hname⟩
    · cases h
  · rintro ⟨c, u, rfl, hc⟩
    have hbang : c ≠ '!' := by
      rintro rfl
      revert hc
      decide
    have hslash : c ≠ '/' := by
      rintro rfl
      revert hc
      decide
    unfold TagStart.ofText
    rw [if_neg (by simp [startsWith, hbang.symm])]
    split
    next heq =>
      cases heq
      exact absurd rfl hslash
    · exact if_pos hc

theorem ofText_append (h : TagStart.ofText text = .element) :
    TagStart.ofText (text ++ following) = .element := by
  obtain ⟨c, t, rfl, hc⟩ := ofText_eq_element.mp h
  exact ofText_eq_element.mpr ⟨c, t ++ following, rfl, hc⟩

theorem reportLeftovers_session (attributes : Attributes) (used : List AttributeKey)
    (cause : Text → Cause) (s : Session) :
    ∃ warnings, reportLeftovers attributes used cause s = .ok ((), { s with warnings }) := by
  unfold reportLeftovers
  generalize attributes.leftovers used = found
  induction found generalizing s with
  | nil => exact ⟨s.warnings, rfl⟩
  | cons a found ih =>
    obtain ⟨warnings, hrest⟩ := ih { s with warnings := s.warnings ++ [⟨cause a.1.text, a.2⟩] }
    exact ⟨warnings, bind_of_ok rfl hrest⟩

theorem leads_element (chain : Chain) {c : Contribution}
    (h : Reads settings position ((Item.element text).source ++ following) code s)
    (htag : TagStart.ofText text = .element)
    (hc : Item.contribution? settings (rootOutput settings) position (.element text) = some c) :
    ∃ s', Leads [root settings chain] s
        [root settings (feed (rootOutput settings) chain c).1] s' ∧
      Reads settings (position + bytes (Item.element text).source) following
        (code ++ (feed (rootOutput settings) chain c).2) s' := by
  obtain ⟨tag, s0, attributes, spec, _, hread, hclosed, hend, hresolve, hmode, rfl⟩ :=
    contribution?_element hc
  let s1 := taken s
  have h1 : Reads settings (position + 1) (text ++ following) code s1 := h.taken
  have hrender : Link.render s1.output (chain.addCurrent s1.output).links =
      Link.render (rootOutput settings) (chain.addCurrent (rootOutput settings)).links := by
    rw [← h1.fork]
    rfl
  let written := Link.render (rootOutput settings) (chain.addCurrent (rootOutput settings)).links
  let s2 : Session := { s1 with output := s1.output.add written }
  have h2 : Reads settings (position + 1) (text ++ following) _ s2 := h1.emit _
  have hstep : (markup chain).step s =
      .ok ((markup { chain with current := [], links := [] }, .child), s2) := by
    refine (step_here h rfl).trans (bind_eq_ok.mpr
      ⟨(bare { chain with current := [], links := [] }, .child), s2, ?_, rfl⟩)
    refine bind_of_ok rfl (bind_eq_ok.mpr ⟨s1.cursor, s1, rfl, ?_⟩)
    rw [h1.rest, ofText_append htag]
    refine bind_eq_ok.mpr ⟨{ chain with current := [], links := [] }, s2, ?_, rfl⟩
    refine bind_of_ok rfl (bind_eq_ok.mpr ⟨(), s2, ?_, rfl⟩)
    rw [emit_apply, hrender]
  have hexcerpt : (excerpt settings (rootOutput settings) text (position + 1)).Excerpt following
      s2 := by
    refine ⟨⟨?_, h2.rest⟩, h2.fork, h2.settings⟩
    exact h2.position
  obtain ⟨s3, hread3, hexcerpt3⟩ := StartTag.read_excerpt hread hclosed hexcerpt
  have hposition : s0.cursor.position = position + 1 + bytes text := by
    have hmoved := (Session.Wrote.of_made hread).forward.position_add
    rw [hend] at hmoved
    exact hmoved
  have houtput : s3.output = s2.output := congrArg Prod.fst (Keeps.same Session.written hread3)
  have hoptions : s3.cursor.options = s2.cursor.options :=
    congrArg (fun b : Bearing × Nat × Nat => b.1.options) (Keeps.same Session.standing hread3)
  have h3 : Reads settings (position + 1 + bytes text) following (code ++ written) s3 := by
    refine ⟨hexcerpt3.cursor.position.trans hposition, ?_, hoptions.trans h2.options, ?_, ?_, ?_,
      (hexcerpt3.settings.trans (congrArg Prod.snd (Keeps.same Session.written hread)))⟩
    · rw [hexcerpt3.cursor.rest, hend]
      rfl
    · rw [houtput, h2.fork]
    · rw [houtput, h2.noSlots]
    · rw [houtput, h2.code]
  obtain ⟨warnings, hreport⟩ := reportLeftovers_session attributes [] .attributeOnEmpty s3
  let call := elementCall (rootOutput settings) tag.name tag.attributes ++ ");"
  let s4 : Session := { s3 with warnings, output := s3.output.add call }
  have h4 : Reads settings (position + 1 + bytes text) following (code ++ written ++ call)
      s4 := by
    have hwarned := h3.advance (t := []) (c := s3.cursor) rfl warnings
    exact hwarned.emit call
  have hopen : openChild .standard (root settings { chain with current := [], links := [] }) s2 =
      .ok (none, s4) := by
    have htext : scan (Scan.readText "!--") s2 = .ok (false, s2) := by
      refine scan_eq_ok.mpr ⟨s2.cursor, ?_, rfl⟩
      rw [Scan.readText, if_neg]
      rw [h2.rest]
      intro hstarts
      have hcomment : TagStart.ofText (text ++ following) = .comment := if_pos hstarts
      rw [ofText_append htag] at hcomment
      cases hcomment
    refine bind_of_ok rfl (bind_of_ok htext ?_)
    rw [h2.position]
    refine bind_of_ok hread3 ?_
    dsimp only [root]
    rw [hresolve]
    have hspec := (chooseMode_eq_ok.mp hmode).1
    refine bind_of_ok (chooseMode_eq_ok.mpr ⟨hspec, rfl⟩) ?_
    rw [if_pos hclosed]
    refine bind_of_ok hreport (bind_of_ok rfl ?_)
    have hcall : elementCall s3.output tag.name tag.attributes =
        elementCall (rootOutput settings) tag.name tag.attributes := by
      rw [← h3.fork]
      rfl
    rw [hcall]
    rfl
  refine ⟨s4, .child (f := none) hstep hopen (h.length_lt (cons_ne_nil _ _) h4), ?_⟩
  have hbytes : bytes (Item.element text).source = 1 + bytes text := rfl
  rw [hbytes, ← Nat.add_assoc]
  show Reads settings _ following (code ++ (written ++ call)) s4
  rw [← append_assoc]
  exact h4

end Elements

/-! ## Documents -/

section Documents

variable {settings : Settings} {position : Nat} {code : Text} {s : Session}

variable {items : List Item}

theorem leads_item {item : Item} (chain : Chain) {c : Contribution}
    (h : Reads settings position (item.source ++ source items) code s)
    (hfits : item.fits items = true)
    (hescaped : item.isMarker = true → chain.current.endsWith '\\' = false)
    (hc : item.contribution? settings (rootOutput settings) position = some c) :
    (∃ s', Leads [root settings chain] s
        [root settings (feed (rootOutput settings) chain c).1] s' ∧
      Reads settings (position + bytes item.source) (source items)
        (code ++ (feed (rootOutput settings) chain c).2) s') ∧
    (items.head?.any Item.isMarker = true →
      (feed (rootOutput settings) chain c).1.current.endsWith '\\' = false) := by
  cases item with
  | text t =>
    cases hc
    simp only [Item.fits, and_eq_true, not_eq_true', isEmpty_eq_false_iff] at hfits
    obtain ⟨⟨hne, hplain⟩, hnot⟩ := hfits
    constructor
    · rw [feed, append_nil]
      exact leads_text h hplain
    · intro hmarker
      rw [hmarker] at hnot
      exact (Buffer.endsWith_pushText hne _).trans hnot
  | marker insertion inner =>
    refine ⟨leads_marker chain h (hescaped rfl) hc, fun _ => ?_⟩
    obtain ⟨-, e, s0, -, rfl⟩ := contribution?_marker hc
    cases insertion <;> rfl
  | comment inner =>
    cases hc
    simp only [Item.fits, and_eq_true, not_eq_true'] at hfits
    refine ⟨?_, fun _ => rfl⟩
    rw [feed, append_nil]
    exact leads_comment chain h hfits.1 hfits.2
  | element text =>
    refine ⟨leads_element chain h (eq_of_beq hfits) hc, fun _ => ?_⟩
    obtain ⟨tag, -, -, -, -, -, -, -, -, -, rfl⟩ := contribution?_element hc
    rfl

theorem run_end (chain : Chain) (h : Reads settings position [] code s) {fuel : Nat}
    (hfuel : 0 < fuel) :
    ∃ s', run .standard fuel [root settings chain] [] s = .done s' [] ∧
      s'.output.finish = code ++ spell (rootOutput settings) chain [] := by
  have hstep : (markup chain).step s = .ok ((markup chain, .eof), s) := by
    have hscan : scan (Scan.find (Markup.breakpoints ++ []) false false) s =
        .ok (⟨[], none⟩, s) :=
      scan_eq_ok.mpr ⟨s.cursor, Scan.find_end h.rest, rfl⟩
    exact bind_of_ok (bind_of_ok hscan rfl) rfl
  have hrender : Link.render s.output (chain.addCurrent s.output).links =
      spell (rootOutput settings) chain [] := by
    rw [← h.fork]
    rfl
  let s1 : Session := { s with output := s.output.add (spell (rootOutput settings) chain []) }
  have h1 : Reads settings position [] (code ++ spell (rootOutput settings) chain []) s1 := h.emit _
  let s2 : Session := { s1 with
    cursor := { s1.cursor with options := .inCode }
    output := { s1.output with dialect := settings.dialect } }
  have hleave : leave (root settings chain) s = .ok ([], s2) := by
    refine leave_of_noSlots ?_ rfl h1.noSlots
    refine bind_eq_ok.mpr ⟨{ chain with current := [], links := [] }, s1, ?_, rfl⟩
    refine bind_of_ok rfl (bind_eq_ok.mpr ⟨(), s1, ?_, rfl⟩)
    rw [emit_apply, hrender]
  refine ⟨s2, ?_, h1.code⟩
  obtain ⟨fuel, rfl⟩ := Nat.exists_eq_add_of_lt hfuel
  have hadvance : advance .standard (root settings chain) [] s = .ok (([], []), s2) := by
    refine bind_of_ok hstep ?_
    exact bind_of_ok hleave rfl
  rw [run, hadvance]
  cases fuel <;> rfl

theorem run_items {position : Nat} {code : Text} {s : Session} {chain : Chain}
    {cs : List Contribution} {fuel : Nat} (h : Reads settings position (source items) code s)
    (hformed : wellFormed items = true)
    (hescaped : items.head?.any Item.isMarker = true → chain.current.endsWith '\\' = false)
    (hcs : contributions? settings (rootOutput settings) position items = some cs)
    (hfuel : s.cursor.rest.length < fuel) :
    ∃ s', run .standard fuel [root settings chain] [] s = .done s' [] ∧
      s'.output.finish = code ++ spell (rootOutput settings) chain cs := by
  induction items generalizing position code s chain cs fuel with
  | nil =>
    cases hcs
    exact run_end chain h (Nat.zero_lt_of_lt hfuel)
  | cons item items ih =>
    obtain ⟨hfits, hformed⟩ := and_eq_true_iff.mp hformed
    obtain ⟨c, hc, hcs⟩ := Option.bind_eq_some_iff.mp hcs
    obtain ⟨others, hothers, hcs⟩ := Option.bind_eq_some_iff.mp hcs
    cases hcs
    obtain ⟨⟨s1, hleads, h1⟩, hescaped1⟩ := leads_item chain h hfits hescaped hc
    obtain ⟨fuel1, hfuel1, hrun1⟩ := hleads fuel hfuel
    obtain ⟨s2, hrun2, hcode⟩ := ih h1 hformed hescaped1 hothers hfuel1
    refine ⟨s2, hrun1.trans hrun2, ?_⟩
    rw [hcode, spell, append_assoc]

/-- Where every item fits, no contribution is empty. -/
theorem contributions?_counts : ∀ {position : Nat} {cs : List Contribution}
    {o : Output}, wellFormed items = true → contributions? settings o position items = some cs →
    ∀ c ∈ cs, c.counts := by
  induction items with
  | nil =>
    intro position cs o _ hcs
    cases hcs
    exact nofun
  | cons item items ih =>
    intro position cs o hformed hcs
    obtain ⟨hfits, hformed⟩ := and_eq_true_iff.mp hformed
    obtain ⟨c, hc, hcs⟩ := Option.bind_eq_some_iff.mp hcs
    obtain ⟨others, hothers, hcs⟩ := Option.bind_eq_some_iff.mp hcs
    cases hcs
    refine forall_mem_cons.mpr ⟨?_, ih hformed hothers⟩
    intro p hp
    cases item with
    | text t =>
      cases hc
      cases hp
      simp only [Item.fits, and_eq_true] at hfits
      exact hfits.1.1
    | marker insertion inner =>
      obtain ⟨-, e, s0, -, rfl⟩ := contribution?_marker hc
      cases insertion <;> cases hp <;> rfl
    | comment inner =>
      cases hc
      cases hp
    | element text =>
      obtain ⟨tag, -, -, -, -, -, -, -, -, -, rfl⟩ := contribution?_element hc
      cases hp

/-- A text document begins with an empty chain. -/
theorem enterRoot_text (hmode : settings.rootMode = "html")
    (hlogic : settings.attributes.logic = false) (t : Text) :
    ∃ s, enterRoot .standard (Session.start settings t) =
        .ok (root settings { trimmed := settings.attributes.trimmed, decode := true }, s) ∧
      Reads settings 0 t [] s := by
  obtain ⟨dialect, names, _, ⟨_, trimmed, own, scope, ownScope, mode, explicit⟩, layout, warn⟩ :=
    settings
  obtain rfl := hmode
  obtain rfl := hlogic
  -- all else is computed, with a dialect of the document's own or without
  cases own <;> exact ⟨_, rfl, ⟨rfl, rfl, rfl, rfl, rfl, rfl, rfl⟩⟩

/-- A text document compiles if the run of it comes to its end. -/
theorem compile_of_run (file : Nat) {t : Text} (hmode : settings.rootMode = "html")
    (hlogic : settings.attributes.logic = false)
    (hrun : ∀ s fuel, Reads settings 0 t [] s → s.cursor.rest.length < fuel →
      ∃ s', run .standard fuel
          [root settings { trimmed := settings.attributes.trimmed, decode := true }] [] s =
        .done s' [] ∧ s'.output.finish = code) :
    ∃ warnings, compile settings file t = .compiled code warnings := by
  obtain ⟨s, hroot, hs⟩ := enterRoot_text hmode hlogic t
  have hfuel : s.cursor.rest.length < t.length + 1 := by
    rw [hs.rest]
    exact Nat.lt_succ_self _
  obtain ⟨s', hrun, hcode⟩ := hrun s _ hs hfuel
  have hprocess : process .standard settings t = .done s' [] := by
    unfold process
    rw [hroot]
    exact hrun
  refine ⟨s'.warnings.map (⟨·, file⟩), ?_⟩
  rw [compile, compileWith, hprocess]
  dsimp only
  rw [hcode]

end Documents

end TextDocument

end Patchwork
