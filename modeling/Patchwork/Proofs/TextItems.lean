import Mathlib.Data.List.Forall2
import Mathlib.Data.List.SplitBy
import Patchwork.Document

/-!
# The items of a text document

A text document is a list of items: runs of text, markers, comments, and elements without content.
`Item.contribution?` says what an item adds to the code, by its own text alone. The code of the
document is the concatenation of what its stretches give (`Code`): an element gives its call, and a
longest stretch of other items gives one chain, with the blanks at both ends outside of it. In a
chain the longest groups of text and expressions become one text each (`groupLink`).

`spell` is what a chain makes of contributions that are handed to it one by one, and `spell_code` says
that this is the code of the document.
-/

namespace Patchwork

open List Text

/-- What a text marker inserts. -/
inductive Insertion where
  | value
  | markup
  | string
  | quoted
  deriving DecidableEq, Repr

/-- How the marker is written, before the brace. -/
def Insertion.char : Insertion → Char
  | value => '$'
  | markup => '#'
  | string => '%'
  | quoted => '@'

namespace TextDocument

/-! ## Items -/

/-- A part of a text document. -/
inductive Item where
  | text (t : Text)
  | marker (insertion : Insertion) (inner : Text)
  | comment (inner : Text)
  /-- An element without content, by what follows its `<`. -/
  | element (tag : Text)
  deriving DecidableEq, Repr

def Item.source : Item → Text
  | text t => t
  | marker insertion inner => insertion.char :: '{' :: (inner ++ ['}'])
  | comment inner => "<!--" ++ (inner ++ "-->")
  | element tag => '<' :: tag

def source (items : List Item) : Text :=
  items.flatMap Item.source

/-- Does neither a marker nor a tag begin in the text, also not together with what follows it? -/
def isPlain (following : Text) : Text → Bool
  | [] => true
  | c :: t =>
    (if c == '<' then TagStart.ofText (t ++ following) == .none
      else !(Markup.breakpoints.contains c && (t ++ following).head? == some '{')) &&
    isPlain following t

def Item.isMarker : Item → Bool
  | marker .. => true
  | _ => false

/-- May the item stand before other ones? -/
def Item.fits (following : List Item) : Item → Bool
  | text t =>
    !t.isEmpty && isPlain (TextDocument.source following) t &&
      !(following.head?.any isMarker && endsWithChar '\\' t)
  | marker .. => true
  | comment inner => !Text.holds "-->" inner && !Text.holds "$\x7b" inner
  | element tag => TagStart.ofText tag == .element

/-- Does every item fit to those after it? -/
def wellFormed : List Item → Bool
  | [] => true
  | item :: items => item.fits items && wellFormed items

/-! ## What the items contribute -/

/-- What an item adds to the code. -/
inductive Contribution where
  | text (t : Text)
  | expr (e : Expr)
  /-- An entry of a chain. -/
  | link (l : Link)
  | call (code : Text)
  deriving DecidableEq, Repr

def joined (dialect : Dialect) (decode : Text → Text) (pieces : List Piece) : Text :=
  match dialect with
  | .modern => '\x60' :: pieces.flatMap (Piece.template decode) ++ "`"
  | .legacy => Text.join " + " ("\"\"" :: pieces.map (Piece.term decode))

def watched (o : Output) (reactive : Bool) (source : Text) : Text :=
  if reactive then o.wrapReactive source else source

def insert (o : Output) (e : Expr) : Insertion → Contribution
  | .value => .expr e
  | .markup => .link (.grouped .html (watched o e.reactive e.source))
  | .string => .expr { e with source := o.feature "stringify" ++ '(' :: e.source ++ [')'] }
  | .quoted => .expr { e with source := o.feature "quote" ++ '(' :: e.source ++ [')'] }

def commentLink (o : Output) (inner : Text) : Link :=
  .grouped .comment (if inner.isEmpty then quote [] else joined o.dialect id [.text inner])

def excerpt (settings : Settings) (o : Output) (t : Text) (position : Nat) : Session :=
  { cursor := .ofText t position, output := o, settings, warnings := [] }

/-- What an item at a position contributes, if it is accepted: a marker must be closed by its last
brace and enclose an expression, and an element must be closed by the end of its tag, with region
attributes and a mode that exist. -/
def Item.contribution? (settings : Settings) (o : Output) (position : Nat) :
    Item → Option Contribution
  | text t => some (.text t)
  | marker insertion inner => do
    let braced := '{' :: (inner ++ ['}'])
    guard ((Lexeme.group (position + 1) braced).toOption == some braced.length)
    let (e, _) ← (expand inner (position + 2) true (excerpt settings o [] position)).toOption
    return insert o e insertion
  | comment inner => some (.link (commentLink o inner))
  | element tag => do
    let (tag, s) ← (StartTag.read position (excerpt settings o tag (position + 1))).toOption
    guard (tag.selfClosing && s.cursor.atEnd)
    let attributes ← (Attributes.resolve tag.region settings.attributes).toOption
    let _ ← (Document.chooseMode .standard tag attributes s).toOption
    return .call (Document.elementCall o tag.name tag.attributes ++ ");")

def contributions? (settings : Settings) (o : Output) (position : Nat) :
    List Item → Option (List Contribution)
  | [] => some []
  | item :: items => do
    let contribution ← item.contribution? settings o position
    let others ← contributions? settings o (position + bytes item.source) items
    return contribution :: others

/-! ## The code of contributions -/

namespace Contribution

def piece? : Contribution → Option Piece
  | text t => some (.text t)
  | expr e => some (.expr e)
  | link _ | call _ => none

/-- Do two neighbours belong to one group, that is, to one text? -/
def sameGroup (a b : Contribution) : Bool :=
  a.piece?.isSome && b.piece?.isSome

def isCall : Contribution → Bool
  | call _ => true
  | _ => false

/-- Do two neighbours belong to one chain? -/
def sameChain (a b : Contribution) : Bool :=
  !a.isCall && !b.isCall

end Contribution

/-- A piece in front of others. Texts that meet become one. -/
def attach : Piece → List Piece → List Piece
  | .text t, .text u :: pieces => .text (t ++ u) :: pieces
  | piece, pieces => piece :: pieces

/-- Pieces with the texts that meet put together. -/
def merge (pieces : List Piece) : List Piece :=
  pieces.foldr attach []

def textLink (o : Output) (trimmed : Bool) (pieces : List Piece) : Link :=
  let code := watched o (pieces.any Piece.isReactive) (joined o.dialect decodeEntities pieces)
  match pieces with
  | [.text t] => if trimmed && allBlank t then .blank t else .grouped .text code
  | _ => .grouped .text code

def groupLink (o : Output) (trimmed : Bool) : List Contribution → Link
  | [.link l] => l
  | group => textLink o trimmed (merge (group.filterMap Contribution.piece?))

/-- Links as code: the blanks at both ends are outside of the call, and there is a call only if
something is inside of it. -/
inductive ChainCode (o : Output) : List Link → Text → Prop where
  | blank (blanks : List Text) : ChainCode o (blanks.map .blank) blanks.flatten
  | call (before after : List Text) (inside : List Link) (hne : inside ≠ [])
      (hfirst : ∀ l ∈ inside.head?, l.isBlank = false)
      (hlast : ∀ l ∈ inside.getLast?, l.isBlank = false) :
      ChainCode o (before.map .blank ++ inside ++ after.map .blank)
        (before.flatten ++
          (o.feature "chain" ++ '(' :: o.context ++ inside.flatMap (Link.source o) ++ ");") ++
          after.flatten)

/-- The code of a stretch of a document: of an element, or of other items. -/
inductive Code (o : Output) (trimmed : Bool) : List Contribution → Text → Prop where
  | element (code : Text) : Code o trimmed [.call code] code
  | chain {stretch : List Contribution} {code : Text}
      (hstretch : ∀ contribution ∈ stretch, contribution.isCall = false)
      (hcode : ChainCode o
        ((stretch.splitBy Contribution.sameGroup).map (groupLink o trimmed)) code) :
      Code o trimmed stretch code

/-! ## Contributions one by one -/

/-- What a chain becomes with a contribution, and the code that is written then. -/
def feed (o : Output) (chain : Chain) : Contribution → Chain × Text
  | .text t => (chain.pushText t, [])
  | .expr e => (chain.pushExpr e, [])
  | .link l => (chain.pushLink o l, [])
  | .call code =>
    ({ chain with current := [], links := [] }, Link.render o (chain.addCurrent o).links ++ code)

/-- The code that a chain writes when it is given contributions one by one and then ends. -/
def spell (o : Output) : Chain → List Contribution → Text
  | chain, [] => Link.render o (chain.addCurrent o).links
  | chain, c :: cs => (feed o chain c).2 ++ spell o (feed o chain c).1 cs

/-! ### Links as code -/

variable {links : List Link} {ps : List Piece} {t : Text} {group : List Contribution}

theorem map_blank_blankText (h : ∀ l ∈ links, l.isBlank = true) :
    (links.map Link.blankText).map .blank = links := by
  rw [map_map]
  refine (map_congr_left fun l hl => ?_).trans (map_id _)
  cases l with
  | blank t => rfl
  | grouped kind source => cases h _ hl

theorem isBlank_of_mem_takeWhile :
    ∀ l ∈ links.takeWhile Link.isBlank, l.isBlank = true :=
  all_eq_true.mp all_takeWhile

theorem head?_dropWhile_isBlank (links : List Link) :
    ∀ l ∈ (links.dropWhile Link.isBlank).head?, l.isBlank = false := by
  intro l hl
  have hnot := head?_dropWhile_not Link.isBlank links
  rw [hl] at hnot
  exact hnot

/-- The links after the blanks at the front: the body, and the blanks at the end. -/
theorem dropWhile_isBlank (links : List Link) :
    links.dropWhile Link.isBlank = Link.body links ++
      ((links.dropWhile Link.isBlank).reverse.takeWhile Link.isBlank).reverse := by
  rw [← reverse_inj, reverse_append, reverse_reverse, Link.body,
    reverse_reverse, takeWhile_append_dropWhile]

/-- If something is no blank, the blanks at the end all come after it. -/
theorem takeWhile_reverse (hne : Link.body links ≠ []) :
    links.reverse.takeWhile Link.isBlank =
      (links.dropWhile Link.isBlank).reverse.takeWhile Link.isBlank := by
  conv_lhs => rw [← takeWhile_append_dropWhile (p := Link.isBlank) (l := links),
    reverse_append, takeWhile_append]
  refine if_neg fun hlength => hne ?_
  have hdrop := congrArg length (dropWhile_isBlank links)
  rw [length_append, length_reverse, hlength, length_reverse] at hdrop
  exact length_eq_zero_iff.mp (by omega)

theorem render_code (o : Output) (links : List Link) : ChainCode o links (Link.render o links) := by
  unfold Link.render
  split
  next hbody =>
    -- what follows the blanks at the front is blank too, and so there is nothing after them
    have hblank : ∀ l ∈ links.dropWhile Link.isBlank, l.isBlank = true := by
      rw [dropWhile_isBlank, hbody]
      exact fun l hl => isBlank_of_mem_takeWhile l (mem_reverse.mp hl)
    have hdrop : links.dropWhile Link.isBlank = [] := by
      have hfirst := head?_dropWhile_isBlank links
      cases hlinks : links.dropWhile Link.isBlank with
      | nil => rfl
      | cons l rest =>
        rw [hlinks] at hblank hfirst
        exact absurd ((hfirst l rfl).symm.trans (hblank l mem_cons_self)) Bool.false_ne_true
    have hall : ∀ l ∈ links, l.isBlank = true := by
      rw [← takeWhile_append_dropWhile (l := links), hdrop, append_nil]
      exact isBlank_of_mem_takeWhile
    have hcode := ChainCode.blank (o := o) (links.map Link.blankText)
    rw [map_blank_blankText hall] at hcode
    exact hcode
  next hne =>
    have hlinks : links = links.takeWhile Link.isBlank ++ Link.body links ++
        (links.reverse.takeWhile Link.isBlank).reverse := by
      rw [takeWhile_reverse hne, append_assoc, ← dropWhile_isBlank, takeWhile_append_dropWhile]
    have hfirst : ∀ l ∈ (Link.body links).head?, l.isBlank = false := by
      intro l hl
      refine head?_dropWhile_isBlank links l ?_
      rw [dropWhile_isBlank, head?_append, hl]
      rfl
    have hlast : ∀ l ∈ (Link.body links).getLast?, l.isBlank = false := by
      rw [List.getLast?_eq_head?_reverse, Link.body, reverse_reverse]
      exact head?_dropWhile_isBlank _
    have hcode := ChainCode.call (o := o) ((links.takeWhile Link.isBlank).map Link.blankText)
      ((links.reverse.takeWhile Link.isBlank).reverse.map Link.blankText) _ hne hfirst hlast
    rw [map_blank_blankText isBlank_of_mem_takeWhile, map_blank_blankText fun l hl =>
      isBlank_of_mem_takeWhile l (mem_reverse.mp hl), ← hlinks] at hcode
    rw [flatMap_def, flatMap_def (f := Link.blankText)]
    simpa only [append_assoc, cons_append] using hcode

/-! ### Groups as links -/

theorem merge_cons (p : Piece) (ps : List Piece) : merge (p :: ps) = attach p (merge ps) := rfl

/-- A piece in front of others does not see what is added behind them, unless two texts meet. -/
theorem attach_concat {p q : Piece} (h : ps ≠ [] ∨ ∀ u, q ≠ .text u) :
    attach p (ps ++ [q]) = attach p ps ++ [q] := by
  cases ps with
  | nil =>
    obtain hne | hq := h
    · exact absurd rfl hne
    · cases p <;> cases q <;> first | rfl | exact absurd rfl (hq _)
  | cons r ps => cases p <;> cases r <;> rfl

theorem merge_concat_expr (ps : List Piece) (e : Expr) :
    merge (ps ++ [.expr e]) = merge ps ++ [.expr e] := by
  induction ps with
  | nil => rfl
  | cons p ps ih =>
    rw [cons_append, merge_cons, ih]
    exact attach_concat (.inr nofun)

theorem pushText_text (u : Text) (b : Buffer) (ht : t ≠ []) :
    Buffer.pushText (.text u :: b) t = .text (u ++ t) :: b :=
  if_neg fun h => ht (List.isEmpty_iff.mp h)

theorem pushText_nil (ht : t ≠ []) : Buffer.pushText [] t = [.text t] :=
  if_neg fun h => ht (List.isEmpty_iff.mp h)

theorem pushText_cons {q : Piece} (hq : ∀ u, q ≠ .text u) (b : Buffer) (ht : t ≠ []) :
    Buffer.pushText (q :: b) t = .text t :: q :: b := by
  unfold Buffer.pushText
  rw [if_neg fun h => ht (List.isEmpty_iff.mp h)]
  split
  next heq => exact absurd (List.cons.inj heq).1 (hq _)
  · rfl

theorem pushText_pushText (b : Buffer) (t u : Text) :
    (b.pushText t).pushText u = b.pushText (t ++ u) := by
  by_cases ht : t = []
  · subst ht
    rfl
  by_cases hu : u = []
  · subst hu
    rw [append_nil]
    rfl
  have htu : t ++ u ≠ [] := append_ne_nil_of_left_ne_nil ht u
  cases b with
  | nil => rw [pushText_nil ht, pushText_text t [] hu, pushText_nil htu]
  | cons q b =>
    by_cases hq : ∃ v, q = .text v
    · obtain ⟨v, rfl⟩ := hq
      rw [pushText_text v b ht, pushText_text _ b hu, pushText_text v b htu, append_assoc]
    · have hother : ∀ v, q ≠ .text v := fun v hv => hq ⟨v, hv⟩
      rw [pushText_cons hother b ht, pushText_text t _ hu, pushText_cons hother b htu]

/-- Text that is added at the end joins the text there, whatever stands in front. -/
theorem attach_pushText (p : Piece) (b : Buffer) (ht : t ≠ []) :
    (attach p (b.pushText t).reverse).reverse = Buffer.pushText (attach p b.reverse).reverse t := by
  cases b with
  | nil =>
    rw [pushText_nil ht]
    cases p with
    | text u => exact (pushText_text u [] ht).symm
    | expr e => exact (pushText_cons (q := .expr e) nofun [] ht).symm
    | comment c => exact (pushText_cons (q := .comment c) nofun [] ht).symm
  | cons q b =>
    by_cases hq : ∃ u, q = .text u
    · obtain ⟨u, rfl⟩ := hq
      rw [pushText_text u b ht, reverse_cons, reverse_cons]
      by_cases hb : b = []
      · subst hb
        cases p with
        | text v =>
          show _ = Buffer.pushText [.text (v ++ u)] t
          rw [pushText_text _ _ ht, append_assoc]
          rfl
        | expr | comment => exact (pushText_text u _ ht).symm
      · have hne : b.reverse ≠ [] := mt reverse_eq_nil_iff.mp hb
        rw [attach_concat (.inl hne), attach_concat (.inl hne), reverse_concat,
          reverse_concat, pushText_text _ _ ht]
    · have hother : ∀ u, q ≠ .text u := fun u hu => hq ⟨u, hu⟩
      rw [pushText_cons hother b ht, reverse_cons, attach_concat (.inl (by simp)),
        reverse_cons, attach_concat (.inr hother), reverse_concat, reverse_concat,
        pushText_cons hother _ ht]

theorem merge_concat_text (ps : List Piece) (ht : t ≠ []) :
    (merge (ps ++ [.text t])).reverse = Buffer.pushText (merge ps).reverse t := by
  induction ps with
  | nil => exact (pushText_nil ht).symm
  | cons p ps ih =>
    rw [cons_append, merge_cons, merge_cons, ← reverse_reverse (merge (ps ++ _)), ih,
      attach_pushText p _ ht, reverse_reverse]

def pieces (group : List Contribution) : List Piece :=
  merge (group.filterMap Contribution.piece?)

theorem pieces_concat_text (group : List Contribution) (ht : t ≠ []) :
    (pieces (group ++ [.text t])).reverse = Buffer.pushText (pieces group).reverse t := by
  rw [pieces, filterMap_append]
  exact merge_concat_text _ ht

theorem pieces_concat_expr (group : List Contribution) (e : Expr) :
    (pieces (group ++ [.expr e])).reverse = .expr e :: (pieces group).reverse := by
  rw [pieces, filterMap_append]
  show (merge (_ ++ [Piece.expr e])).reverse = _
  rw [merge_concat_expr, reverse_concat]
  rfl

theorem merge_counts (h : ∀ p ∈ ps, p.counts = true) : ∀ p ∈ merge ps, p.counts = true := by
  induction ps with
  | nil => exact h
  | cons p ps ih =>
    have hp := h p mem_cons_self
    have hps := ih fun q hq => h q (mem_cons_of_mem _ hq)
    rw [merge_cons]
    unfold attach
    split
    next t u rest hmerge =>
      rw [hmerge] at hps
      refine forall_mem_cons.mpr ⟨?_, fun q hq => hps q (mem_cons_of_mem _ hq)⟩
      simp only [Piece.counts, Bool.not_eq_true', isEmpty_eq_false_iff] at hp ⊢
      exact append_ne_nil_of_left_ne_nil hp u
    · exact forall_mem_cons.mpr ⟨hp, hps⟩

theorem merge_ne_nil (h : ps ≠ []) : merge ps ≠ [] := by
  cases ps with
  | nil => exact absurd rfl h
  | cons p ps =>
    rw [merge_cons]
    unfold attach
    split <;> exact cons_ne_nil _ _

/-- Pieces of which none is empty are joined as they are. -/
theorem joinedValue?_of_counts (o : Output) (hne : ps ≠ []) (h : ∀ p ∈ ps, p.counts = true) :
    Piece.joinedValue? o true ps =
      some (watched o (ps.any Piece.isReactive) (joined o.dialect decodeEntities ps)) := by
  have hjoin : Piece.join? o.dialect true ps = some (joined o.dialect decodeEntities ps) := by
    unfold Piece.join? joined
    rw [filter_eq_self.mpr h]
    cases ps with
    | nil => exact absurd rfl hne
    | cons p ps => cases o.dialect <;> rfl
  rw [Piece.joinedValue?, hjoin]
  rfl

/-- Do all contributions belong to a text? -/
def IsGroup (group : List Contribution) : Prop :=
  ∀ c ∈ group, ∃ p, c.piece? = some p ∧ p.counts = true

theorem IsGroup.pieces_counts (h : IsGroup group) : ∀ p ∈ pieces group, p.counts = true := by
  refine merge_counts fun p hp => ?_
  obtain ⟨c, hc, hcp⟩ := mem_filterMap.mp hp
  obtain ⟨q, hcq, hq⟩ := h c hc
  cases hcp.symm.trans hcq
  exact hq

theorem IsGroup.pieces_ne_nil (h : IsGroup group) (hne : group ≠ []) : pieces group ≠ [] := by
  refine merge_ne_nil fun hnil => ?_
  obtain ⟨c, rest, rfl⟩ := exists_cons_of_ne_nil hne
  obtain ⟨p, hp, -⟩ := h c mem_cons_self
  cases hp.symm.trans (filterMap_eq_nil_iff.mp hnil c mem_cons_self)

theorem IsGroup.groupLink (h : IsGroup group) (o : Output) (trimmed : Bool) :
    groupLink o trimmed group = textLink o trimmed (pieces group) := by
  unfold TextDocument.groupLink
  split
  next l =>
    obtain ⟨p, hp, -⟩ := h (.link l) mem_cons_self
    cases hp
  · rfl

theorem IsGroup.currentLink? (h : IsGroup group) (hne : group ≠ []) (o : Output) {chain : Chain}
    (hdecode : chain.decode = true) (hcurrent : chain.current = (pieces group).reverse) :
    chain.currentLink? o = some (TextDocument.groupLink o chain.trimmed group) := by
  have hjoined := joinedValue?_of_counts o (h.pieces_ne_nil hne) h.pieces_counts
  rw [h.groupLink, Chain.currentLink?, hcurrent, hdecode]
  generalize pieces group = ps at hjoined
  unfold textLink
  split
  next t heq =>
    rw [reverse_eq_iff.mp heq] at hjoined ⊢
    rw [show [Piece.text t].reverse = [Piece.text t] from rfl] at hjoined ⊢
    rw [hjoined]
    dsimp only
    split <;> rfl
  next hother =>
    rw [Buffer.pieces, reverse_reverse, hjoined]
    split
    · exact absurd rfl (hother _)
    · rfl

theorem IsGroup.splitBy (h : IsGroup group) (hne : group ≠ []) :
    group.splitBy Contribution.sameGroup = [group] := by
  refine splitBy_of_isChain hne (isChain_iff_forall_rel_of_append_cons_cons.mpr ?_)
  intro a b front back hgroup
  have hpiece : ∀ c ∈ group, c.piece?.isSome = true := by
    intro c hc
    obtain ⟨p, hp, -⟩ := h c hc
    rw [hp]
    rfl
  rw [Contribution.sameGroup, hpiece a (by simp [hgroup]), hpiece b (by simp [hgroup])]
  rfl

/-- What a chain holds when it has been given a stretch: the links of its groups, but for the last
group, which may go on. -/
inductive Holds (o : Output) (trimmed : Bool) : List Contribution → Chain → Prop where
  | mk (done group : List Contribution) (hdone : ∀ c ∈ done.getLast?, c.piece? = none)
      (hgroup : IsGroup group) :
      Holds o trimmed (done ++ group)
        { trimmed
          decode := true
          current := (pieces group).reverse
          links := (done.splitBy Contribution.sameGroup).map (groupLink o trimmed) }

namespace Holds

variable {o : Output} {trimmed : Bool} {stretch : List Contribution} {chain : Chain}

theorem nil (o : Output) (trimmed : Bool) :
    Holds o trimmed [] { trimmed, decode := true } :=
  .mk [] [] nofun nofun

variable (h : Holds o trimmed stretch chain)
include h

theorem reset : { chain with current := [], links := [] } = ({ trimmed, decode := true } : Chain) := by
  obtain ⟨done, group, hdone, hgroup⟩ := h
  rfl

theorem text {t : Text} (ht : t ≠ []) :
    Holds o trimmed (stretch ++ [.text t]) (chain.pushText t) := by
  obtain ⟨done, group, hdone, hgroup⟩ := h
  rw [Chain.pushText, ← pieces_concat_text group ht, append_assoc]
  refine .mk done _ hdone fun c hc => ?_
  rcases mem_append.mp hc with hc | hc
  · exact hgroup c hc
  · rw [mem_singleton.mp hc]
    exact ⟨_, rfl, by rw [Piece.counts, isEmpty_eq_false_iff.mpr ht]; rfl⟩

theorem expr (e : Expr) : Holds o trimmed (stretch ++ [.expr e]) (chain.pushExpr e) := by
  obtain ⟨done, group, hdone, hgroup⟩ := h
  rw [Chain.pushExpr, ← pieces_concat_expr group e, append_assoc]
  refine .mk done _ hdone fun c hc => ?_
  rcases mem_append.mp hc with hc | hc
  · exact hgroup c hc
  · rw [mem_singleton.mp hc]
    exact ⟨_, rfl, rfl⟩

/-- The last group becomes a link when the chain is closed. -/
theorem addCurrent : chain.addCurrent o =
      { trimmed
        decode := true
        links := (stretch.splitBy Contribution.sameGroup).map (groupLink o trimmed) } := by
  obtain ⟨done, group, hdone, hgroup⟩ := h
  have hsplit : (done ++ group).splitBy Contribution.sameGroup =
      done.splitBy Contribution.sameGroup ++ group.splitBy Contribution.sameGroup := by
    refine splitBy_append fun a ha b _ => ?_
    rw [Contribution.sameGroup, hdone a ha]
    rfl
  rw [hsplit, map_append]
  by_cases hne : group = []
  · subst hne
    rfl
  · rw [hgroup.splitBy hne, Chain.addCurrent, hgroup.currentLink? hne o rfl rfl]
    rfl

theorem link (l : Link) : Holds o trimmed (stretch ++ [.link l]) (chain.pushLink o l) := by
  have hsplit : (stretch ++ [Contribution.link l]).splitBy Contribution.sameGroup =
      stretch.splitBy Contribution.sameGroup ++ [[.link l]] :=
    splitBy_append_cons [] fun a _ => Bool.and_false _
  have hlinks := congrArg (map (groupLink o trimmed)) hsplit
  rw [map_append] at hlinks
  rw [Chain.pushLink, h.addCurrent]
  have hlast : ∀ c ∈ (stretch ++ [Contribution.link l]).getLast?, c.piece? = none := by
    rw [getLast?_concat]
    rintro _ ⟨⟩
    rfl
  have hmk : Holds o trimmed (stretch ++ [.link l] ++ []) _ := .mk _ [] hlast nofun
  rw [append_nil, hlinks] at hmk
  exact hmk

end Holds

/-! ### Stretches as code -/

def Contribution.counts (c : Contribution) : Prop :=
  ∀ p, c.piece? = some p → p.counts = true

theorem splitBy_stretch {stretch : List Contribution} (hne : stretch ≠ [])
    (h : ∀ c ∈ stretch, c.isCall = false) : stretch.splitBy Contribution.sameChain = [stretch] := by
  refine splitBy_of_isChain hne (isChain_iff_forall_rel_of_append_cons_cons.mpr ?_)
  intro a b front back hstretch
  rw [Contribution.sameChain, h a (by simp [hstretch]), h b (by simp [hstretch])]
  rfl

theorem Holds.code {o : Output} {trimmed : Bool} {stretch : List Contribution} {chain : Chain}
    (h : Holds o trimmed stretch chain) (hstretch : ∀ c ∈ stretch, c.isCall = false) :
    ∃ codes, List.Forall₂ (Code o trimmed) (stretch.splitBy Contribution.sameChain) codes ∧
      Link.render o (chain.addCurrent o).links = codes.flatten := by
  rw [h.addCurrent]
  by_cases hne : stretch = []
  · subst hne
    exact ⟨[], .nil, rfl⟩
  · rw [splitBy_stretch hne hstretch]
    refine ⟨[_], .cons (.chain hstretch (render_code _ _)) .nil, ?_⟩
    rw [flatten_singleton]

/-- Contributions one by one give the code of their stretches. -/
theorem Holds.spell {o : Output} {trimmed : Bool} {cs : List Contribution} :
    ∀ {stretch : List Contribution} {chain : Chain}, Holds o trimmed stretch chain →
      (∀ c ∈ stretch, c.isCall = false) → (∀ c ∈ cs, c.counts) →
      ∃ codes, List.Forall₂ (Code o trimmed) ((stretch ++ cs).splitBy Contribution.sameChain) codes ∧
        spell o chain cs = codes.flatten := by
  induction cs with
  | nil =>
    intro stretch chain h hstretch _
    rw [append_nil]
    exact h.code hstretch
  | cons c cs ih =>
    intro stretch chain h hstretch hcs
    obtain ⟨hc, hrest⟩ := forall_mem_cons.mp hcs
    -- a contribution that is no call makes the stretch longer
    have hlonger (chain' : Chain) (hchain' : Holds o trimmed (stretch ++ [c]) chain')
        (hcall : c.isCall = false) := ih hchain' (forall_mem_append.mpr
          ⟨hstretch, forall_mem_singleton.mpr hcall⟩) hrest
    rw [append_assoc] at hlonger
    cases c with
    | text t =>
      have ht : t ≠ [] := by
        have hcount := hc _ rfl
        rwa [Piece.counts, Bool.not_eq_true', isEmpty_eq_false_iff] at hcount
      exact hlonger _ (h.text ht) rfl
    | expr e => exact hlonger _ (h.expr e) rfl
    | link l => exact hlonger _ (h.link l) rfl
    | call code =>
      obtain ⟨codes, hcodes, hrender⟩ := h.code hstretch
      obtain ⟨more, hmore, hspell⟩ := ih (.nil o trimmed) nofun hrest
      refine ⟨codes ++ code :: more, ?_, ?_⟩
      · rw [splitBy_append_cons cs fun a _ => Bool.and_false _, ← singleton_append,
          splitBy_append fun a ha b _ => by cases ha; rfl]
        exact rel_append hcodes (.cons (.element code) hmore)
      · rw [TextDocument.spell, feed, h.reset, hspell, hrender]
        simp only [flatten_append, flatten_cons, append_assoc]

theorem spell_code (o : Output) (trimmed : Bool) {cs : List Contribution}
    (hcs : ∀ c ∈ cs, c.counts) :
    ∃ codes, List.Forall₂ (Code o trimmed) (cs.splitBy Contribution.sameChain) codes ∧
      spell o { trimmed, decode := true } cs = codes.flatten :=
  (Holds.nil o trimmed).spell nofun hcs

end TextDocument
end Patchwork
