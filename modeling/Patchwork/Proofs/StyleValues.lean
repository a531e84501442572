import Patchwork.Proofs.BoundReads
import Patchwork.Proofs.ListValues
import Patchwork.Proofs.StyleCuts

/-!
# List values in stylesheets

The value of a declaration may be a list such as `1px -2px`, which is no arithmetic. Whether a list is
taken for arithmetic depends on how its text is cut into pieces, and a stylesheet cuts it at percent
signs and expressions (`Cut`). What a declaration keeps of its pieces for its value is cut in the same
way (`cut_of_declaration`), so `IsList.isSome_parse?` speaks of every list in a document.

Main result: `list_value_arithmetic_iff`. A list is taken for arithmetic if an operator can be seen
between each two of its components: the percent sign of the first or the sign of an expression that
comes second. `percentage_list_computed` is a list of two lengths for which this is so.
-/

namespace Patchwork

open Compile Lexeme List Text Bool StyleStatement Buffer

namespace Piece

def hasColon : Piece → Bool
  | text t => t.contains ':'
  | _ => false

def comment? : Piece → Option Text
  | comment c => some c
  | text _ | expr _ => none

end Piece

namespace StyleStatement

/-! ## Blanks at the ends -/

theorem trimBack_append (xs ys : List Piece) :
    trimBack (xs ++ ys) = if trimBack xs = [] then trimBack ys else trimBack xs ++ ys := by
  induction xs with
  | nil => rfl
  | cons p xs ih =>
    cases p with
    | text t =>
      cases ht : Text.trimEnd t with
      | nil => simpa [trimBack, ht] using ih
      | cons c u => simp [trimBack, ht]
    | expr | comment => rfl

theorem trimEnd_append (xs ys : List Piece) :
    trimEnd (xs ++ ys) = if trimEnd ys = [] then trimEnd xs else xs ++ trimEnd ys := by
  unfold trimEnd
  rw [reverse_append, trimBack_append]
  simp only [reverse_eq_nil_iff]
  split
  · rfl
  · rw [reverse_append, reverse_reverse]

/-- Shorten the first text with `f`, and drop it if nothing is left of it. -/
def trimHead (f : Text → Text) : List Piece → List Piece
  | .text t :: ps =>
    match f t with
    | [] => trimHead f ps
    | t => .text t :: ps
  | ps => ps

theorem trimBack_eq (ps : List Piece) : trimBack ps = trimHead Text.trimEnd ps := by
  induction ps with
  | nil => rfl
  | cons p ps ih =>
    cases p with
    | text t => cases ht : Text.trimEnd t <;> simp [trimBack, trimHead, ht, ih]
    | expr | comment => rfl

section

variable {ps : List Piece} {f : Text → Text} {p : Piece}

/-- A piece that is left was there before, or it was a longer text. -/
theorem mem_trimHead (hp : p ∈ trimHead f ps) :
    p ∈ ps ∨ ∃ t, .text t ∈ ps ∧ p = .text (f t) := by
  induction ps with
  | nil => exact .inl hp
  | cons q ps ih =>
    cases q with
    | text t =>
      unfold trimHead at hp
      split at hp
      · refine (ih hp).imp (mem_cons_of_mem _) fun ⟨u, hu, heq⟩ => ?_
        exact ⟨u, mem_cons_of_mem _ hu, heq⟩
      · rcases mem_cons.mp hp with rfl | hp
        · exact .inr ⟨t, mem_cons_self, rfl⟩
        · exact .inl (mem_cons_of_mem _ hp)
    | expr | comment => exact .inl hp

theorem mem_trimEnd (hp : p ∈ trimEnd ps) :
    p ∈ ps ∨ ∃ t, .text t ∈ ps ∧ p = .text (Text.trimEnd t) := by
  rw [trimEnd, mem_reverse, trimBack_eq] at hp
  simpa using mem_trimHead hp

theorem isBlank_of_trimHead (hf : ∀ t, allBlank (f t) = true → allBlank t = true)
    (h : ∀ p ∈ trimHead f ps, p.isBlank = true) : ∀ p ∈ ps, p.isBlank = true := by
  induction ps with
  | nil => exact nofun
  | cons p ps ih =>
    cases p with
    | text t =>
      unfold trimHead at h
      split at h
      next hempty => exact forall_mem_cons.mpr ⟨hf t (hempty ▸ rfl), ih h⟩
      · obtain ⟨ht, hps⟩ := forall_mem_cons.mp h
        exact forall_mem_cons.mpr ⟨hf t ht, hps⟩
    | expr | comment => exact h

end

end StyleStatement

/-! ## Pieces that are cut -/

theorem Text.exists_eq_trimEnd_append (t : Text) :
    ∃ blanks, t = Text.trimEnd t ++ blanks ∧ ∀ c ∈ blanks, Text.isBlank c = true :=
  ⟨Text.blankEnd t, t.trimEnd_append_blankEnd.symm, all_eq_true.mp t.allBlank_blankEnd⟩

theorem Lexeme.isQuote_of_isBlank {c : Char} (hc : Text.isBlank c = true) : isQuote c = false := by
  refine eq_false_iff.mpr fun hquote => ?_
  simp only [isQuote, or_eq_true, beq_iff_eq] at hquote
  rcases hquote with (rfl | rfl) | rfl <;> cases hc

theorem Buffer.IsCut.trimBack {b : Buffer} (h : b.IsCut) :
    Buffer.IsCut (StyleStatement.trimBack b) := by
  induction b with
  | nil => exact h
  | cons p b ih =>
    cases p with
    | text t =>
      obtain ⟨blanks, ht, hblanks⟩ := exists_eq_trimEnd_append t
      cases htrim : Text.trimEnd t with
      | nil =>
        rw [StyleStatement.trimBack, htrim]
        refine ih ⟨fun u hu => h.quoted u (mem_cons_of_mem _ hu), ?_⟩
        exact (isChain_cons.mp h.breaks).2
      | cons c u =>
        rw [StyleStatement.trimBack, htrim]
        rw [htrim] at ht
        have hquoted : Quoted '%' (u ++ blanks) := by
          have htail := h.quoted t mem_cons_self
          rw [ht] at htail
          exact htail
        refine h.replace ?_ fun d _ hlast => ?_
        · exact hquoted.of_append_left fun d hd => isQuote_of_isBlank (hblanks d hd)
        · rw [ht] at hlast
          exact hlast
    | expr | comment => exact h

namespace Cut

variable {a b ps : List Piece}

theorem of_append_right (h : Cut (a ++ b)) : Cut b where
  quoted t ht := h.quoted t (mem_append_right a ht)
  breaks := h.breaks.right_of_append

theorem trimEnd (h : Cut ps) : Cut (StyleStatement.trimEnd ps) := by
  have hcut : Buffer.IsCut ps.reverse := by
    refine isCut_iff.mpr ?_
    rw [Buffer.pieces, reverse_reverse]
    exact h
  exact isCut_iff.mp hcut.trimBack

theorem trimFront (h : Cut ps) : Cut (trimHead trimStart ps) := by
  induction ps with
  | nil => exact h
  | cons p ps ih =>
    have hps : Cut ps := of_append_right (a := [p]) h
    cases p with
    | text t =>
      unfold trimHead
      split
      · exact ih hps
      next hnonempty =>
        have hsuffix : trimStart t <:+ t := dropWhile_suffix _
        obtain ⟨front, ht⟩ := hsuffix
        refine ⟨fun u hu => ?_, ?_⟩
        · rcases mem_cons.mp hu with heq | hu
          · obtain rfl : u = trimStart t := Piece.text.inj heq
            have hquoted := h.quoted t mem_cons_self
            rw [← ht] at hquoted
            cases front with
            | nil => exact hquoted
            | cons c front =>
              have hall : Quoted '%' (trimStart t) := hquoted.of_append_right
              cases htrim : trimStart t with
              | nil => exact .of_not_mem nofun
              | cons d u =>
                rw [htrim] at hall
                exact hall.of_append_right (t := [d])
          · exact hps.quoted u hu
        · refine isChain_cons.mpr ⟨fun q hq => ?_, hps.breaks⟩
          intro u v _ hv
          exact (isChain_cons.mp h.breaks).1 q hq t v rfl hv
    | expr | comment => exact h

end Cut

namespace StyleStatement

/-! ## The pieces of a statement -/

variable {ps key value : List Piece}

/-- The body is what is no comment, without the blanks in front of it. -/
theorem body_foldl (ps : List Piece) (parts : Parts) : (ps.foldl Parts.add parts).body =
    if parts.body = [] then trimHead trimStart (ps.filter (·.comment?.isNone))
    else parts.body ++ ps.filter (·.comment?.isNone) := by
  induction ps generalizing parts with
  | nil => obtain ⟨_, _ | _, _⟩ := parts <;> simp [trimHead]
  | cons p ps ih =>
    rw [foldl_cons, ih]
    cases p with
    | comment c => rfl
    | expr e =>
      by_cases hbody : parts.body = [] <;> simp [Parts.add, hbody, Piece.comment?, trimHead]
    | text t =>
      by_cases hbody : parts.body = []
      · cases ht : trimStart t <;> simp [Parts.add, hbody, ht, Piece.comment?, trimHead]
      · simp [Parts.add, hbody, Piece.comment?]

theorem body_split (ps : List Piece) :
    (split ps).body = trimEnd (trimHead trimStart (ps.filter (·.comment?.isNone))) :=
  congrArg trimEnd (body_foldl ps {})

theorem hasColon_of_trimStart {t : Text} (h : (Piece.text t).hasColon = false) :
    (Piece.text (trimStart t)).hasColon = false := by
  refine eq_false_iff.mpr fun hcolon => eq_false_iff.mp h ?_
  exact contains_iff_mem.mpr ((dropWhile_sublist _).mem (contains_iff_mem.mp hcolon))

theorem hasColon_of_trimEnd {t : Text} (h : (Piece.text t).hasColon = false) :
    (Piece.text (Text.trimEnd t)).hasColon = false := by
  obtain ⟨blanks, ht, -⟩ := exists_eq_trimEnd_append t
  refine eq_false_iff.mpr fun hcolon => eq_false_iff.mp h ?_
  refine contains_iff_mem.mpr ?_
  rw [ht]
  exact mem_append_left _ (contains_iff_mem.mp hcolon)

/-- Where a declaration is divided. -/
theorem splitAtColon_eq : ∀ {before : List Piece},
    splitAtColon before ps = some (key, value) →
      ∃ front t back, ps = front ++ .text t :: back ∧ t.contains ':' = true ∧
        value = textPiece (trimStart ((t.dropWhile (· != ':')).drop 1)) ++ back := by
  induction ps with
  | nil => exact nofun
  | cons p ps ih =>
    intro before h
    have hmore : ∀ {before'}, splitAtColon before' ps = some (key, value) →
        ∃ front t back, p :: ps = front ++ .text t :: back ∧ t.contains ':' = true ∧
          value = textPiece (trimStart ((t.dropWhile (· != ':')).drop 1)) ++ back := by
      intro before' h'
      obtain ⟨front, t, back, rfl, ht, hvalue⟩ := ih h'
      exact ⟨p :: front, t, back, rfl, ht, hvalue⟩
    cases p with
    | text t =>
      unfold splitAtColon at h
      split at h
      next k v hsplit =>
        unfold splitOnce? at hsplit
        split at hsplit
        next hcolon =>
          cases hsplit
          dsimp only at h
          split at h
          · cases h
          cases h
          exact ⟨[], t, ps, rfl, hcolon, rfl⟩
        · cases hsplit
      · exact hmore h
    | expr | comment => exact hmore h

theorem declaration?_eq (h : declaration? ps = some (key, value)) :
    splitAtColon [] ps = some (key, value) := by
  unfold declaration? at h
  split at h
  · cases h
  · exact h

theorem comment_not_mem_trimEnd (hps : ∀ c, .comment c ∉ ps) (c : Text) :
    .comment c ∉ trimEnd ps := fun hc => by
  rcases mem_trimEnd hc with hc | ⟨t, -, heq⟩
  · exact hps c hc
  · cases heq

theorem comment_not_mem_trimFront (hps : ∀ c, .comment c ∉ ps) (c : Text) :
    .comment c ∉ trimHead trimStart ps := fun hc => by
  rcases mem_trimHead hc with hc | ⟨t, -, heq⟩
  · exact hps c hc
  · cases heq

/-- A declaration is divided at a text from which on its pieces are cut as they were when they were
read, if no comment stands behind its colon. -/
theorem cut_of_declaration {front back : List Piece} (hcut : Cut (front ++ back))
    (hfront : ∀ p ∈ front, p.hasColon = false) (hback : ∀ c, .comment c ∉ back)
    (hdecl : declaration? (split (front ++ back)).body = some (key, value)) :
    ∃ t after, value = textPiece (trimStart ((t.dropWhile (· != ':')).drop 1)) ++ after ∧
      t.contains ':' = true ∧ Cut (.text t :: after) ∧ ∀ c, .comment c ∉ after := by
  obtain ⟨before, t, after, hbody, hcolon, hvalue⟩ := splitAtColon_eq (declaration?_eq hdecl)
  refine ⟨t, after, hvalue, hcolon, ?_⟩
  -- it is enough to find the rest of the declaration at the end of pieces that are cut
  suffices hfound : ∃ ps others, ps = others ++ .text t :: after ∧ Cut ps ∧ ∀ c, .comment c ∉ ps by
    obtain ⟨_, others, rfl, hps, hcomments⟩ := hfound
    refine ⟨hps.of_append_right, fun c hc => hcomments c ?_⟩
    exact mem_append_right _ (mem_cons_of_mem _ hc)
  have hcutBack := hcut.of_append_right
  have hbody : trimEnd (back.foldl Parts.add (front.foldl Parts.add {})).body =
      before ++ .text t :: after := by
    rw [← foldl_append]
    exact hbody
  have hnoColon : ∀ p ∈ (front.foldl Parts.add {}).body, p.hasColon = false := by
    intro p hp
    rw [body_foldl, if_pos rfl] at hp
    rcases mem_trimHead hp with hp | ⟨u, hu, rfl⟩
    · exact hfront p (mem_of_mem_filter hp)
    · exact hasColon_of_trimStart (hfront _ (mem_of_mem_filter hu))
  have hkept : back.filter (·.comment?.isNone) = back := by
    refine filter_eq_self.mpr fun p hp => ?_
    cases p with
    | comment c => exact absurd hp (hback c)
    | text | expr => rfl
  generalize front.foldl Parts.add {} = parts at hbody hnoColon
  rw [body_foldl, hkept] at hbody
  split at hbody
  · exact ⟨_, before, hbody, hcutBack.trimFront.trimEnd,
      comment_not_mem_trimEnd (comment_not_mem_trimFront hback)⟩
  · rw [trimEnd_append] at hbody
    have hcolon : (Piece.text t).hasColon = true := hcolon
    split at hbody
    · -- the pieces before the colon have none
      have hmem : .text t ∈ trimEnd parts.body := by
        rw [hbody]
        exact mem_append_right _ mem_cons_self
      rcases mem_trimEnd hmem with hmem | ⟨u, hu, heq⟩
      · rw [hnoColon _ hmem] at hcolon
        cases hcolon
      · rw [heq, hasColon_of_trimEnd (hnoColon _ hu)] at hcolon
        cases hcolon
    · refine ⟨trimEnd back, ?_⟩
      have hback' := comment_not_mem_trimEnd hback
      have hnot : Piece.text t ∉ parts.body := by
        intro hmem
        rw [hnoColon _ hmem] at hcolon
        cases hcolon
      obtain ⟨others, -, heq⟩ := exists_append_of_not_mem hbody hnot
      exact ⟨others, heq, hcutBack.trimEnd, hback'⟩

end StyleStatement

namespace Style

/-! ## The characters of a list -/

def inList (c : Char) : Bool :=
  Text.isBlank c || Decimal.Numeral.isSign c || isWordPart c || c == '%'

/-- Of the characters that texts are cut at only the percent sign stands in lists. -/
theorem eq_percent_of_inList {d : Char} (hd : d ∈ Stylesheet.breakpoints) (hlist : inList d = true) :
    d = '%' := by
  have hall : Stylesheet.breakpoints.all (fun d => !inList d || d == '%') = true := by decide
  simpa [hlist] using all_eq_true.mp hall d hd

theorem Component.inList_of_mem {component : Component} (hformed : component.isFormed = true)
    {c : Char} (hc : .char c ∈ component.atoms) : inList c = true := by
  have hblank : ∀ {d}, Text.isBlank d = true → inList d = true := fun h => by simp [inList, h]
  have hsign : ∀ {d}, Decimal.Numeral.isSign d = true → inList d = true := fun h => by
    simp [inList, h]
  have hpart : ∀ {d}, isWordPart d = true → inList d = true := fun h => by simp [inList, h]
  have hchar : ∀ {t : Text}, .char c ∈ t.map Atom.char → c ∈ t := by simp
  obtain ⟨gap, sign, body, percent⟩ := component
  obtain ⟨hgap, hbody⟩ := and_eq_true_iff.mp hformed
  rcases mem_append.mp hc with hc | hc
  · rcases mem_append.mp (hchar hc) with hc | hc
    · exact hblank (all_eq_true.mp hgap c hc)
    · rcases sign with _ | _ | _
      · cases hc
      · rw [mem_singleton.mp hc]
        rfl
      · rw [mem_singleton.mp hc]
        rfl
  rcases mem_append.mp hc with hc | hc
  · cases body with
    | number t =>
      have hc := hchar hc
      obtain _ | ⟨d, t⟩ := t
      · cases hc
      obtain ⟨hd, ht⟩ := and_eq_true_iff.mp hbody
      rcases mem_cons.mp hc with rfl | hc
      · exact hpart (isWordPart_of_startsDigit hd)
      · exact (Formula.isWordPart_or_isSign ht c hc).elim hpart hsign
    | interpolation e letters =>
      have hc := hchar ((mem_cons.mp hc).resolve_left nofun)
      exact hpart (all_eq_true.mp hbody c hc)
  · have hc : c = '%' := by
      split at hc
      · exact Atom.char.inj (mem_singleton.mp hc)
      · cases hc
    rw [hc]
    rfl

theorem char_mem_atoms {ps : List Piece} {t : Text} {c : Char} (ht : .text t ∈ ps) (hc : c ∈ t) :
    .char c ∈ atoms ps := by
  induction ps with
  | nil => cases ht
  | cons p ps ih =>
    rcases mem_cons.mp ht with rfl | hmem
    · exact mem_append_left _ (mem_map_of_mem hc)
    · cases p with
      | text u => exact mem_append_right _ (ih hmem)
      | expr e => exact mem_cons_of_mem _ (ih hmem)
      | comment d => exact ih hmem

namespace IsList

variable {cs : List Component} {value : List Piece}

variable {t : Text}

theorem inList_of_mem (h : IsList cs value) (ht : .text t ∈ value) {c : Char} (hc : c ∈ t) :
    inList c = true := by
  have hmem := char_mem_atoms ht hc
  rw [h.spelled] at hmem
  obtain ⟨component, hcomponent, hmem⟩ := mem_flatMap.mp hmem
  exact component.inList_of_mem (h.formed component hcomponent) hmem

/-- There are no strings in a list, so a percent sign in it is not inside of one. -/
theorem not_mem_of_quoted (h : IsList cs value) {u : Text} (ht : .text t ∈ value) (hu : u ⊆ t)
    (hquoted : Quoted '%' u) : '%' ∉ u := fun hmem => by
  obtain ⟨front, back, heq⟩ := append_of_mem hmem
  obtain ⟨q, hq, hquote⟩ := hquoted front back heq
  have hlist : inList q = true :=
    h.inList_of_mem ht (hu (heq ▸ mem_append_right _ (mem_cons_of_mem _ hq)))
  simp only [isQuote, or_eq_true, beq_iff_eq] at hquote
  rcases hquote with (rfl | rfl) | rfl <;> cases hlist

theorem percentFirst {after : List Piece} (h : IsList cs value)
    (hvalue : value = StyleStatement.textPiece (trimStart ((t.dropWhile (· != ':')).drop 1)) ++
      after) (hcut : Cut (.text t :: after)) (hcomments : ∀ c, .comment c ∉ after) :
    Formula.PercentFirst value := by
  -- what follows the colon lies behind the first character of its text
  have hbehind : ∃ front, t.tail = front ++ trimStart ((t.dropWhile (· != ':')).drop 1) := by
    have hdrop : (t.dropWhile (· != ':')).drop 1 <:+ t.tail := by
      cases t with
      | nil => exact nil_suffix
      | cons c t =>
        rw [dropWhile_cons]
        split
        · exact (drop_suffix 1 _).trans (dropWhile_suffix _)
        · exact suffix_refl t
    obtain ⟨front, hfront⟩ := (dropWhile_suffix Text.isBlank).trans hdrop
    exact ⟨front, hfront.symm⟩
  generalize trimStart ((t.dropWhile (· != ':')).drop 1) = v at hvalue hbehind
  have hafter : ∀ p ∈ after, p ∈ value := fun p hp => by
    rw [hvalue]
    exact mem_append_right _ hp
  have hquotedV : Quoted '%' v := by
    obtain ⟨front, hfront⟩ := hbehind
    have hquoted := hcut.quoted t mem_cons_self
    rw [hfront] at hquoted
    exact hquoted.of_append_right
  have hhead : ∀ u, .text u ∈ after → ∀ d ∈ Stylesheet.breakpoints, u.head? = some d →
      u.head? = some '%' := by
    intro u hu d hd hhead
    have hlist : inList d = true := h.inList_of_mem (hafter _ hu) (mem_of_mem_head? hhead)
    rw [hhead, eq_percent_of_inList hd hlist]
  have hmem : ∀ {u}, .text u ∈ value → u = v ∨ .text u ∈ after := by
    intro u hu
    rw [hvalue, StyleStatement.textPiece] at hu
    rcases mem_append.mp hu with hu | hu
    · split at hu
      · cases hu
      · exact .inl (Piece.text.inj (mem_singleton.mp hu))
    · exact .inr hu
  have hchain : (Piece.text v :: after).IsChain fun p q =>
      ∀ t u, p = .text t → q = .text u → u.head? = some '%' := by
    have hbreaks : (Piece.text v :: after).IsChain Piece.Breaks := by
      obtain ⟨hfirst, hrest⟩ := isChain_cons.mp hcut.breaks
      refine isChain_cons.mpr ⟨fun q hq => ?_, hrest⟩
      exact fun _ u _ hu => hfirst q hq t u rfl hu
    refine hbreaks.imp_of_mem_tail_imp fun p q _ hq hpq x u hx hu => ?_
    obtain ⟨d, hd, hfirst⟩ := hpq x u hx hu
    rw [hu] at hq
    exact hhead u hq d hd hfirst
  refine ⟨fun u hu => ?_, ?_, fun c hc => ?_⟩
  · rcases hmem hu with rfl | hu'
    · have hnone := h.not_mem_of_quoted hu (List.Subset.refl _) hquotedV
      exact fun hp => hnone (mem_of_mem_tail hp)
    · exact h.not_mem_of_quoted hu (fun _ => mem_of_mem_tail)
        (hcut.quoted u (mem_cons_of_mem _ hu'))
  · rw [hvalue, StyleStatement.textPiece]
    split
    · exact hchain.of_cons
    · exact hchain
  · rw [hvalue, StyleStatement.textPiece] at hc
    rcases mem_append.mp hc with hc | hc
    · split at hc
      · cases hc
      · cases mem_singleton.mp hc
    · exact hcomments c hc

end IsList
end Style

/-! ## Declarations -/

namespace Stylesheet

/-- The statement that a stylesheet has read when it comes to the next character that needs a
look. -/
def statementAhead? (r : Stylesheet) (s : Session) : Option (List Piece) :=
  match Scan.find (breakpoints ++ r.statements.breakpoints) false false s.cursor with
  | .ok found _ => some (r.buffer.pieces.pushText found.before).pieces
  | .error .. => none

theorem cut_statementAhead? {r : Stylesheet} {s : Session} {ps : List Piece}
    (hr : r.buffer.IsCut) (h : r.statementAhead? s = some ps) : Cut ps := by
  unfold statementAhead? at h
  split at h
  next found cursor hfind =>
    cases h
    exact isCut_iff.mp (find_isCut hr hfind)
  · cases h

variable {value : List Piece}

theorem declarationValue_plain (span : Span) (s : Session)
    (h : (Style.Formula.parse? value).filter Style.Calc.needsArithmetic = none) :
    declarationValue value span s = .ok ((plain s.output value, Piece.staticText? value), s) := by
  unfold declarationValue
  rw [h]
  rfl

theorem spread?_of_declaration {body key : List Piece}
    (h : StyleStatement.declaration? body = some (key, value)) :
    StyleStatement.spread? body = none := by
  obtain ⟨front, t, back, rfl, -⟩ :=
    splitAtColon_eq (declaration?_eq h)
  cases front with
  | nil => rfl
  | cons p front => cases p <;> cases front <;> rfl

/-- A declaration whose value is not computed is written with its value as it stands. Without expressions
it is also added to the sheet, as long as the region folds. -/
theorem writeDeclaration_plain (r : Stylesheet) (key : List Piece) (span : Span) (s : Session)
    (h : (Style.Formula.parse? value).filter Style.Calc.needsArithmetic = none) :
    ∃ r', r.writeDeclaration key value span s = .ok (r', { s with
      output := s.output.add (r.current.var ++ ".value(" ++ plain s.output key ++ ", " ++
        plain s.output value ++ ");") }) ∧
      ∀ name text, r.folds = true → Piece.staticText? key = some name →
        Piece.staticText? value = some text →
          r' = { r with sheet := r.sheet.value r.current.scope name text } := by
  unfold writeDeclaration
  rw [bind_apply, joined_eq]
  dsimp only
  rw [bind_apply, declarationValue_plain span s h]
  dsimp only
  rw [bind_apply]
  cases Piece.staticText? value with
  | none => exact ⟨_, rfl, nofun⟩
  | some text =>
    cases Piece.staticText? key with
    | none => exact ⟨_, rfl, nofun⟩
    | some name =>
      cases r.folds with
      | false => exact ⟨_, rfl, nofun⟩
      | true =>
        refine ⟨_, rfl, ?_⟩
        rintro _ _ - ⟨⟩ ⟨⟩
        rfl

theorem endStatement_plain {r : Stylesheet} {key : List Piece} (stop : Nat) (s : Session)
    (hdecl : StyleStatement.declaration? (StyleStatement.split r.buffer.pieces.pieces).body =
      some (key, value)) (h : (Style.Formula.parse? value).filter Style.Calc.needsArithmetic = none) :
    ∃ r' copied, r.endStatement stop s = .ok (r', { s with
      output := (s.output.add copied).add (r.current.var ++ ".value(" ++ plain s.output key ++ ", " ++
        plain s.output value ++ ");") }) ∧
      ∀ name text, r.folds = true → Piece.staticText? key = some name →
        Piece.staticText? value = some text →
          r' = { r with buffer := {}, sheet := r.sheet.value r.current.scope name text } := by
  have hbody : (StyleStatement.split r.buffer.pieces.pieces).body.isEmpty = false := by
    obtain ⟨front, t, back, heq, -⟩ :=
      splitAtColon_eq (declaration?_eq hdecl)
    rw [heq]
    cases front <;> rfl
  unfold endStatement
  rw [bind_apply, takeStatement_eq, taken]
  generalize (StyleStatement.split r.buffer.pieces.pieces).leading ++ _ = copied
  dsimp only
  rw [hbody, spread?_of_declaration hdecl, hdecl]
  obtain ⟨r', hr', hsheet⟩ := writeDeclaration_plain { r with buffer := {} } key
    ⟨r.buffer.start.getD stop, stop⟩ { s with output := s.output.add copied } h
  have hplain : ∀ t ps, plain (s.output.add t) ps = plain s.output ps := fun t ps => by
    show plain (s.output.add t).fork ps = plain s.output.fork ps
    rw [Output.fork_add]
  simp only [hplain] at hr'
  exact ⟨r', _, hr', hsheet⟩

end Stylesheet

namespace Document

/-- A stylesheet in a document has read a declaration, with comments only before its colon, whose
value is a list of two or more components. The value is arithmetic exactly if the components are
operands with an operator between each two of them. It is computed if a component is moreover an
expression or has a unit, and otherwise it is written as it stands. -/
theorem list_value_arithmetic_iff {registry : Registry} {settings : Settings} {source : Text}
    {n : Nat} {r : Stylesheet} {s : Session} {front back key value : List Piece}
    {cs : List Style.Component}
    (hn : stylesheetAfter registry settings source n = some (r, s))
    (hread : r.statementAhead? s = some (front ++ back))
    (hfront : ∀ p ∈ front, p.hasColon = false) (hback : ∀ c, .comment c ∉ back)
    (hdecl : StyleStatement.declaration? (StyleStatement.split (front ++ back)).body =
      some (key, value))
    (hlist : Style.IsList cs value) (htwo : 2 ≤ cs.length) :
    ((Style.Formula.parse? value).isSome = true ↔ Style.IsArithmetic cs) ∧
    (∀ formula, Style.Formula.parse? value = some formula →
      formula.needsArithmetic = cs.any Style.Component.isMeasured) ∧
    (¬(Style.IsArithmetic cs ∧ cs.any Style.Component.isMeasured = true) →
      ∀ (r' : Stylesheet) (stop : Nat) (s' : Session), r'.buffer.pieces.pieces = front ++ back →
        ∃ r'' copied, r'.endStatement stop s' = .ok (r'', { s' with
          output := (s'.output.add copied).add (r'.current.var ++ ".value(" ++
            Stylesheet.plain s'.output key ++ ", " ++ Stylesheet.plain s'.output value ++ ");") })) := by
  have hcut : Cut (front ++ back) :=
    Stylesheet.cut_statementAhead? (isCut_stylesheetAfter hn) hread
  obtain ⟨t, after, hvalue, -, hcutAfter, hcomments⟩ :=
    StyleStatement.cut_of_declaration hcut hfront hback hdecl
  have hfirst := hlist.percentFirst hvalue hcutAfter hcomments
  have hsome := hlist.isSome_parse? hfirst (List.ne_nil_of_length_pos (by omega))
  have hneeds := fun formula => hlist.needsArithmetic_eq hfirst htwo (e := formula)
  refine ⟨hsome, hneeds, fun hnot r' stop s' hr' => ?_⟩
  rw [← hr'] at hdecl
  refine (Stylesheet.endStatement_plain stop s' hdecl ?_).imp fun _ h => h.imp fun _ h => h.1
  cases hparse : Style.Formula.parse? value with
  | none => rfl
  | some formula =>
    refine Option.filter_eq_none_iff.mpr ?_
    rintro _ ⟨⟩ hmeasured
    rw [hneeds formula hparse] at hmeasured
    exact hnot ⟨hsome.mp (hparse ▸ rfl), hmeasured⟩

theorem list_value_arithmetic_iff_signed :
    ∃ r s value, stylesheetAfter .standard {} "<style>.a \x7b margin: 5% -$\x7bb\x7d; \x7d</style>" 5 =
        some (r, s) ∧
      (r.statementAhead? s).bind
        (fun ps => StyleStatement.declaration? (StyleStatement.split ps).body) =
          some ([.text "margin"], value) ∧
      ((Style.Formula.parse? value).isSome = true ↔
        Style.IsArithmetic [⟨[], none, .number "5", true⟩,
          ⟨" ", some .minus, .interpolation ⟨"b", false⟩ [], false⟩]) := by
  have hrun : ((stylesheetAfter .standard {} "<style>.a \x7b margin: 5% -$\x7bb\x7d; \x7d</style>" 5).any
      fun start => start.1.statementAhead? start.2 = some [.text " margin: 5", .text "% -",
        .expr ⟨"b", false⟩]) = true := by
    decide +kernel
  obtain ⟨⟨r, s⟩, hn, hread⟩ := (Option.any_eq_true _ _).mp hrun
  have hread : r.statementAhead? s = some ([] ++ [.text " margin: 5", .text "% -",
      .expr ⟨"b", false⟩]) := of_decide_eq_true hread
  have hdecl : StyleStatement.declaration? (StyleStatement.split ([] ++ [.text " margin: 5",
      .text "% -", .expr ⟨"b", false⟩])).body =
      some ([.text "margin"], [.text "5", .text "% -", .expr ⟨"b", false⟩]) := by
    decide +kernel
  refine ⟨r, s, _, hn, ?_, (list_value_arithmetic_iff hn hread nofun ?_ hdecl ?_ ?_).1⟩
  · rw [hread]
    exact hdecl
  · simp
  · exact ⟨by decide +kernel, by decide +kernel, by decide +kernel⟩
  · exact Nat.le_refl 2

/-- A list of a percentage and a length is taken for the remainder of a division, and what is left of
it is a length. -/
theorem percentage_list_computed :
    compile {} 0 "<style>\n.a \x7b margin: 5% 10px; \x7d\n</style>" =
      .compiled ("__rt.element(__context, \"style\", \x7b\x7d, __context => \x7b" ++
        "__rt.css(__context, \".a\x7bmargin:5px;\x7d\");\x7d)") [] := by
  decide +kernel

end Document
end Patchwork
