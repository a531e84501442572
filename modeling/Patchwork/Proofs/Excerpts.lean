import Patchwork.Proofs.Bearing
import Patchwork.Proofs.Searching

/-!
# Excerpts of a document

What stands at the front of a text is often read in the same way whatever follows it: a string or a
group is closed by its own last character, and a tag that has no content by its `/>`. So an item of a
document can be spoken of by its own text alone, as an excerpt.

`Session.Excerpt` relates a session on an excerpt with one on the document. `Local` says that a
computation goes the same way in both, as long as it does not come near the end of the excerpt.
-/

namespace Patchwork

open Compile List Text Lexeme

/-! ## Lexemes -/

namespace Lexeme

variable {position n m : Nat} {c : Char} {t : Text}

theorem nested_append {layers : List Layer} (h : nested layers position n t = .ok m) (more : Text) :
    nested layers position n (t ++ more) = .ok m := by
  fun_induction nested layers position n t
  case case1 =>
    unfold nested
    exact h
  case case2 => cases h
  case case3 => cases h
  -- a character that is not taken together with the next one
  case case7 t hnext ih =>
    cases t with
    | nil => cases h
    | cons d t => simp_all [nested]
  case case16 t hnext hnext' ih =>
    cases t with
    | nil => cases h
    | cons d t => simp_all [nested]
  case case21 t hnext ih =>
    cases t with
    | nil => cases h
    | cons d t => simp_all [nested]
  case case9 hescape hbreak hdollar hquote ih =>
    rw [cons_append, nested.eq_def]
    dsimp only
    rw [if_neg hescape, if_neg hbreak, if_neg hdollar, if_neg hquote]
    exact ih h
  all_goals
    rw [nested.eq_def]
    simp_all

theorem string_append (h : string position (c :: t) = .ok m) (more : Text) :
    string position (c :: t ++ more) = .ok m :=
  nested_append h more

theorem group_append (hc : isOpening c = true) (h : group position (c :: t) = .ok m) (more : Text) :
    group position (c :: t ++ more) = .ok m := by
  rw [group, if_pos hc] at h
  rw [cons_append, group, if_pos hc]
  exact nested_append h more

end Lexeme

/-! ## Cursors -/

namespace Text

theorem takeWhile_append_of_lt {p : Char → Bool} {t : Text}
    (h : (t.takeWhile p).length < t.length) (more : Text) :
    (t ++ more).takeWhile p = t.takeWhile p := by
  rw [takeWhile_append, if_neg (Nat.ne_of_lt h)]

theorem startsWith_append {p t : Text} (h : p.length ≤ t.length) (more : Text) :
    startsWith p (t ++ more) = startsWith p t := by
  refine Bool.eq_iff_iff.mpr (List.isPrefixOf_iff_prefix.trans (Iff.trans ?_
    List.isPrefixOf_iff_prefix.symm))
  exact ⟨fun hp => prefix_of_prefix_length_le hp (prefix_append ..) h,
    fun hp => hp.trans (prefix_append ..)⟩

end Text

namespace Cursor

/-- One cursor stands in an excerpt, and the other at the same place in the document, in which more
follows. -/
structure Within (more : Text) (c C : Cursor) : Prop where
  position : C.position = c.position
  rest : C.rest = c.rest ++ more

theorem Within.advance {more : Text} {c C : Cursor} (h : c.Within more C) {n : Nat}
    (hn : n ≤ c.rest.length) : (c.advance n).Within more (C.advance n) where
  position := by
    rw [position_advance, position_advance, h.position, h.rest, take_append_of_le_length hn]
  rest := by
    rw [Cursor.advance, Cursor.advance, h.rest, drop_append_of_le_length hn]

theorem Within.peek? {more : Text} {c C : Cursor} (h : c.Within more C) (hpos : 0 < c.rest.length) :
    C.peek? = c.peek? := by
  rw [Cursor.peek?, Cursor.peek?, h.rest]
  cases hrest : c.rest with
  | nil =>
    rw [hrest] at hpos
    exact absurd hpos (Nat.lt_irrefl 0)
  | cons d t => rfl

end Cursor

namespace Scan

variable {α β : Type}

variable {c c' C : Cursor} {more : Text}

theorem whole_eq_ok {x : Option α} {a : α} : whole x c = .ok a c' ↔ x = some a ∧ c' = c := by
  cases x with
  | none => exact ⟨nofun, nofun⟩
  | some b =>
    constructor
    · rintro ⟨⟩
      exact ⟨rfl, rfl⟩
    · rintro ⟨⟨⟩, rfl⟩
      rfl

theorem lexeme_within {reader : Lexeme.Reader} {n : Nat} (hC : c.Within more C)
    (hn : n ≤ c.rest.length) (hreader : reader c.position (c.rest ++ more) = .ok n) :
    lexeme reader C = .ok (c.rest.take n) (C.advance n) ∧
      (c.advance n).Within more (C.advance n) := by
  refine ⟨?_, hC.advance hn⟩
  rw [lexeme, hC.position, hC.rest, hreader]
  dsimp only
  rw [take_append_of_le_length hn]

theorem readText_within {t : Text} (h : readText t c = .ok true c') (hC : c.Within more C) :
    t.length ≤ c.rest.length ∧ ∃ C', readText t C = .ok true C' ∧ c'.Within more C' := by
  unfold readText at h ⊢
  split at h
  next hstarts =>
    cases h
    have hle : t.length ≤ c.rest.length := (List.isPrefixOf_iff_prefix.mp hstarts).length_le
    refine ⟨hle, C.advance t.length, ?_, hC.advance hle⟩
    rw [hC.rest, startsWith_append hle, if_pos hstarts]
  · cases h

/-- A step that goes the same way in an excerpt and in the document, if it ends before the last two
characters of the excerpt. -/
def Local (step : Scan α) : Prop :=
  ∀ c a c', step c = .ok a c' → 2 ≤ c'.rest.length → ∀ more C, c.Within more C →
    ∃ C', step C = .ok a C' ∧ c'.Within more C'

namespace Local

theorem pure (a : α) : Local (Pure.pure a) := by
  rintro c _ _ ⟨⟩ - more C hC
  exact ⟨C, rfl, hC⟩

theorem whole (x : Option α) : Local (Scan.whole x) := by
  cases x with
  | none => rintro c a c' ⟨⟩
  | some a => exact pure a

theorem bind {x : Scan α} {f : α → Scan β} (hx : Local x) (hf : ∀ a, Local (f a))
    [hforward : ∀ a, Forward (f a)] : Local (x >>= f) := by
  intro c b c' h hlength more C hC
  obtain ⟨a, c1, h1, h⟩ := Scan.bind_eq_ok h
  have hlength1 := Nat.le_trans hlength ((hforward a).ahead c1 b c' h).moved.length_le
  obtain ⟨C1, hC1, hwithin1⟩ := hx c a c1 h1 hlength1 more C hC
  obtain ⟨C', hC', hwithin⟩ := hf a c1 b c' h hlength more C1 hwithin1
  exact ⟨C', (Scan.bind_ok hC1 f).trans hC', hwithin⟩

theorem readWhile (p : Char → Bool) : Local (Scan.readWhile p) := by
  rintro c _ _ ⟨⟩ hlength more C hC
  have hlt : (c.rest.takeWhile p).length < c.rest.length := by
    rw [Cursor.advance, length_drop] at hlength
    omega
  have htake : C.rest.takeWhile p = c.rest.takeWhile p := by
    rw [hC.rest, takeWhile_append_of_lt hlt]
  refine ⟨_, ?_, hC.advance (Nat.le_of_lt hlt)⟩
  rw [Scan.readWhile, htake]

/-- Whether a text comes next is seen in the excerpt, if the text is no longer than what is left. -/
theorem readText {t : Text} (ht : t.length ≤ 2) : Local (Scan.readText t) := by
  intro c a c' h hlength more C hC
  cases a with
  | true => exact (readText_within h hC).2
  | false =>
    unfold Scan.readText at h ⊢
    split at h
    · cases h
    next hstarts =>
      cases h
      refine ⟨C, ?_, hC⟩
      rw [hC.rest, startsWith_append (Nat.le_trans ht hlength), if_neg hstarts]

theorem readIf (d : Char) : Local (Scan.readIf d) := by
  intro c a c' h hlength more C hC
  have hahead : c.Ahead c' := Forward.ahead c a c' h
  have hpos : 0 < c.rest.length :=
    Nat.lt_of_lt_of_le (Nat.lt_of_lt_of_le Nat.two_pos hlength) hahead.moved.length_le
  unfold Scan.readIf at h ⊢
  rw [hC.peek? hpos]
  split at h
  next hpeek =>
    cases h
    exact ⟨C.advance 1, if_pos hpeek, hC.advance hpos⟩
  next hpeek =>
    cases h
    exact ⟨C, if_neg hpeek, hC⟩

theorem lexeme {reader : Lexeme.Reader}
    (hreader : ∀ position t n, reader position t = .ok n → n + 2 ≤ t.length → ∀ more,
      reader position (t ++ more) = .ok n) : Local (Scan.lexeme reader) := by
  intro c a c' h hlength more C hC
  unfold Scan.lexeme at h
  split at h
  next n hn =>
    cases h
    have hle : n + 2 ≤ c.rest.length := by
      rw [Cursor.advance, length_drop] at hlength
      omega
    exact ⟨C.advance n, lexeme_within hC (Nat.le_of_add_right_le hle) (hreader _ _ _ hn hle more)⟩
  · cases h

theorem skipBlanks : Local (Scan.skipBlanks false) := by
  refine lexeme fun position t n hn hle more => ?_
  rw [blanks, blanksFrom_eq fun h => absurd h Bool.false_ne_true, Nat.zero_add] at hn ⊢
  cases hn
  rw [takeWhile_append_of_lt (Nat.lt_of_succ_lt hle)]

theorem skipString : Local Scan.skipString := by
  refine lexeme fun position t n hn hle more => ?_
  cases t with
  | nil => exact absurd (Nat.le_of_add_left_le hle) (by decide)
  | cons c t => exact string_append hn more

theorem readQuoted : Local Scan.readQuoted := skipString.bind fun _ => .whole _

theorem peek {f : Option Char → Scan β} [hforward : ∀ d, Forward (f d)]
    (hf : ∀ c a c', f c.peek? c = .ok a c' → 2 ≤ c'.rest.length → ∀ more C, c.Within more C →
      ∃ C', f c.peek? C = .ok a C' ∧ c'.Within more C') :
    Local (get >>= fun c => f c.peek?) := by
  intro c a c' h hlength more C hC
  have hahead : c.Ahead c' := (hforward c.peek?).ahead c a c' h
  obtain ⟨C', hC', hwithin⟩ := hf c a c' h hlength more C hC
  refine ⟨C', ?_, hwithin⟩
  show f C.peek? C = _
  rw [hC.peek? (Nat.lt_of_lt_of_le (Nat.lt_of_lt_of_le Nat.two_pos hlength) hahead.moved.length_le)]
  exact hC'

end Local

/-- A group in braces is closed inside of the excerpt. -/
theorem skipGroup_within {a : Text} (hc : c.peek? = some '{') (h : skipGroup c = .ok a c')
    (hC : c.Within more C) :
    ∃ C', skipGroup C = .ok a C' ∧ c'.Within more C' := by
  obtain ⟨t, ht⟩ := head?_eq_some_iff.mp hc
  unfold skipGroup lexeme at h
  split at h
  next n hn =>
    cases h
    rw [ht] at hn
    have hle : n ≤ c.rest.length := by
      obtain ⟨read, rest, rfl, rfl, -⟩ := nested_eq_ok hn
      rw [ht, length_cons, length_append]
      omega
    refine ⟨C.advance n, lexeme_within hC hle ?_⟩
    rw [ht]
    exact group_append rfl hn more
  · cases h

theorem readEnclosed_within {a : Text} (hc : c.peek? = some '{') (h : readEnclosed c = .ok a c')
    (hC : c.Within more C) :
    ∃ C', readEnclosed C = .ok a C' ∧ c'.Within more C' := by
  obtain ⟨group, c1, hgroup, h⟩ := Scan.bind_eq_ok h
  obtain ⟨C', hC', hwithin⟩ := skipGroup_within hc hgroup hC
  obtain ⟨hinner, rfl⟩ := whole_eq_ok.mp h
  exact ⟨C', (Scan.bind_ok hC' _).trans (whole_eq_ok.mpr ⟨hinner, rfl⟩), hwithin⟩

theorem Local.readValue : Local StartTag.readValue := by
  refine (Local.readIf '=').bind fun found => ?_
  split
  · refine Local.peek (f := fun next =>
      if next == some '\x22' || next == some '\x27' then
        do return RawValue.text (← Scan.readQuoted)
      else if next == some '{' then do return RawValue.expression (← Scan.readEnclosed)
      else do return RawValue.text (← Scan.readWhile fun c => !StartTag.endsValue c)) ?_
    intro c a c' h hlength more C hC
    split at h
    next hquote =>
      rw [if_pos hquote]
      exact (Local.readQuoted.bind fun t => .pure _) c a c' h hlength more C hC
    next hquote =>
      rw [if_neg hquote]
      split at h
      next hbrace =>
        rw [if_pos hbrace]
        obtain ⟨inner, c1, hinner, h⟩ := Scan.bind_eq_ok h
        cases h
        obtain ⟨C', hC', hwithin⟩ := readEnclosed_within (eq_of_beq hbrace) hinner hC
        exact ⟨C', Scan.bind_ok hC' _, hwithin⟩
      next hbrace =>
        rw [if_neg hbrace]
        exact ((Local.readWhile _).bind fun t => .pure _) c a c' h hlength more C hC
  · exact .pure _

end Scan

/-! ## Sessions -/

/-- One session reads an excerpt, and the other the document. What they write is alike. -/
structure Session.Excerpt (more : Text) (s S : Session) : Prop where
  cursor : s.cursor.Within more S.cursor
  fork : S.output.fork = s.output.fork
  settings : S.settings = s.settings

/-- A fragment is expanded by its own text, so only the manner of writing counts. -/
theorem expandWith_excerpt {inner : Purpose → Expander} {text : Text} {base : Nat} {tracked : Bool}
    {s s' S : Session} {e : Expr} (h : expandWith inner text base tracked s = .ok (e, s'))
    (hfork : S.output.fork = s.output.fork) (hsettings : S.settings = s.settings) :
    ∃ S', expandWith inner text base tracked S = .ok (e, S') := by
  simp only [expandWith, bind, Except.bind] at h ⊢
  rw [hfork, hsettings]
  split at h
  · cases h
  next hrun =>
    cases h
    exact ⟨_, rfl⟩

theorem expand_excerpt {text : Text} {base : Nat} {tracked : Bool} {s s' S : Session} {e : Expr}
    (h : expand text base tracked s = .ok (e, s')) (hfork : S.output.fork = s.output.fork)
    (hsettings : S.settings = s.settings) :
    ∃ warnings, expand text base tracked S = .ok (e, { S with warnings }) := by
  obtain ⟨S', hS'⟩ := expandWith_excerpt h hfork hsettings
  exact ⟨S'.warnings, (expand_session hS') ▸ hS'⟩

namespace Compile

variable {α β : Type} {x : Compile α} {f : α → Compile β}

/-- A computation that goes the same way on an excerpt and on the document, if it ends before the
last two characters of the excerpt. -/
structure Local (x : Compile α) : Prop where
  made : Made Act.writing x
  same : ∀ s a s', x s = .ok (a, s') → 2 ≤ s'.cursor.rest.length → ∀ more S, s.Excerpt more S →
    ∃ S', x S = .ok (a, S') ∧ s'.Excerpt more S'

namespace Local

theorem pure (a : α) : Local (Pure.pure a) where
  made := .result a
  same := by
    rintro s _ _ ⟨⟩ - more S hS
    exact ⟨S, rfl, hS⟩

theorem length_le (hx : Local x) {s s' : Session} {a : α} (h : x s = .ok (a, s')) :
    s'.cursor.rest.length ≤ s.cursor.rest.length :=
  (hx.made.steps h).wrote.forward.length_le

theorem bind (hx : Local x) (hf : ∀ a, Local (f a)) : Local (x >>= f) where
  made := .seq hx.made fun a => (hf a).made
  same s b s' h hlength more S hS := by
    obtain ⟨a, s1, h1, h2⟩ := bind_eq_ok.mp h
    have hlength1 := Nat.le_trans hlength ((hf a).length_le h2)
    obtain ⟨S1, hS1, hexcerpt1⟩ := hx.same s a s1 h1 hlength1 more S hS
    obtain ⟨S', hS', hexcerpt⟩ := (hf a).same s1 b s' h2 hlength more S1 hexcerpt1
    exact ⟨S', bind_of_ok hS1 hS', hexcerpt⟩

theorem scan {step : Scan α} [step.Forward] (hstep : step.Local) : Local (Compile.scan step) where
  made := inferInstance
  same s a s' h hlength more S hS := by
    obtain ⟨c, hc, rfl⟩ := scan_eq_ok.mp h
    obtain ⟨C, hC, hwithin⟩ := hstep s.cursor a c hc hlength more S.cursor hS.cursor
    exact ⟨_, scan_eq_ok.mpr ⟨C, hC, rfl⟩, hwithin, hS.fork, hS.settings⟩

theorem position : Local Compile.position where
  made := inferInstance
  same := by
    rintro s _ _ ⟨⟩ - more S hS
    exact ⟨S, by rw [← hS.cursor.position]; rfl, hS⟩

end Local
end Compile

/-! ## Tags without content -/

namespace StartTag

open Compile (Local)

theorem valueSource_local (name : Text) (start : Nat) (value : RawValue) :
    Local (valueSource name start value) where
  made := inferInstance
  same s a s' h hlength more S hS := by
    cases value with
    | flag | text =>
      cases h
      exact ⟨S, rfl, hS⟩
    | expression t =>
      obtain ⟨e, s1, he, h⟩ := bind_eq_ok.mp h
      obtain ⟨warnings, hE⟩ := expand_excerpt he hS.fork hS.settings
      rw [expand_session he] at h
      have hexcerpt : ({ s with warnings := s1.warnings } : Session).Excerpt more
          { S with warnings } := ⟨hS.cursor, hS.fork, hS.settings⟩
      split at h
      next hreactive =>
        obtain ⟨o, s2, ho, h⟩ := bind_eq_ok.mp h
        cases ho
        cases h
        refine ⟨_, bind_of_ok hE ?_, hexcerpt⟩
        rw [if_pos hreactive]
        show Except.ok (S.output.fork.wrapReactive e.source, _) = _
        rw [hS.fork]
        rfl
      next hreactive =>
        cases h
        refine ⟨_, bind_of_ok hE ?_, hexcerpt⟩
        rw [if_neg hreactive]
        rfl

theorem readAttribute_local (tag : StartTag) : Local tag.readAttribute := by
  refine Local.position.bind fun start => (Local.scan (.readIf '#')).bind fun isRegion => ?_
  refine (Local.scan (.readWhile _)).bind fun name => ?_
  extract_lets rest
  have hrest : ∀ u, Local (rest u) := by
    intro u
    refine (Local.scan .readValue).bind fun value => Local.position.bind fun stop => ?_
    split
    · exact .pure _
    · exact (valueSource_local _ _ _).bind fun _ => .pure _
  split
  · refine ⟨.bind fun _ => .bind fun u => (hrest u).made, ?_⟩
    intro s a s' h
    obtain ⟨c, s1, -, h⟩ := bind_eq_ok.mp h
    cases h
  · exact hrest ()

/-- An attribute leaves the name of its tag as it is, and whether the tag has content. -/
theorem readAttribute_keeps (tag : StartTag) (s : Session) :
    Gives tag.readAttribute s fun tag' _ =>
      tag'.name = tag.name ∧ tag'.selfClosing = tag.selfClosing := by
  refine .after fun start s1 => .after fun isRegion s2 => .after fun name s3 => ?_
  extract_lets rest
  have hrest : ∀ u s, Gives (rest u) s fun tag' _ =>
      tag'.name = tag.name ∧ tag'.selfClosing = tag.selfClosing := by
    intro u s
    refine .after fun value s1 => .after fun stop s2 => ?_
    split
    · exact .pure ⟨rfl, rfl⟩
    · exact .after fun source s3 => .pure ⟨rfl, rfl⟩
  split
  · exact .after fun c s4 => .after hrest
  · exact hrest () s3

/-- The attributes of a tag without content are read up to its `/>`, whatever follows that. -/
theorem readAttributes_excerpt (fuel : Nat) : ∀ {tag tag' : StartTag} {s s' : Session},
    tag.readAttributes fuel s = .ok (tag', s') → tag.selfClosing = false →
    tag'.selfClosing = true → 2 ≤ s.cursor.rest.length ∧
      ∀ fuel', fuel ≤ fuel' → ∀ more S, s.Excerpt more S →
        ∃ S', tag.readAttributes fuel' S = .ok (tag', S') ∧ s'.Excerpt more S' := by
  induction fuel with
  | zero =>
    intro tag tag' s s' h
    cases h
  | succ fuel ih =>
    intro tag tag' s s' h hopen hclosed
    have hblanks : Local (discard (scan (Scan.skipBlanks false))) :=
      (Local.scan .skipBlanks).bind fun _ => .pure _
    obtain ⟨_, s1, h1, h⟩ := bind_eq_ok.mp h
    obtain ⟨closing, s2, h2, h⟩ := bind_eq_ok.mp h
    cases closing with
    | true =>
      cases h
      obtain ⟨c, hc, rfl⟩ := scan_eq_ok.mp h2
      have hle (more C) (hC : s1.cursor.Within more C) := Scan.readText_within hc hC
      have hlength1 : 2 ≤ s1.cursor.rest.length := (hle [] s1.cursor ⟨rfl, by simp⟩).1
      refine ⟨Nat.le_trans hlength1 (hblanks.length_le h1), fun fuel' hfuel more S hS => ?_⟩
      obtain ⟨S1, hS1, hexcerpt1⟩ := hblanks.same _ _ _ h1 hlength1 more S hS
      obtain ⟨-, C, hC, hwithin⟩ := hle more S1.cursor hexcerpt1.cursor
      refine ⟨{ S1 with cursor := C }, ?_, hwithin, hexcerpt1.fork, hexcerpt1.settings⟩
      obtain ⟨fuel', rfl⟩ := Nat.exists_eq_add_of_le' (Nat.le_of_add_left_le hfuel)
      exact bind_of_ok hS1 (bind_of_ok (scan_eq_ok.mpr ⟨C, hC, rfl⟩) rfl)
    | false =>
      have hclosing : Local (scan (Scan.readText "/>")) := .scan (.readText (by decide))
      obtain ⟨closed, s3, h3, h⟩ := bind_eq_ok.mp h
      cases closed with
      | true =>
        cases h
        rw [hopen] at hclosed
        cases hclosed
      | false =>
        obtain ⟨c, s4, h4, h⟩ := bind_eq_ok.mp h
        cases h4
        split at h
        · cases h
        -- the rest of the tag is still ahead, so nothing up to here comes near the end
        obtain ⟨tag1, s5, h5, h⟩ := bind_eq_ok.mp h
        have hopen1 := ((readAttribute_keeps tag s3).result _ _ h5).2.trans hopen
        obtain ⟨hlength5, hrest⟩ := ih h hopen1 hclosed
        have hlength3 := Nat.le_trans hlength5 (tag.readAttribute_local.length_le h5)
        have hlength2 := Nat.le_trans hlength3 ((Local.scan (.readIf '>')).length_le h3)
        have hlength1 := Nat.le_trans hlength2 (hclosing.length_le h2)
        refine ⟨Nat.le_trans hlength1 (hblanks.length_le h1), fun fuel' hfuel more S hS => ?_⟩
        obtain ⟨S1, hS1, hexcerpt1⟩ := hblanks.same _ _ _ h1 hlength1 more S hS
        obtain ⟨S2, hS2, hexcerpt2⟩ := hclosing.same _ _ _ h2 hlength2 more S1 hexcerpt1
        obtain ⟨S3, hS3, hexcerpt3⟩ :=
          (Local.scan (.readIf '>')).same _ _ _ h3 hlength3 more S2 hexcerpt2
        obtain ⟨S5, hS5, hexcerpt5⟩ :=
          tag.readAttribute_local.same _ _ _ h5 hlength5 more S3 hexcerpt3
        obtain ⟨fuel', rfl⟩ := Nat.exists_eq_add_of_le' (Nat.le_of_add_left_le hfuel)
        obtain ⟨S', hS', hexcerpt⟩ := hrest fuel' (Nat.le_of_succ_le_succ hfuel) more S5 hexcerpt5
        have hnext : ¬S3.cursor.atEnd = true := by
          rw [Cursor.atEnd, hexcerpt3.cursor.rest, List.isEmpty_iff]
          exact append_ne_nil_of_left_ne_nil (ne_nil_of_length_pos (by omega)) _
        refine ⟨S', ?_, hexcerpt⟩
        refine bind_of_ok hS1 (bind_of_ok hS2 ?_)
        refine bind_of_ok hS3 (bind_of_ok rfl ?_)
        rw [if_neg hnext]
        exact bind_of_ok hS5 hS'

theorem read_excerpt {at_ : Nat} {tag : StartTag} {s s' : Session}
    (h : read at_ s = .ok (tag, s')) (hclosed : tag.selfClosing = true) {more : Text} {S : Session}
    (hS : s.Excerpt more S) : ∃ S', read at_ S = .ok (tag, S') ∧ s'.Excerpt more S' := by
  obtain ⟨name, s1, h1, h⟩ := bind_eq_ok.mp h
  obtain ⟨stop, s2, h2, h⟩ := bind_eq_ok.mp h
  cases h2
  obtain ⟨c, s3, h3, h⟩ := bind_eq_ok.mp h
  cases h3
  obtain ⟨hlength, hrest⟩ := readAttributes_excerpt _ h rfl hclosed
  obtain ⟨S1, hS1, hexcerpt⟩ := (Local.scan (.readWhile _)).same _ _ _ h1 hlength more S hS
  have hfuel : s1.cursor.rest.length + 1 ≤ S1.cursor.rest.length + 1 := by
    rw [hexcerpt.cursor.rest, length_append]
    omega
  obtain ⟨S', hS', hexcerpt'⟩ := hrest _ hfuel more S1 hexcerpt
  refine ⟨S', bind_of_ok hS1 ?_, hexcerpt'⟩
  rw [← hexcerpt.cursor.position] at hS'
  exact hS'

end StartTag

end Patchwork
