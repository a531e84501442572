import Patchwork.Proofs.Conditional
import Patchwork.Proofs.Literals

/-!
# Expressions inside other code

The walk through a text depends on what has been read before it and on what is open around it. For a
text that closes what it opens and nothing else (`Enclosed`) neither matters: put between brackets,
it leaves open what was open before it (`Enclosed.passes`). So the text of several pieces, which is
put together of literals and of expressions between brackets, is walked through from its first
character to its last without leaving anything open (`join_passes`).

`Passes P past s t s'` says what a walk comes to: it goes from one place to another, and of the
characters that stand outside of everything each has the property `P`.
-/

namespace Patchwork.Conditional

open List Text

open Lexeme (isOpening opening? isQuote canStartExpression)

/-- The characters of a text that stand outside of everything. -/
def tops (past : Text) (s : Place) : Text → Text
  | [] => []
  | c :: t =>
    (if s.layers.isEmpty && (s.step past c).layers.isEmpty then [c] else []) ++
      tops (c :: past) (s.step past c) t

/-- A walk from a place to a place. -/
structure Passes (P : Char → Prop) (past : Text) (s : Place) (t : Text) (s' : Place) : Prop where
  after : s.after past t = s'
  tops : ∀ c ∈ tops past s t, P c

variable {P Q : Char → Prop} {past older t u : Text} {s s' s'' : Place} {w outer : List Layer}
  {c : Char} {decode : Text → Text}

/-! ## Walks -/

theorem tops_append (past : Text) (s : Place) (t u : Text) :
    tops past s (t ++ u) = tops past s t ++ tops (t.reverse ++ past) (s.after past t) u := by
  induction t generalizing past s with
  | nil => rfl
  | cons c t ih =>
    rw [cons_append, tops, ih, tops, Place.after, reverse_cons, append_assoc,
      append_assoc, singleton_append]

namespace Passes

theorem nil (P : Char → Prop) (past : Text) (s : Place) : Passes P past s [] s :=
  ⟨rfl, forall_mem_nil _⟩

theorem append (h : Passes P past s t s') (h' : Passes P (t.reverse ++ past) s' u s'') :
    Passes P past s (t ++ u) s'' where
  after := by rw [Place.after_append, h.after, h'.after]
  tops := by
    rw [tops_append, h.after]
    exact forall_mem_append.mpr ⟨h.tops, h'.tops⟩

/-- A character that stands inside something, or opens or closes it. -/
theorem inside (hstep : s.step past c = s') (h : s.layers ≠ [] ∨ s'.layers ≠ []) :
    Passes P past s [c] s' where
  after := hstep
  tops := by
    have hnot : (s.layers.isEmpty && (s.step past c).layers.isEmpty) = false := by
      rw [hstep, Bool.and_eq_false_iff, isEmpty_eq_false_iff, isEmpty_eq_false_iff]
      exact h
    rw [Conditional.tops, hnot]
    exact forall_mem_nil _

/-- A character outside of everything that changes nothing. -/
theorem outside (hc : P c) (hstep : Place.code.step past c = .code) :
    Passes P past .code [c] .code where
  after := hstep
  tops := by
    rw [Conditional.tops, hstep]
    exact forall_mem_singleton.mpr hc

theorem cons (h : Passes P past s [c] s') (h' : Passes P (c :: past) s' t s'') :
    Passes P past s (c :: t) s'' :=
  h.append h'

end Passes

/-! ## What is open further out -/

def Place.under (s : Place) (outer : List Layer) : Place :=
  ⟨s.layers ++ outer, s.slash⟩

theorem inCode_append (w : List Layer) (b : Char) (outer : List Layer) :
    inCode (w ++ .bracket b :: outer) = inCode w := by
  cases w with
  | nil => rfl
  | cons l w => cases l <;> rfl

variable {b : Char} {pieces : List Piece}

theorem follow_append (w : List Layer) (hc : w = [] → opening? c = none) :
    follow (w ++ .bracket b :: outer) c = follow w c ++ .bracket b :: outer := by
  cases w with
  | nil =>
    have hclose : (opening? c == some b) = false := by
      rw [hc rfl]
      rfl
    simp only [nil_append, follow, hclose]
    repeat' split
    all_goals first
      | rfl
      | contradiction
  | cons l w =>
    cases l <;> simp only [cons_append, follow] <;> repeat' split
    all_goals rfl

theorem eq_of_opening? (h : opening? c = some b) :
    c = ')' ∧ b = '(' ∨ c = ']' ∧ b = '[' ∨ c = '}' ∧ b = '{' := by
  unfold opening? at h
  grind

theorem follow_nil_of_closing (h : opening? c ≠ none) : follow [] c = [] := by
  obtain ⟨b, hb⟩ := Option.ne_none_iff_exists'.mp h
  rcases eq_of_opening? hb with ⟨rfl, -⟩ | ⟨rfl, -⟩ | ⟨rfl, -⟩ <;> rfl

theorem Place.step_under (b : Char) (outer : List Layer) (past : Text) (s : Place) (c : Char)
    (hc : s.layers = [] → (s.step past c).layers = [] → opening? c = none) :
    (s.under (.bracket b :: outer)).step past c = (s.step past c).under (.bracket b :: outer) := by
  obtain ⟨w, slash⟩ := s
  have hfollow (hstep : Place.step past ⟨w, slash⟩ c = ⟨follow w c, none⟩) :
      follow (w ++ .bracket b :: outer) c = follow w c ++ .bracket b :: outer := by
    refine follow_append w fun hw => Decidable.byContradiction fun hclosing => hclosing ?_
    exact hc hw (by rw [hstep, hw, follow_nil_of_closing hclosing])
  cases slash with
  | none =>
    by_cases hslash : (inCode w && c == '/') = true
    · simp only [step, under, inCode_append, hslash, if_true]
    · have hstep : Place.step past ⟨w, none⟩ c = ⟨follow w c, none⟩ := if_neg hslash
      simp only [step, under, inCode_append, if_neg hslash, hfollow hstep]
  | some regex =>
    by_cases hline : (c == '/') = true
    · simp only [step, under, if_pos hline, cons_append]
    · by_cases hblock : (c == '*') = true
      · simp only [step, under, if_neg hline, if_pos hblock, cons_append]
      · cases regex with
        | true => simp only [step, under, if_neg hline, if_neg hblock, if_true, cons_append]
        | false =>
          have hstep : Place.step past ⟨w, some false⟩ c = ⟨follow w c, none⟩ := by
            simp only [step, if_neg hline, if_neg hblock, Bool.false_eq_true, if_false]
          simp only [step, under, if_neg hline, if_neg hblock, Bool.false_eq_true, if_false,
            hfollow hstep]

/-- Going on below a bracket is going on as outside of everything, as long as no closing bracket
comes there. -/
theorem after_under (b : Char) (outer : List Layer) (h : ∀ c ∈ tops past s t, opening? c = none) :
    (s.under (.bracket b :: outer)).after past t = (s.after past t).under (.bracket b :: outer) ∧
      tops past (s.under (.bracket b :: outer)) t = [] := by
  induction t generalizing past s with
  | nil => exact ⟨rfl, rfl⟩
  | cons c t ih =>
    rw [tops, forall_mem_append] at h
    have hstep := Place.step_under b outer past s c fun hlayers hstep => by
      refine h.1 c ?_
      rw [hlayers, hstep]
      exact mem_singleton_self c
    obtain ⟨hafter, htops⟩ := ih h.2
    rw [Place.after, tops, hstep]
    refine ⟨hafter, ?_⟩
    rw [htops]
    simp [Place.under]

/-! ## What has been read before -/

theorem after_past (h : Fresh older) (past : Text) (s : Place) (t : Text) :
    s.after (past ++ older) t = s.after past t ∧ tops (past ++ older) s t = tops past s t := by
  induction t generalizing past s with
  | nil => exact ⟨rfl, rfl⟩
  | cons c t ih =>
    have hstep : s.step (past ++ older) c = s.step past c := by
      rw [Place.step, canStartExpression_append h, Place.step]
    obtain ⟨hafter, htops⟩ := ih (c :: past) (s.step past c)
    rw [Place.after, tops, hstep, ← cons_append, hafter, htops]
    exact ⟨rfl, rfl⟩

/-! ## Enclosed texts -/

/-- Nothing is open, and no regular expression is about to begin. -/
def Place.Settled (s : Place) : Prop :=
  s.layers = [] ∧ s.slash ≠ some true

instance (s : Place) : Decidable s.Settled :=
  inferInstanceAs (Decidable (_ ∧ _))

/-- A text that closes what it opens and nothing else. -/
def Enclosed (t : Text) : Prop :=
  (Place.code.after [] t).Settled ∧ ∀ c ∈ tops [] .code t, opening? c = none

-- the characters that are checked are those of the list, not all there are
instance (t : Text) : Decidable (Enclosed t) :=
  @instDecidableAnd _ _ inferInstance (decidableBAll _ _)

theorem Place.step_closing (hb : opening? c = some b) {slash : Option Bool}
    (hslash : slash ≠ some true) (past : Text) (outer : List Layer) :
    Place.step past ⟨.bracket b :: outer, slash⟩ c = ⟨outer, none⟩ := by
  rcases eq_of_opening? hb with ⟨rfl, rfl⟩ | ⟨rfl, rfl⟩ | ⟨rfl, rfl⟩ <;>
  · rcases slash with _ | _ | _
    · rfl
    · rfl
    · exact absurd rfl hslash

theorem Enclosed.passes (h : Enclosed t) {c : Char} (hb : opening? c = some b)
    (hfresh : Fresh older) :
    Passes P older ⟨.bracket b :: outer, none⟩ (t ++ [c]) ⟨outer, none⟩ := by
  obtain ⟨⟨hlayers, hslash⟩, hclosers⟩ := h
  obtain ⟨hafter, htops⟩ := after_past hfresh [] .code t
  rw [nil_append] at hafter htops
  obtain ⟨hunder, hinside⟩ := after_under b outer (htops ▸ hclosers)
  have hplace : (Place.code.after older t).under (.bracket b :: outer) =
      ⟨.bracket b :: outer, (Place.code.after [] t).slash⟩ := by
    rw [hafter, Place.under, hlayers]
    rfl
  have htext : Passes P older ⟨.bracket b :: outer, none⟩ t
      ⟨.bracket b :: outer, (Place.code.after [] t).slash⟩ :=
    ⟨hunder.trans hplace, fun c hc => absurd (hinside ▸ hc) not_mem_nil⟩
  exact htext.append (.inside (Place.step_closing hb hslash _ _) (.inl (cons_ne_nil _ _)))

/-! ## Literals -/

/-- A character in a literal that is not the end of it and begins nothing. -/
theorem passes_plain {q : Char} (hq : c ≠ q) (hescape : c ≠ '\\')
    (hdollar : (c == '$' && q == '\x60') = false) :
    Passes P past ⟨.quoted q none :: w, none⟩ [c] ⟨.quoted q none :: w, none⟩ := by
  refine .inside ?_ (.inl (cons_ne_nil _ _))
  simp only [Place.step, inCode, follow, hdollar, beq_eq_false_iff_ne.mpr hq,
    beq_eq_false_iff_ne.mpr hescape]
  rfl

theorem passes_escaped {q : Char} (hq : q ≠ '\\') (past : Text) (c : Char) :
    Passes P past ⟨.quoted q none :: w, none⟩ ['\\', c] ⟨.quoted q none :: w, none⟩ := by
  have hescape : Place.step past ⟨.quoted q none :: w, none⟩ '\\' =
      ⟨.quoted q (some '\\') :: w, none⟩ := by
    simp [Place.step, follow, Ne.symm hq]
  exact .cons (.inside hescape (.inl (cons_ne_nil _ _))) (.inside rfl (.inl (cons_ne_nil _ _)))

theorem escapeTemplate_passes (past t : Text) (w : List Layer) :
    Passes P past ⟨.quoted '\x60' none :: w, none⟩ (escapeTemplate t)
      ⟨.quoted '\x60' none :: w, none⟩ := by
  induction t generalizing past with
  | nil => exact .nil _ _ _
  | cons c t ih =>
    rw [escapeTemplate_cons]
    refine .append ?_ (ih _)
    obtain heq | ⟨⟨hquote, hdollar, hslash⟩, heq⟩ := escapeTemplate_cases c <;> rw [heq]
    · exact passes_escaped (by decide) past c
    · exact passes_plain hquote hslash (by simp [hdollar])

theorem quoteChar_passes (past : Text) (c : Char) (w : List Layer) :
    Passes P past ⟨.quoted '\x22' none :: w, none⟩ (quoteChar c)
      ⟨.quoted '\x22' none :: w, none⟩ := by
  have hplain : ∀ ds, ds.all isUnescaped = true → ∀ past,
      Passes P past ⟨.quoted '\x22' none :: w, none⟩ ds ⟨.quoted '\x22' none :: w, none⟩ := by
    intro ds
    induction ds with
    | nil => exact fun _ past => .nil _ _ _
    | cons d ds ih =>
      intro h past
      obtain ⟨hd, hds⟩ := Bool.and_eq_true_iff.mp h
      simp only [isUnescaped, Bool.and_eq_true, bne_iff_ne] at hd
      exact .cons (passes_plain hd.2 hd.1.2 (Bool.and_false _)) (ih hds _)
  obtain ⟨d, ds, heq, -, hds⟩ | ⟨heq, hc⟩ := quoteChar_cases c <;> rw [heq]
  · exact (passes_escaped (by decide) past d).append (hplain ds hds _)
  · exact hplain [c] (by simp [hc]) past

theorem quote_passes (past t : Text) : Passes P past .code (quote t) .code := by
  have hbody : ∀ past, Passes P past ⟨[.quoted '\x22' none], none⟩ (t.flatMap quoteChar)
      ⟨[.quoted '\x22' none], none⟩ := by
    induction t with
    | nil => exact fun past => .nil _ _ _
    | cons c t ih => exact fun past => (quoteChar_passes past c []).append (ih _)
  exact .cons (.inside rfl (.inr (cons_ne_nil _ _)))
    ((hbody _).append (.inside rfl (.inl (cons_ne_nil _ _))))

/-! ## Joined texts -/

/-- Behind an opening bracket an expression begins. -/
theorem fresh_opening (h : isOpening c = true) (past : Text) : Fresh (c :: past) := by
  have hc : c = '(' ∨ c = '[' ∨ c = '{' := by
    simpa [isOpening, or_assoc] using h
  rcases hc with rfl | rfl | rfl <;> exact ⟨rfl, rfl⟩

theorem template_passes {p : Piece} (h : ∀ e, p = .expr e → Enclosed e.source) (past : Text) :
    Passes P past ⟨[.quoted '\x60' none], none⟩ (p.template decode)
      ⟨[.quoted '\x60' none], none⟩ := by
  cases p with
  | text t => exact escapeTemplate_passes past _ []
  | expr e =>
    have hdollar : Passes P past ⟨[.quoted '\x60' none], none⟩ ['$']
        ⟨[.quoted '\x60' (some '$')], none⟩ := .inside rfl (.inl (cons_ne_nil _ _))
    have hbrace : Passes P ('$' :: past) ⟨[.quoted '\x60' (some '$')], none⟩ ['{']
        ⟨[.bracket '{', .quoted '\x60' none], none⟩ := .inside rfl (.inl (cons_ne_nil _ _))
    exact hdollar.cons (hbrace.cons ((h e rfl).passes rfl (fresh_opening rfl _)))
  | comment t => exact .nil _ _ _

theorem term_passes {p : Piece} (h : ∀ e, p = .expr e → Enclosed e.source) (past : Text) :
    Passes P past .code (p.term decode) .code := by
  cases p with
  | text t => exact quote_passes past _
  | expr e =>
    have hparen : Passes P past .code ['('] ⟨[.bracket '('], none⟩ :=
      .inside rfl (.inr (cons_ne_nil _ _))
    exact hparen.cons ((h e rfl).passes rfl (fresh_opening rfl _))
  | comment t => exact .nil _ _ _

theorem templates_passes (h : ∀ p ∈ pieces, ∀ e, p = .expr e → Enclosed e.source) (past : Text) :
    Passes P past ⟨[.quoted '\x60' none], none⟩ (pieces.flatMap (Piece.template decode))
      ⟨[.quoted '\x60' none], none⟩ := by
  induction pieces generalizing past with
  | nil => exact .nil _ _ _
  | cons p pieces ih =>
    obtain ⟨hp, hpieces⟩ := forall_mem_cons.mp h
    exact (template_passes hp past).append (ih hpieces _)

theorem terms_passes (h : ∀ p ∈ pieces, ∀ e, p = .expr e → Enclosed e.source) (hblank : P ' ')
    (hplus : P '+') (past : Text) :
    Passes P past .code ((pieces.map (Piece.term decode)).flatMap (" + " ++ ·)) .code := by
  induction pieces generalizing past with
  | nil => exact .nil _ _ _
  | cons p pieces ih =>
    obtain ⟨hp, hpieces⟩ := forall_mem_cons.mp h
    have hsign : Passes P past .code " + " .code :=
      .cons (.outside hblank rfl) (.cons (.outside hplus rfl) (.outside hblank rfl))
    exact (hsign.append (term_passes hp _)).append (ih hpieces _)

theorem join?_cases {dialect : Dialect} {decode : Bool} {joined : Text}
    (h : Piece.join? dialect decode pieces = some joined) : ∃ decode : Text → Text,
    joined = '\x60' :: ((pieces.filter Piece.counts).flatMap (Piece.template decode) ++ ['\x60']) ∨
    joined = '\x22' :: '\x22' ::
      ((pieces.filter Piece.counts).map (Piece.term decode)).flatMap (" + " ++ ·) := by
  refine ⟨if decode then decodeEntities else id, ?_⟩
  unfold Piece.join? at h
  dsimp only at h
  split at h
  · cases h
  cases dialect with
  | modern => exact .inl (Option.some.inj h).symm
  | legacy =>
    refine .inr ((Option.some.inj h).symm.trans ?_)
    rw [join_cons]
    rfl

/-- Pieces that are joined leave nothing open, and outside of everything are only the signs between
them. -/
theorem join_passes {dialect : Dialect} {decode : Bool} {joined : Text}
    (h : Piece.join? dialect decode pieces = some joined)
    (hpieces : ∀ e, .expr e ∈ pieces → Enclosed e.source) :
    Passes (fun c => c = ' ' ∨ c = '+') [] .code joined .code := by
  have hcounts : ∀ p ∈ pieces.filter Piece.counts, ∀ e, p = .expr e → Enclosed e.source := by
    rintro p hp e rfl
    exact hpieces e (mem_filter.mp hp).1
  obtain ⟨decode, rfl | rfl⟩ := join?_cases h
  · exact .cons (.inside rfl (.inr (cons_ne_nil _ _)))
      ((templates_passes hcounts _).append (.inside rfl (.inl (cons_ne_nil _ _))))
  · exact (quote_passes [] []).append (terms_passes hcounts (.inl rfl) (.inr rfl) _)

end Patchwork.Conditional
