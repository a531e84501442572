import Patchwork.Proofs.Excerpts
import Patchwork.Proofs.Literals

/-!
# Generated literals

Literals are written into the code, and the code may be read again. A quoted literal is read whole,
whatever follows it, and so is a template, if its expressions are groups when they stand in braces.
Main result: `literals_read_whole`. The holes of the template are then those that were written.
-/

namespace Patchwork

open List Text Lexeme Brackets

/-! ## Quoted literals -/

theorem passes_unescaped {t more rest : Text} (ht : t.all isUnescaped = true)
    (h : Passes (some '\x22') more [] rest) : Passes (some '\x22') (t ++ more) [] rest := by
  induction t with
  | nil => exact h
  | cons c t ih =>
    obtain ⟨hc, ht⟩ := Bool.and_eq_true_iff.mp ht
    have hfeed : c ≠ '\n' := by
      rintro rfl
      cases hc
    simp only [isUnescaped, Bool.and_eq_true, bne_iff_ne] at hc
    exact .quoted hc.1.2 hc.2 (absurd · hfeed) (fun h => absurd h (by decide)) (ih ht)

theorem passes_quote (t rest : Text) :
    Passes (some '\x22') (t.flatMap quoteChar ++ '\x22' :: rest) [] ('\x22' :: rest) := by
  induction t with
  | nil => exact .done
  | cons c t ih =>
    rw [flatMap_cons, append_assoc]
    obtain ⟨d, ds, hc, -, hds⟩ | ⟨hc, hd⟩ := quoteChar_cases c <;> rw [hc]
    · exact .escape (passes_unescaped hds ih)
    · exact passes_unescaped (t := [c]) (by simp [hd]) ih

theorem not_control_of_mem_quote {t : Text} {c : Char} (hc : c ∈ quote t) :
    isControl c = false ∧ c ≠ '\u2028' ∧ c ≠ '\u2029' := by
  have hplain {d : Char} (h : isUnescaped d = true) :
      isControl d = false ∧ d ≠ '\u2028' ∧ d ≠ '\u2029' := by
    simp_all [isUnescaped]
  simp only [quote, mem_cons, mem_append, mem_flatMap, not_mem_nil, or_false] at hc
  obtain rfl | ⟨d, -, hd⟩ | rfl := hc
  · decide
  · obtain ⟨e, es, heq, he, hes⟩ | ⟨heq, hd'⟩ := quoteChar_cases d <;> rw [heq] at hd
    · rcases mem_cons.mp hd with rfl | hd
      · decide
      rcases mem_cons.mp hd with rfl | hd
      · exact he
      · exact hplain (all_eq_true.mp hes c hd)
    · cases mem_singleton.mp hd
      exact hplain hd'
  · decide

/-! ## Templates -/

/-- An expression is read as the hole that it is written in. -/
def Expr.isHole (e : Expr) : Prop :=
  ∃ p, group p ('{' :: (e.source ++ ['}'])) = .ok (e.source.length + 2)

theorem Expr.isHole.passes {e : Expr} (h : e.isHole) (more : Text) :
    ∃ outside, Passes none (e.source ++ '}' :: more) outside ('}' :: more) ∧ Balanced {} outside := by
  obtain ⟨p, hgroup⟩ := h
  have hmore := group_append (c := '{') rfl hgroup more
  rw [cons_append, append_assoc, singleton_append] at hmore
  obtain ⟨body, rest, outside, heq, hlength, hpasses, hbalanced⟩ :=
    (group_eq_ok_iff (b := .curly)).mp hmore
  obtain ⟨-, hrest⟩ := append_inj heq (Nat.add_right_cancel hlength)
  cases hrest
  exact ⟨outside, hpasses, hbalanced⟩

section
variable {decode : Text → Text} {pieces : List Piece} {t u rest : Text}

theorem passes_escapeTemplate (h : Passes (some '\x60') u [] rest) :
    Passes (some '\x60') (escapeTemplate t ++ u) [] rest := by
  induction t with
  | nil => exact h
  | cons c t ih =>
    rw [escapeTemplate_cons, append_assoc]
    obtain heq | ⟨⟨hquote, hdollar, hslash⟩, heq⟩ := escapeTemplate_cases c <;> rw [heq]
    · exact .escape ih
    · refine .quoted hslash hquote (fun _ => rfl) (fun _ hhole => hdollar ?_) ih
      exact (cons_prefix_cons.mp hhole).1.symm

/-- What is escaped opens no hole. -/
theorem of_passes_escapeTemplate
    (h : Passes (some '\x60') (escapeTemplate t ++ u) [] ('$' :: '{' :: rest)) :
    Passes (some '\x60') u [] ('$' :: '{' :: rest) := by
  induction t with
  | nil => exact h
  | cons c t ih =>
    rw [escapeTemplate_cons, append_assoc] at h
    obtain heq | ⟨⟨-, hdollar, hslash⟩, heq⟩ := escapeTemplate_cases c <;> rw [heq] at h
    · cases h with
      | escape h => exact ih h
      | quoted hescape => exact absurd rfl hescape
    · generalize hv : [c] ++ (escapeTemplate t ++ u) = v at h
      cases h with
      | done => exact absurd (cons.inj hv).1 hdollar
      | escape => exact absurd (cons.inj hv).1 hslash
      | quoted _ _ _ _ h =>
        cases hv
        exact ih h
      | hole => exact absurd (cons.inj hv).1 hdollar

theorem template_expr (e : Expr) (t : Text) :
    Piece.template decode (.expr e) ++ t = '$' :: '{' :: (e.source ++ '}' :: t) := by
  simp [Piece.template]

theorem passes_templates (hpieces : ∀ e, .expr e ∈ pieces → e.isHole)
    (h : Passes (some '\x60') u [] rest) :
    Passes (some '\x60') (pieces.flatMap (Piece.template decode) ++ u) [] rest := by
  induction pieces with
  | nil => exact h
  | cons piece pieces ih =>
    have ih := ih fun e he => hpieces e (mem_cons_of_mem _ he)
    rw [flatMap_cons, append_assoc]
    cases piece with
    | text t => exact passes_escapeTemplate ih
    | comment t => exact ih
    | expr e =>
      obtain ⟨outside, hpasses, hbalanced⟩ := (hpieces e mem_cons_self).passes _
      rw [template_expr]
      exact .hole hpasses hbalanced ih

/-- The holes of a template are its expressions. -/
theorem passes_templates_iff (hpieces : ∀ e, .expr e ∈ pieces → e.isHole) :
    Passes (some '\x60') (pieces.flatMap (Piece.template decode) ++ '\x60' :: t) []
        ('$' :: '{' :: rest) ↔
      ∃ front e back, pieces = front ++ .expr e :: back ∧
        rest = e.source ++ '}' :: (back.flatMap (Piece.template decode) ++ '\x60' :: t) := by
  constructor
  · intro h
    induction pieces with
    | nil =>
      cases h with
      | quoted _ hend => exact absurd rfl hend
    | cons piece pieces ih =>
      have ih := ih fun e he => hpieces e (mem_cons_of_mem _ he)
      rw [flatMap_cons, append_assoc] at h
      have hlater : Passes (some '\x60') (pieces.flatMap (Piece.template decode) ++ '\x60' :: t) []
          ('$' :: '{' :: rest) → ∃ front e back, piece :: pieces = front ++ .expr e :: back ∧
            rest = e.source ++ '}' :: (back.flatMap (Piece.template decode) ++ '\x60' :: t) := by
        intro h
        obtain ⟨front, e, back, heq, hrest⟩ := ih h
        exact ⟨piece :: front, e, back, congrArg (cons piece) heq, hrest⟩
      cases piece with
      | text t => exact hlater (of_passes_escapeTemplate h)
      | comment t => exact hlater h
      | expr e =>
        obtain ⟨outside, hpasses, hbalanced⟩ := (hpieces e mem_cons_self).passes
          (pieces.flatMap (Piece.template decode) ++ '\x60' :: t)
        rw [template_expr] at h
        generalize hv : e.source ++ '}' :: _ = v at h hpasses
        cases h with
        | done => exact ⟨[], e, pieces, rfl, hv.symm⟩
        | quoted _ _ _ hhole => exact absurd ⟨_, rfl⟩ (hhole rfl)
        | hole hpasses' hbalanced' h =>
          cases (hpasses.close_group (b := .curly) hbalanced).symm.trans
            (hpasses'.close_group (b := .curly) hbalanced')
          exact hlater h
  · rintro ⟨front, e, back, rfl, rfl⟩
    rw [flatMap_append, append_assoc, flatMap_cons, append_assoc, template_expr]
    exact passes_templates (fun e he => hpieces e (mem_append_left _ he)) .done

end

open Scan in
/-- A text that is quoted has no line break and no control character in it, denotes the text and is
read whole. A template is read whole too if each expression is a group in braces, and its holes are
these expressions. -/
theorem literals_read_whole :
    (∀ t : Text, (∀ c ∈ quote t, isControl c = false ∧ c ≠ '\u2028' ∧ c ≠ '\u2029') ∧
      Literal.value? (quote t) = some (units t) ∧
      ∀ (rest : Text) (cur : Cursor), cur.rest = quote t ++ rest →
        skipString cur = .ok (quote t) (cur.advance (quote t).length)) ∧
    ∀ (decode : Bool) (pieces : List Piece) (joined rest : Text) (cur : Cursor),
      (∀ e, .expr e ∈ pieces → e.isHole) → Piece.join? .modern decode pieces = some joined →
      cur.rest = joined ++ rest →
        skipString cur = .ok joined (cur.advance joined.length) ∧
        ∀ more, Passes (some '\x60') (cur.rest.drop 1) [] ('$' :: '{' :: more) ↔
          ∃ front e back, pieces.filter Piece.counts = front ++ .expr e :: back ∧
            more = e.source ++ '}' :: (back.flatMap
              (Piece.template (if decode then decodeEntities else id)) ++ '\x60' :: rest) := by
  have hread {q : Char} {body rest : Text} {cur : Cursor} (hq : isQuote q = true)
      (hrest : cur.rest = q :: (body ++ q :: rest))
      (h : Passes (some q) (body ++ q :: rest) [] (q :: rest)) :
      skipString cur = .ok (q :: (body ++ [q])) (cur.advance (q :: (body ++ [q])).length) := by
    have hstring : Lexeme.string cur.position cur.rest = .ok (q :: (body ++ [q])).length := by
      rw [hrest]
      exact (string_eq_ok_iff hq).mpr ⟨body, rest, rfl, by simp, h⟩
    have htake : cur.rest.take (q :: (body ++ [q])).length = q :: (body ++ [q]) := by
      have happend : q :: (body ++ q :: rest) = q :: (body ++ [q]) ++ rest := by simp
      rw [hrest, happend, take_left]
    rw [skipString, lexeme, hstring]
    dsimp only
    rw [htake]
  refine ⟨fun t => ⟨fun c => not_control_of_mem_quote, ?_, ?_⟩, ?_⟩
  · have hvalue := Literal.read_quote t []
    rw [append_nil] at hvalue
    rw [Literal.value?, hvalue]
    simp [Literal.read]
  · intro rest cur hrest
    refine hread (q := '\x22') rfl ?_ (passes_quote t rest)
    simpa [quote] using hrest
  · intro decode pieces joined rest cur hpieces hjoin hrest
    have hcounts : ∀ e, .expr e ∈ pieces.filter Piece.counts → e.isHole := fun e he =>
      hpieces e (mem_filter.mp he).1
    unfold Piece.join? at hjoin
    dsimp only at hjoin
    split at hjoin
    · cases hjoin
    cases hjoin
    have hrest : cur.rest = '\x60' :: ((pieces.filter Piece.counts).flatMap
        (Piece.template (if decode then decodeEntities else id)) ++ '\x60' :: rest) := by
      simpa using hrest
    refine ⟨hread rfl hrest (passes_templates hcounts .done), fun more => ?_⟩
    rw [hrest, drop_one, tail_cons]
    exact passes_templates_iff hcounts

open Scan in
/-- A template in the expression of a template, after a quote of the same kind. -/
theorem literals_read_whole_nested :
    let e : Expr := ⟨"f(\x60$\x7bb\x7d\x60)", false⟩
    let joined : Text := "\x60a\\\x60$\x7bf(\x60$\x7bb\x7d\x60)\x7d\x60"
    e.isHole ∧ Piece.join? .modern false [.text "a\x60", .expr e] = some joined ∧
      skipString (.ofText (joined ++ " + c") 0) =
        .ok joined ((Cursor.ofText (joined ++ " + c") 0).advance joined.length) := by
  intro e joined
  have hhole : e.isHole := by
    have hsome : (group 0 ('{' :: (e.source ++ ['}']))).toOption = some (e.source.length + 2) := by
      decide +kernel
    refine ⟨0, ?_⟩
    revert hsome
    generalize group 0 ('{' :: (e.source ++ ['}'])) = r
    intro hsome
    cases r with
    | error s => cases hsome
    | ok m => exact congrArg _ (Option.some.inj hsome)
  have hjoin : Piece.join? .modern false [.text "a\x60", .expr e] = some joined := by decide +kernel
  have hpieces : ∀ e', .expr e' ∈ ([.text "a\x60", .expr e] : List Piece) → e'.isHole := by
    intro e' he'
    rcases mem_cons.mp he' with he' | he'
    · cases he'
    · rw [Piece.expr.inj (mem_singleton.mp he')]
      exact hhole
  exact ⟨hhole, hjoin, (literals_read_whole.2 false _ joined " + c" _ hpieces hjoin rfl).1⟩

end Patchwork
