import Patchwork.Document
import Patchwork.Proofs.Enclosed
import Patchwork.Proofs.Steps

/-!
# What a reactive function returns

A value that reads through the tracker is put into a function, so that it can be computed again. The
function is one expression long, and the source of the value is written into it as it stands: behind
the arrow in one dialect, behind `return` in the other. `returned?` reads such a function and gives
the expression that it returns. The expression ends where a closing bracket, a semicolon or, in an
argument, a comma stands outside of everything. A brace at its start would be that of a block, and
after a line break nothing is returned.

`wrapped_returned_iff` says for which sources the function returns the source, wherever the compiler
writes one (`Wraps`). A brace, a comma or a line break in a joined text does no harm, since its
expressions stand between brackets. An expression that stands alone may begin with a brace or a line
break or have a comma of its own: `alone_not_returned` has one document for each.
-/

namespace Patchwork

open List Text Option

open Conditional (Place Enclosed tops Passes)
open Lexeme (opening?)

namespace Returning

/-! ## Reading a function -/

def isLineBreak (c : Char) : Bool :=
  c == '\n' || c == '\r' || c == '\u2028' || c == '\u2029'

/-- The blanks and comments at the front. A comment that does not end takes in everything. -/
def lead (t : Text) : Text :=
  match Lexeme.blanks true 0 t with
  | .ok n => t.take n
  | .error _ => t

def first? (t : Text) : Option Char :=
  (t.drop (lead t).length).head?

/-- Does the character end the body of a function, where it stands outside of everything? -/
def ends (dialect : Dialect) (c : Char) : Bool :=
  (opening? c).isSome || c == ';' || dialect == .modern && c == ','

def upTo (dialect : Dialect) (past : Text) (s : Place) : Text → Option Text
  | [] => none
  | c :: t =>
    if s.layers.isEmpty && (s.step past c).layers.isEmpty && ends dialect c then some []
    else (upTo dialect (c :: past) (s.step past c) t).map (c :: ·)

/-- Does a function with the body return it? Behind an arrow a brace begins a block, and a line
break behind `return` ends the statement. -/
def returns : Dialect → Text → Bool
  | .modern, e => (first? e).any (· != '{')
  | .legacy, e => (first? e).isSome && !(lead e).any isLineBreak

/-- What stands before the body of a reactive function. -/
def front (o : Output) : Text :=
  o.feature "coff" ++ '(' :: o.context ++ ", " ++
    match o.dialect with
    | .modern => Output.arrowParams o.names.tracker ++ " => "
    | .legacy => "function(" ++ o.names.tracker ++ ")\x7breturn "

def returned? (o : Output) (code : Text) : Option Text :=
  (Text.after? (front o) code).bind fun t => (upTo o.dialect [] .code t).filter (returns o.dialect)

/-! ## What is returned -/

/-- A text that can stand as an expression by itself: there is something in it, it closes what it
opens and nothing else, and no semicolon ends it. -/
def Complete (e : Text) : Prop :=
  (first? e).isSome = true ∧ Enclosed e ∧ ';' ∉ tops [] .code e

instance (e : Text) : Decidable (Complete e) :=
  inferInstanceAs (Decidable (_ ∧ _))

/-- A text that is returned when it is put into a reactive function as it stands. -/
def Returnable : Dialect → Text → Prop
  | .modern, e => Complete e ∧ first? e ≠ some '{' ∧ ',' ∉ tops [] .code e
  | .legacy, e => Complete e ∧ ∀ c ∈ lead e, isLineBreak c = false

instance (dialect : Dialect) (e : Text) : Decidable (Returnable dialect e) := by
  cases dialect with
  | modern => exact inferInstanceAs (Decidable (_ ∧ _))
  | legacy => exact @instDecidableAnd _ _ inferInstance (decidableBAll _ _)

variable {dialect : Dialect} {past t more : Text} {s : Place} {c b : Char}

/-- Before a closing bracket it shows whether anything is open. -/
theorem settled_iff (hb : opening? c = some b) (past : Text) :
    (s.layers.isEmpty && (s.step past c).layers.isEmpty) = true ↔ s.Settled := by
  obtain ⟨layers, slash⟩ := s
  cases layers with
  | cons => exact iff_of_false Bool.false_ne_true (fun h => cons_ne_nil _ _ h.1)
  | nil =>
    rcases Conditional.eq_of_opening? hb with ⟨rfl, -⟩ | ⟨rfl, -⟩ | ⟨rfl, -⟩ <;>
    · rcases slash with _ | _ | _
      · exact iff_of_true rfl ⟨rfl, by decide⟩
      · exact iff_of_true rfl ⟨rfl, by decide⟩
      · exact iff_of_false Bool.false_ne_true (fun h => h.2 rfl)

/-- A text is read up to the closing bracket behind it if it has no end of its own outside of
everything and leaves nothing open. -/
theorem upTo_eq_iff (hb : opening? c = some b) :
    upTo dialect past s (t ++ c :: more) = some t ↔
      (∀ a ∈ tops past s t, ends dialect a = false) ∧ (s.after past t).Settled := by
  induction t generalizing past s with
  | nil =>
    have hends : ends dialect c = true := by
      rw [ends, hb]
      rfl
    rw [nil_append, upTo, hends, Bool.and_true]
    split
    next hc => exact iff_of_true rfl ⟨forall_mem_nil _, (settled_iff hb past).mp hc⟩
    next hc =>
      refine iff_of_false ?_ fun h => hc ((settled_iff hb past).mpr h.2)
      intro h
      obtain ⟨_, -, hcons⟩ := map_eq_some_iff.mp h
      cases hcons
  | cons a t ih =>
    rw [cons_append, upTo, tops, Place.after, forall_mem_append]
    by_cases htop : (s.layers.isEmpty && (s.step past a).layers.isEmpty) = true
    · rw [htop, if_pos rfl, forall_mem_singleton]
      cases ends dialect a with
      | true => exact iff_of_false (by rintro ⟨⟩) (fun h => Bool.noConfusion h.1.1)
      | false => simpa using ih
    · simpa [htop] using ih

theorem forall_ends_iff {e : Text} : (∀ a ∈ e, ends dialect a = false) ↔
    (∀ a ∈ e, opening? a = none) ∧ ';' ∉ e ∧ (dialect = .modern → ',' ∉ e) := by
  have hone : ∀ a, ends dialect a = false ↔
      opening? a = none ∧ a ≠ ';' ∧ (dialect = .modern → a ≠ ',') := by
    simp [ends, and_assoc]
  constructor
  · intro h
    refine ⟨fun a ha => ((hone a).mp (h a ha)).1, fun hmem => ?_, fun hmodern hmem => ?_⟩
    · exact ((hone _).mp (h _ hmem)).2.1 rfl
    · exact ((hone _).mp (h _ hmem)).2.2 hmodern rfl
  · rintro ⟨hopening, hsemicolon, hcomma⟩ a ha
    refine (hone a).mpr ⟨hopening a ha, ?_, fun hmodern => ?_⟩
    · exact fun heq => hsemicolon (heq ▸ ha)
    · exact fun heq => hcomma hmodern (heq ▸ ha)

theorem after?_append (p t : Text) : Text.after? p (p ++ t) = some t := by
  rw [Text.after?, startsWith, List.isPrefixOf_iff_prefix.mpr (prefix_append ..),
    if_pos rfl, drop_left]

theorem wrapReactive_append (o : Output) (source more : Text) : ∃ c b tail,
    opening? c = some b ∧ o.wrapReactive source ++ more = front o ++ (source ++ c :: tail) := by
  unfold Output.wrapReactive Output.arrow front
  cases o.dialect with
  | modern => exact ⟨')', '(', more, rfl, by simp⟩
  | legacy => exact ⟨'}', '{', ".bind(this))" ++ more, rfl, by simp⟩

/-- A source is returned by its function exactly if it can be returned as it stands. -/
theorem returned?_wrapReactive_iff (o : Output) (source more : Text) :
    returned? o (o.wrapReactive source ++ more) = some source ↔ Returnable o.dialect source := by
  obtain ⟨c, b, tail, hb, hcode⟩ := wrapReactive_append o source more
  rw [returned?, hcode, after?_append, bind_some, filter_eq_some_iff,
    upTo_eq_iff hb, forall_ends_iff]
  cases o.dialect with
  | modern =>
    have hfirst : returns .modern source = true ↔
        (first? source).isSome = true ∧ first? source ≠ some '{' := by
      rw [returns]
      cases first? source <;> simp
    rw [Returnable, Complete, Enclosed]
    grind
  | legacy =>
    have hfirst : returns .legacy source = true ↔
        (first? source).isSome = true ∧ ∀ c ∈ lead source, isLineBreak c = false := by
      rw [returns]
      simp
    rw [Returnable, Complete, Enclosed]
    grind

theorem returnable_join {dialect : Dialect} {decode : Bool} {pieces : List Piece} {joined : Text}
    (h : Piece.join? dialect decode pieces = some joined)
    (hpieces : ∀ e, .expr e ∈ pieces → Enclosed e.source) : Returnable dialect joined := by
  obtain ⟨hafter, htops⟩ := Conditional.join_passes h hpieces
  -- what comes first is the quote
  obtain ⟨q, hlead, hfirst, hq⟩ : ∃ q, lead joined = [] ∧ first? joined = some q ∧ q ≠ '{' := by
    obtain ⟨decode, rfl | rfl⟩ := Conditional.join?_cases h
    · exact ⟨'\x60', rfl, rfl, by decide⟩
    · exact ⟨'\x22', rfl, rfl, by decide⟩
  have hnot : ∀ c, c ≠ ' ' → c ≠ '+' → c ∉ tops [] .code joined := fun c hblank hplus hmem =>
    (htops c hmem).elim hblank hplus
  have hclosers : ∀ c ∈ tops [] .code joined, opening? c = none := by
    intro c hc
    rcases htops c hc with rfl | rfl <;> rfl
  have hcomplete : Complete joined := by
    refine ⟨by rw [hfirst]; rfl, ⟨?_, hclosers⟩, hnot _ (by decide) (by decide)⟩
    rw [hafter]
    decide
  cases dialect with
  | modern =>
    refine ⟨hcomplete, ?_, hnot _ (by decide) (by decide)⟩
    rw [hfirst]
    exact fun heq => hq (Option.some.inj heq)
  | legacy =>
    refine ⟨hcomplete, ?_⟩
    rw [hlead]
    exact forall_mem_nil _

/-! ## Where sources are put into functions -/

/-- The code that the compiler writes for a source that reads through the tracker: for the
expression of an attribute or of markup in a text, for joined pieces, and for a collection that is
computed. -/
inductive Wraps : Output → (code source : Text) → Prop where
  | tagValue {name t code : Text} {start : Nat} {e : Expr} {s s' : Session}
      (hexpand : expand t (start + bytes name + 2) true s = .ok (e, s'))
      (hreactive : e.reactive = true)
      (hcode : StartTag.valueSource name start (.expression t) s = .ok (code, s')) :
      Wraps s'.output code e.source
  | markup {chain chain' : Chain} {tracked : Bool} {code : Text} {e : Expr} {s s' : Session}
      (hbrace : s.cursor.peek? = some '{') (hplain : chain.current.endsWith '\\' = false)
      (hread : readMarker '#' tracked s = .ok (e, s')) (hreactive : e.reactive = true)
      (hchain : chain.textMarker '#' tracked s = .ok (chain', s'))
      (hcode : chain'.links.getLast? = some (.grouped .html code)) :
      Wraps s'.output code e.source
  | joined {o : Output} {decode : Bool} {pieces : List Piece} {code source : Text}
      (hjoin : Piece.join? o.dialect decode pieces = some source)
      (hreactive : pieces.any Piece.isReactive = true)
      (hcode : Piece.joinedValue? o decode pieces = some code) :
      Wraps o code source
  | collection {o : Output} {st : Statement} {each : Each} {code : Text} {slot : SlotId}
      {edits : List Edit} (hcomputed : bareRead? each.unparsed = none)
      (hcode : st.eachEdits each o = ⟨slot, .set (o.feature (if each.iteration == .object then
        "bindFlowEachObject" else "bindFlowEach") ++ '(' :: st.context ++ ", " ++ code ++ ", ")⟩ ::
          edits) :
      Wraps o code each.source

theorem valueSource_reactive {name t : Text} {start : Nat} {e : Expr} {s s' : Session}
    (hexpand : expand t (start + bytes name + 2) true s = .ok (e, s'))
    (hreactive : e.reactive = true) :
    StartTag.valueSource name start (.expression t) s =
      .ok (s'.output.wrapReactive e.source, s') := by
  show (expand t (start + bytes name + 2) true >>= _) s = _
  rw [Compile.bind_apply, hexpand]
  dsimp only
  rw [hreactive]
  rfl

theorem textMarker_reactive {chain : Chain} {tracked : Bool} {e : Expr} {s s' : Session}
    (hbrace : s.cursor.peek? = some '{') (hplain : chain.current.endsWith '\\' = false)
    (hread : readMarker '#' tracked s = .ok (e, s')) (hreactive : e.reactive = true) :
    chain.textMarker '#' tracked s = .ok
      (chain.pushLink s'.output (.grouped .html (s'.output.wrapReactive e.source)), s') := by
  show (if s.cursor.peek? != some '{' then _ else if _ then _ else _ : Compile Chain) s = _
  rw [hbrace, if_neg (by decide), hplain, if_neg Bool.false_ne_true, Compile.bind_apply, hread]
  show Except.ok (chain.pushLink s'.output (.grouped .html
    (if e.reactive then s'.output.wrapReactive e.source else e.source)), s') = _
  rw [hreactive]
  rfl

/-- At each of these places the source is put into the function as it stands. -/
theorem Wraps.code_eq {o : Output} {code source : Text} (h : Wraps o code source) :
    code = o.wrapReactive source := by
  cases h with
  | tagValue hexpand hreactive hcode =>
    rw [valueSource_reactive hexpand hreactive] at hcode
    cases hcode
    rfl
  | markup hbrace hplain hread hreactive hchain hcode =>
    rw [textMarker_reactive hbrace hplain hread hreactive] at hchain
    cases hchain
    rw [Chain.pushLink, getLast?_concat] at hcode
    cases hcode
    rfl
  | joined hjoin hreactive hcode =>
    rw [Piece.joinedValue?, hjoin, map_some, if_pos hreactive] at hcode
    exact (Option.some.inj hcode).symm
  | @collection o st each code slot edits hcomputed hcode =>
    rw [Statement.eachEdits, hcomputed] at hcode
    have hset := (Edit.mk.inj (List.cons.inj hcode).1).2
    have htext := Change.set.inj hset
    exact (append_cancel_left (append_cancel_right htext)).symm

end Returning
end Patchwork
