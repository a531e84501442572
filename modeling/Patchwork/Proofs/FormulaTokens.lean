import Patchwork.Style.Formula

/-!
# The tokens of a formula

An arithmetic expression has the tokens it is read from (`Calc.tokens`), and the reader never reads
anything else (`tokens_of_ofTokens?`). So what an expression is made of can be seen in its tokens:
whether it has operators, running operands or units.

Not every list of tokens is an expression. It is one when operators stand between operands, each a
number or an expression with at most one sign (`Joined`), whatever the operators are: the reader then
comes to the end with the fuel it is given (`ofTokens?_isSome`). It is none when it ends in an
operator (`ofTokens?_concat_op`).
-/

namespace Patchwork.Style

open List Option

namespace Token

/-- Is the token an operand only known when the generated code runs? -/
def isRunning : Token → Bool
  | running _ => true
  | _ => false

def hasUnit : Token → Bool
  | number q => q.unit.isSome
  | _ => false

def isOp : Token → Bool
  | op _ => true
  | _ => false

end Token

namespace Calc

def tokens : Calc → List Token
  | literal q => [.number q]
  | running source => [.running source]
  | negate e => .op .sub :: e.tokens
  | group e => .openParen :: (e.tokens ++ [.closeParen])
  | binary o l r => l.tokens ++ .op o :: r.tokens

theorem operators_eq (e : Calc) : e.operators = e.tokens.countP Token.isOp := by
  induction e with
  | literal | running => rfl
  | negate e ih => simp [operators, tokens, Token.isOp, countP_cons, ih, Nat.add_comm]
  | group e ih => simp [operators, tokens, Token.isOp, ih]
  | binary o l r ihl ihr =>
    simp only [operators, tokens, countP_append, countP_cons, Token.isOp, ite_true]
    omega

theorem hasRunning_eq (e : Calc) : e.hasRunning = e.tokens.any Token.isRunning := by
  induction e with
  | literal | running => rfl
  | negate e ih | group e ih => simp [hasRunning, tokens, Token.isRunning, ih]
  | binary o l r ihl ihr => simp [hasRunning, tokens, Token.isRunning, ihl, ihr]

theorem hasUnit_eq (e : Calc) : e.hasUnit = e.tokens.any Token.hasUnit := by
  induction e with
  | literal q => simp [hasUnit, tokens, Token.hasUnit]
  | running source => rfl
  | negate e ih | group e ih => simp [hasUnit, tokens, Token.hasUnit, ih]
  | binary o l r ihl ihr => simp [hasUnit, tokens, Token.hasUnit, ihl, ihr]

theorem exists_tokens_eq (e : Calc) : ∃ ts t, e.tokens = ts ++ [t] ∧ t.endsOperand = true := by
  induction e with
  | literal | running => exact ⟨[], _, rfl, rfl⟩
  | negate e ih =>
    obtain ⟨ts, t, h, ht⟩ := ih
    exact ⟨.op .sub :: ts, t, by rw [tokens, h]; rfl, ht⟩
  | group e ih => exact ⟨.openParen :: e.tokens, _, rfl, rfl⟩
  | binary o l r ihl ihr =>
    obtain ⟨ts, t, h, ht⟩ := ihr
    exact ⟨l.tokens ++ .op o :: ts, t, by simp [tokens, h], ht⟩

end Calc

namespace Formula

/-! ## What has been read -/

/-- The three readers, for one amount of fuel, read the tokens of their answer. -/
structure ReadsTokens (fuel : Nat) : Prop where
  operand : ∀ {ts e rest}, operand? fuel ts = some (e, rest) → ts = e.tokens ++ rest
  expr : ∀ {least ts e rest}, expr? fuel least ts = some (e, rest) → ts = e.tokens ++ rest
  climb : ∀ {least left ts e rest}, climb? fuel least left ts = some (e, rest) →
    left.tokens ++ ts = e.tokens ++ rest

variable {fuel : Nat} {ts rest : List Token} {e : Calc}

theorem operand?_reads (ih : ReadsTokens fuel) (h : operand? (fuel + 1) ts = some (e, rest)) :
    ts = e.tokens ++ rest := by
  cases ts with
  | nil => cases h
  | cons t ts =>
    cases t with
    | number | running =>
      cases h
      rfl
    | op o =>
      cases o with
      | sub =>
        obtain ⟨⟨inner, after⟩, hinner, heq⟩ := map_eq_some_iff.mp h
        cases heq
        rw [ih.expr hinner]
        rfl
      | add | mul | div | rem => cases h
    | openParen =>
      unfold operand? at h
      split at h
      next inner after hinner =>
        cases h
        rw [ih.expr hinner, Calc.tokens]
        simp only [cons_append, append_assoc, nil_append]
      · cases h
    | closeParen => cases h

theorem climb?_reads {least : Nat} (ih : ReadsTokens fuel) {left : Calc}
    (h : climb? (fuel + 1) least left ts = some (e, rest)) :
    left.tokens ++ ts = e.tokens ++ rest := by
  cases ts with
  | nil =>
    cases h
    rfl
  | cons t ts =>
    cases t with
    | op o =>
      unfold climb? at h
      split at h
      · cases h
        rfl
      obtain ⟨⟨right, after⟩, hright, hclimb⟩ := bind_eq_some_iff.mp h
      rw [← ih.climb hclimb, ih.expr hright, Calc.tokens]
      simp only [cons_append, append_assoc]
    | number | running | openParen | closeParen =>
      cases h
      rfl

theorem readsTokens (fuel : Nat) : ReadsTokens fuel := by
  induction fuel with
  | zero => exact ⟨nofun, nofun, nofun⟩
  | succ fuel ih =>
    refine ⟨operand?_reads ih, fun {least ts e rest} h => ?_, climb?_reads ih⟩
    obtain ⟨⟨left, after⟩, hleft, hclimb⟩ := bind_eq_some_iff.mp h
    rw [ih.operand hleft]
    exact ih.climb hclimb

theorem tokens_of_ofTokens? (h : ofTokens? ts = some e) : e.tokens = ts := by
  unfold ofTokens? at h
  split at h
  next hread =>
    cases h
    rw [(readsTokens _).expr hread, append_nil]
  · cases h

theorem ofTokens?_concat_op (ts : List Token) (o : Operator) : ofTokens? (ts ++ [.op o]) = none := by
  refine eq_none_iff_forall_ne_some.mpr fun e h => ?_
  obtain ⟨front, t, htokens, ht⟩ := e.exists_tokens_eq
  rw [tokens_of_ofTokens? h] at htokens
  obtain ⟨-, heq⟩ := append_inj' htokens rfl
  cases heq
  cases ht

/-! ## Operands joined by operators -/

/-- A number, or an expression with or without a sign. -/
inductive Operand : List Token → Prop where
  | number (q : Quantity) : Operand [.number q]
  | running (source : Text) : Operand [.running source]
  | negated (source : Text) : Operand [.op .sub, .running source]

theorem Operand.length_pos (h : Operand ts) : 0 < ts.length := by
  cases h <;> exact Nat.zero_lt_succ _

/-- Operands with an operator between each two of them. -/
inductive Joined : List Token → Prop where
  | single {ts : List Token} : Operand ts → Joined ts
  | more {ts rest : List Token} (o : Operator) : Operand ts → Joined rest →
    Joined (ts ++ .op o :: rest)

/-- What may follow an operand: nothing, or operators with operands. -/
inductive Tail : List Token → Prop where
  | nil : Tail []
  | op {ts : List Token} (o : Operator) : Joined ts → Tail (.op o :: ts)

/-- Where the reader stops: at the end, or before an operator that binds less strongly. -/
inductive Stops (least : Nat) : List Token → Prop where
  | nil : Stops least []
  | op {ts : List Token} (o : Operator) : power o < least → Joined ts → Stops least (.op o :: ts)

theorem Stops.tail {least : Nat} (h : Stops least ts) : Tail ts := by
  cases h with
  | nil => exact .nil
  | op o _ hjoined => exact .op o hjoined

theorem Joined.eq_append (h : Joined ts) : ∃ x rest, ts = x ++ rest ∧ Operand x ∧ Tail rest := by
  cases h with
  | single hx => exact ⟨_, [], (append_nil _).symm, hx, .nil⟩
  | more o hx hrest => exact ⟨_, _, rfl, hx, .op o hrest⟩

/-- A sign binds more strongly than what may follow its operand. -/
theorem climb?_tail {left : Calc} (h : Tail ts) :
    climb? (fuel + 1) signPower left ts = some (left, ts) := by
  cases h with
  | nil => rfl
  | op o _ => cases o <;> rfl

theorem operand?_append (fuel : Nat) {x : List Token} (hx : Operand x) (hrest : Tail rest)
    (hfuel : 2 * x.length ≤ fuel + 1) : ∃ e, operand? fuel (x ++ rest) = some (e, rest) := by
  cases hx with
  | number | running =>
    obtain ⟨fuel, rfl⟩ : ∃ k, fuel = k + 1 := ⟨fuel - 1, by simp at hfuel; omega⟩
    exact ⟨_, rfl⟩
  | negated source =>
    obtain ⟨fuel, rfl⟩ : ∃ k, fuel = k + 3 := ⟨fuel - 3, by simp at hfuel; omega⟩
    refine ⟨.negate (.running source), ?_⟩
    show (climb? (fuel + 1) signPower (.running source) rest).map _ = _
    rw [climb?_tail hrest]
    rfl

/-- With enough fuel for the tokens, the readers come to a stop. -/
structure Succeeds (fuel : Nat) : Prop where
  expr : ∀ least {ts}, Joined ts → 2 * ts.length ≤ fuel →
    ∃ e rest, expr? fuel least ts = some (e, rest) ∧ Stops least rest ∧ rest.length < ts.length
  climb : ∀ least left {ts}, Tail ts → 2 * ts.length + 1 ≤ fuel →
    ∃ e rest, climb? fuel least left ts = some (e, rest) ∧ Stops least rest ∧
      rest.length ≤ ts.length

theorem expr?_succeeds (ih : Succeeds fuel) (least : Nat) (h : Joined ts)
    (hfuel : 2 * ts.length ≤ fuel + 1) :
    ∃ e rest, expr? (fuel + 1) least ts = some (e, rest) ∧ Stops least rest ∧
      rest.length < ts.length := by
  obtain ⟨x, tail, rfl, hx, htail⟩ := h.eq_append
  have hpos := hx.length_pos
  rw [length_append] at hfuel
  obtain ⟨left, hleft⟩ := operand?_append fuel hx htail (by omega)
  obtain ⟨e, rest, hclimb, hstops, hle⟩ := ih.climb least left htail (by omega)
  refine ⟨e, rest, ?_, hstops, ?_⟩
  · rw [expr?, hleft]
    exact hclimb
  · rw [length_append]
    omega

theorem climb?_succeeds (ih : Succeeds fuel) (least : Nat) (left : Calc) (h : Tail ts)
    (hfuel : 2 * ts.length + 1 ≤ fuel + 1) :
    ∃ e rest, climb? (fuel + 1) least left ts = some (e, rest) ∧ Stops least rest ∧
      rest.length ≤ ts.length := by
  cases h with
  | nil => exact ⟨left, [], rfl, .nil, Nat.le_refl _⟩
  | @op ts o hjoined =>
    rw [length_cons] at hfuel
    unfold climb?
    split
    next hlt => exact ⟨left, _, rfl, .op o hlt hjoined, Nat.le_refl _⟩
    obtain ⟨right, after, hright, hafter, hlt⟩ := ih.expr (power o + 1) hjoined (by omega)
    obtain ⟨e, rest, hclimb, hstops, hle⟩ :=
      ih.climb least (.binary o left right) hafter.tail (by omega)
    refine ⟨e, rest, ?_, hstops, ?_⟩
    · rw [hright]
      exact hclimb
    · rw [length_cons]
      omega

theorem succeeds (fuel : Nat) : Succeeds fuel := by
  induction fuel with
  | zero =>
    refine ⟨fun least ts h hfuel => ?_, fun _ _ _ _ hfuel => absurd hfuel (by omega)⟩
    obtain ⟨x, tail, rfl, hx, -⟩ := h.eq_append
    have hpos := hx.length_pos
    rw [length_append] at hfuel
    omega
  | succ fuel ih =>
    exact ⟨fun least _ => expr?_succeeds ih least, fun least left _ => climb?_succeeds ih least left⟩

theorem ofTokens?_isSome (h : Joined ts) : (ofTokens? ts).isSome = true := by
  obtain ⟨e, rest, hread, hstops, -⟩ := (succeeds (2 * ts.length + 2)).expr 0 h (by omega)
  cases hstops with
  | nil =>
    rw [ofTokens?, hread]
    rfl
  | op o hlt _ => exact absurd hlt (Nat.not_lt_zero _)

end Formula
end Patchwork.Style
