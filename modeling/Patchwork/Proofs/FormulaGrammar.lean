import Patchwork.Proofs.FormulaTokens

/-!
# The grammar of a formula

An expression is a row of operands with operators between them, and an operand is a number, an
expression that is only known when the code runs, a group, or an operand with a sign (`Derives`). The
grammar says nothing of precedence, so a list of tokens may be read in several ways. One of them is
the standard one (`Calc.Standard`): multiplication binds more strongly than addition, a sign more
strongly than either, and operators of one strength group to the left.

The reader finds the standard tree of every list that the grammar derives, and finds nothing else
(`precedence_grammar`). In one direction, whatever it reads is standard (`readsStandard`), by an
induction on its fuel in which the left operand always binds as strongly as what follows it. In the
other direction, it reads a standard tree back from its tokens: after these it stands in its loop
with this tree on the left (`expr?_tokens`).
-/

namespace Patchwork.Style

open List

/-- Sums are on the first level, and products on the second. -/
def Operator.level : Operator → Nat
  | add | sub => 1
  | mul | div | rem => 2

namespace Formula

/-! ## Derivations -/

/-- The two kinds of phrases. -/
inductive Phrase where
  | operand | row
  deriving DecidableEq, Repr

/-- The lists of tokens that are phrases of a kind. -/
inductive Derives : Phrase → List Token → Prop where
  | number (q : Quantity) : Derives .operand [.number q]
  | running (source : Text) : Derives .operand [.running source]
  | negated {ts : List Token} : Derives .operand ts → Derives .operand (.op .sub :: ts)
  | group {ts : List Token} : Derives .row ts →
    Derives .operand (.openParen :: (ts ++ [.closeParen]))
  | single {ts : List Token} : Derives .operand ts → Derives .row ts
  | more {ts us : List Token} (o : Operator) : Derives .row ts → Derives .operand us →
    Derives .row (ts ++ .op o :: us)

theorem Derives.join {p : Phrase} {ts us : List Token} (o : Operator) (hts : Derives .row ts)
    (hus : Derives p us) : Derives .row (ts ++ .op o :: us) := by
  induction hus with
  | number q => exact .more o hts (.number q)
  | running source => exact .more o hts (.running source)
  | negated h _ => exact .more o hts (.negated h)
  | group h _ => exact .more o hts (.group h)
  | single _ ih => exact ih
  | more o' _ hus ih =>
    have hmore := Derives.more o' ih hus
    rwa [append_assoc] at hmore

end Formula

namespace Calc

open Formula

/-! ## Standard trees -/

def outerOps : Calc → List Operator
  | literal _ | running _ | group _ => []
  | negate e => e.outerOps
  | binary o l r => l.outerOps ++ o :: r.outerOps

/-- The operators in no group of a left operand are on the level of the operator or above it, those of
a right operand are above it, and under a sign there are none. -/
inductive Standard : Calc → Prop where
  | literal (q : Quantity) : Standard (literal q)
  | running (source : Text) : Standard (running source)
  | negate {e : Calc} : Standard e → e.outerOps = [] → Standard (negate e)
  | group {e : Calc} : Standard e → Standard (group e)
  | binary {o : Operator} {l r : Calc} : Standard l → Standard r →
    (∀ p ∈ l.outerOps, o.level ≤ p.level) → (∀ p ∈ r.outerOps, o.level < p.level) →
    Standard (binary o l r)

/-- Join an operand to a tree by an operator: at the end of the right operand if that operator is on
a higher level. -/
def graft (o : Operator) (u : Calc) : Calc → Calc
  | binary p l r =>
    if p.level < o.level then binary p l (graft o u r) else binary o (binary p l r) u
  | e => binary o e u

theorem tokens_graft (o : Operator) (u e : Calc) :
    (graft o u e).tokens = e.tokens ++ .op o :: u.tokens := by
  induction e with
  | literal | running | negate | group => rfl
  | binary p l r _ ih =>
    unfold graft
    split
    · rw [tokens, ih, tokens]
      simp only [append_assoc, cons_append]
    · rfl

theorem outerOps_graft (o : Operator) {u : Calc} (hu : u.outerOps = []) (e : Calc) :
    (graft o u e).outerOps = e.outerOps ++ [o] := by
  induction e with
  | literal | running => exact congrArg (o :: ·) hu
  | negate e _ => exact congrArg (e.outerOps ++ o :: ·) hu
  | group e _ => exact congrArg (o :: ·) hu
  | binary p l r _ ih =>
    unfold graft
    split
    · rw [outerOps, ih, outerOps]
      simp only [append_assoc, cons_append]
    · exact congrArg ((binary p l r).outerOps ++ o :: ·) hu

theorem Standard.graft {e : Calc} (he : Standard e) (o : Operator) {u : Calc} (hu : Standard u)
    (houter : u.outerOps = []) : Standard (graft o u e) := by
  have hright : ∀ p ∈ u.outerOps, o.level < p.level := by
    rw [houter]
    exact nofun
  -- without operators of its own, the tree is a left operand as it is
  have hleft {e : Calc} (he : Standard e) (hnone : e.outerOps = []) : Standard (.binary o e u) := by
    refine .binary he hu ?_ hright
    rw [hnone]
    exact nofun
  induction he with
  | literal q => exact hleft (.literal q) rfl
  | running source => exact hleft (.running source) rfl
  | negate he hnone _ => exact hleft (.negate he hnone) hnone
  | group he _ => exact hleft (.group he) rfl
  | @binary p l r hl hr hlp hrp _ ih =>
    unfold Calc.graft
    split
    next hlt =>
      refine .binary hl ih hlp fun q hq => ?_
      rw [outerOps_graft o houter] at hq
      rcases mem_append.mp hq with hq | hq
      · exact hrp q hq
      · rwa [mem_singleton.mp hq]
    next hle =>
      refine .binary (.binary hl hr hlp hrp) hu (fun q hq => ?_) hright
      have hop : o.level ≤ p.level := Nat.le_of_not_lt hle
      rcases mem_append.mp hq with hq | hq
      · exact Nat.le_trans hop (hlp q hq)
      · rcases mem_cons.mp hq with rfl | hq
        · exact hop
        · exact Nat.le_trans hop (Nat.le_of_lt (hrp q hq))

/-- Every phrase is written by a standard tree, and an operand by one without outer operators. -/
theorem exists_standard {p : Phrase} {ts : List Token} (h : Derives p ts) :
    ∃ e : Calc, e.Standard ∧ e.tokens = ts ∧ (p = .operand → e.outerOps = []) := by
  induction h with
  | number q => exact ⟨.literal q, .literal q, rfl, fun _ => rfl⟩
  | running source => exact ⟨.running source, .running source, rfl, fun _ => rfl⟩
  | negated _ ih =>
    obtain ⟨e, he, htokens, houter⟩ := ih
    exact ⟨.negate e, .negate he (houter rfl), congrArg (_ :: ·) htokens, fun _ => houter rfl⟩
  | group _ ih =>
    obtain ⟨e, he, htokens, -⟩ := ih
    exact ⟨.group e, .group he, by rw [tokens, htokens], fun _ => rfl⟩
  | single _ ih =>
    obtain ⟨e, he, htokens, -⟩ := ih
    exact ⟨e, he, htokens, by rintro ⟨⟩⟩
  | more o _ _ ihts ihus =>
    obtain ⟨e, he, hts, -⟩ := ihts
    obtain ⟨u, hu, hus, houter⟩ := ihus
    exact ⟨graft o u e, he.graft o hu (houter rfl), by rw [tokens_graft, hts, hus], by rintro ⟨⟩⟩

theorem Standard.derives {e : Calc} (he : Standard e) :
    Derives .row e.tokens ∧ (e.outerOps = [] → Derives .operand e.tokens) := by
  induction he with
  | literal q => exact ⟨.single (.number q), fun _ => .number q⟩
  | running source => exact ⟨.single (.running source), fun _ => .running source⟩
  | negate _ houter ih =>
    have hoperand := Derives.negated (ih.2 houter)
    exact ⟨.single hoperand, fun _ => hoperand⟩
  | group _ ih =>
    have hoperand := Derives.group ih.1
    exact ⟨.single hoperand, fun _ => hoperand⟩
  | binary _ _ _ _ ihl ihr =>
    exact ⟨.join _ ihl.1 ihr.1, fun h => absurd (append_eq_nil_iff.mp h).2 (cons_ne_nil _ _)⟩

end Calc

namespace Formula

/-! ## What is read is standard -/

/-- The operator that comes next, if one does, binds less strongly than `bound`. -/
def BindsBelow (bound : Nat) (ts : List Token) : Prop :=
  ∀ o rest, ts = .op o :: rest → power o < bound

theorem BindsBelow.nil (bound : Nat) : BindsBelow bound [] := nofun

/-- With one amount of fuel the three readers give standard trees, and stop only before an operator
that binds too weakly. -/
structure ReadsStandard (fuel : Nat) : Prop where
  operand : ∀ {ts e rest}, operand? fuel ts = some (e, rest) → e.Standard ∧ e.outerOps = []
  expr : ∀ {least ts e rest}, expr? fuel least ts = some (e, rest) →
    e.Standard ∧ (∀ p ∈ e.outerOps, least ≤ power p) ∧ BindsBelow least rest
  climb : ∀ {least left ts e rest}, climb? fuel least left ts = some (e, rest) → left.Standard →
    (∀ p ∈ left.outerOps, least ≤ power p ∧ BindsBelow (power p + 1) ts) →
    e.Standard ∧ (∀ p ∈ e.outerOps, least ≤ power p) ∧ BindsBelow least rest

theorem power_eq (o : Operator) : power o = 2 * o.level := by
  cases o <;> rfl

theorem power_lt_signPower (o : Operator) : power o < signPower := by
  cases o <;> decide

variable {fuel : Nat} {ts : List Token} {e : Calc}

theorem operand?_standard (ih : ReadsStandard fuel) {rest : List Token}
    (h : operand? (fuel + 1) ts = some (e, rest)) : e.Standard ∧ e.outerOps = [] := by
  cases ts with
  | nil => cases h
  | cons t ts =>
    cases t with
    | number q =>
      cases h
      exact ⟨.literal q, rfl⟩
    | running source =>
      cases h
      exact ⟨.running source, rfl⟩
    | op o =>
      cases o with
      | sub =>
        obtain ⟨⟨inner, after⟩, hinner, heq⟩ := Option.map_eq_some_iff.mp h
        cases heq
        obtain ⟨hstandard, hpower, -⟩ := ih.expr hinner
        -- no operator binds as strongly as a sign
        have hnone : inner.outerOps = [] := by
          refine eq_nil_iff_forall_not_mem.mpr fun p hp => ?_
          exact absurd (hpower p hp) (Nat.not_le_of_lt (power_lt_signPower p))
        exact ⟨.negate hstandard hnone, hnone⟩
      | add | mul | div | rem => cases h
    | openParen =>
      unfold operand? at h
      split at h
      next hinner =>
        cases h
        exact ⟨.group (ih.expr hinner).1, rfl⟩
      · cases h
    | closeParen => cases h

theorem climb?_standard {least : Nat} (ih : ReadsStandard fuel) {left : Calc} {rest : List Token}
    (h : climb? (fuel + 1) least left ts = some (e, rest)) (hleft : left.Standard)
    (hbinds : ∀ p ∈ left.outerOps, least ≤ power p ∧ BindsBelow (power p + 1) ts) :
    e.Standard ∧ (∀ p ∈ e.outerOps, least ≤ power p) ∧ BindsBelow least rest := by
  have hstop {rest : List Token} (hrest : ∀ o us, rest ≠ .op o :: us) :
      left.Standard ∧ (∀ p ∈ left.outerOps, least ≤ power p) ∧ BindsBelow least rest :=
    ⟨hleft, fun p hp => (hbinds p hp).1, fun o us heq => absurd heq (hrest o us)⟩
  cases ts with
  | nil =>
    cases h
    exact hstop fun _ _ h => by cases h
  | cons t ts =>
    cases t with
    | op o =>
      unfold climb? at h
      split at h
      next hlt =>
        cases h
        refine ⟨hleft, fun p hp => (hbinds p hp).1, fun o' us heq => ?_⟩
        cases heq
        exact hlt
      next hle =>
        obtain ⟨⟨right, after⟩, hright, hclimb⟩ := Option.bind_eq_some_iff.mp h
        obtain ⟨hstandard, hpower, hafter⟩ := ih.expr hright
        have hleast : least ≤ power o := Nat.le_of_not_lt hle
        have hweak : ∀ p ∈ left.outerOps, power o ≤ power p := fun p hp =>
          Nat.le_of_lt_succ ((hbinds p hp).2 o ts rfl)
        have hbinary : (Calc.binary o left right).Standard := by
          refine .binary hleft hstandard (fun p hp => ?_) (fun p hp => ?_)
          · have hle := hweak p hp
            rw [power_eq, power_eq] at hle
            omega
          · have hlt := hpower p hp
            rw [power_eq, power_eq] at hlt
            omega
        -- what follows the right operand binds no more strongly than the operator before it
        have hnext {p : Operator} (hp : power o ≤ power p) :
            least ≤ power p ∧ BindsBelow (power p + 1) after :=
          ⟨Nat.le_trans hleast hp, fun o' us heq =>
            Nat.lt_of_lt_of_le (hafter o' us heq) (Nat.succ_le_succ hp)⟩
        refine ih.climb hclimb hbinary fun p hp => ?_
        rcases mem_append.mp hp with hp | hp
        · exact hnext (hweak p hp)
        · rcases mem_cons.mp hp with rfl | hp
          · exact hnext (Nat.le_refl _)
          · exact hnext (Nat.le_of_lt (hpower p hp))
    | number | running | openParen | closeParen =>
      cases h
      exact hstop fun _ _ h => by cases h

theorem readsStandard (fuel : Nat) : ReadsStandard fuel := by
  induction fuel with
  | zero => exact ⟨nofun, nofun, nofun⟩
  | succ fuel ih =>
    refine ⟨operand?_standard ih, fun {least ts e rest} h => ?_, climb?_standard ih⟩
    obtain ⟨⟨left, after⟩, hleft, hclimb⟩ := Option.bind_eq_some_iff.mp h
    obtain ⟨hstandard, houter⟩ := ih.operand hleft
    refine ih.climb hclimb hstandard ?_
    rw [houter]
    exact nofun

theorem standard_of_ofTokens? (h : ofTokens? ts = some e) : e.Standard := by
  unfold ofTokens? at h
  split at h
  next hread =>
    cases h
    exact ((readsStandard _).expr hread).1
  · cases h

/-! ## Standard trees are read -/

theorem climb?_of_bindsBelow {least : Nat} (h : BindsBelow least ts) (hfuel : 0 < fuel) :
    climb? fuel least e ts = some (e, ts) := by
  obtain ⟨fuel, rfl⟩ := Nat.exists_eq_succ_of_ne_zero (Nat.ne_of_gt hfuel)
  cases ts with
  | nil => rfl
  | cons t ts =>
    cases t with
    | op o =>
      unfold climb?
      rw [if_pos (h o ts rfl)]
    | number | running | openParen | closeParen => rfl

/-- After the tokens of a standard tree the reader stands in its loop with the tree on the left,
provided that what follows does not bind more strongly than the operators of the tree. -/
theorem expr?_tokens (he : e.Standard) : ∀ (fuel least : Nat) (rest : List Token),
    2 * e.tokens.length < fuel → (∀ p ∈ e.outerOps, least ≤ power p) →
    (∀ p ∈ e.outerOps, BindsBelow (power p + 1) rest) →
    ∃ left, fuel ≤ left + 2 * e.tokens.length ∧
      expr? fuel least (e.tokens ++ rest) = climb? left least e rest := by
  -- an operand is read as a whole, and its loop has the fuel that is left
  have hoperand {e : Calc} {fuel least : Nat} {rest : List Token} (hlt : 0 < e.tokens.length)
      (h : operand? fuel (e.tokens ++ rest) = some (e, rest)) :
      ∃ left, fuel + 1 ≤ left + 2 * e.tokens.length ∧
        expr? (fuel + 1) least (e.tokens ++ rest) = climb? left least e rest := by
    refine ⟨fuel, by omega, ?_⟩
    rw [expr?, h]
    rfl
  induction he with
  | literal | running =>
    intro fuel least rest hfuel _ _
    obtain ⟨fuel, rfl⟩ : ∃ k, fuel = k + 2 := ⟨fuel - 2, by simp [Calc.tokens] at hfuel; omega⟩
    exact hoperand Nat.zero_lt_one rfl
  | @negate e _ houter ih =>
    intro fuel least rest hfuel _ _
    rw [Calc.tokens, length_cons] at hfuel
    obtain ⟨fuel, rfl⟩ : ∃ k, fuel = k + 2 := ⟨fuel - 2, by omega⟩
    obtain ⟨left, hleft, hread⟩ := ih fuel signPower rest (by omega)
      (fun p hp => absurd hp (houter ▸ not_mem_nil))
      (fun p hp => absurd hp (houter ▸ not_mem_nil))
    have hstops : BindsBelow signPower rest := fun o _ _ => power_lt_signPower o
    refine hoperand (Nat.zero_lt_succ _) ?_
    show (expr? fuel signPower (e.tokens ++ rest)).map _ = _
    rw [hread, climb?_of_bindsBelow hstops (by omega)]
    rfl
  | @group e _ ih =>
    intro fuel least rest hfuel _ _
    rw [Calc.tokens, length_cons, length_append] at hfuel
    obtain ⟨fuel, rfl⟩ : ∃ k, fuel = k + 2 := ⟨fuel - 2, by omega⟩
    have hstops {bound : Nat} : BindsBelow bound (.closeParen :: rest) := fun _ _ h => by cases h
    obtain ⟨left, hleft, hread⟩ := ih fuel 0 (.closeParen :: rest) (by omega)
      (fun _ _ => Nat.zero_le _) (fun _ _ => hstops)
    have hinner : expr? fuel 0 (e.tokens ++ .closeParen :: rest) = some (e, .closeParen :: rest) := by
      rw [hread, climb?_of_bindsBelow hstops (by omega)]
    refine hoperand (Nat.zero_lt_succ _) ?_
    rw [Calc.tokens, cons_append, append_assoc, singleton_append, operand?, hinner]
  | @binary o l r _ _ hlo hro ihl ihr =>
    intro fuel least rest hfuel hleast hrest
    rw [Calc.tokens, length_append, length_cons] at hfuel
    have hweak : ∀ p ∈ l.outerOps, power o < power p + 1 := fun p hp => by
      have hle := hlo p hp
      rw [power_eq, power_eq]
      omega
    have hstrong : ∀ p ∈ r.outerOps, power o + 1 ≤ power p := fun p hp => by
      have hlt := hro p hp
      rw [power_eq, power_eq]
      omega
    have hmem : o ∈ (Calc.binary o l r).outerOps := mem_append_right _ mem_cons_self
    have hright : ∀ p ∈ r.outerOps, p ∈ (Calc.binary o l r).outerOps := fun p hp =>
      mem_append_right _ (mem_cons_of_mem _ hp)
    -- the left operand is read first, and the loop then takes the operator
    obtain ⟨fuel1, hfuel1, hreadl⟩ := ihl fuel least (.op o :: (r.tokens ++ rest)) (by omega)
      (fun p hp => hleast p (mem_append_left _ hp))
      (fun p hp o' us heq => by cases heq; exact hweak p hp)
    obtain ⟨fuel2, rfl⟩ : ∃ k, fuel1 = k + 1 := ⟨fuel1 - 1, by omega⟩
    obtain ⟨fuel3, hfuel3, hreadr⟩ := ihr fuel2 (power o + 1) rest (by omega) hstrong
      (fun p hp => hrest p (hright p hp))
    refine ⟨fuel2, ?_, ?_⟩
    · rw [Calc.tokens, length_append, length_cons]
      omega
    rw [Calc.tokens, append_assoc, cons_append, hreadl, climb?,
      if_neg (Nat.not_lt_of_le (hleast o hmem)), hreadr,
      climb?_of_bindsBelow (hrest o hmem) (by omega)]
    rfl

theorem ofTokens?_tokens (he : e.Standard) : ofTokens? e.tokens = some e := by
  obtain ⟨left, hleft, hread⟩ := expr?_tokens he (2 * e.tokens.length + 2) 0 [] (by omega)
    (fun _ _ => Nat.zero_le _) (fun _ _ => .nil _)
  rw [append_nil, climb?_of_bindsBelow (.nil 0) (by omega)] at hread
  rw [ofTokens?, hread]

/-- The reader reads a list of tokens to its end exactly if the grammar derives it. What it reads is
the one standard tree with these tokens. -/
theorem precedence_grammar (ts : List Token) :
    ((ofTokens? ts).isSome = true ↔ Derives .row ts) ∧
      ∀ e, ofTokens? ts = some e ↔ e.tokens = ts ∧ e.Standard := by
  have hread (e : Calc) : ofTokens? ts = some e ↔ e.tokens = ts ∧ e.Standard := by
    constructor
    · intro h
      exact ⟨tokens_of_ofTokens? h, standard_of_ofTokens? h⟩
    · rintro ⟨rfl, he⟩
      exact ofTokens?_tokens he
  refine ⟨⟨fun h => ?_, fun h => ?_⟩, hread⟩
  · obtain ⟨e, he⟩ := Option.isSome_iff_exists.mp h
    obtain ⟨rfl, hstandard⟩ := (hread e).mp he
    exact hstandard.derives.1
  · obtain ⟨e, hstandard, htokens, -⟩ := Calc.exists_standard h
    rw [(hread e).mpr ⟨htokens, hstandard⟩]
    rfl

end Formula
end Patchwork.Style
