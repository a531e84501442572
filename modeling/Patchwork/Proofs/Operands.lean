import Patchwork.Proofs.Parallel
import Patchwork.Style.Formula

/-!
# Arithmetic over unknown operands

A value of a stylesheet may be arithmetic with operands that are only known when the generated code
runs. Of such an operand there is code, but whether the value is arithmetic at all, whether its
units agree and whether it can be computed never depends on that code. To say so, the code is taken
out (`Token.erase`, `Calc.erase`): pieces that are the same but for the code of expressions are read
as calculations that are the same without it (`parse?_erase`), and calculations that are the same
without it have the same units (`checkUnits_erase`) and the same value (`evaluate_erase`).
-/

namespace Patchwork.Style

open List Option

/-- The token without the code of a running operand. -/
def Token.erase : Token → Token
  | running _ => running []
  | t => t

/-- The calculation without the code of its running operands. -/
def Calc.erase : Calc → Calc
  | literal q => literal q
  | running _ => running []
  | negate e => negate e.erase
  | group e => group e.erase
  | binary op l r => binary op l.erase r.erase

namespace Formula

/-- What has been read without the code of running operands. -/
def Reading.erase (r : Reading) : Reading :=
  { r with tokens := r.tokens.map Token.erase }

theorem endsOperand_erase (t : Token) : t.erase.endsOperand = t.endsOperand := by
  cases t <;> rfl

theorem afterOperand_erase (r : Reading) : r.erase.afterOperand = r.afterOperand := by
  obtain ⟨tokens, space⟩ := r
  cases tokens with
  | nil => rfl
  | cons t ts => exact endsOperand_erase t

theorem readChar_erase (r : Reading) (c : Char) (t : Text) :
    readChar r.erase c t = (readChar r c t).map fun read => (read.1.erase, read.2) := by
  have hspace : r.erase.space = r.space := rfl
  unfold readChar
  rw [afterOperand_erase]
  -- a choice that both sides make alike
  have hite : ∀ (p : Prop) [Decidable p] (x y x' y' : Option (Reading × Nat)),
      x' = x.map (fun read => (read.1.erase, read.2)) →
      y' = y.map (fun read => (read.1.erase, read.2)) →
      (if p then x' else y') = (if p then x else y).map fun read => (read.1.erase, read.2) := by
    intro p _ x y x' y' hx hy
    rw [hx, hy, apply_ite (Option.map _)]
  refine hite _ _ _ _ _ rfl (hite _ _ _ _ _ (hite _ _ _ _ _ rfl rfl) (hite _ _ _ _ _ rfl ?_))
  refine hite _ _ _ _ _ (hite _ _ _ _ _ rfl rfl) (hite _ _ _ _ _ (hite _ _ _ _ _ rfl rfl) ?_)
  refine hite _ _ _ _ _ (hite _ _ _ _ _ rfl rfl) (hite _ _ _ _ _ ?_ rfl)
  refine hite _ _ _ _ _ rfl (hite _ _ _ _ _ ?_ ?_)
  · split <;> rfl
  · rw [Option.map_map]
    rfl

theorem readText_erase (t : Text) : ∀ (r : Reading) (skip : Nat),
    readText r.erase skip t = (readText r skip t).map Reading.erase := by
  induction t with
  | nil =>
    intro r skip
    rfl
  | cons c t ih =>
    intro r skip
    cases skip with
    | succ skip => exact ih r skip
    | zero =>
      rw [readText, readText, readChar_erase]
      cases readChar r c t with
      | none => rfl
      | some read => exact ih read.1 read.2

theorem readPieces_erase {ps ps' : List Piece} (h : List.Forall₂ Piece.Alike ps ps') :
    ∀ {r r' : Reading}, r'.erase = r.erase →
      (readPieces r' ps').map Reading.erase = (readPieces r ps).map Reading.erase := by
  induction h with
  | nil =>
    intro r r' hr
    exact congrArg some hr
  | cons hp _ ih =>
    intro r r' hr
    have hafter : r'.afterOperand = r.afterOperand := by
      rw [← afterOperand_erase r', hr, afterOperand_erase]
    cases hp with
    | comment c => exact ih hr
    | expr he =>
      rw [readPieces, readPieces, hafter]
      split
      · rfl
      refine ih ?_
      have htokens := congrArg Reading.tokens hr
      show Reading.mk (_ :: r'.tokens.map Token.erase) false =
        Reading.mk (_ :: r.tokens.map Token.erase) false
      rw [show r'.tokens.map Token.erase = r.tokens.map Token.erase from htokens]
      rfl
    | text t =>
      have hread := readText_erase t r 0
      rw [← hr, readText_erase t r' 0] at hread
      rw [readPieces, readPieces]
      cases h1 : readText r 0 t with
      | none =>
        rw [h1, map_none, map_eq_none_iff] at hread
        rw [hread]
        rfl
      | some r1 =>
        rw [h1, map_some, map_eq_some_iff] at hread
        obtain ⟨r1', h1', hr1⟩ := hread
        rw [h1']
        exact ih hr1

/-- What has been read, and the tokens after it, without the code of running operands. -/
def eraseRead (read : Calc × List Token) : Calc × List Token :=
  (read.1.erase, read.2.map Token.erase)

theorem operand?_erase {fuel : Nat}
    (hexpr : ∀ least ts,
      expr? fuel least (ts.map Token.erase) = (expr? fuel least ts).map eraseRead)
    (ts : List Token) :
    operand? (fuel + 1) (ts.map Token.erase) = (operand? (fuel + 1) ts).map eraseRead := by
  cases ts with
  | nil => rfl
  | cons t ts =>
    cases t with
    | number | running | closeParen => rfl
    | openParen =>
      rw [map_cons, show Token.openParen.erase = .openParen from rfl, operand?, operand?, hexpr]
      cases expr? fuel 0 ts with
      | none => rfl
      | some read =>
        obtain ⟨e, rest⟩ := read
        cases rest with
        | nil => rfl
        | cons t rest => cases t <;> rfl
    | op o =>
      cases o with
      | sub =>
        rw [map_cons, show (Token.op .sub).erase = .op .sub from rfl, operand?, operand?,
          hexpr, Option.map_map, Option.map_map]
        rfl
      | add | mul | div | rem => rfl

theorem climb?_erase {fuel : Nat}
    (hexpr : ∀ least ts,
      expr? fuel least (ts.map Token.erase) = (expr? fuel least ts).map eraseRead)
    (hclimb : ∀ least left ts, climb? fuel least (Calc.erase left) (ts.map Token.erase) =
      (climb? fuel least left ts).map eraseRead)
    (least : Nat) (left : Calc) (ts : List Token) :
    climb? (fuel + 1) least left.erase (ts.map Token.erase) =
      (climb? (fuel + 1) least left ts).map eraseRead := by
  cases ts with
  | nil => rfl
  | cons t ts =>
    cases t with
    | number | running | closeParen | openParen => rfl
    | op o =>
      rw [map_cons, show (Token.op o).erase = .op o from rfl, climb?, climb?, hexpr]
      split
      · rfl
      cases expr? fuel (power o + 1) ts with
      | none => rfl
      | some read => exact hclimb least (.binary o left read.1) read.2

/-- Reading by precedence does not look at the code of running operands. -/
theorem reading_erase (fuel : Nat) :
    (∀ ts, operand? fuel (ts.map Token.erase) = (operand? fuel ts).map eraseRead) ∧
    (∀ least ts, expr? fuel least (ts.map Token.erase) = (expr? fuel least ts).map eraseRead) ∧
    ∀ least left ts, climb? fuel least (Calc.erase left) (ts.map Token.erase) =
      (climb? fuel least left ts).map eraseRead := by
  induction fuel with
  | zero => exact ⟨fun _ => rfl, fun _ _ => rfl, fun _ _ _ => rfl⟩
  | succ fuel ih =>
    obtain ⟨hoperand, hexpr, hclimb⟩ := ih
    refine ⟨operand?_erase hexpr, fun least ts => ?_, climb?_erase hexpr hclimb⟩
    rw [expr?, expr?, hoperand]
    cases operand? fuel ts with
    | none => rfl
    | some read => exact hclimb least read.1 read.2

theorem ofTokens?_erase (ts : List Token) :
    ofTokens? (ts.map Token.erase) = (ofTokens? ts).map Calc.erase := by
  unfold ofTokens?
  rw [length_map, (reading_erase _).2.1]
  cases expr? (2 * ts.length + 2) 0 ts with
  | none => rfl
  | some read =>
    obtain ⟨e, rest⟩ := read
    cases rest <;> rfl

/-- Whether pieces are arithmetic, and which, does not depend on the code of their expressions. -/
theorem parse?_erase {ps ps' : List Piece} (h : List.Forall₂ Piece.Alike ps ps') :
    (parse? ps').map Calc.erase = (parse? ps).map Calc.erase := by
  have hread := readPieces_erase h (show Reading.erase {} = Reading.erase {} from rfl)
  unfold parse? tokens?
  cases hr : readPieces {} ps with
  | none =>
    rw [hr, map_none, map_eq_none_iff] at hread
    rw [hread]
  | some r =>
    rw [hr, map_some, map_eq_some_iff] at hread
    obtain ⟨r', hr', herase⟩ := hread
    have htokens : r'.tokens.reverse.map Token.erase = r.tokens.reverse.map Token.erase := by
      rw [map_reverse, map_reverse]
      exact congrArg (fun r => r.tokens.reverse) herase
    rw [hr', map_some, map_some, bind_some, bind_some,
      ← ofTokens?_erase, ← ofTokens?_erase, htokens]

end Formula

namespace Calc

variable (e : Calc)

@[simp] theorem operators_erase : e.erase.operators = e.operators := by
  induction e with
  | literal | running => rfl
  | negate e ih | group e ih => rw [erase, operators, operators, ih]
  | binary op l r ihl ihr => rw [erase, operators, operators, ihl, ihr]

@[simp] theorem hasRunning_erase : e.erase.hasRunning = e.hasRunning := by
  induction e with
  | literal | running => rfl
  | negate e ih | group e ih => rw [erase, hasRunning, hasRunning, ih]
  | binary op l r ihl ihr => rw [erase, hasRunning, hasRunning, ihl, ihr]

@[simp] theorem hasUnit_erase : e.erase.hasUnit = e.hasUnit := by
  induction e with
  | literal | running => rfl
  | negate e ih | group e ih => rw [erase, hasUnit, hasUnit, ih]
  | binary op l r ihl ihr => rw [erase, hasUnit, hasUnit, ihl, ihr]

theorem needsArithmetic_erase : e.erase.needsArithmetic = e.needsArithmetic := by
  simp [needsArithmetic]

theorem absorbUnits_erase (scope : UnitScope) :
    e.erase.absorbUnits scope = e.absorbUnits scope := by
  induction e generalizing scope with
  | literal | running => rfl
  | negate e ih | group e ih => exact ih scope
  | binary op l r ihl ihr =>
    rw [erase, absorbUnits, ihl]
    exact congrArg _ (funext ihr)

theorem checkUnits_erase : e.erase.checkUnits = e.checkUnits := by
  rw [checkUnits, checkUnits, absorbUnits_erase]

theorem evalIn_erase (scope : UnitScope) : e.erase.evalIn scope = e.evalIn scope := by
  induction e generalizing scope with
  | literal | running => rfl
  | negate e ih => rw [erase, evalIn, evalIn, ih]
  | group e ih => exact ih scope
  | binary op l r ihl ihr =>
    rw [erase, evalIn, evalIn, ihl]
    simp only [ihr]

theorem evaluate_erase : e.erase.evaluate = e.evaluate := by
  rw [evaluate, evaluate, hasRunning_erase, evalIn_erase]

end Calc
end Patchwork.Style
