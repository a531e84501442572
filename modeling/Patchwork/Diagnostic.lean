import Patchwork.Style.Quantity

/-!
# Diagnostics

What can be wrong with a document, as causes with a place: a `Fault` is a `Cause` and the `Span` of
the document it concerns. The wording of a cause, its kind and its notes each come from one
function. A `Diagnostic` is a fault in a file.

`Halt` is why a computation stopped without a result.
-/

namespace Patchwork

/-- The bytes of a document from `start` up to but not including `stop`. -/
structure Span where
  start : Nat
  stop : Nat
  deriving DecidableEq, Repr

/-- The kinds of causes. -/
inductive Kind where
  /-- A construct that is not closed, or closed by something else. -/
  | malformed
  | unitMismatch
  /-- A token that the grammar of a construct does not know. -/
  | unknownToken
  /-- Invalid region attributes or mode names. -/
  | config
  /-- A finding that does not stand in the way of a result. -/
  | lint
  deriving DecidableEq, Repr

/-- What is wrong. -/
inductive Cause where
  | commentOpen
  | stringOpen
  | bracketOpen (bracket : Char)
  /-- A closing bracket where another one, or none, is due. -/
  | bracketUnexpected (bracket : Char)
  | elementOpen (name : Text)
  | markupCommentOpen
  | startTagOpen (name : Text)
  | closesNothing (name : Text)
  /-- A closing tag for another element than the one opened last, at a byte offset. -/
  | closesOther (name opened : Text) (at_ : Nat)
  | statementOpen (keyword : Text)
  /-- An output slot that nothing was written to, with the words its owner chose. -/
  | slotOpen (message : Text)
  | blockOpen
  | styleStatementOpen (preview : Text)
  | selectorMissing
  | unitClash (clash : Style.UnitClash)
  | expected (what : Text)
  | unexpectedInTag (c : Char)
  | attributeValue (key wanted : Text)
  | functionPartMissing (what : Text)
  | rangeEndMissing
  | unexpectedInForeach (what : Text)
  | modeUnknown (name : Text) (known : List Text)
  | attributeUnknown (name : Text) (known : List Text)
  /-- A region attribute on an element without content. -/
  | attributeOnEmpty (key : Text)
  | attributeUnused (key mode : Text)
  /-- A brace kept as text. In some regions there is a way to say that this is meant. -/
  | strayBrace (escapable : Bool)
  deriving DecidableEq, Repr

namespace Cause

def kind : Cause → Kind
  | commentOpen | stringOpen | bracketOpen _ | bracketUnexpected _ | elementOpen _
  | markupCommentOpen | startTagOpen _ | closesNothing _ | closesOther .. | statementOpen _
  | slotOpen _ | blockOpen | styleStatementOpen _ | selectorMissing => .malformed
  | unitClash _ => .unitMismatch
  | expected _ | unexpectedInTag _ | attributeValue .. | functionPartMissing _ | rangeEndMissing
  | unexpectedInForeach _ => .unknownToken
  | modeUnknown .. | attributeUnknown .. => .config
  | attributeOnEmpty _ | attributeUnused .. | strayBrace _ => .lint

def message : Cause → Text
  | commentOpen => "unterminated block comment"
  | stringOpen => "unterminated string literal"
  | bracketOpen c => "unclosed `" ++ c :: "`"
  | bracketUnexpected c => "unexpected `" ++ c :: "`"
  | elementOpen name => "`<" ++ name ++ ">` is never closed"
  | markupCommentOpen => "comment is never closed"
  | startTagOpen name => "start tag `<" ++ name ++ "` is never closed"
  | closesNothing name => "`</" ++ name ++ ">` closes nothing"
  | closesOther name opened _ => "`</" ++ name ++ ">` does not close `<" ++ opened ++ ">`"
  | statementOpen keyword => "`" ++ keyword ++ "` block is never closed"
  | slotOpen message => message
  | blockOpen => "block is never closed"
  | styleStatementOpen preview => "style statement `" ++ preview ++ "` is not closed"
  | selectorMissing => "missing selector before `\x7b`"
  | unitClash clash => clash.message
  | expected what => "expected `" ++ what ++ "`"
  | unexpectedInTag c => "unexpected `" ++ c :: "` in start tag"
  | attributeValue key wanted => "invalid value for `" ++ key ++ "`: expected " ++ wanted
  | functionPartMissing what => "expected " ++ what ++ " after `&function`"
  | rangeEndMissing => "expected `to` in range"
  | unexpectedInForeach what => "unexpected `" ++ what ++ "` in foreach"
  | modeUnknown name _ => "unknown mode `" ++ name ++ "`"
  | attributeUnknown name _ => "unknown region attribute `#" ++ name ++ "`"
  | attributeOnEmpty key => "`" ++ key ++ "` has no effect on an element without content"
  | attributeUnused key mode => "`" ++ key ++ "` has no effect in `" ++ mode ++ "` regions"
  | strayBrace _ => "`\x7d` closes nothing and is kept as text"

def notes : Cause → List Text
  | elementOpen _ | markupCommentOpen => ["input ended inside this region"]
  | closesOther _ opened at_ =>
    ["`<" ++ opened ++ ">` is opened here", "at byte " ++ Text.ofNat at_]
  | styleStatementOpen _ => ["end declarations and statements with `;`"]
  | modeUnknown _ known => ["known modes: " ++ Text.join ", " known]
  | attributeUnknown _ known => ["known attributes: " ++ Text.join ", " known]
  | strayBrace true => ["escape it as `\\\x7d` to silence this warning"]
  | _ => []

end Cause

/-- A cause and the place it concerns. -/
structure Fault where
  cause : Cause
  span : Span
  deriving DecidableEq, Repr

/-- A fault in a file, which is known by a number. -/
structure Diagnostic where
  fault : Fault
  file : Nat
  deriving DecidableEq, Repr

def Diagnostic.isWarning (d : Diagnostic) : Bool :=
  d.fault.cause.kind == .lint

/-- Why a computation stopped without a result. -/
inductive Halt where
  | fault (f : Fault)
  /-- A text was cut inside a character. -/
  | split
  /-- A bound on the number of steps was reached. -/
  | spent
  deriving DecidableEq, Repr

end Patchwork
