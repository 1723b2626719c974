import Lisplet.ErrorCode
import Lisplet.Token
/-!
# Errors of reading

Reading fails in a dozen ways. Each cause has a code of the catalogue and, where it helps, a detail;
an error is a cause at a place.
-/
namespace Lisplet

namespace SyntaxError

/-- Why a text cannot be read. -/
inductive Cause where
  /-- A string or a format string without its closing quote. -/
  | unclosedString
  /-- An embedded expression without its closing brace. -/
  | unclosedInterpolation
  /-- A format string without an expression, or with a blank one. -/
  | formatWithoutExpression
  /-- A list whose closing bracket is missing; `found` stands in its place. -/
  | unclosedList (found : Token)
  /-- An infix group whose closing brace is missing. -/
  | unclosedInfix
  /-- An infix group with two different operators, given as source. -/
  | infixMismatch (first other : String)
  /-- An infix group that stops behind an operator. -/
  | danglingOperator
  /-- A token that starts no form. -/
  | unexpected (found : Token)
  /-- A token that cannot stand inside a format string. -/
  | unexpectedInFormat (found : Token)
  /-- A quote marker at the end of the text. -/
  | nothingToQuote (marker : String)
  /-- An embedded expression of more than one form. -/
  | severalForms
deriving DecidableEq, Repr

namespace Cause

/-- The code of a cause. -/
def code : Cause → ErrorCode
  | unclosedString => .unclosedString
  | unclosedInterpolation => .unclosedInterpolation
  | formatWithoutExpression => .formatWithoutExpression
  | unclosedList _ => .unclosedList
  | unclosedInfix => .unclosedInfix
  | infixMismatch _ _ => .infixMismatch
  | danglingOperator | unexpected _ | unexpectedInFormat _ | nothingToQuote _ | severalForms =>
    .parseFailed

/-- What an error says beyond its description. -/
def detail : Cause → Option String
  | unclosedString | unclosedInterpolation | formatWithoutExpression | unclosedInfix => none
  | unclosedList found => if found.kind = .eof then none else some ("found " ++ found.describe)
  | infixMismatch first other => some (first ++ " and " ++ other)
  | danglingOperator => some "infix group ends with an operator"
  | unexpected found => some ("unexpected " ++ found.describe)
  | unexpectedInFormat found => some ("unexpected " ++ found.describe ++ " in format string")
  | nothingToQuote marker => some ("nothing to quote after " ++ marker)
  | severalForms => some "an interpolated expression must be a single form"

end Cause

end SyntaxError

/-- A cause at a place. -/
structure SyntaxError where
  cause : SyntaxError.Cause
  position : Position
deriving DecidableEq, Repr

/-- The code of the cause. -/
def SyntaxError.code (e : SyntaxError) : ErrorCode := e.cause.code

/-- The detail of the cause. -/
def SyntaxError.detail (e : SyntaxError) : Option String := e.cause.detail

end Lisplet
