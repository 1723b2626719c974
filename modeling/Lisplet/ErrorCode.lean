/-!
# The catalogue of errors

Every failure of the language, in reading or in running, carries one of thirty-two codes. A code
has a number, from 1 to 32, and a fixed description, and is printed as three digits. Main
statement: the numbers tell the codes apart (`ofNumber?_number`).
-/
namespace Lisplet

/-- What went wrong, as a closed list. -/
inductive ErrorCode where
  | undefinedIdentifier
  | notCallable
  | noFunction
  | arityMismatch
  | unclosedList
  | infixMismatch
  | unclosedInfix
  | unclosedString
  | signatureMismatch
  | headOfEmpty
  | tailOfEmpty
  | flushFailed
  | structSyntax
  | readFileFailed
  | readInputFailed
  | parseFailed
  | lambdaSyntax
  | condNotBoolean
  | condCaseLength
  | condCaseNotList
  | bindingListSyntax
  | bindingNotSymbol
  | bindingShape
  | letBodyMissing
  | defineTargetNotSymbol
  | defineShape
  | paramNotSymbol
  | reservedIdentifier
  | noSuchField
  | tooManyStructs
  | formatWithoutExpression
  | unclosedInterpolation
deriving DecidableEq, Repr, Inhabited

namespace ErrorCode

/-- The catalogue in order: each code with its description. -/
def catalogue : List (ErrorCode × String) :=
  [ (undefinedIdentifier, "undefined identifier"),
    (notCallable, "not a callable value"),
    (noFunction, "no function to call"),
    (arityMismatch, "arity mismatch"),
    (unclosedList, "unclosed list"),
    (infixMismatch, "infix functions must be identical"),
    (unclosedInfix, "unclosed infix expression"),
    (unclosedString, "unclosed string literal"),
    (signatureMismatch, "signature mismatch"),
    (headOfEmpty, "cannot get the head of an empty list"),
    (tailOfEmpty, "cannot get the tail of an empty list"),
    (flushFailed, "could not flush stdout"),
    (structSyntax, "struct definition must have a name and a list of fields"),
    (readFileFailed, "could not read file"),
    (readInputFailed, "failed to read stdin"),
    (parseFailed, "could not parse expression"),
    (lambdaSyntax, "lambda syntax: (lambda [args...] body)"),
    (condNotBoolean, "cond condition must be a boolean"),
    (condCaseLength, "condition case must contain 2 elements"),
    (condCaseNotList, "condition case must be a list"),
    (bindingListSyntax, "binding list must be a list of bindings"),
    (bindingNotSymbol, "identifier in binding must be a symbol"),
    (bindingShape, "binding must contain a symbol and a value"),
    (letBodyMissing, "let body not found"),
    (defineTargetNotSymbol, "value must be bound to a symbol"),
    (defineShape, "define must bind either a function or a symbol"),
    (paramNotSymbol, "function parameters must be symbols"),
    (reservedIdentifier, "reserved identifier"),
    (noSuchField, "struct does not contain specified field"),
    (tooManyStructs, "failed to define new struct; too many structs"),
    (formatWithoutExpression, "format string must contain expression to interpolate"),
    (unclosedInterpolation, "unclosed expression while interpolating string") ]

/-- The codes in order. -/
def all : List ErrorCode := catalogue.map Prod.fst

/-- The number of a code: its place in the catalogue, counted from one. -/
def number (c : ErrorCode) : Nat := all.idxOf c + 1

/-- The code with a given number. -/
def ofNumber? : Nat → Option ErrorCode
  | 0 => none
  | n + 1 => all[n]?

/-- The fixed description of a code. -/
def description (c : ErrorCode) : String := (catalogue.lookup c).getD ""

/-- A number's text filled up with zeros on the left to three characters. -/
def padded (digits : String) : String :=
  "".pushn '0' (3 - digits.length) ++ digits

/-- The three digits a code is printed with. -/
def text (c : ErrorCode) : String := padded (Nat.repr c.number)

@[simp] theorem ofNumber?_number (c : ErrorCode) : ofNumber? c.number = some c := by
  cases c <;> decide

theorem number_le (c : ErrorCode) : 1 ≤ c.number ∧ c.number ≤ 32 := by
  cases c <;> decide

end ErrorCode

end Lisplet
