import Lisplet.Position
/-!
# Tokens

A source text is read as a row of tokens: literal words, brackets, quote markers and the pieces of
format strings. A token keeps its text and the place where it starts; the last one marks the end.
-/
namespace Lisplet

/-- The three kinds of bracket. -/
inductive Bracket where
  | round
  | square
  | curly
deriving DecidableEq, Repr, Inhabited

/-- The three marks that quote the form behind them. -/
inductive Marker where
  | quote
  | quasiquote
  | unquote
deriving DecidableEq, Repr, Inhabited

namespace Marker

/-- The mark as it is written. -/
def char : Marker → Char
  | quote => '\''
  | quasiquote => '\x60'
  | unquote => ','

/-- The word that heads the long spelling of a marked form. -/
def word : Marker → String
  | quote => "quote"
  | quasiquote => "quasiquote"
  | unquote => "unquote"

end Marker

namespace Token

/-- What a token is. A format string comes as its opener, its literal text as strings, its
expressions as code, and its end. -/
inductive Kind where
  | string
  | number
  | boolean
  | nil
  | symbol
  | opening (b : Bracket)
  | closing (b : Bracket)
  | marker (m : Marker)
  | formatStart
  | formatCode
  | formatEnd
  | eof
deriving DecidableEq, Repr, Inhabited

/-- The name a kind is listed under. -/
def Kind.name : Kind → String
  | .string => "STRING"
  | .number => "NUMBER"
  | .boolean => "BOOLEAN"
  | .nil => "NIL"
  | .symbol => "SYMBOL"
  | .opening .round => "LPAREN"
  | .closing .round => "RPAREN"
  | .opening .square => "LBRACKET"
  | .closing .square => "RBRACKET"
  | .opening .curly => "LBRACE"
  | .closing .curly => "RBRACE"
  | .marker .quote => "QUOTE"
  | .marker .quasiquote => "QUASIQUOTE"
  | .marker .unquote => "UNQUOTE"
  | .formatStart => "STRING_INTERP_START"
  | .formatCode => "INTERP_EXPR"
  | .formatEnd => "STRING_INTERP_END"
  | .eof => "EOF"

/-- Every kind of token. -/
def Kind.all : List Kind :=
  [.string, .number, .boolean, .nil, .symbol,
    .opening .round, .closing .round, .opening .square, .closing .square,
    .opening .curly, .closing .curly,
    .marker .quote, .marker .quasiquote, .marker .unquote,
    .formatStart, .formatCode, .formatEnd, .eof]

/-- The kind listed under a name. -/
def Kind.ofName? (name : String) : Option Kind := all.find? (·.name == name)

end Token

/-- A token: its kind, its text (for a string, the text it denotes) and where it starts. -/
structure Token where
  kind : Token.Kind
  text : String
  position : Position
deriving DecidableEq, Repr, Inhabited

namespace Token

/-- The end of a text, at a place. -/
def eofAt (p : Position) : Token := ⟨.eof, "", p⟩

/-- How a token is called in an error. -/
def describe (t : Token) : String :=
  if t.kind = .eof then "end of input" else "'" ++ t.text ++ "'"

end Token

end Lisplet
