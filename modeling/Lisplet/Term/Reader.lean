import Lisplet.Term.Printer
import Lisplet.Token.Lexer
/-!
# From tokens to terms

The reader goes through the tokens once and keeps a stack of the forms that are still open: lists,
infix groups, quote marks waiting for their form, and format strings. A finished term is delivered to
the innermost open form; with none open it is a form of the text. An infix group `a op b op c`
delivers the list `op a b c`, and all its operators must be equal. The expression of a format string
is read as a text of its own, starting where it stands.

Reading stops at the first error, keeps the forms found before it, and knows which tokens are left.
-/
namespace Lisplet.Reader

variable {α : Type}

/-- A form that has begun and is not finished; what it holds so far is kept in reverse. -/
inductive Pending (α : Type) where
  | list (bracket : Bracket) (pos : Position) (elements : List (Term α))
  | group (pos : Position) (operands operators : List (Term α))
  | marked (pos : Position) (marker : Marker) (text : String)
  | format (pos : Position) (parts : List (Part α))

/-- The open forms, innermost first, and the finished forms of the text in reverse. -/
structure State (α : Type) where
  stack : List (Pending α)
  forms : List (Term α)

/-- Nothing read yet. -/
def State.empty : State α := ⟨[], []⟩

/-- Adds a term to an infix group. Operands and operators alternate, and an operator has to equal the
first one; `start` is where the term begins. -/
def addToGroup [Identity α] (start : Position) (t : Term α) (pos : Position)
    (operands operators : List (Term α)) : Except SyntaxError (Pending α) :=
  if operands.length = operators.length then .ok (.group pos (t :: operands) operators)
  else
    match operators.getLast? with
    | none => .ok (.group pos operands [t])
    | some first =>
      if first.same t then .ok (.group pos operands (t :: operators))
      else .error ⟨.infixMismatch first.source t.source, start⟩

/-- Hands a finished term, which begins at `start`, to the innermost open form. -/
def deliver [Identity α] (start : Position) (t : Term α) (forms : List (Term α)) :
    List (Pending α) → Except SyntaxError (State α)
  | [] => .ok ⟨[], t :: forms⟩
  | .list bracket pos elements :: stack => .ok ⟨.list bracket pos (t :: elements) :: stack, forms⟩
  | .group pos operands operators :: stack =>
    match addToGroup start t pos operands operators with
    | .ok group => .ok ⟨group :: stack, forms⟩
    | .error e => .error e
  | .marked pos marker _ :: stack => deliver pos (.marked pos marker t) forms stack
  | .format pos parts :: stack => .ok ⟨.format pos (.code t :: parts) :: stack, forms⟩

/-- The term an infix group stands for, unless it ends with an operator. -/
def closeGroup (pos : Position) (operands operators : List (Term α)) : Option (Term α) :=
  match operators.reverse, operands.reverse with
  | [], [] => some (.list pos [])
  | [], t :: _ => some t
  | op :: ops, ts => if ts.length = ops.length + 1 then none else some (.list pos (op :: ts))

/-- What one token does. An error may or may not use the token up. -/
inductive Effect (α : Type) where
  | next (s : State α)
  | finished
  | failed (e : SyntaxError) (used : Bool)

/-- The effect of a delivery. -/
def Effect.ofDelivery : Except SyntaxError (State α) → Effect α
  | .ok s => .next s
  | .error e => .failed e true

/-- A token that begins a form. -/
def begin [Identity α] (tok : Token) (s : State α) : Effect α :=
  let pos := tok.position
  let atom (t : Term α) : Effect α := .ofDelivery (deliver pos t s.forms s.stack)
  let enter (p : Pending α) : Effect α := .next { s with stack := p :: s.stack }
  match tok.kind with
  | .opening .curly => enter (.group pos [] [])
  | .opening bracket => enter (.list bracket pos [])
  | .marker marker => enter (.marked pos marker tok.text)
  | .formatStart => enter (.format pos [])
  | .number => atom (.number pos (Number.ofText tok.text))
  | .string => atom (.string pos tok.text)
  | .boolean => atom (.boolean pos (tok.text == "true" || tok.text == "#t"))
  | .nil => atom (.nil pos)
  | .symbol => atom (.symbol pos tok.text)
  | .closing _ | .formatCode | .formatEnd | .eof => .failed ⟨.unexpected tok, pos⟩ false

/-- What a token does inside a format string; `embed` reads an expression. -/
def stepFormat [Identity α] (embed : Token → Except SyntaxError (Term α)) (tok : Token)
    (pos : Position) (parts : List (Part α)) (stack : List (Pending α)) (forms : List (Term α)) :
    Effect α :=
  match tok.kind with
  | .string => .next ⟨.format pos (.text tok.text :: parts) :: stack, forms⟩
  | .formatCode =>
    match embed tok with
    | .ok t => .next ⟨.format pos (.code t :: parts) :: stack, forms⟩
    | .error e => .failed e true
  | .formatEnd => .ofDelivery (deliver pos (.format pos parts.reverse) forms stack)
  | _ => .failed ⟨.unexpectedInFormat tok, tok.position⟩ true

/-- What a token does. -/
def step [Identity α] (embed : Token → Except SyntaxError (Term α)) (tok : Token) (s : State α) :
    Effect α :=
  match s.stack with
  | [] => if tok.kind = .eof then .finished else begin tok s
  | .format pos parts :: stack => stepFormat embed tok pos parts stack s.forms
  | .marked pos _ text :: _ =>
    if tok.kind = .eof then .failed ⟨.nothingToQuote text, pos⟩ false else begin tok s
  | .list bracket pos elements :: stack =>
    match tok.kind with
    | .closing b =>
      if b = bracket then .ofDelivery (deliver pos (.list pos elements.reverse) s.forms stack)
      else .failed ⟨.unclosedList tok, pos⟩ false
    | .eof => .failed ⟨.unclosedList tok, pos⟩ false
    | _ => begin tok s
  | .group pos operands operators :: stack =>
    match tok.kind with
    | .closing .curly =>
      match closeGroup pos operands operators with
      | some t => .ofDelivery (deliver pos t s.forms stack)
      | none => .failed ⟨.danglingOperator, tok.position⟩ true
    | .closing _ | .eof => .failed ⟨.unclosedInfix, pos⟩ false
    | _ => begin tok s

/-- The forms read, the error that stopped the reading, if one did, and the tokens left. -/
structure Reading (α : Type) where
  forms : List (Term α)
  failure : Option SyntaxError
  rest : List Token

namespace Reading

/-- Whether the reading stopped at the end of the tokens. -/
def atEnd (r : Reading α) : Bool :=
  match r.rest with
  | [] => true
  | tok :: _ => tok.kind == .eof

/-- All forms, or the error that stopped the reading. -/
def complete (r : Reading α) : Except SyntaxError (List (Term α)) :=
  match r.failure with
  | none => .ok r.forms
  | some e => .error e

end Reading

/-- Goes through the tokens from a state. -/
def run [Identity α] (embed : Token → Except SyntaxError (Term α)) :
    State α → List Token → Reading α
  | s, [] => ⟨s.forms.reverse, none, []⟩
  | s, tok :: rest =>
    match step embed tok s with
    | .next s' => run embed s' rest
    | .finished => ⟨s.forms.reverse, none, tok :: rest⟩
    | .failed e used => ⟨s.forms.reverse, some e, if used then rest else tok :: rest⟩

/-- The tokens as the reader sees them. A row without an end mark is read as if its last token came
again and again; as many copies are supplied as open forms could take. -/
def supply (tokens : List Token) : List Token :=
  match tokens.getLast? with
  | none => [.eofAt .start]
  | some last =>
    if last.kind = .eof then tokens
    else tokens ++ List.replicate (tokens.length + 2) last

/-- Reads the forms of a row of tokens. -/
def readWith [Identity α] (embed : Token → Except SyntaxError (Term α)) (tokens : List Token) :
    Reading α :=
  run embed .empty (supply tokens)

/-- Reads the expression of a format string, which must be a single form. An expression inside an
expression is shorter, so its length bounds the nesting. -/
def embedAt [Identity α] : Nat → Token → Except SyntaxError (Term α)
  | 0, tok => .error ⟨.formatWithoutExpression, tok.position⟩
  | n + 1, tok => do
    let tokens ← (Lexer.lexAt tok.position tok.text).complete
    let forms ← (readWith (embedAt n) tokens).complete
    match forms with
    | [] => .error ⟨.formatWithoutExpression, tok.position⟩
    | [t] => .ok t
    | _ => .error ⟨.severalForms, tok.position⟩

/-- Reads the expression of a format string. -/
def embed [Identity α] (tok : Token) : Except SyntaxError (Term α) :=
  embedAt tok.text.length tok

/-- Reads the forms of a row of tokens. -/
def read [Identity α] (tokens : List Token) : Reading α := readWith embed tokens

/-- Reads all forms of a source text. -/
def readSource [Identity α] (source : String) : Except SyntaxError (List (Term α)) := do
  let tokens ← (Lexer.lex source).complete
  (read tokens).complete

end Lisplet.Reader
