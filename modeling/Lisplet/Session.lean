import Lisplet.Interpreter
/-!
# Sessions

A session is an interpreter that remembers the last value and binds it to `_`. Each form of a text is
tried on its own: a failing form is recorded and the next one still runs, while an error of reading
ends the text. A text is incomplete when it stops in the middle of a form, so that more text could
finish it.
-/
namespace Lisplet

/-- What became of one form. -/
inductive Outcome where
  | value (v : Value)
  | failed (f : Fault)

/-- What is shown for an outcome; nothing for the empty list. -/
def Outcome.text? : Outcome → Option String
  | value v => if v.isNil then none else some v.repr
  | failed f => some f.text

/-- The name the last value is bound to. -/
def lastName : String := "_"

/-- A run with its last value. -/
structure Session where
  store : Store
  last : Value
  prompt : String

namespace Session

/-- The prompt when none is asked for. -/
def defaultPrompt : String := "sprig> "

/-- Remembers a value as the last one. -/
def remember (s : Session) (v : Value) : Session :=
  { s with
    last := v
    store := { s.store with frames := s.store.frames.bind .global lastName v } }

/-- A new session. -/
def new (world : World) (options : Options) (prompt : Option String) : Session :=
  remember ⟨.initial world options, .nil, prompt.getD defaultPrompt⟩ .nil

/-- Something done in a session, which may stop. -/
abbrev Act := EStateM Signal Session

/-- Does something to the state of the run. -/
def onStore {α : Type} (act : Eval α) : Act α := fun s =>
  match act s.store with
  | .ok a store => .ok a { s with store := store }
  | .error e store => .error e { s with store := store }

/-- Evaluates one form; a fault is an outcome, anything else that stops it goes on up. -/
def evaluateForm (t : Code) : Act Outcome := fun s =>
  match evaluator.evaluate t .global s.store with
  | .ok v store => .ok (.value v) (remember { s with store := store } v)
  | .error (.fault f) store => .ok (.failed f) { s with store := store }
  | .error e store => .error e { s with store := store }

/-- Evaluates forms in turn. -/
def evaluateForms : List Code → Act (List Outcome)
  | [] => pure []
  | t :: ts => do
    let outcome ← evaluateForm t
    let outcomes ← evaluateForms ts
    return outcome :: outcomes

/-- Evaluates every form of a text. The forms before an error of reading still run. -/
def evaluate (source : String) : Act (List Outcome) :=
  match (Lexer.lex source).complete with
  | .error e => pure [.failed (.ofSyntax e)]
  | .ok tokens => do
    let reading := Reader.read tokens
    let outcomes ← evaluateForms reading.forms
    match reading.failure with
    | none => return outcomes
    | some e => return outcomes ++ [.failed (.ofSyntax e)]

/-- Evaluates a file in the global scope. -/
def loadFile (file : String) : Act Unit := onStore (Interpreter.importFile file)

/-- Whether an error means that a text stops inside a token. -/
def isUnterminated (e : SyntaxError) : Bool :=
  e.code == .unclosedString || e.code == .unclosedInterpolation

/-- Whether an error means that a form is not closed. -/
def isUnclosed (e : SyntaxError) : Bool :=
  e.code == .unclosedList || e.code == .unclosedInfix

/-- Whether a text stops in the middle of a form. -/
def isIncomplete (source : String) : Bool :=
  match (Lexer.lex source).complete with
  | .error e => isUnterminated e
  | .ok tokens =>
    let reading : Reader.Reading Value := Reader.read tokens
    match reading.failure with
    | none => false
    | some e => isUnterminated e || (isUnclosed e && reading.atEnd)

end Session

end Lisplet
