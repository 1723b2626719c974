import Lisplet.Value
import Lisplet.Number.Layout
import Lisplet.Text.Quoted
import Lisplet.Text.Words
/-!
# Values as text

A value is printed in one of two styles: quoted, where strings stand between quotes and data reads
back as itself, and displayed, where strings are written raw. Procedures, macros and struct types show
their names in angle brackets. Main statement: displaying is printing in the displayed style
(`display_eq_text`).
-/
namespace Lisplet

/-- Whether strings are quoted or written raw. -/
inductive Style where
  | quoted
  | displayed
deriving DecidableEq, Repr

/-- One part of a quaternion with its unit; `front` is what stands before it. -/
def Quaternion.addPart (front : List Char) (x : Float) (unit : List Char) : List Char :=
  if x == 0 then front
  else
    let sign := if !front.isEmpty && x > 0 then ['+'] else []
    front ++ sign ++ (Number.plain x).toList ++ unit

/-- The non-zero parts in order, or a zero when there is none. -/
def Quaternion.write (q : Quaternion Float) : List Char :=
  if q.parts.any Number.isNaN then Text.Word.nan
  else
    let text := addPart (addPart (addPart (addPart [] q.a []) q.b ['i']) q.c ['j']) q.d ['k']
    if text.isEmpty then ['0'] else text

/-- The text of a quaternion. -/
def Quaternion.text (q : Quaternion Float) : String := String.ofList q.write

namespace Value

/-- A kind of thing and its name in angle brackets. -/
def tagged (kind name : String) : List Char :=
  ('<' :: kind.toList) ++ ' ' :: name.toList ++ ['>']

/-- The text of a struct, given the name of its type and the texts of its fields. -/
def structText (name : String) (texts : List (List Char)) : List Char :=
  ['(', 'm', 'a', 'k', 'e', '-'] ++ name.toList ++ texts.flatMap (' ' :: ·) ++ [')']

/-- The characters of the line an error is printed as. -/
def errorChars (code : ErrorCode) (description : String) : List Char :=
  ['e', 'r', 'r', 'o', 'r', '('] ++ code.text.toList ++ [')', ':', ' '] ++ description.toList

/-- The line an error is printed as. -/
def errorLine (code : ErrorCode) (description : String) : String :=
  String.ofList (errorChars code description)

/-- Whether a list is the long spelling of a quoted datum. -/
def isQuotation : List Value → Bool
  | [symbol name, _] => name == "quote"
  | _ => false

/-- The text of a list, given the texts of its items; a quoted datum has its mark in front. -/
def listText (items : List Value) (texts : List (List Char)) : List Char :=
  if isQuotation items then '\'' :: (texts.drop 1).flatten
  else '(' :: ([' '].intercalate texts ++ [')'])

/-- The text of a procedure, which may have a name. -/
def procedureText : Option String → List Char
  | some name => tagged "procedure" name
  | none => ['<', 'p', 'r', 'o', 'c', 'e', 'd', 'u', 'r', 'e', '>']

mutual

/-- Writes a value. -/
def write (style : Style) : Value → List Char
  | number _ x => (Number.plain x).toList
  | quaternion _ q => q.write
  | string _ s => if style = .displayed then s.toList else Text.quote s.toList
  | symbol name => name.toList
  | boolean b => Text.Word.boolean b
  | list items => listText items (writeAll style items)
  | closure _ c => procedureText c.name
  | builtin b => tagged "builtin" b.name
  | expander _ name _ => tagged "macro" name
  | structType type => tagged "struct" type.name
  | struct _ type fields => structText type.name (writeAll style fields)
  | error _ code description _ => errorChars code description
termination_by structural v => v

/-- Writes each of a row of values. -/
def writeAll (style : Style) : List Value → List (List Char)
  | [] => []
  | v :: vs => write style v :: writeAll style vs
termination_by structural vs => vs

end

/-- The text of a value in a style. -/
def text (style : Style) (v : Value) : String := String.ofList (write style v)

/-- The quoted text of a value. -/
def repr (v : Value) : String := text .quoted v

/-- The displayed text of a value; a string is its own. -/
def display : Value → String
  | string _ s => s
  | v => text .displayed v

theorem display_eq_text (v : Value) : v.display = text .displayed v := by
  unfold display
  split
  · simp [text, write]
  · rfl

/-- The displayed texts of values, one after the other. -/
def displayAll (vs : List Value) : String := String.join (vs.map display)

end Value

end Lisplet
