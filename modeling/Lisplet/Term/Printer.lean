import Lisplet.Term
import Lisplet.Number.Layout
import Lisplet.Text.Quoted
import Lisplet.Text.Words
/-!
# Terms as source text

A term is written in the one spelling the reader also understands: round brackets, one space between
elements, short quote marks. An embedded value has no spelling and is shown as a placeholder.
-/
namespace Lisplet

/-- Literal text of a format string, with backslashes and quotes escaped. -/
def Format.escapeLiteral (cs : List Char) : List Char :=
  cs.flatMap fun c => if c = '\\' ∨ c = '"' then ['\\', c] else [c]

namespace Term

variable {α : Type}

mutual

/-- Writes a term. -/
def write : Term α → List Char
  | number _ x => (Number.brief x).toList
  | string _ s => Text.quote s.toList
  | symbol _ name => name.toList
  | boolean _ b => Text.Word.boolean b
  | nil _ => Text.Word.nil
  | list _ ts => '(' :: (writeAll ts ++ [')'])
  | marked _ m t => m.char :: write t
  | format _ ps => '#' :: '"' :: (writeParts ps ++ ['"'])
  | embedded _ _ => ['<', 'v', 'a', 'l', 'u', 'e', '>']
termination_by structural t => t

/-- Writes terms with one space between them. -/
def writeAll : List (Term α) → List Char
  | [] => []
  | [t] => write t
  | t :: ts => write t ++ ' ' :: writeAll ts
termination_by structural ts => ts

/-- Writes the parts of a format string. -/
def writeParts : List (Part α) → List Char
  | [] => []
  | .text s :: ps => Format.escapeLiteral s.toList ++ writeParts ps
  | .code t :: ps => '#' :: '\x7b' :: (write t ++ '\x7d' :: writeParts ps)
termination_by structural ps => ps

end

/-- The source text of a term. -/
def source (t : Term α) : String := String.ofList (write t)

end Term

end Lisplet
