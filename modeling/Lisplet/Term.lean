import Lisplet.Number.Double
import Lisplet.Token
/-!
# Terms

A term is what one form of a source text reads as: an atom, a list, a marked form or a format string
with its expressions already read. A term may also hold a finished value of some type `α`, which is
how data that has no spelling goes back into code. Every node keeps the place where it was read.

Equality of terms (`same`) looks at the structure, never at places.
-/
namespace Lisplet

mutual

/-- A read form, with embedded values of type `α`. -/
inductive Term (α : Type) where
  | number (pos : Position) (x : Float)
  | string (pos : Position) (s : String)
  | symbol (pos : Position) (name : String)
  | boolean (pos : Position) (b : Bool)
  | nil (pos : Position)
  | list (pos : Position) (elements : List (Term α))
  | marked (pos : Position) (marker : Marker) (term : Term α)
  | format (pos : Position) (parts : List (Part α))
  | embedded (pos : Position) (value : α)

/-- A part of a format string: literal text or an expression. -/
inductive Part (α : Type) where
  | text (s : String)
  | code (term : Term α)

end

instance {α : Type} : Inhabited (Term α) := ⟨.nil .nowhere⟩

/-- Things that can be told apart by identity alone. -/
class Identity (α : Type) where
  same : α → α → Bool

namespace Term

variable {α : Type}

/-- The place where a term was read. -/
def position : Term α → Position
  | number pos _ => pos
  | string pos _ => pos
  | symbol pos _ => pos
  | boolean pos _ => pos
  | nil pos => pos
  | list pos _ => pos
  | marked pos _ _ => pos
  | format pos _ => pos
  | embedded pos _ => pos

/-- Whether a term is the given symbol. -/
def isSymbol (name : String) : Term α → Bool
  | symbol _ n => n == name
  | _ => false

/-- The name of a term that is a symbol. -/
def symbol? : Term α → Option String
  | symbol _ n => some n
  | _ => none

mutual

/-- Equality of structure; embedded values are compared by identity. -/
def same [Identity α] : Term α → Term α → Bool
  | number _ x, number _ y => Number.equal x y
  | string _ s, string _ t => s == t
  | symbol _ s, symbol _ t => s == t
  | boolean _ b, boolean _ c => b == c
  | nil _, nil _ => true
  | list _ xs, list _ ys => sameAll xs ys
  | marked _ m t, marked _ n u => m == n && same t u
  | format _ ps, format _ qs => sameParts ps qs
  | embedded _ v, embedded _ w => Identity.same v w
  | _, _ => false
termination_by structural t => t

/-- Equality of two rows of terms. -/
def sameAll [Identity α] : List (Term α) → List (Term α) → Bool
  | [], [] => true
  | t :: ts, u :: us => same t u && sameAll ts us
  | _, _ => false
termination_by structural ts => ts

/-- Equality of the parts of two format strings. -/
def sameParts [Identity α] : List (Part α) → List (Part α) → Bool
  | [], [] => true
  | .text s :: ps, .text t :: qs => s == t && sameParts ps qs
  | .code t :: ps, .code u :: qs => same t u && sameParts ps qs
  | _, _ => false
termination_by structural ps => ps

end

end Term

end Lisplet
