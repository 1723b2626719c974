import Lisplet.Text.Units
/-!
# Places in a source text

A place is a line and a column. A text counts both from one, unless it is read as part of another and starts elsewhere; a line
ends at a line feed, and columns count sixteen bit units. Reading moves a place forward character by character (`advance`), and
moving over two texts in turn is moving over their concatenation (`after_append`).
-/
namespace Lisplet

/-- A line and a column. -/
structure Position where
  line : Int
  column : Int
deriving DecidableEq, Repr, Inhabited

namespace Position

/-- The first place of a text. -/
def start : Position := ⟨1, 1⟩

/-- The place given to code that was never read from a text. -/
def nowhere : Position := ⟨0, 0⟩

/-- The place just behind a character that stands at `p`. -/
def advance (p : Position) (c : Char) : Position :=
  if c = '\n' then ⟨p.line + 1, 1⟩ else ⟨p.line, p.column + Text.width c⟩

/-- The place just behind a text that starts at `p`. -/
def after (p : Position) (cs : List Char) : Position := cs.foldl advance p

@[simp] theorem after_nil (p : Position) : p.after [] = p := rfl

@[simp] theorem after_cons (p : Position) (c : Char) (cs : List Char) :
    p.after (c :: cs) = (p.advance c).after cs := rfl

@[simp] theorem after_append (p : Position) (s t : List Char) :
    p.after (s ++ t) = (p.after s).after t := List.foldl_append

end Position

end Lisplet
