import Lisplet.Value
/-!
# Equality of values

Data is equal when it has the same structure, structs only within one type, and procedures and macros
only when they are identical. A number that is no number differs from itself.
-/
namespace Lisplet.Value

mutual

/-- Equality as the language sees it. -/
def equal : Value → Value → Bool
  | number _ x, number _ y => Number.equal x y
  | quaternion _ p, quaternion _ q =>
    Number.equal p.a q.a && Number.equal p.b q.b && Number.equal p.c q.c && Number.equal p.d q.d
  | string _ s, string _ t => s == t
  | symbol s, symbol t => s == t
  | boolean b, boolean c => b == c
  | list xs, list ys => equalAll xs ys
  | structType s, structType t => s.id == t.id
  | struct _ s xs, struct _ t ys => s.id == t.id && equalAll xs ys
  | error _ c d p, error _ c' d' p' => c == c' && d == d' && equalPayload p p'
  | closure s c, other => identical (closure s c) other
  | builtin b, other => identical (builtin b) other
  | expander s name t, other => identical (expander s name t) other
  | _, _ => false
termination_by structural v => v

/-- Equality of two rows of values. -/
def equalAll : List Value → List Value → Bool
  | [], [] => true
  | x :: xs, y :: ys => equal x y && equalAll xs ys
  | _, _ => false
termination_by structural vs => vs

/-- Equality of what two errors carry. -/
def equalPayload : Option Value → Option Value → Bool
  | none, none => true
  | some v, some w => equal v w
  | _, _ => false
termination_by structural p => p

end

end Lisplet.Value
