import Lisplet.Session
/-!
# Views of a run

A view says how places are seen, whether the trace is, and where shorthands are seen spelled out as the lists that they stand
for. Seen through a view, a term has its places changed, and so has every value that holds terms: a closure its body, a macro
its template (`Value.seen`). Two things are alike when they are seen as the same. In the blind view all places are one, so that
things are alike when they are equal up to places.

What has been seen is seen as it is (`Value.seen_seen`), so that alike values can be brought to one form.
-/
namespace Lisplet

/-- How places are seen, whether the trace is, and at which places shorthands are seen spelled out. What has been seen is not
changed by a second look. -/
structure View where
  place : Position → Position
  traced : Bool
  spells : Position → Bool := fun _ => false
  place_place : ∀ p, place (place p) = place p
  spells_place : ∀ p, spells (place p) = false := by exact fun _ => rfl

/-- The operand that a part of a format string becomes; text is placed at `pos`. -/
def Part.operand (pos : Position) : Part Value → Code
  | .text s => .string pos s
  | .code t => t

namespace View

/-- The view in which all places are one. -/
def blind : View where
  place := fun _ => .nowhere
  traced := true
  place_place := fun _ => rfl

/-- A view in which nothing is spelled out. -/
class Short (w : View) : Prop where
  spells_eq : ∀ p, w.spells p = false

instance : Short blind := ⟨fun _ => rfl⟩

variable (w : View) (pos : Position)

/-- The word for the empty list as it is seen. -/
def nil : Code := bif w.spells pos then .list (w.place pos) [] else .nil (w.place pos)

/-- A term behind a mark as it is seen. -/
def marked (m : Marker) (t : Code) : Code :=
  bif w.spells pos then .list (w.place pos) [.symbol (w.place pos) m.word, t] else .marked (w.place pos) m t

/-- A format string as it is seen. -/
def format (ps : List (Part Value)) : Code :=
  bif w.spells pos then .list (w.place pos) (.symbol (w.place pos) "string-concat" :: ps.map (Part.operand (w.place pos)))
  else .format (w.place pos) ps

end View

variable (w : View)

mutual

/-- A value with the places inside it as they are seen. -/
def Value.seen : Value → Value
  | .list items => .list (Value.seenAll items)
  | .closure stamp c => .closure stamp (Closure.seen c)
  | .expander stamp name t => .expander stamp name (Transformer.seen t)
  | .struct stamp type fields => .struct stamp type (Value.seenAll fields)
  | .error stamp code description payload => .error stamp code description (Value.seenPayload payload)
  | v => v
termination_by structural v => v

/-- The values of a row. -/
def Value.seenAll : List Value → List Value
  | [] => []
  | v :: vs => Value.seen v :: Value.seenAll vs
termination_by structural vs => vs

/-- What an error carries. -/
def Value.seenPayload : Option Value → Option Value
  | none => none
  | some v => some (Value.seen v)
termination_by structural p => p

/-- A procedure with its body as it is seen. -/
def Closure.seen : Closure Value → Closure Value
  | ⟨name, params, body, scope⟩ => ⟨name, params, Term.seenAll body, scope⟩
termination_by structural c => c

/-- A macro with its template as it is seen. -/
def Transformer.seen : Transformer Value → Transformer Value
  | .template params body scope => .template params (Term.seen body) scope
  | .rule pattern template => .rule (Term.seenAll pattern) (Term.seen template)
termination_by structural t => t

/-- A term as it is seen. -/
def Term.seen : Code → Code
  | .number pos x => .number (w.place pos) x
  | .string pos s => .string (w.place pos) s
  | .symbol pos name => .symbol (w.place pos) name
  | .boolean pos b => .boolean (w.place pos) b
  | .nil pos => w.nil pos
  | .list pos ts => .list (w.place pos) (Term.seenAll ts)
  | .marked pos m t => w.marked pos m (Term.seen t)
  | .format pos ps => w.format pos (Part.seenAll ps)
  | .embedded pos v => .embedded (w.place pos) (Value.seen v)
termination_by structural t => t

/-- The terms of a row. -/
def Term.seenAll : List Code → List Code
  | [] => []
  | t :: ts => Term.seen t :: Term.seenAll ts
termination_by structural ts => ts

/-- A part of a format string. -/
def Part.seen : Part Value → Part Value
  | .text s => .text s
  | .code t => .code (Term.seen t)
termination_by structural p => p

/-- The parts of a format string. -/
def Part.seenAll : List (Part Value) → List (Part Value)
  | [] => []
  | p :: ps => Part.seen p :: Part.seenAll ps
termination_by structural ps => ps

end

variable {w}

attribute [simp] Value.seen Closure.seen Transformer.seen Term.seen Part.seen

@[simp] theorem Value.seenAll_eq_map (vs : List Value) : Value.seenAll w vs = vs.map (Value.seen w) := by
  induction vs with
  | nil => rfl
  | cons v vs ih => rw [Value.seenAll, ih, List.map_cons]

@[simp] theorem Value.seenPayload_eq_map (p : Option Value) : Value.seenPayload w p = p.map (Value.seen w) := by
  cases p <;> rfl

@[simp] theorem Term.seenAll_eq_map (ts : List Code) : Term.seenAll w ts = ts.map (Term.seen w) := by
  induction ts with
  | nil => rfl
  | cons t ts ih => rw [Term.seenAll, ih, List.map_cons]

@[simp] theorem Part.seenAll_eq_map (ps : List (Part Value)) : Part.seenAll w ps = ps.map (Part.seen w) := by
  induction ps with
  | nil => rfl
  | cons p ps ih => rw [Part.seenAll, ih, List.map_cons]

/-- A part of a format string is seen as the operand that it becomes in the long spelling. -/
theorem Part.operand_seen (pos : Position) (p : Part Value) :
    (p.operand pos).seen w = (p.seen w).operand (w.place pos) := by
  cases p <;> rfl

/-! ## Shorthands -/

namespace View

variable (w) (pos : Position) (m : Marker) (t : Code) (ps : List (Part Value))

section Short

variable [w.Short]

/-- In a view that spells nothing out a shorthand stays the shorthand that it is. -/
@[simp] theorem nil_short : w.nil pos = .nil (w.place pos) := by rw [nil, Short.spells_eq]; rfl

@[simp] theorem marked_short : w.marked pos m t = .marked (w.place pos) m t := by rw [marked, Short.spells_eq]; rfl

@[simp] theorem format_short : w.format pos ps = .format (w.place pos) ps := by rw [format, Short.spells_eq]; rfl

end Short

/-- Spelled out, the word for the empty list is the empty list. -/
theorem nil_spelled (h : w.spells pos = true) : w.nil pos = .list (w.place pos) [] := by rw [nil, h]; rfl

/-- Spelled out, a mark is the list of its word and what is marked. -/
theorem marked_spelled (h : w.spells pos = true) :
    w.marked pos m t = .list (w.place pos) [.symbol (w.place pos) m.word, t] := by rw [marked, h]; rfl

/-- Spelled out, a format string is the call that joins its parts. -/
theorem format_spelled (h : w.spells pos = true) :
    w.format pos ps =
      .list (w.place pos) (.symbol (w.place pos) "string-concat" :: ps.map (Part.operand (w.place pos))) := by
  rw [format, h]; rfl

theorem nil_unspelled (h : w.spells pos = false) : w.nil pos = .nil (w.place pos) := by rw [nil, h]; rfl

theorem marked_unspelled (h : w.spells pos = false) : w.marked pos m t = .marked (w.place pos) m t := by
  rw [marked, h]; rfl

theorem format_unspelled (h : w.spells pos = false) : w.format pos ps = .format (w.place pos) ps := by
  rw [format, h]; rfl

end View

/-! ## A second look -/

variable {v w : View}

section Twice

variable (h : ∀ p, w.place p = v.place p)
include h

/-- Places that have been seen are seen as they are in a view that sees places in the same way. -/
theorem View.place_seen (p : Position) : w.place (v.place p) = v.place p := by rw [h, v.place_place]

/-- Nothing is left to spell out at a place that has been seen. -/
theorem View.spells_seen (p : Position) : w.spells (v.place p) = false := by rw [← h, w.spells_place]

theorem View.nil_seen (pos : Position) : (v.nil pos).seen w = v.nil pos := by
  cases hp : v.spells pos with
  | true => simp [nil_spelled _ _ hp, place_seen h]
  | false => rw [nil_unspelled _ _ hp, Term.seen, nil_unspelled _ _ (spells_seen h pos), place_seen h]

/-- A second look at a mark, spelled out or not, is one at what is marked. -/
theorem View.marked_seen (pos : Position) (m : Marker) (t : Code) : (v.marked pos m t).seen w = v.marked pos m (t.seen w) := by
  cases hp : v.spells pos with
  | true => simp [marked_spelled _ _ _ _ hp, place_seen h]
  | false =>
    rw [marked_unspelled _ _ _ _ hp, marked_unspelled _ _ _ _ hp, Term.seen, marked_unspelled _ _ _ _ (spells_seen h pos),
      place_seen h]

theorem View.format_seen (pos : Position) (ps : List (Part Value)) :
    (v.format pos ps).seen w = v.format pos (ps.map (Part.seen w)) := by
  cases hp : v.spells pos with
  | true =>
    simp only [format_spelled _ _ _ hp, Term.seen, place_seen h, Term.seenAll_eq_map, List.map_cons, List.map_map]
    congr 2
    exact List.map_congr_left fun p _ => by simp [Part.operand_seen, place_seen h]
  | false =>
    rw [format_unspelled _ _ _ hp, format_unspelled _ _ _ hp, Term.seen, format_unspelled _ _ _ (spells_seen h pos),
      place_seen h, Part.seenAll_eq_map]

end Twice

mutual

/-- What has been seen is seen as it is in a view that has the same places. -/
theorem Value.seen_of_seen (h : ∀ p, w.place p = v.place p) :
    (a : Value) → Value.seen w (Value.seen v a) = Value.seen v a
  | .list items => by rw [Value.seen, Value.seen, Value.seenAll_of_seen h items]
  | .closure stamp c => by rw [Value.seen, Value.seen, Closure.seen_of_seen h c]
  | .expander stamp name t => by rw [Value.seen, Value.seen, Transformer.seen_of_seen h t]
  | .struct stamp type fields => by rw [Value.seen, Value.seen, Value.seenAll_of_seen h fields]
  | .error stamp code description payload => by
    rw [Value.seen, Value.seen, Value.seenPayload_of_seen h payload]
  | .number _ _ | .quaternion _ _ | .string _ _ | .symbol _ | .boolean _ | .structType _ | .builtin _ => rfl

theorem Value.seenAll_of_seen (h : ∀ p, w.place p = v.place p) :
    (as : List Value) → Value.seenAll w (Value.seenAll v as) = Value.seenAll v as
  | [] => rfl
  | a :: as => by rw [Value.seenAll, Value.seenAll, Value.seen_of_seen h a, Value.seenAll_of_seen h as]

theorem Value.seenPayload_of_seen (h : ∀ p, w.place p = v.place p) :
    (p : Option Value) → Value.seenPayload w (Value.seenPayload v p) = Value.seenPayload v p
  | none => rfl
  | some a => by rw [Value.seenPayload, Value.seenPayload, Value.seen_of_seen h a]

/-- Of a procedure only the body has places. -/
theorem Closure.seen_of_seen (h : ∀ p, w.place p = v.place p) :
    (c : Closure Value) → Closure.seen w (Closure.seen v c) = Closure.seen v c
  | ⟨name, params, body, scope⟩ => by rw [Closure.seen, Closure.seen, Term.seenAll_of_seen h body]

theorem Transformer.seen_of_seen (h : ∀ p, w.place p = v.place p) :
    (t : Transformer Value) → Transformer.seen w (Transformer.seen v t) = Transformer.seen v t
  | .template params body scope => by rw [Transformer.seen, Transformer.seen, Term.seen_of_seen h body]
  | .rule pattern template => by
    rw [Transformer.seen, Transformer.seen, Term.seenAll_of_seen h pattern, Term.seen_of_seen h template]

theorem Term.seen_of_seen (h : ∀ p, w.place p = v.place p) :
    (t : Code) → Term.seen w (Term.seen v t) = Term.seen v t
  | .number pos x => by rw [Term.seen, Term.seen, View.place_seen h]
  | .string pos s => by rw [Term.seen, Term.seen, View.place_seen h]
  | .symbol pos name => by rw [Term.seen, Term.seen, View.place_seen h]
  | .boolean pos b => by rw [Term.seen, Term.seen, View.place_seen h]
  | .nil pos => by rw [Term.seen, View.nil_seen h]
  | .list pos ts => by rw [Term.seen, Term.seen, View.place_seen h, Term.seenAll_of_seen h ts]
  | .marked pos m t => by rw [Term.seen, View.marked_seen h, Term.seen_of_seen h t]
  | .format pos ps => by rw [Term.seen, View.format_seen h, ← Part.seenAll_eq_map, Part.seenAll_of_seen h ps]
  | .embedded pos a => by rw [Term.seen, Term.seen, View.place_seen h, Value.seen_of_seen h a]

theorem Term.seenAll_of_seen (h : ∀ p, w.place p = v.place p) :
    (ts : List Code) → Term.seenAll w (Term.seenAll v ts) = Term.seenAll v ts
  | [] => rfl
  | t :: ts => by rw [Term.seenAll, Term.seenAll, Term.seen_of_seen h t, Term.seenAll_of_seen h ts]

theorem Part.seen_of_seen (h : ∀ p, w.place p = v.place p) :
    (p : Part Value) → Part.seen w (Part.seen v p) = Part.seen v p
  | .text _ => rfl
  | .code t => by rw [Part.seen, Part.seen, Term.seen_of_seen h t]

theorem Part.seenAll_of_seen (h : ∀ p, w.place p = v.place p) :
    (ps : List (Part Value)) → Part.seenAll w (Part.seenAll v ps) = Part.seenAll v ps
  | [] => rfl
  | p :: ps => by rw [Part.seenAll, Part.seenAll, Part.seen_of_seen h p, Part.seenAll_of_seen h ps]

end

/-- A second look sees the same. -/
theorem Value.seen_seen (a : Value) : (a.seen w).seen w = a.seen w := Value.seen_of_seen (fun _ => rfl) a

theorem Part.seen_seen (p : Part Value) : (p.seen w).seen w = p.seen w := Part.seen_of_seen (fun _ => rfl) p

/-- A second look at code sees the same, whether shorthands were spelled out or not. -/
theorem Term.seen_seen (t : Code) : (t.seen w).seen w = t.seen w := Term.seen_of_seen (fun _ => rfl) t

/-! ## Faults and stores -/

variable (w)

/-- A fault with its place and what it carries as they are seen. -/
def Fault.seen (f : Fault) : Fault :=
  { f with payload := f.payload.map (Value.seen w), position := f.position.map w.place }

/-- A signal as it is seen. -/
def Signal.seen : Signal → Signal
  | .fault f => .fault (f.seen w)
  | e => e

/-- Bindings with each value changed. -/
def Bindings.through {ν μ : Type} (g : ν → μ) (b : Bindings ν) : Bindings μ := b.map fun (name, v) => (name, g v)

/-- Frames as they are seen. -/
def Frames.seen (f : Frames Value) : Frames Value := ⟨f.table.map (Bindings.through (Value.seen w))⟩

/-- What was handed out as it is seen: all of it, or all but the trace. -/
def View.log (log : Array Emission) : Array Emission :=
  if w.traced then log else log.filter fun e => e.trace?.isNone

/-- A store as it is seen. -/
def Store.seen (s : Store) : Store :=
  { s with
    frames := s.frames.seen w
    tracing := w.traced && s.tracing
    log := w.log s.log }

end Lisplet
