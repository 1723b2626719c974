/-!
# Struct types

A struct type has a name, its fields in order and an identity: the number of types registered before
it. Two definitions of one name are therefore two types. The registry only ever grows, up to its
capacity.

Main statements: a registration adds one type at the end (`register_types`) and is refused exactly at
capacity (`register_eq_none_iff`).
-/
namespace Lisplet

/-- A struct type. -/
structure StructType where
  id : Nat
  name : String
  fields : List String
deriving DecidableEq, Repr, Inhabited

/-- The struct types defined so far, in order, and how many there may be. -/
structure Registry where
  capacity : Int
  types : List StructType
deriving DecidableEq, Repr

namespace Registry

/-- The capacity when none is asked for. -/
def defaultCapacity : Int := 1024

/-- A registry without types. -/
def empty (capacity : Int) : Registry := ⟨capacity, []⟩

/-- How many types there are. -/
def size (r : Registry) : Nat := r.types.length

/-- Whether there is no room for another type. -/
def isFull (r : Registry) : Bool := r.capacity ≤ r.size

/-- Adds a type, unless the registry is full. -/
def register (r : Registry) (name : String) (fields : List String) : Option (StructType × Registry) :=
  if r.isFull then none
  else
    let type := ⟨r.size, name, fields⟩
    some (type, { r with types := r.types ++ [type] })

/-- The latest type of a name. -/
def find? (r : Registry) (name : String) : Option StructType :=
  r.types.reverse.find? (·.name == name)

/-- What follows a type's name and a dash in an identifier, if anything does. -/
def fieldAfter? (name identifier : String) : Option String :=
  let front := name.toList ++ ['-']
  if front.isPrefixOf identifier.toList then
    match identifier.toList.drop front.length with
    | [] => none
    | field => some (String.ofList field)
  else none

/-- The latest type that an unbound identifier names with a field the type does not have. -/
def missingField? (r : Registry) (identifier : String) : Option (StructType × String) :=
  r.types.reverse.findSome? fun type =>
    match fieldAfter? type.name identifier with
    | some field => if type.fields.contains field then none else some (type, field)
    | none => none

theorem register_types {r s : Registry} {name : String} {fields : List String} {type : StructType}
    (h : r.register name fields = some (type, s)) :
    s.types = r.types ++ [type] ∧ type = ⟨r.size, name, fields⟩ ∧ s.capacity = r.capacity := by
  unfold register at h
  split at h
  · simp at h
  · obtain ⟨rfl, rfl⟩ := by simpa using h
    exact ⟨rfl, rfl, rfl⟩

theorem register_eq_none_iff (r : Registry) (name : String) (fields : List String) :
    r.register name fields = none ↔ r.capacity ≤ r.size := by
  simp [register, isFull]

end Registry

end Lisplet
