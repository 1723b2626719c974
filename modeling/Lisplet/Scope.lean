import Lisplet.ErrorCode
/-!
# Scopes and frames

Bindings live in frames, numbered in order of creation; frame 0 is the global one. A scope is a chain
of frames, its own first, and a name means its binding in the nearest frame that has one (`lookup?`).
`define` binds in a scope's own frame, `assign` changes the nearest binding there is, and a child scope
puts a new frame in front. Reserved names can never be defined.

Main statements: putting a value under a name changes that name in that frame and nothing else
(`value?_put`), and a new frame changes no existing one (`value?_child`).
-/
namespace Lisplet

/-- The names that can never be bound by a program. -/
def reservedNames : List String :=
  ["define", "lambda", "λ", "cond", "if", "else", "let", "begin",
    "quote", "quasiquote", "unquote",
    "define-struct", "define-macro", "define-macro-rule",
    "set!", "try", "import", "_"]

/-- Whether a name can never be bound by a program. -/
def isReserved (name : String) : Bool := reservedNames.contains name

/-- A chain of frames, the scope's own frame first. -/
structure Scope where
  own : Nat
  outer : List Nat
deriving DecidableEq, Repr, Inhabited

namespace Scope

/-- The global scope. -/
def global : Scope := ⟨0, []⟩

/-- The frames of a scope, nearest first. -/
def chain (s : Scope) : List Nat := s.own :: s.outer

end Scope

/-- Names and what they are bound to; a name occurs once. -/
abbrev Bindings (ν : Type) := List (String × ν)

namespace Bindings

variable {ν : Type}

/-- The value of a name. -/
def value? (b : Bindings ν) (name : String) : Option ν := b.lookup name

/-- Changes the binding of a name that has one. -/
def replace (name : String) (v : ν) : Bindings ν → Bindings ν
  | [] => []
  | (n, w) :: rest => if n = name then (name, v) :: rest else (n, w) :: replace name v rest

/-- Binds a name, in the place of its old binding if it had one and in front otherwise. -/
def put (b : Bindings ν) (name : String) (v : ν) : Bindings ν :=
  if (b.value? name).isSome then b.replace name v else (name, v) :: b

/-- The names bound. -/
def names (b : Bindings ν) : List String := b.map Prod.fst

theorem value?_cons (m : String) (w : ν) (b : Bindings ν) (n : String) :
    value? ((m, w) :: b) n = if n = m then some w else value? b n := by
  by_cases h : n = m
  · simp [value?, h]
  · have hb : (n == m) = false := by simpa using h
    simp [value?, List.lookup_cons, h, hb]

theorem names_replace (name : String) (v : ν) (b : Bindings ν) :
    names (replace name v b) = names b := by
  induction b with
  | nil => rfl
  | cons p rest ih =>
    obtain ⟨m, w⟩ := p
    by_cases h : m = name
    · simp [replace, names, h]
    · simpa [replace, names, h] using ih

/-- Replacing changes the name that is replaced, if it is there, and no other. -/
theorem value?_replace (name : String) (v : ν) (b : Bindings ν) (n : String) :
    value? (replace name v b) n =
      if n = name ∧ (value? b name).isSome then some v else value? b n := by
  induction b with
  | nil => simp [replace, value?]
  | cons p rest ih =>
    obtain ⟨m, w⟩ := p
    by_cases hm : m = name
    · subst hm
      by_cases hn : n = m <;> simp [replace, value?_cons, hn]
    · have hm' : ¬ name = m := fun h => hm h.symm
      by_cases hn : n = m
      · subst hn; simp [replace, value?_cons, hm]
      · simp [replace, value?_cons, hm, hm', hn, ih]

/-- Binding a name changes that name and no other. -/
theorem value?_put (b : Bindings ν) (name : String) (v : ν) (n : String) :
    value? (put b name v) n = if n = name then some v else value? b n := by
  by_cases h : (value? b name).isSome
  · by_cases hn : n = name <;> simp [put, h, value?_replace, hn]
  · simp [put, h, value?_cons]

/-- What a name is bound to after some bindings comes from one of them, or was there before. -/
theorem mem_or_of_value?_foldl_put {pairs : List (String × ν)} {b : Bindings ν} {name : String} {v : ν}
    (h : (pairs.foldl (fun b p => b.put p.1 p.2) b).value? name = some v) : (name, v) ∈ pairs ∨ b.value? name = some v := by
  induction pairs generalizing b with
  | nil => exact .inr h
  | cons p pairs ih =>
    rcases ih h with hmem | hput
    · exact .inl (List.mem_cons_of_mem _ hmem)
    · rw [value?_put] at hput
      split at hput
      case isTrue hname =>
        cases hput
        exact .inl (hname ▸ List.mem_cons_self)
      case isFalse => exact .inr hput

theorem isSome_value?_foldl_put (pairs : List (String × ν)) (b : Bindings ν) (name : String) :
    ((pairs.foldl (fun b p => b.put p.1 p.2) b).value? name).isSome ↔
      name ∈ pairs.map Prod.fst ∨ (b.value? name).isSome := by
  induction pairs generalizing b with
  | nil => simp
  | cons p pairs ih =>
    rw [List.foldl_cons, ih, value?_put, List.map_cons, List.mem_cons]
    by_cases hname : name = p.1
    · simp [hname]
    · simp [hname]

end Bindings

/-- The frames of a run. -/
structure Frames (ν : Type) where
  table : Array (Bindings ν)

/-- Why a binding is refused. -/
inductive ScopeError where
  | reserved (name : String)
  | undefined (name : String)
deriving DecidableEq, Repr

namespace ScopeError

/-- The code of a refusal. -/
def code : ScopeError → ErrorCode
  | reserved _ => .reservedIdentifier
  | undefined _ => .undefinedIdentifier

/-- The name a refusal is about. -/
def name : ScopeError → String
  | reserved name => name
  | undefined name => name

end ScopeError

namespace Frames

variable {ν : Type}

/-- A single empty frame. -/
def initial : Frames ν := ⟨#[[]]⟩

/-- How many frames there are. -/
def size (f : Frames ν) : Nat := f.table.size

/-- The bindings of a frame. -/
def bindings (f : Frames ν) (frame : Nat) : Bindings ν := f.table[frame]?.getD []

/-- The value of a name in one frame. -/
def value? (f : Frames ν) (frame : Nat) (name : String) : Option ν := (f.bindings frame).value? name

/-- The value a name has in a scope: that of the nearest frame that binds it. -/
def lookup? (f : Frames ν) (s : Scope) (name : String) : Option ν :=
  s.chain.findSome? fun frame => f.value? frame name

/-- The nearest frame that binds a name. -/
def owner? (f : Frames ν) (s : Scope) (name : String) : Option Nat :=
  s.chain.find? fun frame => (f.value? frame name).isSome

/-- The value a name has in a scope, which must exist. -/
def lookup (f : Frames ν) (s : Scope) (name : String) : Except ScopeError ν :=
  match f.lookup? s name with
  | some v => .ok v
  | none => .error (.undefined name)

/-- Whether a name has a value in a scope. -/
def has (f : Frames ν) (s : Scope) (name : String) : Bool := (f.lookup? s name).isSome

/-- Binds a name in one frame. -/
def put (f : Frames ν) (frame : Nat) (name : String) (v : ν) : Frames ν :=
  ⟨f.table.modify frame fun b => b.put name v⟩

/-- Binds a name in a scope's own frame, whatever it is. -/
def bind (f : Frames ν) (s : Scope) (name : String) (v : ν) : Frames ν := f.put s.own name v

/-- Binds a name in a scope's own frame; a reserved name is refused. -/
def define (f : Frames ν) (s : Scope) (name : String) (v : ν) : Except ScopeError (Frames ν) :=
  if isReserved name then .error (.reserved name) else .ok (f.bind s name v)

/-- Changes the nearest binding of a name, which must exist. -/
def assign (f : Frames ν) (s : Scope) (name : String) (v : ν) : Except ScopeError (Frames ν) :=
  match f.owner? s name with
  | some frame => .ok (f.put frame name v)
  | none => .error (.undefined name)

/-- The scope inside another one whose own frame is the next to be made. -/
def inside (f : Frames ν) (s : Scope) : Scope := ⟨f.size, s.chain⟩

/-- One more frame, without bindings. -/
def grow (f : Frames ν) : Frames ν := ⟨f.table.push []⟩

/-- A scope inside another one, with a new frame of its own. -/
def child (f : Frames ν) (s : Scope) : Scope × Frames ν := (f.inside s, f.grow)

theorem size_put (f : Frames ν) (frame : Nat) (name : String) (v : ν) :
    (f.put frame name v).size = f.size := by
  simp [put, size]

theorem value?_put (f : Frames ν) (frame : Nat) (name : String) (v : ν) (k : Nat) (n : String) :
    (f.put frame name v).value? k n =
      if k = frame ∧ n = name ∧ frame < f.size then some v else f.value? k n := by
  simp only [put, value?, bindings, Array.getElem?_modify, size]
  by_cases hk : k = frame
  · subst hk
    by_cases hlt : k < f.table.size
    · simp [hlt, Bindings.value?_put]
    · simp [hlt]
  · have hne : ¬ frame = k := fun h => hk h.symm
    simp [hk, hne]

/-- A new frame is empty, so that no name means anything else behind it. -/
theorem value?_child (f : Frames ν) (s : Scope) (k : Nat) (n : String) :
    (f.child s).2.value? k n = f.value? k n := by
  by_cases hk : k < f.table.size
  · simp [child, grow, value?, bindings, Array.getElem?_push, Nat.ne_of_lt hk]
  · have hle : f.table.size ≤ k := Nat.le_of_not_lt hk
    by_cases he : k = f.table.size
    · subst he; simp [child, grow, value?, bindings, Bindings.value?]
    · simp [child, grow, value?, bindings, Array.getElem?_push, he, Array.getElem?_eq_none hle]

end Frames

end Lisplet
