import Lisplet.Proofs.Evaluation.Moves
import Lisplet.Proofs.Evaluation.Direct
import Lisplet.Proofs.Reading.Places
/-!
# Shorthands and their long spelling

The word for the empty list, quote marks and format strings are shorthands: for each there is a list that denotes the same
data (`Term.toValue_spellOut`). A term is spelled out when lists stand for all its shorthands.

In a template, shorthands are data but for the unquoted terms that fill it, its holes. A term without holes is taken as it is
(`quasiquote_holeFree`).
-/
namespace Lisplet

/-- A node that stands for a list without being one. -/
def Term.isShorthand : Code → Bool
  | .nil _ | .marked _ _ _ | .format _ _ => true
  | _ => false

/-- The built-in procedure that joins the parts of a format string in the long spelling. -/
def Builtin.concatenation : Builtin := ⟨"string-concat", .atLeast 0, .sequence .concatenate⟩

/-- A term without shorthands. -/
def Term.Longhand (t : Code) : Prop := ∀ u ∈ t.nodes, u.isShorthand = false

mutual

/-- A term with its shorthands spelled out as lists. -/
def Term.spellOut : Code → Code
  | .nil pos => .list pos []
  | .list pos ts => .list pos (Term.spellOutAll ts)
  | .marked pos m t => .list pos [.symbol pos m.word, Term.spellOut t]
  | .format pos ps => .list pos (.symbol pos "string-concat" :: Part.spellOutAll pos ps)
  | t => t
termination_by structural t => t

/-- The terms of a row. -/
def Term.spellOutAll : List Code → List Code
  | [] => []
  | t :: ts => Term.spellOut t :: Term.spellOutAll ts
termination_by structural ts => ts

/-- The operands that the parts of a format string become; its text is placed at `pos`. -/
def Part.spellOutAll (pos : Position) : List (Part Value) → List Code
  | [] => []
  | .text s :: ps => .string pos s :: Part.spellOutAll pos ps
  | .code t :: ps => Term.spellOut t :: Part.spellOutAll pos ps
termination_by structural ps => ps

end

attribute [simp] Term.spellOut Part.spellOutAll

@[simp] theorem Term.spellOutAll_eq_map (ts : List Code) : Term.spellOutAll ts = ts.map Term.spellOut := by
  induction ts with
  | nil => rfl
  | cons t ts ih => rw [Term.spellOutAll, ih, List.map_cons]

@[simp] theorem Term.position_spellOut (t : Code) : t.spellOut.position = t.position := by cases t <;> rfl

/-- A shorthand is spelled out to a list, and no more a symbol than before. -/
@[simp] theorem Term.symbol?_spellOut (t : Code) : t.spellOut.symbol? = t.symbol? := by cases t <;> rfl

@[simp] theorem Term.isSymbol_spellOut (name : String) (t : Code) : t.spellOut.isSymbol name = t.isSymbol name := by
  cases t <;> rfl

mutual

/-- A term and its long spelling denote the same data. -/
@[simp] theorem Term.toValue_spellOut : (t : Code) → t.spellOut.toValue = t.toValue
  | .list pos ts => by rw [Term.spellOut, Term.toValue, Term.toValue, Term.toValues_spellOutAll ts]
  | .marked pos m t => by
    rw [Term.spellOut, Term.toValue, Term.toValue, Term.toValues, Term.toValues, Term.toValues, Term.toValue_spellOut t]
    rfl
  | .format pos ps => by
    rw [Term.spellOut, Term.toValue, Term.toValue, Term.toValues, Part.toValues_spellOutAll pos ps]
    rfl
  | .nil _ | .number _ _ | .string _ _ | .symbol _ _ | .boolean _ _ | .embedded _ _ => rfl

theorem Term.toValues_spellOutAll : (ts : List Code) → Term.toValues (Term.spellOutAll ts) = Term.toValues ts
  | [] => rfl
  | t :: ts => by
    rw [Term.spellOutAll, Term.toValues, Term.toValues, Term.toValue_spellOut t, Term.toValues_spellOutAll ts]

theorem Part.toValues_spellOutAll (pos : Position) :
    (ps : List (Part Value)) → Term.toValues (Part.spellOutAll pos ps) = Term.partValues ps
  | [] => rfl
  | .text s :: ps => by
    rw [Part.spellOutAll, Term.toValues, Term.partValues, Part.toValues_spellOutAll pos ps]
    rfl
  | .code t :: ps => by
    rw [Part.spellOutAll, Term.toValues, Term.partValues, Term.toValue_spellOut t, Part.toValues_spellOutAll pos ps]

end

namespace Term.Longhand

theorem list {pos : Position} {ts : List Code} (h : Longhand (.list pos ts)) : ∀ t ∈ ts, t.Longhand := by
  have hall : ∀ u ∈ nodesAll ts, u.isShorthand = false := fun u hu => h u (List.mem_cons_of_mem _ hu)
  clear h
  induction ts with
  | nil => exact fun t ht => absurd ht List.not_mem_nil
  | cons t ts ih =>
    rw [nodesAll, List.forall_mem_append] at hall
    exact List.forall_mem_cons.2 ⟨hall.1, ih hall.2⟩

/-- Nothing is spelled out in a term without shorthands. -/
theorem spellOut_eq : (t : Code) → t.Longhand → t.spellOut = t
  | .list pos ts, h => by
    rw [spellOut, spellOutAll_eq_map, List.map_congr_left (fun t ht => spellOut_eq t (h.list t ht)), List.map_id']
  | .nil pos, h => absurd (h _ List.mem_cons_self) (by simp [isShorthand])
  | .marked pos m t, h => absurd (h _ List.mem_cons_self) (by simp [isShorthand])
  | .format pos ps, h => absurd (h _ List.mem_cons_self) (by simp [isShorthand])
  | .number _ _, _ | .string _ _, _ | .symbol _ _, _ | .boolean _ _, _ | .embedded _ _, _ => rfl
termination_by t => sizeOf t

end Term.Longhand

/-! ## Templates -/

/-- A node that is filled when it stands in a template at depth zero. -/
def Term.isHole : Code → Bool
  | .marked _ .unquote _ => true
  | .list _ [.symbol _ name, _] => name == "unquote"
  | _ => false

theorem Term.isHole_headed {name : String} (h : name ≠ "unquote") (pos p : Position) (ts : List Code) :
    isHole (.list pos (.symbol p name :: ts)) = false := by
  match ts with
  | [t] => exact beq_false_of_ne h
  | [] | _ :: _ :: _ => rfl

/-- A hole in the long spelling is a list of two, with the word for it in front. -/
theorem Term.eq_of_isHole_list {pos : Position} {ts : List Code} (h : isHole (.list pos ts) = true) :
    ∃ p t, ts = [.symbol p "unquote", t] := by
  match ts with
  | [.symbol p name, t] =>
    obtain rfl : name = "unquote" := eq_of_beq h
    exact ⟨p, t, rfl⟩

/-- A term without holes. -/
def Term.HoleFree (t : Code) : Prop := ∀ u ∈ t.nodes, u.isHole = false

section Templates

variable (r : Recursion) (scope : Scope)

theorem quasiquote_list {pos : Position} {ts : List Code} (h : Term.isHole (.list pos ts) = false) (d : Nat) :
    r.quasiquote scope d (.list pos ts) = (do return .list (← r.quasiquoteAll scope d ts)) := by
  rw [Recursion.quasiquote]
  · rintro pos' t - rfl
    simp [Term.isHole] at h
  · rintro d' pos' t - rfl
    simp [Term.isHole] at h

/-- A list that is headed by a word keeps it in front of the data of its further terms, if this word is not the one of a hole. -/
theorem quasiquote_headed {name : String} (h : name ≠ "unquote") (pos p : Position) (ts : List Code) (d : Nat) :
    r.quasiquote scope d (.list pos (.symbol p name :: ts)) =
      (do return .list (.symbol name :: (← r.quasiquoteAll scope d ts))) := by
  rw [quasiquote_list r scope (Term.isHole_headed h pos p ts)]
  simp [Recursion.quasiquote, Recursion.quasiquoteAll, Term.toValue]

/-- A quote in the long spelling is the mark in front of the data of what it quotes. -/
theorem quasiquote_quoted (pos p : Position) (t : Code) (d : Nat) :
    r.quasiquote scope d (.list pos [.symbol p Marker.quote.word, t]) =
      (do return Recursion.markedValue .quote (← r.quasiquote scope d t)) := by
  rw [quasiquote_headed r scope (by decide)]
  simp [Recursion.quasiquoteAll, Recursion.markedValue]

mutual

/-- A term without holes is taken as it is. -/
theorem quasiquote_holeFree : (t : Code) → t.HoleFree → (d : Nat) → r.quasiquote scope d t = pure t.toValue
  | .list pos ts, h, d => by
    rw [quasiquote_list r scope (h _ List.mem_cons_self),
      quasiquoteAll_holeFree ts (fun u hu => h u (List.mem_cons_of_mem _ hu)) d, Term.toValue]
    rfl
  | .marked pos .unquote t, h, d => absurd (h _ List.mem_cons_self) (by simp [Term.isHole])
  | .marked pos .quote t, h, d | .marked pos .quasiquote t, h, d => by
    have hinner := quasiquote_holeFree t fun u hu => h u (List.mem_cons_of_mem _ hu)
    simp [Recursion.quasiquote, hinner, Term.toValue, Recursion.markedValue]
  | .format _ _, _, _ | .nil _, _, _ | .number _ _, _, _ | .string _ _, _, _ | .symbol _ _, _, _ | .boolean _ _, _, _
  | .embedded _ _, _, _ => by simp [Recursion.quasiquote]

/-- A row without holes is the data of its terms, and nothing is evaluated. -/
theorem quasiquoteAll_holeFree : (ts : List Code) → (∀ u ∈ Term.nodesAll ts, u.isHole = false) → (d : Nat) →
    r.quasiquoteAll scope d ts = pure (Term.toValues ts)
  | [], _, _ => by simp [Recursion.quasiquoteAll, Term.toValues]
  | t :: ts, h, d => by
    rw [Term.nodesAll, List.forall_mem_append] at h
    rw [Recursion.quasiquoteAll, quasiquote_holeFree t h.1 d, quasiquoteAll_holeFree ts h.2 d, Term.toValues]
    rfl

end

end Templates

end Lisplet
