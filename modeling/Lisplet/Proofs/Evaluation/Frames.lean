import Lisplet.Proofs.Evaluation.Running
/-!
# Definitions stay in their scope

A run in a scope binds new names in the scope's own frame, in the global frame and in frames that it opens
itself. Every other frame keeps the names it had, in their order; only their values can change
(`names_moves`). So a captured scope gains and loses no name while a term is evaluated elsewhere, however the
evaluation ends (`names_evaluate`).
-/
namespace Lisplet

namespace Bindings

variable {ν : Type}

/-- Binding a name that is bound already keeps the names as they are. -/
theorem names_put {b : Bindings ν} {name : String} (h : (b.value? name).isSome) (v : ν) :
    (b.put name v).names = b.names := by
  rw [put, if_pos h, names_replace]

end Bindings

namespace Frames

variable {ν : Type}

theorem bindings_put_of_ne (f : Frames ν) {frame k : Nat} (h : k ≠ frame) (name : String) (v : ν) :
    (f.put frame name v).bindings k = f.bindings k := by
  simp [put, bindings, Array.getElem?_modify, Ne.symm h]

theorem names_put (f : Frames ν) {frame : Nat} {name : String} (h : (f.value? frame name).isSome) (v : ν) (k : Nat) :
    ((f.put frame name v).bindings k).names = (f.bindings k).names := by
  by_cases hk : k = frame
  · subst hk
    have hb : ((f.put k name v).bindings k) = (f.table[k]?.map fun b => b.put name v).getD [] := by
      simp [put, bindings, Array.getElem?_modify]
    rw [hb]
    unfold value? bindings at *
    cases hf : f.table[k]? with
    | none => rfl
    | some b =>
      rw [hf] at h
      exact Bindings.names_put h v
  · rw [bindings_put_of_ne f hk]

theorem size_grow (f : Frames ν) : f.grow.size = f.size + 1 := Array.size_push _

theorem bindings_grow (f : Frames ν) {k : Nat} (h : k < f.size) : f.grow.bindings k = f.bindings k := by
  rw [size] at h
  simp [grow, bindings, Array.getElem?_push, Nat.ne_of_lt h]

end Frames

/-- Every frame there was before a run has the same names behind it, except the run's own frame and the
global one. -/
theorem names_moves {own : Nat} {s s' : Store} (h : Moves own s s') :
    s.frames.size ≤ s'.frames.size ∧
      ∀ k < s.frames.size, k ≠ own → k ≠ 0 → (s'.frames.bindings k).names = (s.frames.bindings k).names := by
  induction h with
  | refl s => exact ⟨Nat.le_refl _, fun _ _ _ _ => rfl⟩
  | trans _ _ ih₁ ih₂ =>
    refine ⟨Nat.le_trans ih₁.1 ih₂.1, fun k hk ho hg => ?_⟩
    rw [ih₂.2 k (Nat.lt_of_lt_of_le hk ih₁.1) ho hg, ih₁.2 k hk ho hg]
  | bind s v hn =>
    refine ⟨Nat.le_of_eq (Frames.size_put ..).symm, fun k _ ho _ => ?_⟩
    rw [Frames.bindings_put_of_ne s.frames ho]
  | assign s v hn hb => exact ⟨Nat.le_of_eq (Frames.size_put ..).symm, fun k _ _ _ => Frames.names_put s.frames hb v k⟩
  | @inner own s s' _ ih =>
    -- The frame that is new is no frame of before, so the names of all of those are kept.
    rw [Frames.size_grow] at ih
    refine ⟨Nat.le_of_succ_le ih.1, fun k hk _ hg => ?_⟩
    rw [ih.2 k (Nat.lt_succ_of_lt hk) (Nat.ne_of_lt hk) hg, Frames.bindings_grow s.frames hk]
  | globally _ ih => exact ⟨ih.1, fun k hk _ hg => ih.2 k hk hg hg⟩
  | calling scope _ ih => exact ih
  | importing _ _ _ ih => exact ih
  | _ => exact ⟨Nat.le_refl _, fun _ _ _ _ => rfl⟩

/-- Evaluating a term in a scope leaves the names of every frame as they were, the scope's own frame, the global
frame and new frames apart. This holds of every store, and whether the evaluation ends with a value, a fault or an exit. -/
theorem names_evaluate (n : Nat) (t : Code) (scope : Scope) (s : Store) {k : Nat} (hk : k < s.frames.size)
    (hown : k ≠ scope.own) (hglobal : k ≠ 0) :
    k < (Eval.final (evaluate n t scope s)).frames.size ∧
      ((Eval.final (evaluate n t scope s)).frames.bindings k).names = (s.frames.bindings k).names := by
  obtain ⟨hsize, hnames⟩ := names_moves ((confined_evaluate n).evaluate t scope s)
  exact ⟨Nat.lt_of_lt_of_le hk hsize, hnames k hk hown hglobal⟩

/-- A store with a captured frame that binds `x`, and a frame inside it. -/
def Store.captured : Store :=
  { Store.initial (World.closed "/" [] []) {} with
    frames := ⟨#[initialBindings, [("x", .number .made 1)], []]⟩ }

/-- The term `(begin (set! x 2) (define y x))`. -/
def shadowing : Code :=
  let word (name : String) : Code := .symbol .start name
  .list .start [word "begin", .list .start [word "set!", word "x", .number .start 2],
    .list .start [word "define", word "y", word "x"]]

/-- Assigning to `x` and defining `y` in the inner frame leaves the captured one with the name `x` alone. -/
theorem names_evaluate_captured :
    1 < (Eval.final (evaluator.evaluate shadowing ⟨2, [1, 0]⟩ Store.captured)).frames.size ∧
      ((Eval.final (evaluator.evaluate shadowing ⟨2, [1, 0]⟩ Store.captured)).frames.bindings 1).names = ["x"] :=
  names_evaluate fuel shadowing ⟨2, [1, 0]⟩ Store.captured (by decide) (by decide) (by decide)

end Lisplet
