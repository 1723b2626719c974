import Lisplet.Proofs.Evaluation.Running
/-!
# The dynamic context is given back

A store holds the scope that the running built-in procedure was called from, the directory that paths start from and
the imports in progress. A call changes the first for as long as it runs, an import the other two, and they nest in any
way: a procedure evaluates code that calls procedures and imports files. Whatever a run does, it ends in the context it
began in (`context_moves`), and this holds of evaluating a term or a text, applying a procedure and importing a file,
whether a value, a fault or an exit ends it (`context_final`).
-/
namespace Lisplet

/-- What depends on where a run is: the calling scope, the directory that relative paths start from and the imports in
progress. -/
def Store.context (s : Store) : Scope × String × List String := (s.caller, s.directory, s.importing)

/-- Moves of any number and depth lead back to the context they began in. -/
theorem context_moves {own : Nat} {s s' : Store} (h : Moves own s s') : s'.context = s.context := by
  induction h with
  | trans _ _ ih₁ ih₂ => exact ih₂.trans ih₁
  | inner _ ih => exact ih
  | globally _ ih => exact ih
  | @calling own s s' scope _ ih =>
    -- What ran in the call gave back the directory and the imports; the calling scope is put back by the call itself.
    obtain ⟨-, hdirectory, himporting⟩ : s'.caller = scope ∧ s'.directory = s.directory ∧ s'.importing = s.importing := by
      simpa [Store.context] using ih
    simp [Store.context, hdirectory, himporting]
  | @importing own s s' path text _ _ _ ih =>
    -- What ran in the import left its own file in front of the imports, from where it is taken.
    obtain ⟨hcaller, -, himporting⟩ :
        s'.caller = s.caller ∧ s'.directory = Path.parent path ∧ s'.importing = path :: s.importing := by
      simpa [Store.context] using ih
    simp [Store.context, hcaller, himporting]
  | _ => rfl

theorem context_of_runs {α : Type} {own : Nat} {act : Eval α} (h : Runs own act) (s : Store) :
    (Eval.final (act s)).context = s.context :=
  context_moves (h s)

/-- The context of a store is the same before and after every evaluation of a term, application of a procedure, evaluation
of a text and import of a file, however deep they nest and however they end. -/
theorem context_final (n : Nat) (s : Store) :
    (∀ t scope, (Eval.final (evaluate n t scope s)).context = s.context) ∧
      (∀ f args, (Eval.final (apply n f args s)).context = s.context) ∧
      (∀ scope source, (Eval.final (Recursion.evaluateSource ⟨evaluate n, apply n⟩ scope source s)).context = s.context) ∧
      ∀ file, (Eval.final (Recursion.importFile ⟨evaluate n, apply n⟩ file s)).context = s.context := by
  have h := confined_evaluate n
  refine ⟨fun t scope => ?_, fun f args => ?_, fun scope source => ?_, fun file => ?_⟩
  · exact context_of_runs (h.evaluate t scope) s
  · exact context_of_runs (h.apply 0 f args) s
  · exact context_of_runs (runs_evaluateSource h scope source) s
  · have hi : Runs 0 (Recursion.importFile ⟨evaluate n, apply n⟩ file) := runs_importFile h file
    exact context_of_runs hi s

end Lisplet
