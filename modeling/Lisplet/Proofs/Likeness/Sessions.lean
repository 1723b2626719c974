import Lisplet.Proofs.Likeness.Evaluating
/-!
# Sessions respect every view

A session has a store and a last value, and both can be seen. Forms that are alike have alike outcomes in alike sessions,
which they leave alike (`Session.alike_evaluateForms`).
-/
namespace Lisplet

variable {w : View} {α β γ δ : Type}

/-- An outcome as it is seen. -/
def Outcome.seen (w : View) : Outcome → Outcome
  | .value v => .value (v.seen w)
  | .failed f => .failed (f.seen w)

namespace Session

/-- A session as it is seen. -/
def seen (w : View) (s : Session) : Session := { s with store := s.store.seen w, last := s.last.seen w }

/-- Things done in a session that end alike when they start alike. -/
def Alike (w : View) (g : α → β) (act act' : Act α) : Prop :=
  ∀ s s' : Session, s.seen w = s'.seen w → Agree w (seen w) g (act s) (act' s')

namespace Alike

variable {g : α → β}

theorem pure {a a' : α} (h : g a = g a') : Alike w g (pure a : Act α) (pure a') := fun _ _ hs => .ok h hs

/-- Actions of a session in turn are alike if each is. -/
theorem bind {k : γ → δ} {act act' : Act α} {f f' : α → Act γ} (h : Alike w g act act')
    (hf : ∀ a a', g a = g a' → Alike w k (f a) (f' a')) : Alike w k (act >>= f) (act' >>= f') := by
  intro s s' hs
  exact (h s s' hs).bind fun a a' t t' ha ht => hf a a' ha t t' ht

end Alike

/-- The last value is bound to a reserved name, as it is seen. -/
theorem remember_seen {s s' : Session} (hs : s.seen w = s'.seen w) {v v' : Value} (hv : v.seen w = v'.seen w) :
    (s.remember v).seen w = (s'.remember v').seen w := by
  have e : ∀ (t : Session) (u : Value), (t.remember u).seen w = (t.seen w).remember (u.seen w) := by
    intro t u
    simp only [remember, seen, Store.seen, Frames.bind, Frames.seen_put]
  rw [e, e, hs, hv]

variable [w.Short]

theorem alike_evaluateForm {t t' : Code} (ht : t.seen w = t'.seen w) :
    Alike w (Outcome.seen w) (evaluateForm t) (evaluateForm t') := by
  intro s s' hs
  have hstore : s.store.seen w = s'.store.seen w := congrArg Session.store hs
  have hact : Agree w (Store.seen w) (Value.seen w) (evaluator.evaluate t .global s.store)
      (evaluator.evaluate t' .global s'.store) :=
    ((respects_evaluate w fuel).evaluate .global ht s.store s'.store hstore).agree
  have hback {m m' : Store} (hm : m.seen w = m'.seen w) :
      Session.seen w { s with store := m } = Session.seen w { s' with store := m' } := by
    show { s.seen w with store := m.seen w } = { s'.seen w with store := m'.seen w }
    rw [hs, hm]
  unfold evaluateForm
  generalize evaluator.evaluate t .global s.store = x at *
  generalize evaluator.evaluate t' .global s'.store = y at *
  cases hact with
  | ok hv hm => exact .ok (congrArg Outcome.value hv) (remember_seen (hback hm) hv)
  | @error e e' m m' he hm =>
    -- A fault becomes an outcome; anything else stops both sessions.
    cases e <;> cases e' <;> first
      | exact .ok (congrArg Outcome.failed (Signal.fault.inj he)) (hback hm)
      | exact .error he (hback hm)
      | cases he

/-- Forms that are seen as the same have outcomes that are, one by one. -/
theorem alike_evaluateForms {ts ts' : List Code} (h : ts.map (Term.seen w) = ts'.map (Term.seen w)) :
    Alike w (List.map (Outcome.seen w)) (evaluateForms ts) (evaluateForms ts') := by
  induction ts generalizing ts' with
  | nil =>
    obtain rfl : ts' = [] := by simpa using h.symm
    exact .pure rfl
  | cons t ts ih =>
    obtain ⟨t', ts', rfl, ht, hts⟩ := List.map_eq_cons_iff.1 h.symm
    refine .bind (alike_evaluateForm ht.symm) fun o o' ho => .bind (ih hts.symm) fun os os' hos => .pure ?_
    rw [List.map_cons, List.map_cons, ho, hos]

end Session

end Lisplet
