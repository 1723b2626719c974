import Lisplet.Proofs.Evaluation.Halting
import Lisplet.Session
/-!
# The last value of a session

A program can bind names in many ways, but all of them are moves of a run, and a move binds no reserved name
(`remembers_moves`). So the one reserved name that is ever bound is `_` in the global frame, which the session itself binds
when a form has a value. `last_of_calls` follows a session through any calls and into the middle of one more: wherever that
one is halted, and whatever moves a run makes from there, `_` is bound to the last value, which is that of the latest
top-level form that was completed.
-/
namespace Lisplet

/-- A store in which `_` is bound to a value, in the global frame, and no other reserved name is bound anywhere. -/
structure Store.Remembers (s : Store) (v : Value) : Prop where
  last : s.frames.value? Scope.global.own lastName = some v
  reserved : ∀ frame name, isReserved name = true → (s.frames.value? frame name).isSome = true →
    frame = Scope.global.own ∧ name = lastName

namespace Store.Remembers

variable {s : Store} {v : Value}

/-- Binding a name that is not reserved, in whatever frame. -/
theorem put (hs : s.Remembers v) (frame : Nat) {name : String} (w : Value) (hn : isReserved name = false) :
    Store.Remembers { s with frames := s.frames.put frame name w } v := by
  have hother {n : String} (hr : isReserved n = true) (k : Nat) :
      (s.frames.put frame name w).value? k n = s.frames.value? k n := by
    have hne : n ≠ name := by
      rintro rfl
      exact absurd hr (by simp [hn])
    rw [Frames.value?_put, if_neg fun h => hne h.2.1]
  constructor
  · show (s.frames.put frame name w).value? _ lastName = some v
    rw [hother (by decide)]
    exact hs.last
  · intro k n hr hsome
    exact hs.reserved k n hr (hother hr k ▸ hsome)

theorem grow (hs : s.Remembers v) : Store.Remembers { s with frames := s.frames.grow } v := by
  constructor
  · show s.frames.grow.value? _ lastName = some v
    rw [Frames.value?_grow]
    exact hs.last
  · intro k n hr hsome
    exact hs.reserved k n hr (Frames.value?_grow s.frames k n ▸ hsome)

end Store.Remembers

/-- No move binds a reserved name, so what `_` is bound to stays. -/
theorem remembers_moves {own : Nat} {s s' : Store} (h : Moves own s s') {v : Value} (hs : s.Remembers v) :
    s'.Remembers v := by
  induction h with
  | refl s => exact hs
  | trans _ _ ih₁ ih₂ => exact ih₂ (ih₁ hs)
  | bind s w hn => exact hs.put _ w hn
  | assign s w hn _ => exact hs.put _ w hn
  | inner _ ih => exact ih hs.grow
  | globally _ ih => exact ih hs
  | calling scope _ ih =>
    have hs' := ih ⟨hs.last, hs.reserved⟩
    exact ⟨hs'.last, hs'.reserved⟩
  | importing _ _ _ ih =>
    have hs' := ih ⟨hs.last, hs.reserved⟩
    exact ⟨hs'.last, hs'.reserved⟩
  | stamp s | register s _ | log s e | input s i | time s | chance s => exact ⟨hs.last, hs.reserved⟩

namespace Session

/-! ## Calls -/

/-- A text to evaluate in a session, or a file to load into it. -/
inductive Call where
  | evaluate (source : String)
  | load (file : String)

/-- The session something ends in, whether it is done or stops. -/
def final {α : Type} : EStateM.Result Signal Session α → Session
  | .ok _ s => s
  | .error _ s => s

/-- The session after a call. -/
def Call.run : Call → Session → Session
  | .evaluate source, s => final (Session.evaluate source s)
  | .load file, s => final (loadFile file s)

/-- The forms that a text has before an error of reading. -/
def formsOf (source : String) : List Code :=
  match (Lexer.lex source).complete with
  | .error _ => []
  | .ok tokens => (Reader.read tokens).forms

/-- Goes through forms with an evaluator until something other than a fault stops it: the session then, and the values of
the forms that were completed. -/
def goThrough (r : Recursion) : List Code → Session → Session × List Value
  | [], s => (s, [])
  | t :: ts, s =>
    match r.evaluate t .global s.store with
    | .ok v store =>
      let (s', vs) := goThrough r ts (remember { s with store := store } v)
      (s', v :: vs)
    | .error (.fault _) store => goThrough r ts { s with store := store }
    | .error _ store => ({ s with store := store }, [])

/-- A call by an evaluator: the session then, and the values of the top-level forms that were completed. A file that is
loaded has no such forms. -/
def Call.runBy (r : Recursion) : Call → Session → Session × List Value
  | .evaluate source, s => goThrough r (formsOf source) s
  | .load file, s => ({ s with store := Eval.final (r.importFile file s.store) }, [])

/-- The values of the top-level forms that were completed in calls one after the other. -/
def completed : List Call → Session → List Value
  | [], _ => []
  | call :: calls, s => (call.runBy evaluator s).2 ++ completed calls (call.run s)

theorem final_evaluateForms (ts : List Code) (s : Session) :
    final (evaluateForms ts s) = (goThrough evaluator ts s).1 := by
  induction ts generalizing s with
  | nil => rfl
  | cons t ts ih =>
    have hrest (outcome : Outcome) (s' : Session) :
        final ((evaluateForms ts >>= fun outcomes => pure (outcome :: outcomes)) s') = (goThrough evaluator ts s').1 := by
      rw [← ih s']
      show final (EStateM.bind (evaluateForms ts) _ s') = _
      unfold EStateM.bind
      cases evaluateForms ts s' <;> rfl
    show final (EStateM.bind (evaluateForm t) _ s) = _
    unfold EStateM.bind evaluateForm goThrough
    cases evaluator.evaluate t .global s.store with
    | ok v store => exact hrest _ _
    | error e store =>
      cases e with
      | fault f => exact hrest _ _
      | _ => rfl

theorem final_evaluate (source : String) (s : Session) :
    final (Session.evaluate source s) = (goThrough evaluator (formsOf source) s).1 := by
  unfold Session.evaluate formsOf
  cases (Lexer.lex source).complete with
  | error e => rfl
  | ok tokens =>
    rw [← final_evaluateForms]
    show final (EStateM.bind (evaluateForms _) _ s) = final (evaluateForms (Reader.read tokens).forms s)
    unfold EStateM.bind
    cases evaluateForms (Reader.read tokens).forms s with
    | ok outcomes s' =>
      dsimp only
      generalize (Reader.read tokens : Reader.Reading Value).failure = failure
      cases failure <;> rfl
    | error e s' => rfl

/-- A call that is not halted is the call. -/
theorem runBy_evaluator (call : Call) (s : Session) : (call.runBy evaluator s).1 = call.run s := by
  cases call with
  | evaluate source => exact (final_evaluate source s).symm
  | load file =>
    show _ = final (onStore (evaluator.importFile file) s)
    unfold onStore
    cases h : evaluator.importFile file s.store <;> simp [Call.runBy, final, Eval.final, h]

/-! ## What a session remembers -/

/-- A session that has its last value bound to `_`. -/
def Remembers (s : Session) : Prop := s.store.Remembers s.last

theorem Remembers.moves {s : Session} (hs : s.Remembers) {own : Nat} {store : Store} (h : Moves own s.store store) :
    Remembers { s with store := store } :=
  remembers_moves h hs

/-- Remembering a value binds `_` in the global frame, and changes no other binding. -/
theorem remembers_remember {s : Session} (hglobal : 0 < s.store.frames.size)
    (hreserved : ∀ frame name, isReserved name = true → (s.store.frames.value? frame name).isSome = true →
      frame = Scope.global.own ∧ name = lastName) (v : Value) : (s.remember v).Remembers := by
  constructor
  · show (s.store.frames.put 0 lastName v).value? 0 lastName = some v
    rw [Frames.value?_put, if_pos ⟨rfl, rfl, hglobal⟩]
  · intro frame name hr hsome
    have hvalue : (s.remember v).store.frames.value? frame name =
        if frame = 0 ∧ name = lastName ∧ 0 < s.store.frames.size then some v else s.store.frames.value? frame name :=
      Frames.value?_put ..
    rw [hvalue] at hsome
    split at hsome
    case isTrue hlast => exact ⟨hlast.1, hlast.2.1⟩
    case isFalse => exact hreserved frame name hr hsome

theorem Remembers.remember {s : Session} (hs : s.Remembers) (v : Value) : (s.remember v).Remembers :=
  remembers_remember (Frames.lt_size_of_value? hs.last) hs.reserved v

/-- None of the names that are bound from the start is reserved. -/
theorem isReserved_initialBindings : ∀ p ∈ initialBindings, isReserved p.1 = false := by
  have hnames : ∀ name ∈ initialBindings.names, isReserved name = false := by decide
  exact fun p hp => hnames p.1 (List.mem_map_of_mem hp)

theorem remembers_new (world : World) (options : Options) (prompt : Option String) :
    (new world options prompt).Remembers := by
  have hglobal : 0 < (Store.initial world options).frames.size := Nat.zero_lt_one
  refine remembers_remember hglobal (fun frame name hr hsome => ?_) .nil
  obtain ⟨v, hv⟩ := Option.isSome_iff_exists.1 hsome
  cases frame with
  | zero =>
    obtain ⟨before, behind, hsplit, -⟩ := List.lookup_eq_some_iff.1 hv
    have hinitial : initialBindings = before ++ (name, v) :: behind := hsplit
    have hfree := isReserved_initialBindings (name, v) (hinitial ▸ List.mem_append_right _ List.mem_cons_self)
    exact absurd hr (by simp [hfree])
  | succ frame => cases hv

variable {r : Recursion} {s : Session}

/-- Going through forms: a form with a value makes this the last value, any other form changes nothing. -/
theorem remembers_goThrough (hr : r.Confined) (ts : List Code) (hs : s.Remembers) :
    (goThrough r ts s).1.Remembers ∧ (goThrough r ts s).1.last = (goThrough r ts s).2.getLastD s.last := by
  induction ts generalizing s with
  | nil => exact ⟨hs, rfl⟩
  | cons t ts ih =>
    have hmoves := hr.evaluate t .global s.store
    unfold goThrough
    cases heval : r.evaluate t .global s.store with
    | ok v store =>
      rw [heval] at hmoves
      obtain ⟨hrest, hlast⟩ := ih ((hs.moves hmoves).remember v)
      exact ⟨hrest, by rw [List.getLastD_cons]; exact hlast⟩
    | error e store =>
      rw [heval] at hmoves
      cases e with
      | fault f => exact ih (hs.moves hmoves)
      | _ => exact ⟨hs.moves hmoves, rfl⟩

theorem remembers_runBy (hr : r.Confined) (call : Call) (hs : s.Remembers) :
    (call.runBy r s).1.Remembers ∧ (call.runBy r s).1.last = (call.runBy r s).2.getLastD s.last := by
  cases call with
  | evaluate source => exact remembers_goThrough hr (formsOf source) hs
  | load file =>
    have hruns : Runs 0 (r.importFile file) := runs_importFile hr file
    exact ⟨hs.moves (hruns s.store), rfl⟩

theorem remembers_run (call : Call) (hs : s.Remembers) :
    (call.run s).Remembers ∧ (call.run s).last = (call.runBy evaluator s).2.getLastD s.last := by
  rw [← runBy_evaluator]
  exact remembers_runBy (confined_evaluate fuel) call hs

theorem getLastD_append {α : Type} (as bs : List α) (a : α) : (as ++ bs).getLastD a = bs.getLastD (as.getLastD a) := by
  simp [List.getLastD_eq_getLast?]

theorem remembers_calls (calls : List Call) (hs : s.Remembers) :
    (calls.foldl (fun s call => call.run s) s).Remembers ∧
      (calls.foldl (fun s call => call.run s) s).last = (completed calls s).getLastD s.last := by
  induction calls generalizing s with
  | nil => exact ⟨hs, rfl⟩
  | cons call calls ih =>
    obtain ⟨hfirst, hlast⟩ := remembers_run call hs
    obtain ⟨hrest, hlast'⟩ := ih hfirst
    refine ⟨hrest, hlast'.trans ?_⟩
    rw [completed, getLastD_append, hlast]

/-- Reserved names stay reserved, and `_` is the last value. After any calls, `now` is a moment of one more call: where it
is halted by a condition on the store, or its end if it never is. In the store of that moment, and in every store that
further moves of a run lead to, the only reserved name that is bound is `_` in the global frame, and it is bound to the
last value: that of the latest top-level form completed in all those calls, and the empty list if there is none. -/
theorem last_of_calls (world : World) (options : Options) (prompt : Option String) (calls : List Call) (call : Call)
    (halt : Store → Bool) :
    let start := new world options prompt
    let before := calls.foldl (fun s call => call.run s) start
    let now := (call.runBy (haltingEvaluator halt) before).1
    (∀ own store, Moves own now.store store → store.Remembers now.last) ∧
      now.last = (completed calls start ++ (call.runBy (haltingEvaluator halt) before).2).getLastD .nil := by
  intro start before now
  have hstart : start.Remembers := remembers_new world options prompt
  obtain ⟨hbefore, hlast⟩ : before.Remembers ∧ before.last = _ := remembers_calls calls hstart
  obtain ⟨hnow, hlast'⟩ : now.Remembers ∧ now.last = _ := remembers_runBy (confined_haltingEvaluator halt) call hbefore
  refine ⟨fun own store hmoves => remembers_moves hmoves hnow, hlast'.trans ?_⟩
  rw [getLastD_append, hlast]
  rfl

end Session

end Lisplet
