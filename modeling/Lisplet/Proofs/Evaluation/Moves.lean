import Lisplet.Evaluation
/-!
# What a run can do to the store

`Moves own s s'` lists everything a run in a scope with the own frame `own` can do to the store: bind a name that
is not reserved in this frame, change a binding that exists, open a frame of its own and go on in it,
go on in the global frame, and change what is no frame at all. The trace is written when tracing only, a call gives back
the calling scope, an import gives back the directory and takes its file off the imports in progress. An action `Runs` in
a frame when its final store is reached by such moves, however it ends.

Whatever is true of the final store of every run is derived from these moves by induction; the actions
that the evaluator is made of run, as their parts do (`Runs.bind`, `Runs.childScope`).
-/
namespace Lisplet

theorem EStateM.bind_of_ok {ε σ α β : Type} {act : EStateM ε σ α} {s s' : σ} {a : α} (h : act s = .ok a s')
    (f : α → EStateM ε σ β) : (act >>= f) s = f a s' := by
  show EStateM.bind act f s = f a s'
  unfold EStateM.bind
  rw [h]

theorem EStateM.bind_of_error {ε σ α β : Type} {act : EStateM ε σ α} {s s' : σ} {e : ε} (h : act s = .error e s')
    (f : α → EStateM ε σ β) : (act >>= f) s = .error e s' := by
  show EStateM.bind act f s = .error e s'
  unfold EStateM.bind
  rw [h]

/-- Two actions in turn that end with a value have both ended with one. -/
theorem EStateM.bind_eq_ok {ε σ α β : Type} {act : EStateM ε σ α} {f : α → EStateM ε σ β} {s s' : σ} {b : β}
    (h : (act >>= f) s = .ok b s') : ∃ a m, act s = .ok a m ∧ f a m = .ok b s' := by
  cases hact : act s with
  | ok a m => exact ⟨a, m, rfl, (bind_of_ok hact f).symm.trans h⟩
  | error e m =>
    rw [bind_of_error hact f] at h
    cases h

/-- Actions that do the same from a store, and go on in the same way from where the second leads. -/
theorem EStateM.bind_congr_at {ε σ α β : Type} {act act' : EStateM ε σ α} {f f' : α → EStateM ε σ β} {s : σ}
    (h : act s = act' s) (hf : ∀ a m, act' s = .ok a m → f a m = f' a m) : (act >>= f) s = (act' >>= f') s := by
  cases hact : act' s with
  | ok a m => rw [bind_of_ok hact, bind_of_ok (h.trans hact), hf a m hact]
  | error e m => rw [bind_of_error hact, bind_of_error (h.trans hact)]

theorem Frames.value?_grow {ν : Type} (f : Frames ν) (k : Nat) (n : String) : f.grow.value? k n = f.value? k n :=
  Frames.value?_child f .global k n

/-- A frame that has a name is one of those that were opened. -/
theorem Frames.lt_size_of_value? {ν : Type} {f : Frames ν} {frame : Nat} {name : String} {v : ν}
    (h : f.value? frame name = some v) : frame < f.size := by
  refine Nat.lt_of_not_le fun hge => ?_
  have hnone : f.table[frame]? = none := Array.getElem?_eq_none hge
  simp [Frames.value?, Frames.bindings, hnone, Bindings.value?] at h

/-- The store an action ends with, whether it has a result or stops. -/
def Eval.final {α : Type} : EStateM.Result Signal Store α → Store
  | .ok _ s => s
  | .error _ s => s

theorem Eval.readFile_apply (path : String) (s : Store) :
    Eval.readFile path s =
      match s.world.file path with
      | none => .error (.waiting (.file path)) s
      | some (.ok text) => .ok text s
      | some (.error e) =>
        .error (.fault { code := .readFileFailed, detail := some (path ++ ": " ++ e.message path) }) s := by
  show EStateM.bind (Eval.answer (.file path) (s.world.file path)) _ s = _
  cases s.world.file path with
  | none => rfl
  | some answer => cases answer <;> rfl

/-- A file that could be read is in the world, and reading it changes nothing. -/
theorem Eval.readFile_eq_ok {path text : String} {s m : Store} (h : Eval.readFile path s = .ok text m) :
    s.world.file path = some (.ok text) ∧ s = m := by
  rw [Eval.readFile_apply] at h
  split at h
  next => cases h
  next htext =>
    obtain ⟨rfl, rfl⟩ := EStateM.Result.ok.inj h
    exact ⟨htext, rfl⟩
  next => cases h

theorem Eval.currentTime_apply (s : Store) :
    Eval.currentTime s =
      match s.world.time s.timesAsked with
      | some t => .ok t { s with timesAsked := s.timesAsked + 1 }
      | none => .error (.waiting (.time s.timesAsked)) s := by
  show EStateM.bind _ _ s = _
  cases s.world.time s.timesAsked
  · rfl
  · rfl

/-- A line is logged only while tracing. -/
theorem Eval.trace_apply (message : Unit → String) (s : Store) :
    Eval.trace message s = .ok () (if s.tracing then { s with log := s.log.push (.trace (message ())) } else s) := rfl

/-- How a run in a scope with the given own frame can change the store. -/
inductive Moves : Nat → Store → Store → Prop
  | refl {own : Nat} (s : Store) : Moves own s s
  | trans {own : Nat} {s t u : Store} : Moves own s t → Moves own t u → Moves own s u
  | bind {own : Nat} (s : Store) {name : String} (v : Value) : isReserved name = false →
      Moves own s { s with frames := s.frames.put own name v }
  | assign {own : Nat} (s : Store) {frame : Nat} {name : String} (v : Value) : isReserved name = false →
      (s.frames.value? frame name).isSome → Moves own s { s with frames := s.frames.put frame name v }
  | inner {own : Nat} {s s' : Store} : Moves s.frames.size { s with frames := s.frames.grow } s' → Moves own s s'
  | globally {own : Nat} {s s' : Store} : Moves 0 s s' → Moves own s s'
  | stamp {own : Nat} (s : Store) : Moves own s { s with nextStamp := s.nextStamp + 1 }
  | register {own : Nat} (s : Store) {name : String} {fields : List String} {type : StructType} {registry : Registry} :
      s.registry.register name fields = some (type, registry) → Moves own s { s with registry := registry }
  | log {own : Nat} (s : Store) {e : Emission} : e.trace? = none ∨ s.tracing = true →
      Moves own s { s with log := s.log.push e }
  | input {own : Nat} (s : Store) (input : Input) : Moves own s { s with input := input }
  | time {own : Nat} (s : Store) : Moves own s { s with timesAsked := s.timesAsked + 1 }
  | chance {own : Nat} (s : Store) : Moves own s { s with chancesAsked := s.chancesAsked + 1 }
  | calling {own : Nat} {s s' : Store} (scope : Scope) : Moves own { s with caller := scope } s' →
      Moves own s { s' with caller := s.caller }
  | importing {own : Nat} {s s' : Store} {path text : String} : s.importing.contains path = false →
      s.world.file path = some (.ok text) →
      Moves own { s with directory := Path.parent path, importing := path :: s.importing } s' →
      Moves own s { s' with directory := s.directory, importing := s'.importing.erase path }

/-- An action whose final store is always reached by moves. -/
def Runs {α : Type} (own : Nat) (act : Eval α) : Prop := ∀ s, Moves own s (Eval.final (act s))

namespace Runs

variable {α β : Type} {own : Nat}

theorem pure (a : α) : Runs own (pure a : Eval α) := fun s => .refl s

theorem throw (e : Signal) : Runs own (throw e : Eval α) := fun s => .refl s

theorem fault (f : Fault) : Runs own (Eval.fault f : Eval α) := throw _

theorem get : Runs own (get : Eval Store) := fun s => .refl s

/-- Two actions in turn from one store; the second starts where the first ends. -/
theorem bindAt {act : Eval α} {f : α → Eval β} {s : Store} (h : Moves own s (Eval.final (act s)))
    (hf : ∀ a m, act s = .ok a m → Moves own m (Eval.final (f a m))) : Moves own s (Eval.final ((act >>= f) s)) := by
  show Moves own s (Eval.final (EStateM.bind act f s))
  unfold EStateM.bind
  cases hact : act s with
  | ok a m =>
    rw [hact] at h
    exact .trans h (hf a m hact)
  | error e m =>
    rw [hact] at h
    exact h

/-- Actions in turn move as the first and then as the second. -/
theorem bind {act : Eval α} {f : α → Eval β} (h : Runs own act) (hf : ∀ a, Runs own (f a)) :
    Runs own (act >>= f) :=
  fun s => bindAt (h s) fun a m _ => hf a m

theorem ofExcept (x : Except Fault α) : Runs own (Eval.ofExcept x) := by
  cases x with
  | ok a => exact pure a
  | error f => exact fault f

theorem answer (q : Question) (a : Option α) : Runs own (Eval.answer q a) := by
  cases a with
  | some a => exact pure a
  | none => exact throw _

/-- What moves within the global frame may be done from any scope. -/
theorem globally {act : Eval α} (h : Runs 0 act) : Runs own act := fun s => .globally (h s)

theorem ite {p : Prop} [Decidable p] {act act' : Eval α} (h : Runs own act) (h' : Runs own act') :
    Runs own (if p then act else act') := by
  split
  · exact h
  · exact h'

/-! ## Primitives -/

theorem freshStamp : Runs own Eval.freshStamp := fun s => .stamp s

theorem lookup? (scope : Scope) (name : String) : Runs own (Eval.lookup? scope name) := fun s => .refl s

theorem lookup (scope : Scope) (name : String) (pos : Position) : Runs own (Eval.lookup scope name pos) := by
  refine bind get fun s => ?_
  split
  · exact pure _
  · exact fault _

/-- A definition binds in the frame of its scope, unless the name is reserved. -/
theorem define (scope : Scope) (name : String) (v : Value) : Runs scope.own (Eval.define scope name v) := by
  unfold Eval.define
  split
  case isTrue => exact fault _
  case isFalse h => exact fun s => .bind s v (by simpa using h)

/-- An assignment changes a frame that has the name already. -/
theorem assign (scope : Scope) {name : String} (v : Value) (hn : isReserved name = false) :
    Runs own (Eval.assign scope name v) := by
  intro s
  have howner : Eval.owner? scope name s = .ok (s.frames.owner? scope name) s := rfl
  unfold Eval.assign
  rw [EStateM.bind_of_ok howner]
  cases ho : s.frames.owner? scope name with
  | none => exact .refl s
  | some frame => exact .assign s v hn (List.find?_some (p := fun k => (s.frames.value? k name).isSome) ho)

/-- What happens in a new scope inside another one. -/
theorem childScope {scope : Scope} {f : Scope → Eval β} (h : ∀ inner, Runs inner.own (f inner)) :
    Runs own (Eval.childScope scope >>= f) :=
  fun s => .inner (h (s.frames.inside scope) _)

/-- The calling scope is put back, however the call ends. -/
theorem withCaller (scope : Scope) {act : Eval α} (h : Runs own act) : Runs own (Eval.withCaller scope act) := by
  intro s
  have hs := h { s with caller := scope }
  simp only [Eval.withCaller]
  cases hact : act { s with caller := scope } with
  | ok a m | error e m =>
    rw [hact] at hs
    exact .calling scope hs

/-- An import of a file that is there and not being imported already. -/
theorem withImport {path text : String} {act : Eval α} (h : Runs own act) {s : Store}
    (hp : s.importing.contains path = false) (hf : s.world.file path = some (.ok text)) :
    Moves own s (Eval.final (Eval.withImport path act s)) := by
  have hs := h { s with directory := Path.parent path, importing := path :: s.importing }
  simp only [Eval.withImport]
  cases hact : act { s with directory := Path.parent path, importing := path :: s.importing } with
  | ok a m | error e m =>
    rw [hact] at hs
    exact .importing hp hf hs

/-- A handler goes on from the store that the fault has left, which is no step back. -/
theorem catching {body : Eval Value} {handle : Fault → Eval Value} (hb : Runs own body)
    (hh : ∀ f, Runs own (handle f)) : Runs own (Recursion.catching body handle) := by
  intro s
  have hs := hb s
  unfold Recursion.catching
  split
  next f s' hbody =>
    rw [hbody] at hs
    exact .trans hs (hh f s')
  next => exact hs

theorem trace (message : Unit → String) : Runs own (Eval.trace message) := by
  intro s
  rw [Eval.trace_apply, Eval.final]
  split
  case isTrue htracing => exact .log s (.inr htracing)
  case isFalse => exact .refl s

/-- What is handed out is logged behind what was, unless the sink fails. -/
theorem emit (sink : Sink) {e : Emission} (he : e.trace? = none) : Runs own (Eval.emit sink e) := by
  unfold Eval.emit
  split
  · exact fault _
  · refine bind (fun s => .log s (.inl he)) fun _ => ?_
    split
    · exact fault _
    · exact pure ()

theorem write (text : String) : Runs own (Eval.write text) := bind get fun _ => emit _ rfl

theorem writeError (text : String) : Runs own (Eval.writeError text) := bind get fun _ => emit _ rfl

theorem readLine : Runs own Eval.readLine := by
  intro s
  simp only [Eval.readLine]
  split
  · exact .input s _
  · exact .input s _
  · exact .input s _
  · exact .refl s

theorem readFile (path : String) : Runs own (Eval.readFile path) := by
  refine bind get fun s => bind (answer _ _) fun text => ?_
  split
  · exact pure _
  · exact fault _

theorem currentTime : Runs own Eval.currentTime := by
  intro s
  rw [Eval.currentTime_apply]
  split
  · exact .time s
  · exact .refl s

theorem chance : Runs own Eval.chance := fun s => .chance s

end Runs

end Lisplet
