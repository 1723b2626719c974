import Mathlib.Data.Set.Card
import Lisplet.Proofs.Evaluation.Congruence
import Lisplet.Proofs.Evaluation.Context
import Lisplet.Proofs.Session.LastValue
/-!
# Imports in progress

Code imports files from anywhere: in a closure, in a macro, in code made of data, in the handler of a fault. To say which
imports are being evaluated at a moment of a run, evaluation is watched. The `watcher` does what the evaluator does, and is
told the paths of the import calls it is inside of (`active`): an import hands its own path on to the evaluation of its file,
and nothing else does. Whenever a term, an application or a file is taken up and whenever one is done with, however that ends,
it looks at the store, and where the imports in progress are not exactly those, or there are two of one path, or more than
there are files to be read, it raises an alarm.

The alarm may be any action; with one that does nothing the watcher is the evaluator (`watcher_silent`). Main statement: the
alarm is never raised, since the watched calls of a session leave it as the calls themselves do, whatever the alarm is
(`watched_eq_run`). The invariant is `Store.Tracks`; evaluation passes on that two actions agree from the stores that satisfy
it (`congruence_agree`), and an import goes from some paths to one path more (`agree_importWatched`).
-/
namespace Lisplet

/-- The resolved paths that a file can be read from. -/
def World.readable (w : World) : Set String :=
  {path | (∃ base file, path = Path.resolve base file) ∧ ∃ text, w.file path = some (.ok text)}

/-- The imports in progress are those of the given paths, no two of which are the same, and there are no more of them than
files that can be read. -/
structure Store.Imports (w : World) (active : List String) (s : Store) : Prop where
  exact : s.importing = active
  distinct : active.Nodup
  bounded : (active.length : ℕ∞) ≤ w.readable.encard

/-! ## Watching -/

namespace Eval

variable {α : Type}

open Classical in
/-- Looks at the imports in progress, and raises the alarm if they are not as they should be. -/
noncomputable def look (w : World) (alarm : Eval Unit) (active : List String) : Eval Unit := fun s =>
  if s.Imports w active then .ok () s else alarm s

/-- Looks behind an action, whether it has a result or stops. -/
def behind (look : Eval Unit) (act : Eval α) : Eval α := fun s =>
  match act s with
  | .ok a s' => (look >>= fun _ => pure a) s'
  | .error e s' => (look >>= fun _ => throw e) s'

/-- Looks before an action and behind it. -/
def around (look : Eval Unit) (act : Eval α) : Eval α := do
  look
  behind look act

end Eval

/-- One step of evaluating a term, with an action for importing a file. -/
def Recursion.stepWith (r : Recursion) (load : String → Eval Unit) (t : Code) (scope : Scope) : Eval Step :=
  match importOperands? t with
  | none => r.step t scope
  | some operands => do
    let t ← Eval.ofExcept (Recursion.single operands)
    let file ← Eval.ofExcept (← r.evaluate t scope).asString
    load file
    return .done .nil

/-- Imports a file inside the imports of the given paths, and watches its evaluation as one of its own path more. -/
noncomputable def importWatched (w : World) (alarm : Eval Unit) (inside : List String → Recursion) (active : List String) :
    String → Eval Unit :=
  Eval.importWith fun path text =>
    Eval.around (Eval.look w alarm (path :: active)) ((inside (path :: active)).evaluateSource .global text)

/-- Evaluation that is watched, inside the imports of the given paths. -/
noncomputable def watcher (w : World) (alarm : Eval Unit) : Nat → List String → Recursion
  | 0, _ => ⟨fun _ _ => throw .outOfFuel, fun _ _ => throw .outOfFuel⟩
  | n + 1, active =>
    let r := watcher w alarm n active
    let load := importWatched w alarm (watcher w alarm n) active
    { evaluate := fun t scope => Eval.around (Eval.look w alarm active) (r.stepWith load t scope >>= Step.settle r)
      apply := fun f args => Eval.around (Eval.look w alarm active) (r.applyValue f args) }

/-! ## Looking changes nothing -/

theorem Eval.look_silent (w : World) (active : List String) : Eval.look w (pure ()) active = pure () := by
  funext s
  unfold Eval.look
  split
  · rfl
  · rfl

theorem Eval.around_pure {α : Type} (act : Eval α) : Eval.around (pure ()) act = act := by
  funext s
  show Eval.behind (pure ()) act s = act s
  unfold Eval.behind
  cases act s <;> rfl

/-- An import form is a list that starts with its keyword. -/
theorem exists_of_importOperands? {t : Code} {operands : List Code} (h : importOperands? t = some operands) :
    ∃ pos head, t = .list pos (head :: operands) ∧ head.symbol?.bind Keyword.ofName? = some .load := by
  unfold importOperands? at h
  split at h
  next pos head rest =>
    split at h
    case isTrue hload =>
      obtain rfl := Option.some.inj h
      exact ⟨pos, head, rfl, hload⟩
    case isFalse => cases h
  next => cases h

theorem Recursion.stepWith_importFile (r : Recursion) (t : Code) (scope : Scope) :
    r.stepWith r.importFile t scope = r.step t scope := by
  unfold Recursion.stepWith
  split
  next => rfl
  next operands hsome =>
    obtain ⟨pos, head, rfl, hload⟩ := exists_of_importOperands? hsome
    simp only [Recursion.step, hload]
    rfl

/-- With an alarm that does nothing, watched evaluation is evaluation, whatever it is told. -/
theorem watcher_silent (w : World) (n : Nat) (active : List String) :
    watcher w (pure ()) n active = ⟨evaluate n, apply n⟩ := by
  induction n generalizing active with
  | zero => rfl
  | succ n ih =>
    have hload : importWatched w (pure ()) (watcher w (pure ()) n) active =
        Recursion.importFile ⟨evaluate n, apply n⟩ := by
      unfold importWatched
      simp only [Eval.look_silent, Eval.around_pure, ih]
      rfl
    unfold watcher
    simp only [Eval.look_silent, Eval.around_pure, hload, ih, Recursion.stepWith_importFile]
    rfl

/-! ## Watched sessions -/

/-- A call of a session that is watched. -/
noncomputable def Session.Call.watched (w : World) (alarm : Eval Unit) : Session.Call → Session → Session
  | .evaluate source, s => (Session.goThrough (watcher w alarm fuel []) (Session.formsOf source) s).1
  | .load file, s =>
    { s with store := Eval.final (importWatched w alarm (watcher w alarm fuel) [] file s.store) }

/-! ## The invariant -/

/-- A store of a world, in which the imports of the given paths are in progress. Each of them is of another path that can be
read. -/
structure Store.Tracks (w : World) (active : List String) (s : Store) : Prop where
  world : s.world = w
  importing : s.importing = active
  distinct : active.Nodup
  readable : ∀ path ∈ active, path ∈ w.readable

theorem Store.Tracks.imports {w : World} {active : List String} {s : Store} (h : s.Tracks w active) :
    s.Imports w active := by
  refine ⟨h.importing, h.distinct, ?_⟩
  have hsubset : (active.toFinset : Set String) ⊆ w.readable := by
    intro path hpath
    exact h.readable path (by simpa using hpath)
  have hcard := Set.encard_le_encard hsubset
  rwa [Set.encard_coe_eq_coe_finsetCard, List.toFinset_card_of_nodup h.distinct] at hcard

/-- The world stays as it is. -/
theorem world_moves {own : Nat} {s s' : Store} (h : Moves own s s') : s'.world = s.world := by
  induction h with
  | trans _ _ ih₁ ih₂ => exact ih₂.trans ih₁
  | inner _ ih | globally _ ih | calling _ _ ih | importing _ _ _ ih => exact ih
  | _ => rfl

theorem Store.Tracks.moves {w : World} {active : List String} {own : Nat} {s s' : Store} (h : s.Tracks w active)
    (hm : Moves own s s') : s'.Tracks w active := by
  have himporting : s'.importing = s.importing := congrArg (fun c => c.2.2) (context_moves hm)
  exact ⟨(world_moves hm).trans h.world, himporting.trans h.importing, h.distinct, h.readable⟩

/-! ## Agreement on the stores of an invariant -/

namespace Eval

/-- From every store of an invariant the two actions end in the same way, and in a store of it. -/
def Agree (I : Store → Prop) (α : Type) (act act' : Eval α) : Prop := ∀ s, I s → act s = act' s ∧ I (final (act' s))

variable {w : World} {alarm : Eval Unit} {active : List String} {α : Type}

/-- Evaluation passes on that two actions agree, as long as moves of a run do not leave the invariant and the calling scope
has no part in it. -/
theorem congruence_agree {I : Store → Prop} (hmoves : ∀ own s s', Moves own s s' → I s → I s')
    (hcaller : ∀ s scope, I s → I { s with caller := scope }) : Congruence (Agree I) where
  same own act hact s hs := ⟨rfl, hmoves own s _ (hact s) hs⟩
  bind := by
    intro α β act act' f f' h hf s hs
    obtain ⟨heq, hend⟩ := h s hs
    cases hact : act' s with
    | ok a m =>
      rw [EStateM.bind_of_ok (heq.trans hact), EStateM.bind_of_ok hact]
      rw [hact] at hend
      exact hf a m hend
    | error e m =>
      rw [EStateM.bind_of_error (heq.trans hact), EStateM.bind_of_error hact]
      rw [hact] at hend
      exact ⟨rfl, hend⟩
  catching := by
    intro body body' handle handle' hb hh s hs
    obtain ⟨heq, hend⟩ := hb s hs
    unfold Recursion.catching
    rw [heq]
    cases hbody : body' s with
    | ok a m =>
      rw [hbody] at hend
      exact ⟨rfl, hend⟩
    | error e m =>
      rw [hbody] at hend
      cases e with
      | fault f => exact hh f m hend
      | _ => exact ⟨rfl, hend⟩
  withCaller := by
    intro α scope act act' h s hs
    -- The invariant does not speak of the calling scope, so it holds in the call and behind it.
    obtain ⟨heq, hend⟩ := h _ (hcaller s scope hs)
    unfold Eval.withCaller
    rw [heq]
    refine ⟨rfl, ?_⟩
    cases hact : act' { s with caller := scope } with
    | ok a m =>
      rw [hact] at hend
      exact hcaller m _ hend
    | error e m =>
      rw [hact] at hend
      exact hcaller m _ hend

theorem congruence_tracks (w : World) (active : List String) : Congruence (Agree (Store.Tracks w active)) :=
  congruence_agree (fun _ _ _ hm h => h.moves hm) fun _ _ h => ⟨h.world, h.importing, h.distinct, h.readable⟩

theorem look_of_tracks {s : Store} (h : s.Tracks w active) : look w alarm active s = .ok () s := if_pos h.imports

/-- Looking finds nothing wrong, and changes nothing. -/
theorem agree_around {act act' : Eval α} (h : Agree (Store.Tracks w active) α act act') :
    Agree (Store.Tracks w active) α (around (look w alarm active) act) act' := by
  intro s hs
  obtain ⟨heq, hend⟩ := h s hs
  refine ⟨?_, hend⟩
  unfold around
  rw [EStateM.bind_of_ok (look_of_tracks hs)]
  unfold behind
  rw [heq]
  cases hact : act' s with
  | ok a m =>
    rw [hact] at hend
    exact EStateM.bind_of_ok (look_of_tracks hend) _
  | error e m =>
    rw [hact] at hend
    exact EStateM.bind_of_ok (look_of_tracks hend) _

/-- The import of one more path, whose file can be read. -/
theorem agree_withImport {path text : String} {act act' : Eval Value} {s : Store} (hs : s.Tracks w active)
    (hnew : path ∉ active) (hfile : w.file path = some (.ok text)) (hresolved : ∃ base file, path = Path.resolve base file)
    (h : Agree (Store.Tracks w (path :: active)) Value act act') :
    withImport path act s = withImport path act' s := by
  have hinside : Store.Tracks w (path :: active)
      { s with directory := Path.parent path, importing := path :: s.importing } := by
    refine ⟨hs.world, by rw [hs.importing], List.nodup_cons.2 ⟨hnew, hs.distinct⟩, ?_⟩
    exact List.forall_mem_cons.2 ⟨⟨hresolved, text, hfile⟩, hs.readable⟩
  unfold withImport
  rw [(h _ hinside).1]

end Eval

/-! ## Watched evaluation is evaluation -/

variable {w : World} {alarm : Eval Unit} {active : List String}

/-- Two ways to import a file do the same if they do so with one that can be read and is not being imported already. -/
theorem importWith_congr {run run' : String → String → Eval Value} {file : String} {s : Store}
    (h : ∀ path text m, path = Path.resolve s.directory file → path ∉ s.importing → s.world.file path = some (.ok text) →
      Moves 0 s m → Eval.withImport path (run path text) m = Eval.withImport path (run' path text) m) :
    Eval.importWith run file s = Eval.importWith run' file s := by
  have happly (run : String → String → Eval Value) : Eval.importWith run file s =
    (if s.importing.contains (Path.resolve s.directory file) then
      Eval.trace fun _ => "Import skipped (already in progress): " ++ Path.resolve s.directory file
    else do
      let text ← Eval.readFile (Path.resolve s.directory file)
      Eval.trace fun _ => "Import: " ++ Path.resolve s.directory file
      let _ ← Eval.withImport (Path.resolve s.directory file) (run (Path.resolve s.directory file) text)
      pure () : Eval Unit) s := rfl
  rw [happly, happly]
  by_cases hnew : s.importing.contains (Path.resolve s.directory file) = true
  · rw [if_pos hnew, if_pos hnew]
  · rw [if_neg hnew, if_neg hnew]
    refine EStateM.bind_congr_at rfl fun text m hread => ?_
    obtain ⟨hfile, rfl⟩ := Eval.readFile_eq_ok hread
    refine EStateM.bind_congr_at rfl fun _ m htrace => ?_
    have hruns : Runs 0 (Eval.trace fun _ => "Import: " ++ Path.resolve s.directory file) := .trace _
    have hmoves := hruns s
    rw [htrace] at hmoves
    exact EStateM.bind_congr_at (h _ text m rfl (by simpa using hnew) hfile hmoves) fun _ _ _ => rfl

/-- Importing a file, inside the imports of the given paths, if evaluation inside one more is as it should be. -/
theorem agree_importWatched (alarm : Eval Unit) {inside : List String → Recursion} {r : Recursion} (hr : r.Confined)
    (h : ∀ path, (inside (path :: active)).Related (Eval.Agree (Store.Tracks w (path :: active))) r) (file : String) :
    Eval.Agree (Store.Tracks w active) Unit (importWatched w alarm inside active file) (r.importFile file) := by
  intro s hs
  have hruns : Runs 0 (r.importFile file) := runs_importFile hr file
  refine ⟨?_, hs.moves (hruns s)⟩
  rw [importWatched, Recursion.importFile]
  refine importWith_congr fun path text m hpath hnew hfile hmoves => ?_
  rw [hs.importing] at hnew
  rw [hs.world] at hfile
  refine Eval.agree_withImport (hs.moves hmoves) hnew hfile ⟨_, _, hpath⟩ (Eval.agree_around ?_)
  exact related_evaluateSource (Eval.congruence_tracks w _) (h path) .global text

/-- An import form is settled by importing the file that its operand names. -/
theorem evaluateTerm_of_importOperands? {r : Recursion} {t : Code} {operands : List Code}
    (h : importOperands? t = some operands) (scope : Scope) :
    Direct.evaluateTerm r t scope = Direct.importForm r scope operands := by
  obtain ⟨pos, head, rfl, hload⟩ := exists_of_importOperands? h
  simp only [Direct.evaluateTerm, hload, Direct.specialForm]

/-- One watched step, settled, is evaluating the term. -/
theorem agree_stepWith {r r' : Recursion} {load : String → Eval Unit} (h : r.Related (Eval.Agree (Store.Tracks w active)) r')
    (hload : ∀ file, Eval.Agree (Store.Tracks w active) Unit (load file) (r'.importFile file)) (t : Code) (scope : Scope) :
    Eval.Agree (Store.Tracks w active) Value (r.stepWith load t scope >>= Step.settle r)
      (Direct.evaluateTerm r' t scope) := by
  have hR := Eval.congruence_tracks w active
  unfold Recursion.stepWith
  split
  next hnone =>
    rw [Direct.step_settle]
    exact related_evaluateTerm hR h scope t fun operands hsome => by simp [hnone] at hsome
  next operands hsome =>
    rw [evaluateTerm_of_importOperands? hsome]
    simp only [bind_assoc, pure_bind, Step.settle_done]
    exact hR.bind (hR.ofExcept _) fun t => hR.bind (h.evaluate t scope) fun v => hR.bind (hR.ofExcept _) fun file =>
      hR.bind (hload file) fun _ => hR.pure _

/-- Watched evaluation, inside the imports of any paths, is evaluation. -/
theorem agree_watcher (w : World) (alarm : Eval Unit) (n : Nat) (active : List String) :
    (watcher w alarm n active).Related (Eval.Agree (Store.Tracks w active)) ⟨evaluate n, apply n⟩ := by
  induction n generalizing active with
  | zero =>
    have hR := Eval.congruence_tracks w active
    exact ⟨fun _ _ => hR.same 0 (.throw _), fun _ _ => hR.same 0 (.throw _)⟩
  | succ n ih =>
    have hload := agree_importWatched alarm (confined_evaluate n) fun path => ih (path :: active)
    constructor
    · intro t scope
      show Eval.Agree _ _ _ (evaluate (n + 1) t scope)
      rw [evaluate_succ]
      exact Eval.agree_around (agree_stepWith (ih active) hload t scope)
    · intro f args
      show Eval.Agree _ _ _ (apply (n + 1) f args)
      rw [apply_succ, ← Direct.applyValue_eq_call]
      refine Eval.agree_around ?_
      rw [Direct.applyValue_eq_call, Direct.applyValue_eq_call]
      exact related_call (Eval.congruence_tracks w active) (ih active) .global none f args

/-! ## Sessions -/

namespace Session

/-- Going through forms with evaluators that agree. -/
theorem goThrough_agree {r r' : Recursion} (h : r.Related (Eval.Agree (Store.Tracks w active)) r') (ts : List Code)
    {s : Session} (hs : s.store.Tracks w active) :
    goThrough r ts s = goThrough r' ts s ∧ (goThrough r' ts s).1.store.Tracks w active := by
  induction ts generalizing s with
  | nil => exact ⟨rfl, hs⟩
  | cons t ts ih =>
    obtain ⟨heq, hend⟩ := h.evaluate t .global s.store hs
    unfold goThrough
    rw [heq]
    cases heval : r'.evaluate t .global s.store with
    | ok v store =>
      rw [heval] at hend
      -- Remembering a value binds a name, and leaves the imports as they are.
      have hremember : (remember { s with store := store } v).store.Tracks w active :=
        ⟨hend.world, hend.importing, hend.distinct, hend.readable⟩
      obtain ⟨hrest, hlast⟩ := ih hremember
      dsimp only
      rw [hrest]
      exact ⟨rfl, hlast⟩
    | error e store =>
      rw [heval] at hend
      cases e with
      | fault f => exact ih hend
      | _ => exact ⟨rfl, hend⟩

/-- A call that is watched is the call, and there is no import in progress behind it. -/
theorem watched_call (alarm : Eval Unit) (call : Call) {s : Session} (hs : s.store.Tracks w []) :
    call.watched w alarm s = call.run s ∧ (call.run s).store.Tracks w [] := by
  have h := agree_watcher w alarm fuel []
  rw [← runBy_evaluator]
  cases call with
  | evaluate source =>
    obtain ⟨heq, hend⟩ := goThrough_agree h (formsOf source) hs
    exact ⟨congrArg Prod.fst heq, hend⟩
  | load file =>
    have hload := agree_importWatched alarm (confined_evaluate fuel) fun path => agree_watcher w alarm fuel [path]
    obtain ⟨heq, hend⟩ := hload file s.store hs
    refine ⟨?_, hend⟩
    simp only [Call.watched, Call.runBy]
    rw [heq]
    rfl

theorem tracks_new (world : World) (options : Options) (prompt : Option String) :
    (new world options prompt).store.Tracks world [] :=
  ⟨rfl, rfl, List.nodup_nil, fun _ hpath => absurd hpath List.not_mem_nil⟩

theorem watched_calls (alarm : Eval Unit) (calls : List Call) {s : Session} (hs : s.store.Tracks w []) :
    calls.foldl (fun s call => call.watched w alarm s) s = calls.foldl (fun s call => call.run s) s ∧
      (calls.foldl (fun s call => call.run s) s).store.Tracks w [] := by
  induction calls generalizing s with
  | nil => exact ⟨rfl, hs⟩
  | cons call calls ih =>
    obtain ⟨hcall, hend⟩ := watched_call alarm call hs
    rw [List.foldl_cons, List.foldl_cons, hcall]
    exact ih hend

/-- Imports do not nest without bound. Whatever texts are evaluated in a session and whatever files are loaded into it, in any
world, the alarm is not raised: at every moment the imports in progress are exactly those of the calls that are evaluating a
file, each of another resolved path, and so no more of them nest than there are files that can be read. Between the calls
of the session there are none. -/
theorem watched_eq_run (world : World) (options : Options) (prompt : Option String) (alarm : Eval Unit) (calls : List Call) :
    let start := new world options prompt
    calls.foldl (fun s call => call.watched world alarm s) start = calls.foldl (fun s call => call.run s) start ∧
      (calls.foldl (fun s call => call.run s) start).store.Imports world [] := by
  intro start
  obtain ⟨heq, hend⟩ := watched_calls alarm calls (tracks_new world options prompt)
  exact ⟨heq, hend.imports⟩

end Session

end Lisplet
