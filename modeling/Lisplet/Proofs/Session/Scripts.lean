import Lisplet.Proofs.Session.LastValue
import Lisplet.Proofs.Session.Lines
/-!
# Faults of scripts

The forms of a script run in turn (`Session.Course`): a form that fails leaves its fault and the next one runs, until the
forms end or something other than a fault stops them. Then the command prints the faults. `Command.run_script` says what
that comes to. At the end of the text every fault is printed, in order, and after them the error of reading there. But the
faults are only kept until then: a program that ends itself takes them with it, and nothing is printed. So faults are lost
exactly when a program ends itself after a form has failed (`Command.TellsAll`).
-/
namespace Lisplet

theorem EStateM.bind_of_map {ε σ α β γ : Type} {act : EStateM ε σ α} {next : α → EStateM ε σ β} {s : σ}
    {r : EStateM.Result ε σ γ} {f : γ → α} {g : γ → β} (h : act s = r.map f) (hnext : ∀ c m, next (f c) m = .ok (g c) m) :
    (act >>= next) s = r.map g := by
  cases r with
  | ok c m => exact (EStateM.bind_of_ok h next).trans (hnext c m)
  | error e m => exact EStateM.bind_of_error h next

/-- The fault of a form that failed. -/
def Outcome.fault? : Outcome → Option Fault
  | value _ => none
  | failed f => some f

/-- A fault as a line of errors. -/
def Fault.line (f : Fault) : Printed := .err f.text

namespace Session

/-! ## The forms of a text -/

/-- The error of reading that ends a text, as a fault. -/
def readingFault? (source : String) : Option Fault :=
  match (Lexer.lex source).complete with
  | .error e => some (.ofSyntax e)
  | .ok tokens => (Reader.read tokens : Reader.Reading Value).failure.map .ofSyntax

/-- Evaluating a text is evaluating its forms, with the error of reading behind their outcomes. -/
theorem evaluate_eq (source : String) : Session.evaluate source = do
    let outcomes ← evaluateForms (formsOf source)
    return outcomes ++ (readingFault? source).toList.map .failed := by
  unfold Session.evaluate formsOf readingFault?
  cases (Lexer.lex source).complete with
  | error e => rfl
  | ok tokens =>
    refine bind_congr fun outcomes => ?_
    dsimp only
    generalize (Reader.read tokens : Reader.Reading Value).failure = failure
    cases failure with
    | none => simp
    | some e => rfl

/-- How forms go in turn from a session: the faults of those that fail, in order, the signal that stops them before they
end, if one does, and the session then. -/
inductive Course : List Code → Session → List Fault → Option Signal → Session → Prop where
  | done (s : Session) : Course [] s [] none s
  | value {t : Code} {ts : List Code} {s s' : Session} {v : Value} {store : Store} {faults : List Fault}
      {ending : Option Signal} (h : evaluator.evaluate t .global s.store = .ok v store)
      (rest : Course ts (remember { s with store := store } v) faults ending s') : Course (t :: ts) s faults ending s'
  | failed {t : Code} {ts : List Code} {s s' : Session} {f : Fault} {store : Store} {faults : List Fault}
      {ending : Option Signal} (h : evaluator.evaluate t .global s.store = .error (.fault f) store)
      (rest : Course ts { s with store := store } faults ending s') : Course (t :: ts) s (f :: faults) ending s'
  | stopped {t : Code} {ts : List Code} {s : Session} {e : Signal} {store : Store}
      (h : evaluator.evaluate t .global s.store = .error e store) (he : ∀ f, e ≠ .fault f) :
      Course (t :: ts) s [] (some e) { s with store := store }

theorem exists_course (ts : List Code) (s : Session) : ∃ faults ending s', Course ts s faults ending s' := by
  induction ts generalizing s with
  | nil => exact ⟨_, _, _, .done s⟩
  | cons t ts ih =>
    cases h : evaluator.evaluate t .global s.store with
    | ok v store =>
      obtain ⟨faults, ending, s', hrest⟩ := ih (remember { s with store := store } v)
      exact ⟨_, _, _, .value h hrest⟩
    | error e store =>
      cases e with
      | fault f =>
        obtain ⟨faults, ending, s', hrest⟩ := ih { s with store := store }
        exact ⟨_, _, _, .failed h hrest⟩
      | _ => exact ⟨_, _, _, .stopped h (by simp)⟩

/-- What evaluating forms comes to by their course: outcomes with these faults if the forms end, the signal if one stops
them. -/
def Course.Gives (faults : List Fault) (s' : Session) : Option Signal → EStateM.Result Signal Session (List Outcome) → Prop
  | none, result => ∃ outcomes, result = .ok outcomes s' ∧ outcomes.filterMap Outcome.fault? = faults
  | some e, result => result = .error e s'

/-- One form before others. -/
theorem Course.Gives.cons {t : Code} {ts : List Code} {s m s' : Session} {outcome : Outcome} {faults : List Fault}
    {ending : Option Signal} (h : evaluateForm t s = .ok outcome m)
    (rest : Course.Gives faults s' ending (evaluateForms ts m)) :
    Course.Gives (outcome.fault?.toList ++ faults) s' ending (evaluateForms (t :: ts) s) := by
  have hcons : evaluateForms (t :: ts) s =
      (evaluateForms ts >>= fun outcomes => pure (outcome :: outcomes)) m := EStateM.bind_of_ok h _
  rw [hcons]
  cases ending with
  | none =>
    obtain ⟨outcomes, hrest, rfl⟩ := rest
    refine ⟨outcome :: outcomes, EStateM.bind_of_ok hrest _, ?_⟩
    cases outcome <;> rfl
  | some e => exact EStateM.bind_of_error rest _

theorem Course.gives {ts : List Code} {s s' : Session} {faults : List Fault} {ending : Option Signal}
    (h : Course ts s faults ending s') : Course.Gives faults s' ending (evaluateForms ts s) := by
  induction h with
  | done s => exact ⟨[], rfl, rfl⟩
  | @value t ts s s' v store faults ending h rest ih =>
    have hform : evaluateForm t s = .ok (.value v) (remember { s with store := store } v) := by rw [evaluateForm, h]
    exact Gives.cons hform ih
  | @failed t ts s s' f store faults ending h rest ih =>
    have hform : evaluateForm t s = .ok (.failed f) { s with store := store } := by rw [evaluateForm, h]
    exact Gives.cons hform ih
  | @stopped t ts s e store h he =>
    have hform : evaluateForm t s = .error e { s with store := store } := by
      rw [evaluateForm, h]
      cases e with
      | fault f => exact absurd rfl (he f)
      | _ => rfl
    exact EStateM.bind_of_error hform _

/-- A fault does not stop forms. -/
theorem Course.ne_fault {ts : List Code} {s s' : Session} {faults : List Fault} {e : Signal}
    (h : Course ts s faults (some e) s') (f : Fault) : e ≠ .fault f := by
  generalize hending : some e = ending at h
  induction h with
  | done s => cases hending
  | value _ _ ih => exact ih hending
  | failed _ _ ih => exact ih hending
  | stopped _ he =>
    cases hending
    exact he f

/-- The faults of a text by the course of its forms: those of the forms, and, if the forms end, the error of reading. -/
def Course.due (text : String) (faults : List Fault) (ending : Option Signal) : List Fault :=
  if ending.isNone then faults ++ (readingFault? text).toList else faults

/-- A whole text. -/
theorem Course.gives_evaluate {text : String} {s s' : Session} {faults : List Fault} {ending : Option Signal}
    (h : Course (formsOf text) s faults ending s') :
    Course.Gives (Course.due text faults ending) s' ending (Session.evaluate text s) := by
  rw [evaluate_eq]
  have hforms := h.gives
  cases ending with
  | none =>
    obtain ⟨outcomes, hrun, rfl⟩ := hforms
    refine ⟨_, EStateM.bind_of_ok hrun _, ?_⟩
    have hsyntax : ((readingFault? text).toList.map Outcome.failed).filterMap Outcome.fault? =
        (readingFault? text).toList := by
      cases readingFault? text <;> rfl
    rw [List.filterMap_append, hsyntax]
    rfl
  | some e => exact EStateM.bind_of_error hforms _

end Session

namespace Command

open Session (Course formsOf)

/-! ## Commands that run a script -/

/-- The arguments that ask for something other than running a script, or for more. -/
def otherModes : List String := ["--help", "-h", "--lex", "--parse", "-i", "--interactive"]

/-- A command that runs a script and nothing else: the script is a file that can be read, and the session is set up, with
a valid configuration and libraries that load. -/
structure RunsScript (world : World) (base : Options) (args : List String) (path text : String) (d : Desk) : Prop where
  plain : ∀ arg ∈ otherModes, arg ∉ args
  first : (files args).head?.map (Path.resolve world.directory) = some path
  found : world.path path = some true
  readable : world.file path = some (.ok text)
  opened : openSession world base args (some path) (desk world base) = .ok () d

/-- What a script leaves, by the course of its forms. If they end, its faults are printed and the status tells whether
there are any; a program that ends itself only has its status; anything else stops the command. -/
def closing (d : Desk) (text : String) (faults : List Fault) (s : Session) :
    Option Signal → EStateM.Result Halt Desk Float
  | none =>
    let due := Course.due text faults none
    .ok (if due.isEmpty then 0 else 1) { d with session := s, printed := (due.map Fault.line).toArray }
  | some (.exit status) => .ok status { d with session := s, printed := #[] }
  | some e => .error (.signal e) { d with session := s }

/-- No fault of a script is lost: whether its forms end or it ends itself, its faults are printed, in order, and nothing
else is. -/
def TellsAll (world : World) (base : Options) (args lines : List String) (text : String) (d : Desk) : Prop :=
  ∀ faults ending s, Course (formsOf text) d.session faults ending s →
    (ending = none ∨ ∃ status, ending = some (.exit status)) →
      ∃ status d', run world base args lines (desk world base) = .ok status d' ∧
        d'.printed = ((Course.due text faults ending).map Fault.line).toArray

theorem reportOutcomes_eq (outcomes : List Outcome) (d : Desk) :
    reportOutcomes outcomes d = .ok (if (outcomes.filterMap Outcome.fault?).isEmpty then 0 else 1)
      { d with printed := d.printed ++ ((outcomes.filterMap Outcome.fault?).map Fault.line).toArray } := by
  induction outcomes generalizing d with
  | nil => simp [reportOutcomes, pure, EStateM.pure]
  | cons outcome outcomes ih =>
    cases outcome with
    | value v => exact ih d
    | failed f =>
      have herr : err f.text d = .ok () { d with printed := d.printed.push f.line } := rfl
      refine (EStateM.bind_of_ok herr _).trans ((EStateM.bind_of_ok (ih _) _).trans ?_)
      simp [Outcome.fault?, pure, EStateM.pure]

theorem printed_inSession {α : Type} {act : Session.Act α} {d d' : Desk} {a : α} (h : inSession act d = .ok a d') :
    d'.printed = d.printed := by
  unfold inSession at h
  split at h <;> cases h
  rfl

theorem printed_loadFiles {files : List String} {d d' : Desk}
    (h : files.forM (fun file => inSession (Session.loadFile file)) d = .ok () d') : d'.printed = d.printed := by
  induction files generalizing d with
  | nil =>
    cases h
    rfl
  | cons file files ih =>
    obtain ⟨⟨⟩, m, hload, hrest⟩ := EStateM.bind_eq_ok h
    exact (ih hrest).trans (printed_inSession hload)

theorem eq_of_ofExcept {α : Type} {x : Except Halt α} {d d' : Desk} {a : α} (h : ofExcept x d = .ok a d') : d' = d := by
  cases x <;> cases h
  rfl

/-- Setting up a session prints nothing. -/
theorem printed_openSession {world : World} {base : Options} {args : List String} {script : Option String} {d d' : Desk}
    (h : openSession world base args script d = .ok () d') : d'.printed = d.printed := by
  obtain ⟨config, m, hconfig, h⟩ := EStateM.bind_eq_ok h
  obtain ⟨⟨⟩, m', hnew, hload⟩ := EStateM.bind_eq_ok h
  obtain rfl := eq_of_ofExcept hconfig
  cases hnew
  exact (printed_loadFiles hload).trans rfl

namespace RunsScript

variable {world : World} {base : Options} {args : List String} {path text : String} {d : Desk} {faults : List Fault}
  {ending : Option Signal} {s : Session}

theorem contains_or (h : RunsScript world base args path text d) {arg arg' : String} (ha : arg ∈ otherModes)
    (ha' : arg' ∈ otherModes) : (args.contains arg || args.contains arg') = false := by
  simpa using ⟨h.plain arg ha, h.plain arg' ha'⟩

theorem printed (h : RunsScript world base args path text d) : d.printed = #[] := printed_openSession h.opened

/-- Running the script: where its forms end there is a status to go on with, else nothing goes on. -/
theorem guarded_runScript (h : RunsScript world base args path text d)
    (hc : Course (formsOf text) d.session faults ending s) :
    guarded (runScript world path) d =
      (closing d text faults s ending).map fun status => if ending.isNone then .ok status else .error status := by
  have htext : fileText world path d = .ok text d := by
    unfold fileText
    rw [h.readable]
    rfl
  have hrun : runScript world path d =
      (inSession (Session.evaluate text) >>= fun outcomes => reportOutcomes outcomes) d := EStateM.bind_of_ok htext _
  have hgives := hc.gives_evaluate
  cases ending with
  | none =>
    -- All forms were evaluated, so there are outcomes to report.
    obtain ⟨outcomes, heval, hdue⟩ := hgives
    have hin : inSession (Session.evaluate text) d = .ok outcomes { d with session := s } := by
      rw [inSession, heval]
    rw [EStateM.bind_of_ok hin, reportOutcomes_eq, hdue] at hrun
    rw [guarded, hrun]
    simp [closing, h.printed]
  | some e =>
    -- A signal left the evaluation, and the outcomes up to there are lost with it.
    have heval : Session.evaluate text d.session = .error e s := hgives
    have hin : inSession (Session.evaluate text) d = .error (.signal e) { d with session := s } := by
      rw [inSession, heval]
    rw [EStateM.bind_of_error hin] at hrun
    rw [guarded, hrun]
    cases e with
    | fault f => exact absurd rfl (hc.ne_fault f)
    | exit status =>
      rw [closing, ← h.printed]
      rfl
    | _ => rfl

theorem runSession_eq (h : RunsScript world base args path text d)
    (hc : Course (formsOf text) d.session faults ending s) :
    runSession world base args (some path) (desk world base) = (closing d text faults s ending).map .finished := by
  have hopen : guarded (openSession world base args (some path)) (desk world base) = .ok (.ok ()) d := by
    rw [guarded, h.opened]
  refine (EStateM.bind_of_ok hopen _).trans (EStateM.bind_of_map (h.guarded_runScript hc) fun status d' => ?_)
  cases ending with
  | none =>
    show (if args.contains "-i" || args.contains "--interactive" then _ else _ : Command Stage) d' = _
    rw [h.contains_or (by decide) (by decide)]
    rfl
  | some e => rfl

theorem start_eq (h : RunsScript world base args path text d) (hc : Course (formsOf text) d.session faults ending s) :
    start world base args (desk world base) = (closing d text faults s ending).map .finished := by
  have hpath : pathExists world path (desk world base) = .ok true (desk world base) := by
    rw [pathExists, h.found]
    rfl
  unfold start
  rw [h.contains_or (by decide) (by decide), h.first, h.contains_or (by decide) (by decide)]
  refine (EStateM.bind_of_ok hpath _).trans ?_
  show (runSession world base args (some path) >>= _) (desk world base) = _
  exact EStateM.bind_of_map (h.runSession_eq hc) fun status d' => rfl

theorem run_eq (h : RunsScript world base args path text d) (hc : Course (formsOf text) d.session faults ending s)
    (lines : List String) : run world base args lines (desk world base) = closing d text faults s ending := by
  have hid : closing d text faults s ending = (closing d text faults s ending).map id := by
    cases closing d text faults s ending <;> rfl
  rw [hid]
  exact EStateM.bind_of_map (h.start_eq hc) fun status d' => rfl

/-- If no fault is lost, a program that ends itself had none. -/
theorem eq_nil_of_tellsAll (h : RunsScript world base args path text d) {lines : List String}
    (htells : TellsAll world base args lines text d) {status : Float}
    (hc : Course (formsOf text) d.session faults (some (.exit status)) s) : faults = [] := by
  obtain ⟨status', d', hrun, hprinted⟩ := htells faults _ s hc (.inr ⟨status, rfl⟩)
  rw [h.run_eq hc] at hrun
  cases hrun
  simpa [Course.due] using hprinted.symm

end RunsScript

/-- What a command comes to that runs a script. Its forms take some course, and by that it is `closing`: where the forms
end, all faults are printed. So no fault is lost, unless the program ends itself after a form has failed. -/
theorem run_script {world : World} {base : Options} {args : List String} {path text : String} {d : Desk}
    (h : RunsScript world base args path text d) (lines : List String) :
    (∃ faults ending s, Course (formsOf text) d.session faults ending s ∧
      run world base args lines (desk world base) = closing d text faults s ending) ∧
    (TellsAll world base args lines text d ↔
      ∀ faults status s, Course (formsOf text) d.session faults (some (.exit status)) s → faults = []) := by
  constructor
  · obtain ⟨faults, ending, s, hc⟩ := Session.exists_course (formsOf text) d.session
    exact ⟨faults, ending, s, hc, h.run_eq hc lines⟩
  constructor
  · intro htells faults status s hc
    exact h.eq_nil_of_tellsAll htells hc
  · intro hexit faults ending s hc hend
    rw [h.run_eq hc]
    obtain rfl | ⟨status, rfl⟩ := hend
    · exact ⟨_, _, rfl, rfl⟩
    · obtain rfl := hexit faults status s hc
      exact ⟨status, _, rfl, rfl⟩

/-! ## Two scripts with faults -/

/-- A world with one file, a script. -/
def scriptWorld (text : String) : World := .closed "/" [("lost.sprig", text)] []

/-- The desk at which that script runs. -/
def scriptDesk (text : String) : Desk :=
  { desk (scriptWorld text) {} with session := Session.new (scriptWorld text) { directory := some "/" } none }

theorem loadForScript_scriptWorld (text : String) : Config.loadForScript (scriptWorld text) "/lost.sprig" = .ok {} := by
  have hcandidates : Config.candidates "/" = ["/sprig.config.json", "/.sprigrc.json"] := by decide
  have hpath : (scriptWorld text).path "/sprig.config.json" = some false := rfl
  have hpath' : (scriptWorld text).path "/.sprigrc.json" = some false := rfl
  have hparent : Path.parent (Path.resolve "/" "/lost.sprig") = "/" := by decide
  show Config.ofFirst _ (Config.candidates (Path.parent (Path.resolve "/" "/lost.sprig")) ++ Config.candidates "/") = _
  rw [hparent, hcandidates]
  simp only [Config.ofFirst, Config.firstExisting, List.cons_append, List.nil_append, hpath, hpath']
  rfl

theorem runsScript_scriptWorld (text : String) :
    RunsScript (scriptWorld text) {} ["lost.sprig"] "/lost.sprig" text (scriptDesk text) where
  plain := by decide
  first := by
    have hfirst : (files ["lost.sprig"]).head?.map (Path.resolve "/") = some "/lost.sprig" := by decide
    exact hfirst
  found := rfl
  readable := rfl
  opened := by
    have hvalue : valueOf? "--config" ["lost.sprig"] = none := by decide
    unfold openSession
    rw [hvalue]
    dsimp only
    rw [loadForScript_scriptWorld]
    rfl

def emptyHead : Fault := { code := .headOfEmpty }

/-- Two forms that fail, one that does not between them, and a bracket too many. -/
def toldScript : String := "(head nil) \"kept\" (head nil) )"

def headOfNil (p q r : Position) : Code := .list p [.symbol q "head", .nil r]

def toldForms : List Code :=
  [headOfNil ⟨1, 1⟩ ⟨1, 2⟩ ⟨1, 7⟩, .string ⟨1, 12⟩ "kept", headOfNil ⟨1, 19⟩ ⟨1, 20⟩ ⟨1, 25⟩]

def strayBracket : Fault :=
  { code := .parseFailed, detail := some "unexpected ')'", position := some ⟨1, 30⟩ }

theorem formsOf_toldScript : formsOf toldScript = toldForms := by
  rw [formsOf, Lexer.lex, Lexer.lexAt]
  cbv

theorem readingFault_toldScript : Session.readingFault? toldScript = some strayBracket := by
  rw [Session.readingFault?, Lexer.lex, Lexer.lexAt]
  cbv

theorem course_toldScript :
    ∃ s, Course (formsOf toldScript) (scriptDesk toldScript).session [emptyHead, emptyHead] none s := by
  rw [formsOf_toldScript]
  exact ⟨_, .failed rfl (.value rfl (.failed rfl (.done _)))⟩

theorem run_script_toldScript :
    RunsScript (scriptWorld toldScript) {} ["lost.sprig"] "/lost.sprig" toldScript (scriptDesk toldScript) ∧
      ∃ status d, run (scriptWorld toldScript) {} ["lost.sprig"] [] (desk (scriptWorld toldScript) {}) = .ok status d ∧
        d.printed = #[.err "error(010): cannot get the head of an empty list",
          .err "error(010): cannot get the head of an empty list",
          .err "error(016): could not parse expression\n  unexpected ')' at line 1, column 30"] := by
  have h := runsScript_scriptWorld toldScript
  obtain ⟨s, hc⟩ := course_toldScript
  have htells := (run_script h []).2.2 fun faults status s' hc' => by
    obtain ⟨outcomes, hok, -⟩ := hc.gives
    cases hok.symm.trans hc'.gives
  obtain ⟨status, d, hrun, hprinted⟩ := htells _ none s hc (.inl rfl)
  refine ⟨h, status, d, hrun, hprinted.trans ?_⟩
  have hdue : Course.due toldScript [emptyHead, emptyHead] none = [emptyHead, emptyHead, strayBracket] := by
    simp [Course.due, readingFault_toldScript]
  rw [hdue]
  cbv

/-- A form that fails, before the program ends itself. -/
def lostScript : String := "(head nil) (exit)"

theorem formsOf_lostScript :
    formsOf lostScript = [headOfNil ⟨1, 1⟩ ⟨1, 2⟩ ⟨1, 7⟩, .list ⟨1, 12⟩ [.symbol ⟨1, 13⟩ "exit"]] := by
  rw [formsOf, Lexer.lex, Lexer.lexAt]
  cbv

/-- The first form fails, and nothing is printed. -/
theorem not_tellsAll_lostScript :
    RunsScript (scriptWorld lostScript) {} ["lost.sprig"] "/lost.sprig" lostScript (scriptDesk lostScript) ∧
      ¬ TellsAll (scriptWorld lostScript) {} ["lost.sprig"] [] lostScript (scriptDesk lostScript) := by
  have h := runsScript_scriptWorld lostScript
  refine ⟨h, fun htells => ?_⟩
  have hc : ∃ s, Course (formsOf lostScript) (scriptDesk lostScript).session [emptyHead] (some (.exit 0)) s := by
    rw [formsOf_lostScript]
    exact ⟨_, .failed rfl (.stopped rfl (by simp))⟩
  obtain ⟨s, hc⟩ := hc
  exact absurd (h.eq_nil_of_tellsAll htells hc) (by simp)

end Command

end Lisplet
