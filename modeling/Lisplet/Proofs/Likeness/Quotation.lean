import Lisplet.Proofs.Evaluation.Context
import Lisplet.Proofs.Likeness.Outcomes
import Lisplet.Proofs.Reading.Forms
import Lisplet.Proofs.Scopes.Lexical
import Lisplet.Proofs.Soundness.Reachable
/-!
# Evaluating quoted code

To quote code is to turn it into data, and to evaluate data is to turn it back into code. On the way code that was read comes
to be spelled out (`Term.seen_toTerm`), so evaluating quoted code has the outcome of its long spelling. This is the outcome of
the code itself if its run does not look at the shorthands in it, whether they are evaluated, stored in what is called later,
or passed around as data (`sameEvaluation_evalQuoted`); and it need not be where something looks at them
(`not_sameOutcome_evalQuoted`).
-/
namespace Lisplet

/-! ## Quoted code is code in the long spelling -/

mutual

/-- What was read, turned to data and back, is its long spelling up to places. -/
theorem Term.seen_toTerm : (t : Code) → t.Spelled → (t.toValue.toTerm .nowhere).seen .blind = t.spellOut.seen .blind
  | .list pos ts, h => by
    rw [Term.toValue, Value.toTerm, Term.spellOut, Term.seen, Term.seen, Term.seenAll_toTerms ts h]
    rfl
  | .marked pos m t, h => by
    have ih := Term.seen_toTerm t h
    simp only [Term.toValue, Value.toTerm, Value.toTerms, Term.spellOut, Term.seen, Term.seenAll, ih]
    rfl
  | .format pos ps, h => by
    simp only [Term.toValue, Value.toTerm, Value.toTerms, Term.spellOut, Term.seen, Term.seenAll]
    rw [Part.seenAll_toTerms pos ps false h.1]
    rfl
  | .nil _, _ | .number _ _, _ | .string _ _, _ | .symbol _ _, _ | .boolean _ _, _ => rfl
  | .embedded _ _, h => h.elim

theorem Term.seenAll_toTerms : (ts : List Code) → Term.SpelledAll ts →
    Term.seenAll .blind (Value.toTerms .nowhere (Term.toValues ts)) = Term.seenAll .blind (Term.spellOutAll ts)
  | [], _ => rfl
  | t :: ts, h => by
    rw [Term.toValues, Value.toTerms, Term.spellOutAll, Term.seenAll, Term.seenAll, Term.seen_toTerm t h.1,
      Term.seenAll_toTerms ts h.2]

theorem Part.seenAll_toTerms (pos : Position) : (ps : List (Part Value)) → (b : Bool) → Term.SpelledParts b ps →
    Term.seenAll .blind (Value.toTerms .nowhere (Term.partValues ps)) = Term.seenAll .blind (Part.spellOutAll pos ps)
  | [], _, _ => rfl
  | .text s :: ps, _, h => by
    rw [Term.partValues, Value.toTerms, Part.spellOutAll, Term.seenAll, Term.seenAll, Part.seenAll_toTerms pos ps true h.2.2]
    rfl
  | .code t :: ps, _, h => by
    rw [Term.partValues, Value.toTerms, Part.spellOutAll, Term.seenAll, Term.seenAll, Term.seen_toTerm t h.1,
      Part.seenAll_toTerms pos ps false h.2]

end

/-! ## The call of `eval` -/

/-- The built-in procedure that evaluates data. -/
def Builtin.evaluation : Builtin := ⟨"eval", .exactly 1, .control .eval⟩

/-- The call that quotes a term and evaluates it. -/
def Term.evalQuoted (pos : Position) (t : Code) : Code :=
  .list pos [.symbol pos "eval", .list pos [.symbol pos "quote", t]]

/-- A run in the global scope that is called from there gives back the calling scope of itself. -/
theorem withCaller_global {n : Nat} {s : Store} (h : s.caller = .global) (t : Code) :
    Eval.withCaller .global (evaluate n t .global) s = evaluate n t .global s := by
  have hs : { s with caller := .global } = s := by rw [← h]
  have hcaller : (Eval.final (evaluate n t .global s)).caller = .global :=
    (congrArg Prod.fst (context_of_runs ((confined_evaluate n).evaluate t .global) s)).trans h
  rw [Eval.withCaller, hs, h]
  generalize evaluate n t .global s = x at hcaller
  cases x with
  | ok v m =>
    rw [← hcaller]
    rfl
  | error e m =>
    rw [← hcaller]
    rfl

/-- Evaluating quoted code evaluates the code that its data stands for, a step later. -/
theorem evaluate_evalQuoted {s : Store} (hcaller : s.caller = .global)
    (heval : s.frames.lookup? .global "eval" = some (.builtin .evaluation)) (n : Nat) (pos : Position) (t : Code) :
    evaluate (n + 2) (t.evalQuoted pos) .global s = evaluate (n + 1) (t.toValue.toTerm .nowhere) .global s := by
  have hquote : evaluate (n + 1) (.list pos [.symbol pos "quote", t]) .global s = .ok t.toValue s := by
    rw [evaluate_succ]
    rfl
  have hargs : Recursion.evaluateAll ⟨evaluate (n + 1), apply (n + 1)⟩ .global [.list pos [.symbol pos "quote", t]] s =
      .ok [t.toValue] s := EStateM.bind_of_ok hquote _
  rw [evaluate_succ, ← withCaller_global hcaller]
  -- The operator is looked up twice, as a macro and as a procedure; then the operand is evaluated, and its data is.
  refine (EStateM.bind_of_ok (expander?_builtin heval pos) _).trans ?_
  refine (EStateM.bind_of_ok (evaluate_symbol heval pos) _).trans ?_
  exact (EStateM.bind_of_ok hargs _).trans rfl

theorem outOfFuel_evalQuoted {s : Store} (heval : s.frames.lookup? .global "eval" = some (.builtin .evaluation))
    (pos : Position) (t : Code) : Eval.OutOfFuel (evaluate 1 (t.evalQuoted pos) .global s) := by
  rw [evaluate_succ]
  refine ⟨s, (EStateM.bind_of_ok (expander?_builtin heval pos) _).trans ?_⟩
  have hhead : evaluate 0 (.symbol pos "eval") .global s = .error .outOfFuel s := rfl
  exact EStateM.bind_of_error hhead _

/-! ## Reachable states -/

theorem Run.store_after (r : Run) (x : EStateM.Result Signal Store Value) : (r.after x).store = Eval.final x := by
  rcases x with _ | ⟨⟨⟩⟩ <;> rfl

/-- Between evaluations nothing is being called. -/
theorem Run.caller_of_steps {world : World} {options : Options} {r : Run}
    (h : Relation.ReflTransGen Run.Step (.fresh world options) r) : r.store.caller = .global := by
  induction h with
  | refl => rfl
  | @tail r r' _ hstep ih =>
    have hkept {own : Nat} {act : Eval Value} (hact : Runs own act) : (r.after (act r.store)).store.caller = .global := by
      rw [store_after, ← ih]
      exact congrArg Prod.fst (context_of_runs hact r.store)
    cases hstep with
    | evaluate n _ _ => exact hkept ((confined_evaluate n).evaluate _ _)
    | apply n _ _ => exact hkept ((confined_evaluate n).apply 0 _ _)
    | source n text _ => exact hkept (runs_evaluateSource (confined_evaluate n) _ text)
    | load n file =>
      have hload : Runs 0 (Recursion.importFile ⟨Lisplet.evaluate n, Lisplet.apply n⟩ file) :=
        runs_importFile (confined_evaluate n) file
      exact hkept (.bind hload fun _ => .pure _)
    | bind name _ => exact ih

/-! ## Quoted code and code -/

/-- There is a question that a run does not end with. -/
theorem EStateM.Result.exists_question (x : EStateM.Result Signal Store Value) :
    ∃ q, ∀ m, x ≠ .error (.waiting q) m := by
  by_cases h : ∃ m, x = .error (.waiting .line) m
  · obtain ⟨m, rfl⟩ := h
    refine ⟨.time 0, fun m' he => ?_⟩
    cases (EStateM.Result.error.inj he).1
  · exact ⟨.line, fun m hm => h ⟨m, hm⟩⟩

section Outcomes

variable {s : Store} {t : Code} (ht : t.Spelled)
include ht

/-- The data of code that was read is evaluated to the outcome that its long spelling has. -/
theorem sameRun_toTerm (n : Nat) :
    SameRun (evaluate n (t.toValue.toTerm .nowhere) .global s) (evaluate n (t.spellOut.seen .blind) .global (s.seen .blind)) :=
  .of_agree ((respects_evaluate .blind n).evaluate .global ((Term.seen_toTerm t ht).trans (Term.seen_seen _).symm) _ _
    (Store.seen_seen_blind s).symm).agree

theorem sameRun_marked (n : Nat) :
    SameRun (evaluate n (t.seen (.all .mark)) .global (s.seen .blind)) (evaluate n t .global s) :=
  .of_agree ((respects_evaluate .blind n).evaluate .global (Term.seen_blind_all .mark t ht) _ _ (Store.seen_seen_blind s)).agree

variable (hlook : t.Unobserved s) (hcaller : s.caller = .global)
  (heval : s.frames.lookup? .global "eval" = some (.builtin .evaluation)) (pos : Position)
include hlook hcaller heval

theorem Term.Unobserved.forth (n : Nat) :
    Eval.OutOfFuel (evaluate (n + 2) (t.evalQuoted pos) .global s) ∨
      SameOutcome (Eval.untraced (evaluate (n + 2) (t.evalQuoted pos) .global s))
        (Eval.untraced (evaluate (n + 2) t .global s)) := by
  rw [evaluate_evalQuoted hcaller heval]
  have hlong := (sameRun_toTerm (s := s) ht (n + 1)).outcome
  have hmarked := (sameRun_marked (s := s) ht (n + 2)).outcome
  obtain ⟨q, hq⟩ := EStateM.Result.exists_question (evaluate (n + 2) (t.seen (.all .mark)) .global (s.seen .blind))
  -- The question that the alarm asks must not be the one that the code itself stops with.
  by_cases hout : Eval.OutOfFuel (evaluate (n + 1) (t.spellOut.seen .blind) .global (s.seen .blind))
  · exact .inl (hlong.outOfFuel_of hout)
  · have hsame := SameOutcome.of_compares (hlook.compares_same ht q (Nat.le_succ (n + 1)))
      (by rintro e m he rfl; exact hout ⟨m, he⟩) (by rintro e m he rfl; exact hq m he)
    exact .inr ((hlong.untraced.trans hsame).trans hmarked.untraced)

theorem Term.Unobserved.back (n : Nat) :
    Eval.OutOfFuel (evaluate n t .global s) ∨
      SameOutcome (Eval.untraced (evaluate (3 * n + 2) (t.evalQuoted pos) .global s))
        (Eval.untraced (evaluate n t .global s)) := by
  rw [evaluate_evalQuoted hcaller heval]
  have hlong := (sameRun_toTerm (s := s) ht (3 * n + 1)).outcome
  have hmarked := (sameRun_marked (s := s) ht n).outcome
  by_cases hout : Eval.OutOfFuel (evaluate n (t.seen (.all .mark)) .global (s.seen .blind))
  · exact .inl (hmarked.symm.outOfFuel_of hout)
  · have hsame := SameOutcome.of_compares (hlook.compares_enough ht (Nat.le_succ (3 * n))) (fun _ _ _ => id)
      (by rintro e m he rfl; exact hout ⟨m, he⟩)
    exact .inr ((hlong.untraced.trans hsame).trans hmarked.untraced)

theorem Term.Unobserved.sameUntraced : SameUntraced s (t.evalQuoted pos) t where
  forth
    | 0 => .inl ⟨s, rfl⟩
    | 1 => .inl (outOfFuel_evalQuoted heval pos t)
    | n + 2 => hlook.forth ht hcaller heval pos n
  back := hlook.back ht hcaller heval pos

end Outcomes

/-- The state of a fresh interpreter in a closed world. -/
def freshStore : Store := (Run.fresh (World.closed "/" [] []) {}).store

/-! ## Code in a procedure that is called -/

/-- A call of a procedure that lists a quoted symbol and its argument. -/
def listingCall : Code :=
  .list ⟨1, 1⟩ [.list ⟨1, 2⟩ [.symbol ⟨1, 3⟩ "lambda", .list ⟨1, 10⟩ [.symbol ⟨1, 11⟩ "x"],
    .list ⟨1, 14⟩ [.symbol ⟨1, 15⟩ "list", .marked ⟨1, 20⟩ .quote (.symbol ⟨1, 21⟩ "a"), .symbol ⟨1, 23⟩ "x"]],
    .symbol ⟨1, 27⟩ "pi"]

theorem readSource_listingCall : Reader.readSource "((lambda (x) (list 'a x)) pi)" = .ok [listingCall] := by
  cbv

/-- The body of the procedure, put at the marked place. -/
def listingBody : Code :=
  .list .mark [.symbol .mark "list", .marked .mark .quote (.symbol .mark "a"), .symbol .mark "x"]

/-- The procedure. -/
def listing : Closure Value := ⟨none, ["x"], [listingBody], .global⟩

/-- Where `list` is the built-in procedure the body is evaluated without an alarm. -/
theorem calm_listing {scope : Scope} {s : Store}
    (hlist : s.frames.lookup? scope "list" = some (.builtin ⟨"list", .atLeast 0, .sequence .list⟩)) (n : Nat) :
    View.spelling.Calm n scope listingBody s := by
  cases n with
  | zero => exact fun _ => rfl
  | succ n =>
    have hhead (f : Value) (m : Store) (h : evaluate n (.symbol .mark "list") scope s = .ok f m) :
        f = .builtin ⟨"list", .atLeast 0, .sequence .list⟩ := by
      cases n with
      | zero => cases h
      | succ n => exact (EStateM.Result.ok.inj (h.symm.trans (evaluate_symbol hlist _))).1
    refine .call rfl ?_ .symbol ?_ ?_
    · rw [Store.expander?, Term.symbol?, Option.bind_some, hlist]
    · exact fun _ _ _ => .cons .quoted fun _ _ _ => .cons .symbol fun _ _ _ => .nil
    · intro f m args m' hf _ alarm
      rw [hhead f m hf]
      refine ⟨fun h => ?_, rfl⟩
      cases h

/-- Calling the procedure evaluates its body in a scope of its own. -/
theorem call_listing (r : Recursion) (scope : Scope) (pos : Option Position) (stamp : Stamp) (v : Value) (s : Store) :
    Direct.call r scope pos (.closure stamp listing) [v] s =
      r.evaluate listingBody (s.frames.inside .global)
        { s with frames := s.frames.grow.bind (s.frames.inside .global) "x" v } := rfl

/-- Where its names have their meanings the call is evaluated without an alarm. -/
theorem calm_listingCall {s : Store} {v : Value} (hpi : s.frames.lookup? .global "pi" = some v)
    (hlist : s.frames.lookup? .global "list" = some (.builtin ⟨"list", .atLeast 0, .sequence .list⟩)) (n : Nat) :
    View.spelling.Calm n .global (listingCall.seen (.all .mark)) s := by
  cases n with
  | zero => exact fun _ => rfl
  | succ n =>
    refine .call rfl rfl (.single ?_ fun _ _ => rfl) (fun _ _ _ => .cons .symbol fun _ _ _ => .nil) ?_
    · rintro r t ⟨⟩
      exact id
    · intro f m args m' hf hargs alarm
      cases n with
      | zero => cases hf
      | succ n =>
        rw [evaluate_succ] at hf
        obtain ⟨rfl, rfl⟩ : .closure s.nextStamp listing = f ∧ { s with nextStamp := s.nextStamp + 1 } = m :=
          EStateM.Result.ok.inj hf
        have hoperand (m : Store) (h : m.frames.lookup? .global "pi" = some v) :
            Recursion.evaluateAll ⟨evaluate (n + 1), apply (n + 1)⟩ .global [.symbol .mark "pi"] m = .ok [v] m :=
          EStateM.bind_of_ok (evaluate_symbol h .mark) _
        obtain ⟨rfl, rfl⟩ := EStateM.Result.ok.inj ((hoperand { s with nextStamp := s.nextStamp + 1 } hpi).symm.trans hargs)
        refine ⟨trivial, ?_⟩
        rw [call_listing, call_listing]
        refine calm_listing ?_ (n + 1) alarm
        exact (Frames.lookup?_inside s.frames .global (by decide : "list" ≠ "x") v).trans hlist

theorem unobserved_listingCall : listingCall.Unobserved freshStore := by
  have hpi : freshStore.frames.lookup? .global "pi" = some (.number .given 3.141592653589793) := rfl
  have hlist : freshStore.frames.lookup? .global "list" = some (.builtin ⟨"list", .atLeast 0, .sequence .list⟩) := rfl
  have hseen (name : String) := Frames.lookup?_seen (w := .blind) freshStore.frames .global name
  exact calm_listingCall ((hseen _).trans (congrArg _ hpi)) ((hseen _).trans (congrArg _ hlist))

/-- The definition of a target as `x`, which stands at `pos`. -/
def definingAs (target : Code) (pos : Position) : Code :=
  .list ⟨1, 1⟩ [.symbol ⟨1, 2⟩ "define", target, .symbol pos "x"]

/-- A mark in front of `x`, in the place of a target. -/
def markedTarget (m : Marker) : Code := .marked ⟨1, 9⟩ m (.symbol ⟨1, 10⟩ "x")

/-- A format string that holds `x`, in the place of a target. -/
def formatTarget : Code := .format ⟨1, 9⟩ [.code (.symbol ⟨1, 13⟩ "x")]

theorem readSource_formatTarget :
    Reader.readSource "(define #\"#\x7bx\x7d\" x)" = .ok [definingAs formatTarget ⟨1, 17⟩] := by
  have h : ("(define #\"#\x7bx\x7d\" x)" : String).toList =
      '(' :: 'd' :: ("efine ".toList ++ '#' :: '"' :: "#\x7bx\x7d\" x)".toList) := rfl
  have hword : ("efine ".toList ++ '#' :: '"' :: "#\x7bx\x7d\" x)".toList).dropWhile Lexer.isWordChar =
      ' ' :: '#' :: '"' :: "#\x7bx\x7d\" x)".toList := by decide
  rw [Reader.readSource, Lexer.lex, Lexer.lexAt, h, Lexer.tokensFrom_single rfl,
    Lexer.tokensFrom_word (by decide) _ _ (.inl (by decide)), hword, Lexer.tokensFrom_separator (by decide),
    Lexer.tokensFrom_format]
  cbv

theorem not_sameOutcome_nil (n : Nat) :
    ¬ SameOutcome (evaluate (n + 2) (Term.evalQuoted .start (.nil ⟨1, 1⟩)) .global freshStore)
      (evaluate (n + 2) (.nil ⟨1, 1⟩) .global freshStore) := by
  rw [evaluate_evalQuoted rfl rfl, evaluate_succ, evaluate_succ]
  nofun

/-- A marked target is refused as no symbol, and its long spelling as a procedure with a reserved name. -/
theorem not_sameOutcome_markedTarget (m : Marker) (n : Nat) :
    ¬ SameOutcome (evaluate (n + 2) ((definingAs (markedTarget m) ⟨1, 12⟩).evalQuoted .start) .global freshStore)
      (evaluate (n + 2) (definingAs (markedTarget m) ⟨1, 12⟩) .global freshStore) := by
  have hlong : evaluate (n + 2) ((definingAs (markedTarget m) ⟨1, 12⟩).evalQuoted .start) .global freshStore =
      .error (.fault (.ofScope (.reserved m.word))) { freshStore with nextStamp := 1 } := by
    rw [evaluate_evalQuoted rfl rfl, evaluate_succ]
    cases m <;> rfl
  rw [hlong, evaluate_succ]
  nofun

/-- A format string is refused as a target, and its long spelling defines a procedure. -/
theorem not_sameOutcome_formatTarget (n : Nat) :
    ¬ SameOutcome (evaluate (n + 2) ((definingAs formatTarget ⟨1, 17⟩).evalQuoted .start) .global freshStore)
      (evaluate (n + 2) (definingAs formatTarget ⟨1, 17⟩) .global freshStore) := by
  rw [evaluate_evalQuoted rfl rfl, evaluate_succ, evaluate_succ]
  nofun

end Lisplet
