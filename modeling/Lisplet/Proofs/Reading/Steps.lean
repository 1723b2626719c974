import Lisplet.Proofs.Reading.Tokens
import Lisplet.Term.Reader
/-!
# Steps of the reader

What one token does in each state of the reader, as equations to rewrite with, and the run as a chain of
such steps.
-/
namespace Lisplet

theorem Except.bind_eq_ok {ε β γ : Type} {x : Except ε β} {f : β → Except ε γ} {c : γ}
    (h : (x >>= f) = .ok c) : ∃ b, x = .ok b ∧ f b = .ok c := by
  cases x with
  | ok b => exact ⟨b, rfl, h⟩
  | error err => cases h

namespace Reader

variable {α : Type}

/-- Whether the innermost open form is a format string. -/
def State.inFormat (s : State α) : Bool :=
  match s.stack with
  | .format _ _ :: _ => true
  | _ => false

/-- The kinds of token that can begin a form. -/
def begins : Token.Kind → Bool
  | .closing _ | .formatCode | .formatEnd | .eof => false
  | _ => true

variable [Identity α] {e : Token → Except SyntaxError (Term α)}

/-- Outside format strings a token that begins a form begins one, whatever is open. -/
theorem step_begin {tok : Token} {s : State α} (hs : s.inFormat = false) (hk : begins tok.kind) :
    step e tok s = begin tok s := by
  obtain ⟨stack, forms⟩ := s
  have heof : tok.kind ≠ .eof := by rintro h; simp [h, begins] at hk
  have hclose : ∀ b, tok.kind ≠ .closing b := by rintro b h; simp [h, begins] at hk
  cases stack with
  | nil => simp [step, heof]
  | cons top stack =>
    cases top with
    | list bracket pos elements =>
      cases h : tok.kind with
      | closing b => exact absurd h (hclose b)
      | eof => exact absurd h heof
      | _ => simp only [step, h]
    | group pos operands operators =>
      cases h : tok.kind with
      | closing b => exact absurd h (hclose b)
      | eof => exact absurd h heof
      | _ => simp only [step, h]
    | marked pos marker text => simp [step, heof]
    | format pos parts => simp [State.inFormat] at hs

theorem run_next {tok : Token} {s s' : State α} (h : step e tok s = .next s') (rest : List Token) :
    run e s (tok :: rest) = run e s' rest := by
  rw [run, h]

/-- A token that is a form by itself is delivered. -/
theorem run_atom {tok : Token} {s s' : State α} {t : Term α} (hs : s.inFormat = false) (hk : begins tok.kind)
    (ht : begin tok s = .ofDelivery (deliver tok.position t s.forms s.stack))
    (hd : deliver tok.position t s.forms s.stack = .ok s') (rest : List Token) :
    run e s (tok :: rest) = run e s' rest := by
  apply run_next
  rw [step_begin hs hk, ht, hd]
  rfl

/-- A token that opens a form leaves it open. -/
theorem run_enter {tok : Token} {s : State α} {p : Pending α} (hs : s.inFormat = false) (hk : begins tok.kind)
    (ht : begin tok s = .next { s with stack := p :: s.stack }) (rest : List Token) :
    run e s (tok :: rest) = run e { s with stack := p :: s.stack } rest :=
  run_next ((step_begin hs hk).trans ht) rest

theorem run_text {tok : Token} (hk : tok.kind = .string) (pos : Position) (parts : List (Part α))
    (stack : List (Pending α)) (forms : List (Term α)) (rest : List Token) :
    run e ⟨.format pos parts :: stack, forms⟩ (tok :: rest) =
      run e ⟨.format pos (.text tok.text :: parts) :: stack, forms⟩ rest := by
  apply run_next
  simp [step, stepFormat, hk]

theorem run_code {tok : Token} {t : Term α} (hk : tok.kind = .formatCode) (he : e tok = .ok t) (pos : Position)
    (parts : List (Part α)) (stack : List (Pending α)) (forms : List (Term α)) (rest : List Token) :
    run e ⟨.format pos parts :: stack, forms⟩ (tok :: rest) =
      run e ⟨.format pos (.code t :: parts) :: stack, forms⟩ rest := by
  apply run_next
  simp [step, stepFormat, hk, he]

theorem run_formatEnd {tok : Token} (hk : tok.kind = .formatEnd) {pos : Position} {parts : List (Part α)}
    {stack : List (Pending α)} {forms : List (Term α)} {s' : State α}
    (hd : deliver pos (.format pos parts.reverse) forms stack = .ok s') (rest : List Token) :
    run e ⟨.format pos parts :: stack, forms⟩ (tok :: rest) = run e s' rest := by
  apply run_next
  simp [step, stepFormat, hk, hd, Effect.ofDelivery]

theorem run_listEnd {tok : Token} {bracket : Bracket} (hk : tok.kind = .closing bracket) {pos : Position}
    {elements : List (Term α)} {stack : List (Pending α)} {forms : List (Term α)} {s' : State α}
    (hd : deliver pos (.list pos elements.reverse) forms stack = .ok s') (rest : List Token) :
    run e ⟨.list bracket pos elements :: stack, forms⟩ (tok :: rest) = run e s' rest := by
  apply run_next
  simp [step, hk, hd, Effect.ofDelivery]

/-! ## What a token can do -/

/-- What a token does that does not stop the reading: outside format strings it begins a form or closes one, and inside a
format string it is text, an expression, or the end of it. -/
inductive Advances (e : Token → Except SyntaxError (Term α)) (tok : Token) : State α → State α → Prop
  | begin {s s' : State α} : s.inFormat = false → Reader.begin tok s = .next s' → Advances e tok s s'
  | listEnd {bracket : Bracket} {pos : Position} {elements forms : List (Term α)} {stack : List (Pending α)}
      {s' : State α} : tok.kind = .closing bracket → deliver pos (.list pos elements.reverse) forms stack = .ok s' →
      Advances e tok ⟨.list bracket pos elements :: stack, forms⟩ s'
  | groupEnd {pos : Position} {operands operators forms : List (Term α)} {t : Term α} {stack : List (Pending α)}
      {s' : State α} : tok.kind = .closing .curly → closeGroup pos operands operators = some t →
      deliver pos t forms stack = .ok s' → Advances e tok ⟨.group pos operands operators :: stack, forms⟩ s'
  | text {pos : Position} {parts : List (Part α)} {forms : List (Term α)} {stack : List (Pending α)} :
      tok.kind = .string →
      Advances e tok ⟨.format pos parts :: stack, forms⟩ ⟨.format pos (.text tok.text :: parts) :: stack, forms⟩
  | code {pos : Position} {parts : List (Part α)} {forms : List (Term α)} {t : Term α} {stack : List (Pending α)} :
      tok.kind = .formatCode → e tok = .ok t →
      Advances e tok ⟨.format pos parts :: stack, forms⟩ ⟨.format pos (.code t :: parts) :: stack, forms⟩
  | formatEnd {pos : Position} {parts : List (Part α)} {forms : List (Term α)} {stack : List (Pending α)}
      {s' : State α} : tok.kind = .formatEnd → deliver pos (.format pos parts.reverse) forms stack = .ok s' →
      Advances e tok ⟨.format pos parts :: stack, forms⟩ s'

theorem deliver_of_next {start : Position} {t : Term α} {forms : List (Term α)} {stack : List (Pending α)}
    {s : State α} (h : Effect.ofDelivery (deliver start t forms stack) = .next s) :
    deliver start t forms stack = .ok s := by
  cases hd : deliver start t forms stack with
  | ok s' =>
    rw [hd] at h
    rw [Effect.next.inj h]
  | error err =>
    rw [hd] at h
    cases h

theorem advances_of_step {tok : Token} {s s' : State α} (h : step e tok s = .next s') : Advances e tok s s' := by
  obtain ⟨stack, forms⟩ := s
  unfold step at h
  cases stack with
  | nil =>
    dsimp only at h
    split at h
    · cases h
    · exact .begin rfl h
  | cons top stack =>
    cases top with
    | list bracket pos elements =>
      dsimp only at h
      split at h
      next b hk =>
        split at h
        case isTrue hb => exact .listEnd (hb ▸ hk) (deliver_of_next h)
        case isFalse => cases h
      next => cases h
      next => exact .begin rfl h
    | group pos operands operators =>
      dsimp only at h
      split at h
      next hk =>
        split at h
        next t hc => exact .groupEnd hk hc (deliver_of_next h)
        next => cases h
      next => cases h
      next => cases h
      next => exact .begin rfl h
    | marked pos marker text =>
      dsimp only at h
      split at h
      · cases h
      · exact .begin rfl h
    | format pos parts =>
      dsimp only at h
      unfold stepFormat at h
      split at h
      next hk =>
        obtain rfl := Effect.next.inj h
        exact .text hk
      next hk =>
        split at h
        next t ht =>
          obtain rfl := Effect.next.inj h
          exact .code hk ht
        next => cases h
      next hk => exact .formatEnd hk (deliver_of_next h)
      next => cases h

/-! ## Going through tokens without stopping -/

/-- The state behind a row of tokens, unless one of them stops the reading. -/
def steps (e : Token → Except SyntaxError (Term α)) : State α → List Token → Option (State α)
  | s, [] => some s
  | s, tok :: rest =>
    match step e tok s with
    | .next s' => steps e s' rest
    | .finished | .failed _ _ => none

theorem steps_cons {tok : Token} {rest : List Token} {s s' : State α} :
    steps e s (tok :: rest) = some s' ↔ ∃ m, step e tok s = .next m ∧ steps e m rest = some s' := by
  rw [steps]
  cases step e tok s <;> simp

theorem steps_append (s : State α) (front rest : List Token) :
    steps e s (front ++ rest) = (steps e s front).bind fun m => steps e m rest := by
  induction front generalizing s with
  | nil => rfl
  | cons tok front ih =>
    simp only [List.cons_append, steps]
    cases step e tok s <;> simp [ih]

theorem run_of_steps {s s' : State α} {tokens : List Token} (h : steps e s tokens = some s') (rest : List Token) :
    run e s (tokens ++ rest) = run e s' rest := by
  induction tokens generalizing s with
  | nil =>
    obtain rfl := Option.some.inj h
    rfl
  | cons tok tokens ih =>
    obtain ⟨m, hm, hr⟩ := steps_cons.1 h
    rw [List.cons_append, run_next hm, ih hr]

/-- Only the end mark can finish the reading. -/
theorem step_ne_finished {tok : Token} (hk : tok.kind ≠ .eof) (s : State α) : step e tok s ≠ .finished := by
  have hd : ∀ r : Except SyntaxError (State α), Effect.ofDelivery r ≠ .finished := by
    rintro (_ | _) <;> simp [Effect.ofDelivery]
  have hb : begin tok s ≠ .finished := by
    unfold begin
    cases tok.kind with
    | opening b => cases b <;> simp
    | _ => simp [hd]
  obtain ⟨stack, forms⟩ := s
  unfold step
  cases stack with
  | nil => simpa [hk] using hb
  | cons top stack =>
    cases top with
    | list bracket pos elements =>
      dsimp only
      split
      · split <;> simp [hd]
      · simp
      · exact hb
    | group pos operands operators =>
      dsimp only
      split
      · split <;> simp [hd]
      · simp
      · simp
      · exact hb
    | marked pos marker text => simpa [hk] using hb
    | format pos parts =>
      dsimp only
      unfold stepFormat
      split
      · simp
      · split <;> simp
      · exact hd _
      · simp

/-- A reading that fails nowhere gets through every token in front of the end mark. -/
theorem steps_of_run {s : State α} {tokens rest : List Token} (hk : ∀ tok ∈ tokens, tok.kind ≠ .eof)
    (h : (run e s (tokens ++ rest)).failure = none) : ∃ s', steps e s tokens = some s' := by
  induction tokens generalizing s with
  | nil => exact ⟨s, rfl⟩
  | cons tok tokens ih =>
    rw [List.cons_append, run] at h
    cases hs : step e tok s with
    | next m =>
      rw [hs] at h
      obtain ⟨s', hs'⟩ := ih (fun t ht => hk t (List.mem_cons_of_mem tok ht)) h
      exact ⟨s', steps_cons.2 ⟨m, hs, hs'⟩⟩
    | finished => exact absurd hs (step_ne_finished (hk tok (by simp)) s)
    | failed err used =>
      rw [hs] at h
      cases h

/-! ## Ends -/

/-- A row that ends with an end mark is read as it is. -/
theorem supply_of_last (tokens : List Token) {last : Token} (hlast : last.kind = .eof) :
    supply (tokens ++ [last]) = tokens ++ [last] := by
  simp [supply, hlast]

theorem supply_of_eof (tokens : List Token) (p : Position) :
    supply (tokens ++ [.eofAt p]) = tokens ++ [.eofAt p] :=
  supply_of_last tokens rfl

/-- An end mark finishes the reading when nothing is open, and is an error of the innermost form
otherwise. -/
theorem step_last {last : Token} (hlast : last.kind = .eof) (s : State α) :
    step e last s =
      match s.stack with
      | [] => .finished
      | .list _ pos _ :: _ => .failed ⟨.unclosedList last, pos⟩ false
      | .group pos _ _ :: _ => .failed ⟨.unclosedInfix, pos⟩ false
      | .marked pos _ text :: _ => .failed ⟨.nothingToQuote text, pos⟩ false
      | .format _ _ :: _ => .failed ⟨.unexpectedInFormat last, last.position⟩ true := by
  obtain ⟨stack, forms⟩ := s
  rcases stack with _ | ⟨_ | _ | _ | _, stack⟩ <;> simp [step, stepFormat, hlast]

theorem step_eof (p : Position) (s : State α) :
    step e (.eofAt p) s =
      match s.stack with
      | [] => .finished
      | .list _ pos _ :: _ => .failed ⟨.unclosedList (.eofAt p), pos⟩ false
      | .group pos _ _ :: _ => .failed ⟨.unclosedInfix, pos⟩ false
      | .marked pos _ text :: _ => .failed ⟨.nothingToQuote text, pos⟩ false
      | .format _ _ :: _ => .failed ⟨.unexpectedInFormat (.eofAt p), p⟩ true :=
  step_last rfl s

omit [Identity α] in
theorem complete_eq_ok {r : Reading α} {forms : List (Term α)} :
    r.complete = .ok forms ↔ r.failure = none ∧ r.forms = forms := by
  unfold Reading.complete
  cases h : r.failure <;> simp

/-- A row of tokens is read without an error when it leaves nothing open. -/
theorem readWith_eq_ok_of_last {tokens : List Token} (hk : ∀ tok ∈ tokens, tok.kind ≠ .eof) {last : Token}
    (hlast : last.kind = .eof) {ts : List (Term α)} :
    (readWith e (tokens ++ [last])).complete = .ok ts ↔ steps e .empty tokens = some ⟨[], ts.reverse⟩ := by
  rw [readWith, supply_of_last tokens hlast, complete_eq_ok]
  constructor
  · rintro ⟨hf, hforms⟩
    obtain ⟨⟨stack, forms⟩, hs⟩ := steps_of_run hk hf
    rw [run_of_steps hs, run, step_last hlast] at hf hforms
    rcases stack with _ | ⟨_ | _ | _ | _, stack⟩
    · obtain rfl : forms.reverse = ts := hforms
      rw [hs, List.reverse_reverse]
    all_goals cases hf
  · intro hs
    rw [run_of_steps hs, run, step_last hlast]
    exact ⟨rfl, List.reverse_reverse ts⟩

theorem readWith_eq_ok {tokens : List Token} (hk : ∀ tok ∈ tokens, tok.kind ≠ .eof) (p : Position)
    {ts : List (Term α)} :
    (readWith e (tokens ++ [.eofAt p])).complete = .ok ts ↔ steps e .empty tokens = some ⟨[], ts.reverse⟩ :=
  readWith_eq_ok_of_last hk rfl

end Reader

end Lisplet
