import Lisplet.Proofs.Reading.Steps
/-!
# What stops the reading

A token that stops the reading does so in one of eight ways (`Fails`): two operators of an infix group differ, a group ends with
an operator, the token begins no form or cannot stand in a format string, a list, a group or a quote mark is still open, or the
token is an expression that cannot be read. The error is at the token or at a form that is open, unless it is that of the
expression. A reading that fails gets through some tokens and is stopped by the next one (`exists_failed_of_run`).
-/
namespace Lisplet.Reader

variable {α : Type}

/-- The place of an open form. -/
def Pending.position : Pending α → Position
  | .list _ pos _ => pos
  | .group pos _ _ => pos
  | .marked pos _ _ => pos
  | .format pos _ => pos

/-- The places of a token and of the open forms. -/
def Near (tok : Token) (stack : List (Pending α)) (q : Position) : Prop := q = tok.position ∨ ∃ p ∈ stack, q = p.position

/-- An error that stops the reading at a token, and whether the token is used up. -/
inductive Fails (e : Token → Except SyntaxError (Term α)) (tok : Token) (stack : List (Pending α)) : SyntaxError → Bool → Prop
  | mismatch (first other : String) {q : Position} : Near tok stack q →
      Fails e tok stack ⟨.infixMismatch first other, q⟩ true
  | dangling : Fails e tok stack ⟨.danglingOperator, tok.position⟩ true
  | unexpected : Fails e tok stack ⟨.unexpected tok, tok.position⟩ false
  | unexpectedInFormat : Fails e tok stack ⟨.unexpectedInFormat tok, tok.position⟩ true
  | list {p : Pending α} : p ∈ stack → Fails e tok stack ⟨.unclosedList tok, p.position⟩ false
  | group {p : Pending α} : p ∈ stack → Fails e tok stack ⟨.unclosedInfix, p.position⟩ false
  | mark {p : Pending α} (text : String) : p ∈ stack → Fails e tok stack ⟨.nothingToQuote text, p.position⟩ false
  | code {err : SyntaxError} : tok.kind = .formatCode → e tok = .error err → Fails e tok stack err true

variable [Identity α] {e : Token → Except SyntaxError (Term α)}

theorem addToGroup_error {start pos : Position} {t : Term α} {operands operators : List (Term α)} {err : SyntaxError}
    (h : addToGroup start t pos operands operators = .error err) :
    ∃ first other, err = ⟨.infixMismatch first other, start⟩ := by
  unfold addToGroup at h
  split at h
  · cases h
  · split at h
    · cases h
    · split at h
      · cases h
      · exact ⟨_, _, (Except.error.inj h).symm⟩

/-- A delivery fails at two operators that differ, where the form begins or the quote mark in front of it. -/
theorem fails_of_delivery {tok : Token} {stack stack' : List (Pending α)} {start : Position} (hstart : Near tok stack' start)
    (hstack : ∀ p ∈ stack, p ∈ stack') {t : Term α} {forms : List (Term α)} {err : SyntaxError} {used : Bool}
    (h : Effect.ofDelivery (deliver start t forms stack) = .failed err used) : Fails e tok stack' err used := by
  induction stack generalizing start t with
  | nil => cases h
  | cons top stack ih =>
    obtain ⟨htop, hrest⟩ := List.forall_mem_cons.1 hstack
    cases top with
    | list bracket pos elements => cases h
    | group pos operands operators =>
      rw [deliver] at h
      cases hadd : addToGroup start t pos operands operators with
      | ok group =>
        rw [hadd] at h
        cases h
      | error err' =>
        rw [hadd] at h
        cases h
        obtain ⟨first, other, rfl⟩ := addToGroup_error hadd
        exact .mismatch first other hstart
    | marked pos marker text => exact ih (.inr ⟨_, htop, rfl⟩) hrest h
    | format pos parts => cases h

theorem fails_of_begin {tok : Token} {s : State α} {err : SyntaxError} {used : Bool}
    (h : begin tok s = .failed err used) : Fails e tok s.stack err used := by
  unfold begin at h
  split at h
  case h_1 | h_2 | h_3 | h_4 => cases h
  case h_5 | h_6 | h_7 | h_8 | h_9 => exact fails_of_delivery (.inl rfl) (fun _ hm => hm) h
  all_goals
    cases h
    exact .unexpected

theorem fails_of_step {tok : Token} {s : State α} {err : SyntaxError} {used : Bool}
    (h : step e tok s = .failed err used) : Fails e tok s.stack err used := by
  obtain ⟨stack, forms⟩ := s
  unfold step at h
  cases stack with
  | nil =>
    dsimp only at h
    split at h
    · cases h
    · exact fails_of_begin h
  | cons top stack =>
    have hrest : ∀ p ∈ stack, p ∈ top :: stack := fun p hm => List.mem_cons_of_mem top hm
    cases top with
    | list bracket pos elements =>
      dsimp only at h
      -- A closing bracket, the end of the tokens, or a form that begins inside.
      split at h
      · split at h
        · exact fails_of_delivery (.inr ⟨_, List.mem_cons_self, rfl⟩) hrest h
        · cases h
          exact .list List.mem_cons_self
      · cases h
        exact .list List.mem_cons_self
      · exact fails_of_begin h
    | group pos operands operators =>
      dsimp only at h
      -- The closing brace, another closing bracket, the end of the tokens, or a form that begins inside.
      split at h
      · split at h
        · exact fails_of_delivery (.inr ⟨_, List.mem_cons_self, rfl⟩) hrest h
        · cases h
          exact .dangling
      · cases h
        exact .group List.mem_cons_self
      · cases h
        exact .group List.mem_cons_self
      · exact fails_of_begin h
    | marked pos marker text =>
      dsimp only at h
      split at h
      · cases h
        exact .mark text List.mem_cons_self
      · exact fails_of_begin h
    | format pos parts =>
      dsimp only at h
      unfold stepFormat at h
      split at h
      next => cases h
      next hk =>
        split at h
        next => cases h
        next err' herr =>
          cases h
          exact .code hk herr
      next => exact fails_of_delivery (.inr ⟨_, List.mem_cons_self, rfl⟩) hrest h
      next =>
        cases h
        exact .unexpectedInFormat

/-- The token that stops a reading, with the state behind the tokens in front of it. -/
theorem exists_failed_of_run {s : State α} {tokens : List Token} {err : SyntaxError}
    (h : (run e s tokens).failure = some err) :
    ∃ front tok rest m used, tokens = front ++ tok :: rest ∧ steps e s front = some m ∧ step e tok m = .failed err used ∧
      (run e s tokens).rest = if used then rest else tok :: rest := by
  induction tokens generalizing s with
  | nil => cases h
  | cons tok tokens ih =>
    rw [run] at h ⊢
    cases hstep : step e tok s with
    | next m =>
      rw [hstep] at h
      obtain ⟨front, tok', rest, m', used, rfl, hsteps, hfailed, hrest⟩ := ih h
      exact ⟨tok :: front, tok', rest, m', used, rfl, steps_cons.2 ⟨m, hstep, hsteps⟩, hfailed, hrest⟩
    | finished =>
      rw [hstep] at h
      cases h
    | failed err' used =>
      rw [hstep] at h
      obtain rfl := Option.some.inj h
      exact ⟨[], tok, tokens, s, used, rfl, rfl, hstep, rfl⟩

end Lisplet.Reader
