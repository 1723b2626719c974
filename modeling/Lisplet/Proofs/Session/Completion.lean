import Lisplet.Proofs.Reading.Failures
import Lisplet.Proofs.Reading.Joined
import Lisplet.Proofs.Session.Incomplete
/-!
# Completing a text

A text that is lexed whole and called incomplete has open lists and infix groups, and more lines can close them: a bracket for
each list, a brace for each group, an operand in front of the brace where the group ends with an operator (`exists_closing`).
Two things stand in the way, and no line behind them helps. An expression of a format string that cannot be read fails wherever
the text goes on (`not_readSource_of_code`); a text with such an expression is called incomplete when the expression itself is
cut off. And an open form that is to be a further operator of a group would have to become equal to the first one.
-/
namespace Lisplet

open Lexer (Lexes)

namespace Reader

variable {α : Type}

/-- Whether an open form is a format string. -/
def Pending.isFormat : Pending α → Bool
  | .format _ _ => true
  | _ => false

/-- Open forms that take any form next. An infix group does not where a further operator is expected, which has to equal the
first one. -/
def Pending.Accepts : Pending α → Prop
  | .group _ operands operators => operands.length = operators.length ∨ operators = []
  | _ => True

/-- A state whose open forms can be closed from the innermost one on. -/
structure State.Closable (s : State α) : Prop where
  waits : s.waits = false
  inFormat : s.inFormat = false
  below : ∀ p ∈ s.stack.tail, p.Accepts ∧ p.isFormat = false

variable [Identity α] {e : Token → Except SyntaxError (Term α)}

/-! ## Closing what is open -/

theorem addToGroup_of_accepts (start pos : Position) (t : Term α) {operands operators : List (Term α)}
    (h : (Pending.group pos operands operators).Accepts) :
    ∃ operands' operators', addToGroup start t pos operands operators = .ok (.group pos operands' operators') := by
  unfold addToGroup
  by_cases hlen : operands.length = operators.length
  · exact ⟨_, _, if_pos hlen⟩
  · obtain rfl : operators = [] := h.resolve_left hlen
    exact ⟨_, _, if_neg hlen⟩

/-- A form that is delivered to forms that take it leaves a state that can be closed. -/
theorem closable_deliver (start : Position) (t : Term α) (forms : List (Term α)) {stack : List (Pending α)}
    (h : ∀ p ∈ stack, p.Accepts ∧ p.isFormat = false) :
    ∃ s, deliver start t forms stack = .ok s ∧ s.Closable ∧ s.stack.length ≤ stack.length := by
  induction stack generalizing start t with
  | nil => exact ⟨_, rfl, ⟨rfl, rfl, by simp⟩, Nat.le_refl _⟩
  | cons top stack ih =>
    obtain ⟨⟨htop, hformat⟩, hrest⟩ := List.forall_mem_cons.1 h
    cases top with
    | list bracket pos elements => exact ⟨_, rfl, ⟨rfl, rfl, hrest⟩, Nat.le_refl _⟩
    | group pos operands operators =>
      obtain ⟨operands', operators', hadd⟩ := addToGroup_of_accepts start pos t htop
      exact ⟨⟨.group pos operands' operators' :: stack, forms⟩, by rw [deliver, hadd], ⟨rfl, rfl, hrest⟩, Nat.le_refl _⟩
    | marked pos marker text =>
      obtain ⟨s, hs, hclosable, hlen⟩ := ih pos (.marked pos marker t) hrest
      exact ⟨s, hs, hclosable, Nat.le_succ_of_le hlen⟩
    | format pos parts => cases hformat

/-- The bracket that closes a list. -/
def closer : Bracket → Char
  | .round => ')'
  | .square => ']'
  | .curly => '\x7d'

theorem singleKind?_closer (b : Bracket) : Lexer.singleKind? (closer b) = some (.closing b) := by
  cases b <;> decide

omit [Identity α] in
/-- A group that ends with an operator takes an operand, and can be closed then. -/
theorem closeGroup_operand {pos : Position} {operands operators : List (Term α)} (h : closeGroup pos operands operators = none)
    (t : Term α) : operands.length = operators.length ∧ ∃ u, closeGroup pos (t :: operands) operators = some u := by
  unfold closeGroup at h
  split at h
  next => cases h
  next => cases h
  next op ops hops =>
    split at h
    case isTrue hlen =>
      have hoperators : operators.length = ops.length + 1 := by rw [← List.length_reverse, hops, List.length_cons]
      rw [List.length_reverse] at hlen
      exact ⟨hlen.trans hoperators.symm, .list pos (op :: (t :: operands).reverse), by simp [closeGroup, hops, hlen]⟩
    case isFalse => cases h

/-- Some text that starts at a place closes all forms that are open. -/
def Closes (e : Token → Except SyntaxError (Term α)) (s : State α) (p : Position) : Prop :=
  ∃ cs made forms, Lexes cs made ∧ steps e s (made p) = some ⟨[], forms⟩

theorem Closes.bracket {b : Bracket} {p : Position} {s m : State α}
    (h : step e ⟨.closing b, (closer b).toString, p⟩ s = .next m) (hm : Closes e m (p.after [closer b])) : Closes e s p := by
  obtain ⟨cs, made, forms, hl, hsteps⟩ := hm
  exact ⟨[closer b] ++ cs, _, forms, .chunk (.single (singleKind?_closer b)) hl, steps_cons.2 ⟨m, h, hsteps⟩⟩

theorem Closes.operand {p : Position} {s m m' : State α} (hx : step e ⟨.symbol, "x", p⟩ s = .next m)
    (h : step e ⟨.closing .curly, (closer .curly).toString, p.after ['x']⟩ m = .next m')
    (hm : Closes e m' ((p.after ['x']).after [closer .curly])) : Closes e s p := by
  obtain ⟨cs, made, forms, hl, hsteps⟩ := hm
  have hword : Lexer.Chunk ['x'] (closer .curly :: cs) fun p => [⟨.symbol, "x", p⟩] := by
    refine .word (by simp) (List.forall_mem_singleton.2 ?_) ?_ (by simp)
    · decide
    · rintro c ⟨⟩
      decide
  exact ⟨['x'] ++ ([closer .curly] ++ cs), _, forms, .chunk hword (.chunk (.single (singleKind?_closer .curly)) hl),
    steps_cons.2 ⟨m, hx, steps_cons.2 ⟨m', h, hsteps⟩⟩⟩

/-- Forms that can be closed are closed by some text, wherever it starts. -/
theorem exists_closing {s : State α} (hs : s.Closable) (p : Position) : Closes e s p := by
  -- Each closing takes at least one form off the stack.
  induction hn : s.stack.length using Nat.strongRecOn generalizing s p with
  | ind n ih =>
    obtain ⟨stack, forms⟩ := s
    cases stack with
    | nil => exact ⟨[], _, forms, .nil, rfl⟩
    | cons top stack =>
      have hdelivered (start : Position) (t : Term α) (q : Position) :
          ∃ m, deliver start t forms stack = .ok m ∧ Closes e m q := by
        obtain ⟨m, hm, hclosable, hlen⟩ := closable_deliver start t forms hs.below
        exact ⟨m, hm, ih _ (hn ▸ Nat.lt_succ_of_le hlen) hclosable q rfl⟩
      cases top with
      | list bracket pos elements =>
        obtain ⟨m, hm, hclose⟩ := hdelivered pos (.list pos elements.reverse) (p.after [closer bracket])
        exact .bracket (b := bracket) (by simp [step, hm, Effect.ofDelivery]) hclose
      | group pos operands operators =>
        cases hgroup : closeGroup pos operands operators with
        | some t =>
          obtain ⟨m, hm, hclose⟩ := hdelivered pos t (p.after [closer .curly])
          exact .bracket (b := .curly) (by simp [step, hgroup, hm, Effect.ofDelivery]) hclose
        | none =>
          obtain ⟨hlen, t, ht⟩ := closeGroup_operand hgroup (.symbol p "x")
          obtain ⟨m, hm, hclose⟩ := hdelivered pos t ((p.after ['x']).after [closer .curly])
          refine .operand (m := ⟨.group pos (.symbol p "x" :: operands) operators :: stack, forms⟩) ?_ ?_ hclose
          · simp [step, begin, deliver, addToGroup, hlen, Effect.ofDelivery]
          · simp [step, ht, hm, Effect.ofDelivery]
      | marked pos marker text => cases hs.waits
      | format pos parts => cases hs.inFormat

/-! ## Expressions that cannot be read -/

/-- Tokens that are gone through hold no expression that cannot be read. -/
theorem ok_of_steps {tokens : List Token} {s s' : State α} (h : steps e s tokens = some s') {tok : Token}
    (hm : tok ∈ tokens) (hk : tok.kind = .formatCode) : ∃ t, e tok = .ok t := by
  induction tokens generalizing s with
  | nil => cases hm
  | cons first tokens ih =>
    obtain ⟨m, hstep, hrest⟩ := steps_cons.1 h
    rcases List.mem_cons.1 hm with rfl | hm
    · cases advances_of_step hstep with
      | begin _ hb =>
        unfold begin at hb
        simp [hk] at hb
      | listEnd hc _ | groupEnd hc _ _ | text hc | formatEnd hc _ =>
        rw [hk] at hc
        cases hc
      | code _ ht => exact ⟨_, ht⟩
    · exact ih hrest hm

omit [Identity α] in
/-- What stops the reading, other than an expression that cannot be read, is no error inside a token; and a form that is not
closed leaves the token. -/
theorem isUnterminated_of_fails {tok : Token} {stack : List (Pending α)} {err : SyntaxError} {used : Bool}
    (h : Fails e tok stack err used) (he : tok.kind = .formatCode → ∃ t, e tok = .ok t) :
    Session.isUnterminated err = false ∧ (Session.isUnclosed err = true → used = false) := by
  cases h with
  | code hk herr =>
    obtain ⟨t, ht⟩ := he hk
    rw [ht] at herr
    cases herr
  | mismatch | dangling | unexpectedInFormat => exact ⟨rfl, nofun⟩
  | unexpected | list | group | mark => exact ⟨rfl, fun _ => rfl⟩

end Reader

namespace Session

open Reader

variable {source : String} {made : Position → List Token}

/-- A text that is called incomplete and whose expressions can be read is gone through to its end, and there no quote mark
waits. -/
theorem exists_steps_of_isIncomplete (hl : Lexes source.toList made) (h : isIncomplete source = true)
    (he : ∀ tok ∈ made .start, tok.kind = .formatCode → ∃ t : Code, embed tok = .ok t) :
    ∃ s : State Value, steps embed .empty (made .start) = some s ∧ s.waits = false := by
  have hlex : (Lexer.lex source).complete = .ok (made .start ++ [.eofAt (Position.start.after source.toList)]) :=
    Lexer.lexAt_complete.2 ⟨made, hl, rfl⟩
  unfold isIncomplete at h
  simp only [hlex, Reader.read, readWith, supply_of_eof] at h
  split at h
  next => cases h
  next err hfail =>
    obtain ⟨front, tok, rest, s, used, htokens, hsteps, hfailed, hrest⟩ := exists_failed_of_run hfail
    rcases List.eq_nil_or_concat rest with rfl | ⟨rest, last, rfl⟩
    · obtain ⟨rfl, hlast⟩ := List.append_inj' htokens rfl
      obtain rfl := (List.cons.inj hlast).1
      refine ⟨s, hsteps, ?_⟩
      -- A quote mark that waits at the end has an error of its own.
      obtain ⟨stack, forms⟩ := s
      rw [step_eof] at hfailed
      cases stack with
      | nil => rfl
      | cons top stack =>
        cases top with
        | marked pos marker text =>
          cases hfailed
          cases h
        | _ => rfl
    · rw [List.concat_eq_append, ← List.cons_append, ← List.append_assoc] at htokens
      obtain ⟨hmade, -⟩ := List.append_inj' htokens rfl
      have hmem : tok ∈ made .start := by simp [hmade]
      have hk := Lexer.kind_ne_eof_of_grouped (Lexer.grouped_of_lexes hl .start) tok hmem
      obtain ⟨hterminated, hused⟩ := isUnterminated_of_fails (fails_of_step hfailed) (he tok hmem)
      rw [hterminated, Bool.false_or, Bool.and_eq_true] at h
      obtain ⟨hunclosed, hend⟩ := h
      rw [hused hunclosed] at hrest
      simp [Reading.atEnd, hrest, hk] at hend

theorem isFormat_of_spelled {p : Pending Value} (h : Pending.Spelled p) : p.isFormat = false := by
  cases p with
  | format => exact h.elim
  | _ => rfl

/-- A text that goes on behind the end of a line, when both parts are lexed. -/
theorem readSource_newline (hl : Lexes source.toList made) {cs : List Char} {behind : Position → List Token}
    (hb : Lexes cs behind) {forms : List Code}
    (h : steps embed .empty (made .start ++ behind (Position.start.after (source.toList ++ ['\n']))) = some ⟨[], forms⟩) :
    readSource (source ++ "\n" ++ String.ofList cs) = .ok forms.reverse := by
  have hwhole : (source ++ "\n" ++ String.ofList cs).toList = source.toList ++ '\n' :: cs := by simp
  have hall := Lexer.lexes_newline hl hb
  rw [← hwhole] at hall
  have hk := Lexer.kind_ne_eof_of_grouped (Lexer.grouped_of_lexes hall .start)
  rw [readSource, Lexer.lex, Lexer.lexAt_complete.2 ⟨_, hall, rfl⟩]
  refine (readWith_eq_ok hk _).2 ?_
  rw [List.reverse_reverse]
  exact h

/-- The tokens of a text stay the first ones when it goes on behind the end of a line. -/
theorem exists_steps_of_readSource (hl : Lexes source.toList made) {more : String} {forms : List Code}
    (h : readSource (source ++ "\n" ++ more) = .ok forms) : ∃ s : State Value, steps embed .empty (made .start) = some s := by
  have hwhole : (source ++ "\n" ++ more).toList = source.toList ++ '\n' :: more.toList := by simp
  obtain ⟨tokens, hlex, hread⟩ := Except.bind_eq_ok h
  obtain ⟨all, hall, rfl⟩ := Lexer.lexAt_complete.1 hlex
  have hk := Lexer.kind_ne_eof_of_grouped (Lexer.grouped_of_lexes hall .start)
  have hsteps := (readWith_eq_ok hk _).1 hread
  have hjoined := Lexer.tokensFrom_joined hl more.toList .start
  rw [← hwhole, Lexer.tokensFrom_of_lexes hall] at hjoined
  obtain ⟨behind, hb⟩ := Lexer.lexes_of_failure (congrArg Lexer.Lexed.failure hjoined).symm
  rw [Lexer.tokensFrom_of_lexes hb] at hjoined
  have htokens := (congrArg Lexer.Lexed.tokens hjoined).trans (List.append_assoc ..).symm
  obtain ⟨hsplit, -⟩ := List.append_inj' htokens rfl
  rw [hsplit, steps_append, Option.bind_eq_some_iff] at hsteps
  obtain ⟨s, hs, -⟩ := hsteps
  exact ⟨s, hs⟩

/-- A text with an expression that cannot be read cannot be read, however it goes on behind the end of its last line. -/
theorem not_readSource_of_code (hl : Lexes source.toList made) {tok : Token} (hm : tok ∈ made .start)
    (hk : tok.kind = .formatCode) {err : SyntaxError} (he : (embed tok : Except SyntaxError Code) = .error err)
    (more : String) (forms : List Code) : readSource (source ++ "\n" ++ more) ≠ .ok forms := by
  intro h
  obtain ⟨s, hs⟩ := exists_steps_of_readSource hl h
  obtain ⟨t, ht⟩ := ok_of_steps hs hm hk
  rw [he] at ht
  cases ht

/-- A text that is lexed whole and called incomplete can be completed by more lines if and only if its expressions can be
read, unless an open form stands where a further operator of an infix group is expected. -/
theorem exists_completion_iff {tokens : List Token} {last : Token}
    (hlex : (Lexer.lex source).complete = .ok (tokens ++ [last])) (h : isIncomplete source = true)
    (hops : ∀ s : State Value, steps embed .empty tokens = some s → ∀ p ∈ s.stack.tail, p.Accepts) :
    (∃ (more : String) (forms : List Code), readSource (source ++ "\n" ++ more) = .ok forms) ↔
      ∀ tok ∈ tokens, tok.kind = .formatCode → ∃ t : Code, embed tok = .ok t := by
  obtain ⟨made, hl, heq⟩ := Lexer.lexAt_complete.1 hlex
  obtain ⟨rfl, -⟩ := List.append_inj' heq rfl
  constructor
  · rintro ⟨more, forms, hread⟩ tok hm hk
    obtain ⟨s, hs⟩ := exists_steps_of_readSource hl hread
    exact ok_of_steps hs hm hk
  · intro he
    obtain ⟨s, hs, hw⟩ := exists_steps_of_isIncomplete hl h he
    have hspelled := spelled_steps (Lexer.grouped_of_lexes hl .start) (fun tok => spelled_embedAt tok.text.length tok)
      spelled_empty hs
    have hclosable : s.Closable := by
      refine ⟨hw, hspelled.inFormat, fun p hp => ⟨hops s hs p hp, isFormat_of_spelled (hspelled.1 p ?_)⟩⟩
      exact List.mem_of_mem_tail hp
    obtain ⟨cs, behind, forms, hb, hclose⟩ := exists_closing (e := embed) hclosable
      (Position.start.after (source.toList ++ ['\n']))
    refine ⟨String.ofList cs, forms.reverse, readSource_newline hl hb ?_⟩
    rw [steps_append, hs]
    exact hclose

/-- The tokens of a list with a format string and an infix group that ends with an operator, both left open. -/
def openTokens : List Token :=
  [⟨.opening .round, "(", ⟨1, 1⟩⟩, ⟨.formatStart, "#\"", ⟨1, 2⟩⟩, ⟨.formatCode, "y", ⟨1, 6⟩⟩, ⟨.formatEnd, "\"", ⟨1, 9⟩⟩,
    ⟨.opening .curly, "\x7b", ⟨1, 9⟩⟩, ⟨.symbol, "a", ⟨1, 10⟩⟩, ⟨.symbol, "+", ⟨1, 12⟩⟩]

theorem lex_openTokens : (Lexer.lex "(#\"#\x7by\x7d\"\x7ba +").complete = .ok (openTokens ++ [.eofAt ⟨1, 13⟩]) := by
  have h : ("(#\"#\x7by\x7d\"\x7ba +" : String).toList = '(' :: '#' :: '"' :: "#\x7by\x7d\"\x7ba +".toList := rfl
  rw [Lexer.lex, Lexer.lexAt, h, Lexer.tokensFrom_single rfl, Lexer.tokensFrom_format]
  cbv

theorem steps_openTokens : steps embed .empty openTokens = some ⟨[.group ⟨1, 9⟩ [.symbol ⟨1, 10⟩ "a"] [.symbol ⟨1, 12⟩ "+"],
    .list .round ⟨1, 1⟩ [.format ⟨1, 2⟩ [.code (.symbol ⟨1, 6⟩ "y" : Code)]]], []⟩ := by
  cbv

theorem isIncomplete_openTokens : isIncomplete "(#\"#\x7by\x7d\"\x7ba +" = true := by
  rw [isIncomplete, lex_openTokens]
  cbv

theorem exists_completion_iff_openTokens :
    isIncomplete "(#\"#\x7by\x7d\"\x7ba +" = true ∧
      ∃ (more : String) (forms : List Code), readSource ("(#\"#\x7by\x7d\"\x7ba +" ++ "\n" ++ more) = .ok forms := by
  have hops : ∀ s : State Value, steps embed .empty openTokens = some s → ∀ p ∈ s.stack.tail, p.Accepts := by
    intro s hs p hp
    rw [steps_openTokens] at hs
    obtain rfl := Option.some.inj hs
    obtain rfl := List.mem_singleton.1 hp
    trivial
  refine ⟨isIncomplete_openTokens, (exists_completion_iff lex_openTokens isIncomplete_openTokens hops).2 ?_⟩
  exact fun tok hm hk => ok_of_steps steps_openTokens hm hk

/-- A format string whose expression holds a format string that is cut off. -/
def cutFormat : String := "#\"#\x7b #\"#\x7bx\" \x7d\""

theorem lex_cutFormat : (Lexer.lex cutFormat).complete = .ok [⟨.formatStart, "#\"", ⟨1, 1⟩⟩,
    ⟨.formatCode, " #\"#\x7bx\" ", ⟨1, 5⟩⟩, ⟨.formatEnd, "\"", ⟨1, 15⟩⟩, .eofAt ⟨1, 15⟩] := by
  have h : cutFormat.toList = '#' :: '"' :: "#\x7b #\"#\x7bx\" \x7d\"".toList := rfl
  rw [Lexer.lex, Lexer.lexAt, h, Lexer.tokensFrom_format]
  cbv

theorem embed_cutFormat : (embed ⟨.formatCode, " #\"#\x7bx\" ", ⟨1, 5⟩⟩ : Except SyntaxError Code) =
    .error ⟨.unclosedInterpolation, ⟨1, 6⟩⟩ := by
  have hlex : Lexer.lexAt ⟨1, 5⟩ " #\"#\x7bx\" " = ⟨[], some ⟨.unclosedInterpolation, ⟨1, 6⟩⟩⟩ := by
    have h : (" #\"#\x7bx\" " : String).toList = ' ' :: '#' :: '"' :: "#\x7bx\" ".toList := rfl
    rw [Lexer.lexAt, h, Lexer.tokensFrom_separator (by decide), Lexer.tokensFrom_format]
    cbv
  rw [embed, show (" #\"#\x7bx\" " : String).length = 7 + 1 from rfl, embedAt, hlex]
  rfl

theorem isIncomplete_cutFormat : isIncomplete cutFormat = true := by
  rw [isIncomplete, lex_cutFormat]
  simp only [Reader.read, readWith, supply, List.getLast?_cons_cons, List.getLast?_singleton, Token.eofAt, if_true, run,
    State.empty, step, begin, stepFormat, embed_cutFormat, reduceCtorEq, if_false]
  rfl

/-- A text that is lexed whole and called incomplete, and that no more lines complete. -/
theorem not_exists_completion_cutFormat : (Lexer.lex cutFormat).failure = none ∧ isIncomplete cutFormat = true ∧
    ¬ ∃ (more : String) (forms : List Code), readSource (cutFormat ++ "\n" ++ more) = .ok forms := by
  have hlex := lex_cutFormat
  obtain ⟨made, hl, hmade⟩ := Lexer.lexAt_complete.1 hlex
  have hcode : (⟨.formatCode, " #\"#\x7bx\" ", ⟨1, 5⟩⟩ : Token) ∈ made .start := by
    have hmem : (⟨.formatCode, " #\"#\x7bx\" ", ⟨1, 5⟩⟩ : Token) ∈
        made .start ++ [.eofAt (Position.start.after cutFormat.toList)] := by
      rw [← hmade]
      simp
    simpa [Token.eofAt] using hmem
  refine ⟨(Lexer.complete_eq_ok.1 hlex).1, isIncomplete_cutFormat, ?_⟩
  rintro ⟨more, forms, hread⟩
  exact not_readSource_of_code hl hcode rfl embed_cutFormat more forms hread

end Session

end Lisplet
