import Lisplet.Proofs.Likeness.Observations
import Lisplet.Proofs.Reading.Groups
import Lisplet.Proofs.Reading.Steps
/-!
# Reading at another place

The tokens of a text depend on where it starts by their places only (`Lexer.seen_made`), and tokens that differ in places
are read as terms that differ in places (`Reader.seen_steps`). So a text read from another place gives the same
forms up to places (`Reader.seen_readWith`), also in the expressions of format strings (`Reader.seen_embedAt`).
-/
namespace Lisplet

variable {w : View}

/-- A token with its place as it is seen. -/
def Token.seen (w : View) (tok : Token) : Token := { tok with position := w.place tok.position }

namespace Reader

/-- An open form as it is seen. -/
def Pending.seen (w : View) : Pending Value → Pending Value
  | .list bracket pos elements => .list bracket (w.place pos) (elements.map (Term.seen w))
  | .group pos operands operators =>
    .group (w.place pos) (operands.map (Term.seen w)) (operators.map (Term.seen w))
  | .marked pos marker text => .marked (w.place pos) marker text
  | .format pos parts => .format (w.place pos) (parts.map (Part.seen w))

/-- A state of the reader as it is seen. -/
def State.seen (w : View) (s : State Value) : State Value :=
  ⟨s.stack.map (Pending.seen w), s.forms.map (Term.seen w)⟩

/-- The state behind a token, if the token does not stop the reading. -/
def Effect.next? : Effect Value → Option (State Value)
  | .next s => some s
  | _ => none

theorem next?_ofDelivery (x : Except SyntaxError (State Value)) : (Effect.ofDelivery x).next? = x.toOption := by
  cases x <;> rfl

theorem closeGroup_seen (pos : Position) (operands operators : List Code) :
    closeGroup (w.place pos) (operands.map (Term.seen w)) (operators.map (Term.seen w)) =
      (closeGroup pos operands operators).map (Term.seen w) := by
  unfold closeGroup
  rw [← List.map_reverse, ← List.map_reverse]
  cases operators.reverse with
  | nil =>
    cases operands.reverse with
    | nil => rfl
    | cons t ts => rfl
  | cons op ops =>
    simp only [List.map_cons, List.length_map]
    split
    · rfl
    · simp

theorem Pending.seen_seen (p : Pending Value) : (p.seen w).seen w = p.seen w := by
  cases p <;> simp [Pending.seen, w.place_place, Term.seen_seen, Part.seen_seen]

theorem State.seen_seen (s : State Value) : (s.seen w).seen w = s.seen w := by
  simp [State.seen, Pending.seen_seen, Term.seen_seen]

/-- A second look at the state behind a token sees the same. -/
theorem map_seen_seen (x : Option (State Value)) : (x.map (State.seen w)).map (State.seen w) = x.map (State.seen w) := by
  cases x with
  | none => rfl
  | some s => rw [Option.map_some, Option.map_some, State.seen_seen]

variable [w.Short]

theorem addToGroup_seen (start start' pos : Position) (t : Code) (operands operators : List Code) :
    (addToGroup start' (t.seen w) (w.place pos) (operands.map (Term.seen w)) (operators.map (Term.seen w))).toOption =
      (addToGroup start t pos operands operators).toOption.map (Pending.seen w) := by
  unfold addToGroup
  rw [List.length_map, List.length_map, List.getLast?_map]
  split
  · rfl
  · cases operators.getLast? with
    | none => rfl
    | some first =>
      simp only [Option.map_some, Term.same_seen]
      split <;> rfl

theorem deliver_seen (start start' : Position) (t : Code) (forms : List Code) (stack : List (Pending Value)) :
    (deliver start' (t.seen w) (forms.map (Term.seen w)) (stack.map (Pending.seen w))).toOption =
      (deliver start t forms stack).toOption.map (State.seen w) := by
  induction stack generalizing start start' t with
  | nil => rfl
  | cons top stack ih =>
    cases top with
    | list bracket pos elements => rfl
    | group pos operands operators =>
      have h := addToGroup_seen (w := w) start start' pos t operands operators
      simp only [List.map_cons, Pending.seen, deliver]
      revert h
      cases addToGroup start t pos operands operators with
      | error e =>
        cases addToGroup start' (t.seen w) (w.place pos) (operands.map (Term.seen w)) (operators.map (Term.seen w)) with
        | error e' => exact fun _ => rfl
        | ok p' => exact fun h => by cases h
      | ok p =>
        cases addToGroup start' (t.seen w) (w.place pos) (operands.map (Term.seen w)) (operators.map (Term.seen w)) with
        | error e' => exact fun h => by cases h
        | ok p' =>
          intro h
          obtain rfl : p' = p.seen w := Option.some.inj h
          rfl
    | marked pos marker text =>
      have ih := ih pos (w.place pos) (.marked pos marker t)
      rwa [Term.seen, View.marked_short] at ih
    | format pos parts => rfl

theorem begin_seen (tok : Token) (s : State Value) :
    (begin (tok.seen w) (s.seen w)).next? = (begin tok s).next?.map (State.seen w) := by
  obtain ⟨kind, text, pos⟩ := tok
  have hd (t : Code) : (Effect.ofDelivery (deliver (w.place pos) (t.seen w) (s.seen w).forms (s.seen w).stack)).next? =
      (Effect.ofDelivery (deliver pos t s.forms s.stack)).next?.map (State.seen w) := by
    rw [next?_ofDelivery, next?_ofDelivery]
    exact deliver_seen pos (w.place pos) t s.forms s.stack
  cases kind with
  | opening b => cases b <;> rfl
  | number => exact hd (.number pos (Number.ofText text))
  | string => exact hd (.string pos text)
  | boolean => exact hd (.boolean pos (text == "true" || text == "#t"))
  | nil =>
    have h := hd (.nil pos)
    rwa [Term.seen, View.nil_short] at h
  | symbol => exact hd (.symbol pos text)
  | _ => rfl

section Steps

variable {e : Token → Except SyntaxError Code}
  (he : ∀ tok, (e (tok.seen w)).toOption.map (Term.seen w) = (e tok).toOption.map (Term.seen w))

theorem delivery_seen (pos : Position) (t : Code) (forms : List Code) (stack : List (Pending Value)) :
    (Effect.ofDelivery (deliver (w.place pos) (t.seen w) (forms.map (Term.seen w))
        (stack.map (Pending.seen w)))).next?.map (State.seen w) =
      (Effect.ofDelivery (deliver pos t forms stack)).next?.map (State.seen w) := by
  rw [next?_ofDelivery, next?_ofDelivery, deliver_seen pos, map_seen_seen]

include he

theorem stepFormat_seen (tok : Token) (pos : Position) (parts : List (Part Value)) (stack : List (Pending Value))
    (forms : List Code) :
    (stepFormat e (tok.seen w) (w.place pos) (parts.map (Part.seen w)) (stack.map (Pending.seen w))
        (forms.map (Term.seen w))).next?.map (State.seen w) =
      (stepFormat e tok pos parts stack forms).next?.map (State.seen w) := by
  have hcode := he tok
  obtain ⟨kind, text, place⟩ := tok
  cases kind with
  | string => exact map_seen_seen (some ⟨.format pos (.text text :: parts) :: stack, forms⟩)
  | formatCode =>
    simp only [stepFormat, Token.seen] at hcode ⊢
    revert hcode
    cases e ⟨.formatCode, text, place⟩ with
    | error err =>
      cases e ⟨.formatCode, text, w.place place⟩ with
      | error err' => exact fun _ => rfl
      | ok t' => exact fun h => by cases h
    | ok t =>
      cases e ⟨.formatCode, text, w.place place⟩ with
      | error err' => exact fun h => by cases h
      | ok t' =>
        intro h
        have ht : t'.seen w = t.seen w := Option.some.inj h
        have hp : Pending.seen w (.format (w.place pos) (.code t' :: parts.map (Part.seen w))) =
            Pending.seen w (.format pos (.code t :: parts)) := by
          simp [Pending.seen, w.place_place, ht, Part.seen_seen]
        simp [Effect.next?, State.seen, hp, Pending.seen_seen, Term.seen_seen]
  | formatEnd =>
    have h := delivery_seen (w := w) pos (.format pos parts.reverse) forms stack
    rw [Term.seen, View.format_short, Part.seenAll_eq_map, List.map_reverse] at h
    exact h
  | _ => rfl

/-- A token has the same effect on a state as it is seen. -/
theorem step_seen (tok : Token) (s : State Value) :
    (step e (tok.seen w) (s.seen w)).next?.map (State.seen w) = (step e tok s).next?.map (State.seen w) := by
  have hbegin : (begin (tok.seen w) (s.seen w)).next?.map (State.seen w) = (begin tok s).next?.map (State.seen w) := by
    rw [begin_seen, map_seen_seen]
  obtain ⟨stack, forms⟩ := s
  cases stack with
  | nil =>
    simp only [step, State.seen, List.map_nil, Token.seen] at hbegin ⊢
    split
    · rfl
    · exact hbegin
  | cons top stack =>
    cases top with
    | format pos parts => exact stepFormat_seen he tok pos parts stack forms
    | marked pos m text =>
      simp only [step, State.seen, List.map_cons, Pending.seen, Token.seen] at hbegin ⊢
      split
      · rfl
      · exact hbegin
    | list bracket pos elements =>
      have hlist := delivery_seen (w := w) pos (.list pos elements.reverse) forms stack
      rw [Term.seen, Term.seenAll_eq_map, List.map_reverse] at hlist
      obtain ⟨kind, text, place⟩ := tok
      cases kind with
      | closing b =>
        simp only [step, State.seen, List.map_cons, Pending.seen, Token.seen]
        split
        · exact hlist
        · rfl
      | eof => rfl
      | _ => exact hbegin
    | group pos operands operators =>
      obtain ⟨kind, text, place⟩ := tok
      cases kind with
      | closing b =>
        cases b with
        | curly =>
          simp only [step, State.seen, List.map_cons, Pending.seen, Token.seen, closeGroup_seen]
          cases closeGroup pos operands operators with
          | none => rfl
          | some t => exact delivery_seen pos t forms stack
        | _ => rfl
      | eof => rfl
      | _ => exact hbegin

/-- Rows of tokens that are seen as the same lead from states that are seen as the same to such states. -/
theorem seen_steps {tokens tokens' : List Token} (ht : tokens.map (Token.seen w) = tokens'.map (Token.seen w))
    {s s' m : State Value} (hs : s.seen w = s'.seen w) (h : steps e s tokens = some m) :
    ∃ m', steps e s' tokens' = some m' ∧ m.seen w = m'.seen w := by
  induction tokens generalizing tokens' s s' with
  | nil =>
    obtain rfl : tokens' = [] := by simpa using ht.symm
    obtain rfl := Option.some.inj h
    exact ⟨s', rfl, hs⟩
  | cons tok tokens ih =>
    obtain ⟨tok', tokens', rfl, htok, hrest⟩ := List.map_eq_cons_iff.1 ht.symm
    obtain ⟨n, hn, hm⟩ := steps_cons.1 h
    -- Both tokens are compared through what is seen of them and of the states.
    have hstep := step_seen he tok' s'
    rw [htok, ← hs, step_seen he tok s, hn] at hstep
    cases hstep' : step e tok' s' with
    | next n' =>
      rw [hstep'] at hstep
      obtain ⟨m', hm', hseen⟩ := ih hrest.symm (Option.some.inj hstep) hm
      exact ⟨m', steps_cons.2 ⟨n', hstep', hm'⟩, hseen⟩
    | finished =>
      rw [hstep'] at hstep
      cases hstep
    | failed err used =>
      rw [hstep'] at hstep
      cases hstep

end Steps

end Reader

/-! ## Texts -/

namespace Lexer

theorem seen_pieceTokens (p q : Position) (ps : List Format.Piece) :
    (pieceTokens p ps).map (Token.seen .blind) = (pieceTokens q ps).map (Token.seen .blind) := by
  induction ps generalizing p q with
  | nil => rfl
  | cons piece ps ih =>
    rw [pieceTokens, pieceTokens, List.map_cons, List.map_cons, ih (p.after piece.written) (q.after piece.written)]
    rfl

theorem seen_chunk {front rest : List Char} {made : Position → List Token} (h : Chunk front rest made)
    (p q : Position) : (made p).map (Token.seen .blind) = (made q).map (Token.seen .blind) := by
  cases h with
  | @format ps _ hs =>
    simp only [formatTokens, List.map_cons, List.map_append]
    rw [seen_pieceTokens (p.after ['#', '"']) (q.after ['#', '"'])]
    rfl
  | _ => rfl

/-- The tokens of a text are the same up to places wherever it starts. -/
theorem seen_made {cs : List Char} {made : Position → List Token} (h : Lexes cs made) (p q : Position) :
    (made p).map (Token.seen .blind) = (made q).map (Token.seen .blind) := by
  induction h generalizing p q with
  | nil => rfl
  | @chunk front rest made more hc _ ih =>
    rw [List.map_append, List.map_append, seen_chunk hc p q, ih (p.after front) (q.after front)]

end Lexer

namespace Reader

/-- A text read from another place has the same forms up to places. -/
theorem seen_readWith {e : Token → Except SyntaxError Code}
    (he : ∀ tok, (e (tok.seen .blind)).toOption.map (Term.seen .blind) = (e tok).toOption.map (Term.seen .blind))
    {cs : List Char} {made : Position → List Token} (hl : Lexer.Lexes cs made) {p q : Position} {ts : List Code}
    (h : (readWith e (made p ++ [.eofAt q])).complete = .ok ts) (p' q' : Position) :
    ∃ ts', (readWith e (made p' ++ [.eofAt q'])).complete = .ok ts' ∧
      ts.map (Term.seen .blind) = ts'.map (Term.seen .blind) := by
  have hk (p : Position) := Lexer.kind_ne_eof_of_grouped (Lexer.grouped_of_lexes hl p)
  have hs := (readWith_eq_ok (hk p) q).1 h
  obtain ⟨⟨stack, forms⟩, hm, hseen⟩ := seen_steps he (Lexer.seen_made hl p p') rfl hs
  obtain ⟨hstack, hforms⟩ := State.mk.inj hseen
  obtain rfl : stack = [] := by simpa using hstack.symm
  refine ⟨forms.reverse, (readWith_eq_ok (hk p') q').2 (by rw [hm, List.reverse_reverse]), ?_⟩
  rw [List.map_reverse, ← hforms, List.map_reverse, List.reverse_reverse]

/-- Readings that succeed together, with terms that are seen as the same. -/
theorem toOption_seen {x y : Except SyntaxError Code}
    (h : ∀ t, x = .ok t → ∃ t', y = .ok t' ∧ t.seen w = t'.seen w)
    (h' : ∀ t, y = .ok t → ∃ t', x = .ok t' ∧ t.seen w = t'.seen w) :
    x.toOption.map (Term.seen w) = y.toOption.map (Term.seen w) := by
  cases x with
  | ok t =>
    obtain ⟨t', rfl, ht⟩ := h t rfl
    exact congrArg some ht
  | error err =>
    cases y with
    | ok t =>
      obtain ⟨t', ht, -⟩ := h' t rfl
      cases ht
    | error err' => rfl

/-- The expression of a format string is read as the same term up to places wherever it stands. -/
theorem seen_embedAt (n : Nat) (tok tok' : Token) (ht : tok.text = tok'.text) {t : Code}
    (h : embedAt n tok = .ok t) : ∃ t', embedAt n tok' = .ok t' ∧ t.seen .blind = t'.seen .blind := by
  induction n generalizing tok tok' t with
  | zero => cases h
  | succ n ih =>
    -- Expressions inside this one are read with a smaller allowance.
    have he (tok : Token) : (embedAt n (tok.seen .blind)).toOption.map (Term.seen .blind) =
        (embedAt n tok).toOption.map (Term.seen .blind) :=
      toOption_seen (fun _ => ih (tok.seen .blind) tok rfl) (fun _ => ih tok (tok.seen .blind) rfl)
    rw [embedAt] at h
    obtain ⟨tokens, hlex, hread⟩ := Except.bind_eq_ok h
    obtain ⟨forms, hforms, hone⟩ := Except.bind_eq_ok hread
    obtain ⟨made, hl, rfl⟩ := Lexer.lexAt_complete.1 hlex
    obtain ⟨forms', hforms', hseen⟩ := seen_readWith he hl hforms tok'.position
      (tok'.position.after tok'.text.toList)
    have hlex' : (Lexer.lexAt tok'.position tok'.text).complete = .ok _ :=
      Lexer.lexAt_complete.2 ⟨made, ht ▸ hl, rfl⟩
    obtain rfl : forms = [t] := by
      split at hone
      · cases hone
      · rw [Except.ok.inj hone]
      · cases hone
    obtain ⟨t', rfl, ht'⟩ := List.map_eq_singleton_iff.1 hseen.symm
    refine ⟨t', ?_, ht'.symm⟩
    rw [embedAt, hlex']
    show ((readWith (embedAt n) _).complete >>= _) = _
    rw [hforms']
    rfl

/-- Reading expressions does not depend on where they stand, up to places. -/
theorem embed_seen (tok : Token) :
    (embed (tok.seen .blind)).toOption.map (Term.seen .blind) = (embed tok).toOption.map (Term.seen .blind) :=
  toOption_seen (fun _ => seen_embedAt tok.text.length (tok.seen .blind) tok rfl)
    (fun _ => seen_embedAt tok.text.length tok (tok.seen .blind) rfl)

end Reader

end Lisplet
