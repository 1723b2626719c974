import Lisplet.Proofs.Reading.Cuts
import Lisplet.Proofs.Reading.Forms
/-!
# The front of a row of tokens

A row of tokens can be read in two parts. Forms that were finished before stay as they are (`steps_over`), no format string is
open between two texts, and a quote mark waits for its form only if it was the last token (`marker_of_waits`). The tokens of a
text stand on its lines (`lines_made`), so behind the end of a line no token is on a line in front of it.
-/
namespace Lisplet

namespace Token

/-- Whether a token is a quote mark. -/
def isMarker (tok : Token) : Bool :=
  match tok.kind with
  | .marker _ => true
  | _ => false

end Token

/-! ## Lines -/

namespace Position

/-- A line number never goes back. -/
theorem line_le_advance (p : Position) (c : Char) : p.line ≤ (p.advance c).line := by
  unfold advance
  split
  · exact Int.le_of_lt (Int.lt_add_one_of_le (Int.le_refl _))
  · exact Int.le_refl _

theorem line_le_after (p : Position) (cs : List Char) : p.line ≤ (p.after cs).line := by
  induction cs generalizing p with
  | nil => exact Int.le_refl _
  | cons c cs ih => exact Int.le_trans (line_le_advance p c) (ih (p.advance c))

theorem after_newline (p : Position) (cs more : List Char) :
    p.after (cs ++ '\n' :: more) = (p.after (cs ++ ['\n'])).after more := by
  rw [← after_append, List.append_assoc, List.singleton_append]

theorem line_after_newline (p : Position) (cs : List Char) :
    (p.after (cs ++ ['\n'])).line = (p.after cs).line + 1 := by
  rw [after_append]
  rfl

end Position

namespace Lexer

/-- Tokens that stand between two places, by their lines. -/
def Within (p q : Position) (tokens : List Token) : Prop :=
  ∀ tok ∈ tokens, p.line ≤ tok.position.line ∧ tok.position.line ≤ q.line

theorem Within.cons {p q : Position} {tok : Token} {tokens : List Token} (h₁ : p.line ≤ tok.position.line)
    (h₂ : tok.position.line ≤ q.line) (h : Within p q tokens) : Within p q (tok :: tokens) :=
  List.forall_mem_cons.2 ⟨⟨h₁, h₂⟩, h⟩

theorem Within.append {p q : Position} {front rest : List Token} (h : Within p q front) (h' : Within p q rest) :
    Within p q (front ++ rest) :=
  List.forall_mem_append.2 ⟨h, h'⟩

theorem Within.mono {p q p' q' : Position} {tokens : List Token} (h : Within p q tokens) (hp : p'.line ≤ p.line)
    (hq : q.line ≤ q'.line) : Within p' q' tokens :=
  fun tok ht => ⟨Int.le_trans hp (h tok ht).1, Int.le_trans (h tok ht).2 hq⟩

theorem within_nil (p q : Position) : Within p q [] := by simp [Within]

theorem within_pieceTokens (p : Position) (ps : List Format.Piece) :
    Within p (p.after (ps.flatMap Format.Piece.written)) (pieceTokens p ps) := by
  induction ps generalizing p with
  | nil => exact within_nil _ _
  | cons piece ps ih =>
    rw [List.flatMap_cons, Position.after_append]
    refine .cons (Position.line_le_after p piece.lead) ?_ ((ih (p.after piece.written)).mono
      (Position.line_le_after p piece.written) (Int.le_refl _))
    have hw : p.after piece.written = (p.after piece.lead).after (piece.body ++ piece.tail) := by
      rw [Format.Piece.written, List.append_assoc, Position.after_append]
    refine Int.le_trans ?_ (Position.line_le_after (p.after piece.written) _)
    rw [hw]
    exact Position.line_le_after _ _

/-- The tokens of a piece of text stand on the lines of that piece. -/
theorem within_chunk {front rest : List Char} {made : Position → List Token} (h : Chunk front rest made)
    (p : Position) : Within p (p.after front) (made p) := by
  have hp := Position.line_le_after p front
  cases h with
  | separator => exact within_nil _ _
  | comment => exact within_nil _ _
  | @format ps _ hs =>
    have e : p.after ('#' :: '"' :: (ps.flatMap Format.Piece.written ++ ['"'])) =
        (p.after ['#', '"']).after (ps.flatMap Format.Piece.written ++ ['"']) := rfl
    rw [e] at hp ⊢
    refine .cons (Int.le_refl _) hp (.append ?_ (.cons ?_ (Int.le_refl _) (within_nil _ _)))
    · refine (within_pieceTokens (p.after ['#', '"']) ps).mono (Position.line_le_after p _) ?_
      rw [Position.after_append]
      exact Position.line_le_after _ _
    · exact hp
  | _ => exact .cons (Int.le_refl _) hp (within_nil _ _)

/-- The tokens of a text stand on its lines. -/
theorem lines_made {cs : List Char} {made : Position → List Token} (h : Lexes cs made) (p : Position) :
    Within p (p.after cs) (made p) := by
  induction h generalizing p with
  | nil => exact within_nil _ _
  | @chunk front rest made more hc _ ih =>
    rw [Position.after_append]
    exact .append ((within_chunk hc p).mono (Int.le_refl _) (Position.line_le_after _ rest))
      ((ih (p.after front)).mono (Position.line_le_after p front) (Int.le_refl _))

/-- Rows of tokens in which no quote mark is the last token on its line. -/
def MarkersAttached : List Token → Prop
  | [] => True
  | tok :: rest =>
    (tok.isMarker = true → ∃ next ∈ rest, next.position.line = tok.position.line) ∧ MarkersAttached rest

theorem MarkersAttached.behind {front rest : List Token} (h : MarkersAttached (front ++ rest)) :
    MarkersAttached rest := by
  induction front with
  | nil => exact h
  | cons tok front ih => exact ih h.2

/-- Between a quote mark and its form no line ends. -/
theorem not_marker_of_lines {front rest : List Token} {tok : Token} {line : Int}
    (h : MarkersAttached (front ++ tok :: rest)) (ht : tok.position.line ≤ line)
    (hr : ∀ next ∈ rest, line < next.position.line) : tok.isMarker = false := by
  by_contra hk
  obtain ⟨next, hnext, heq⟩ := h.behind.1 (by simpa using hk)
  have := hr next hnext
  omega

end Lexer

namespace Reader

variable {α : Type}

/-! ## Finished forms -/

/-- A state with further forms that were finished before. -/
def State.over (base : List (Term α)) (s : State α) : State α := ⟨s.stack, s.forms ++ base⟩

/-- An effect with further forms that were finished before. -/
def Effect.over (base : List (Term α)) : Effect α → Effect α
  | .next s => .next (s.over base)
  | other => other

variable [Identity α] {e : Token → Except SyntaxError (Term α)} (base : List (Term α))

theorem deliver_over (start : Position) (t : Term α) (forms : List (Term α)) (stack : List (Pending α)) :
    deliver start t (forms ++ base) stack = (deliver start t forms stack).map (State.over base) := by
  induction stack generalizing start t with
  | nil => rfl
  | cons top stack ih =>
    cases top with
    | group pos operands operators =>
      -- Only here a delivery can fail, and not for the forms that are finished.
      rw [deliver, deliver]
      cases addToGroup start t pos operands operators <;> rfl
    | marked pos marker text => exact ih pos (.marked pos marker t)
    | _ => rfl

theorem delivery_over (start : Position) (t : Term α) (forms : List (Term α)) (stack : List (Pending α)) :
    Effect.ofDelivery (deliver start t (forms ++ base) stack) =
      (Effect.ofDelivery (deliver start t forms stack)).over base := by
  rw [deliver_over]
  cases deliver start t forms stack <;> rfl

theorem begin_over (tok : Token) (s : State α) : begin tok (s.over base) = (begin tok s).over base := by
  obtain ⟨kind, text, pos⟩ := tok
  cases kind with
  | opening b => cases b <;> rfl
  | marker m => rfl
  | formatStart => rfl
  | closing b => rfl
  | formatCode => rfl
  | formatEnd => rfl
  | eof => rfl
  | _ => exact delivery_over base pos _ s.forms s.stack

/-- A step leaves the forms that are read already as they are. -/
theorem step_over (tok : Token) (s : State α) : step e tok (s.over base) = (step e tok s).over base := by
  have hbegin := begin_over base tok s
  obtain ⟨stack, forms⟩ := s
  obtain ⟨kind, text, place⟩ := tok
  cases stack with
  | nil =>
    cases kind with
    | eof => rfl
    | _ => exact hbegin
  | cons top stack =>
    cases top with
    | format pos parts =>
      cases kind with
      | formatCode =>
        simp only [step, stepFormat, State.over]
        cases e ⟨.formatCode, text, place⟩ <;> rfl
      | formatEnd => exact delivery_over base pos _ forms stack
      | _ => rfl
    | marked pos m mark =>
      cases kind with
      | eof => rfl
      | _ => exact hbegin
    | list bracket pos elements =>
      cases kind with
      | closing b =>
        simp only [step, State.over]
        split
        · exact delivery_over base pos _ forms stack
        · rfl
      | eof => rfl
      | _ => exact hbegin
    | group pos operands operators =>
      cases kind with
      | closing b =>
        cases b with
        | curly =>
          simp only [step, State.over]
          cases closeGroup pos operands operators with
          | none => rfl
          | some t => exact delivery_over base pos t forms stack
        | _ => rfl
      | eof => rfl
      | _ => exact hbegin

/-- What was finished before a row of tokens stays behind what the row finishes. -/
theorem steps_over (s : State α) (tokens : List Token) :
    steps e (s.over base) tokens = (steps e s tokens).map (State.over base) := by
  induction tokens generalizing s with
  | nil => rfl
  | cons tok tokens ih =>
    rw [steps, steps, step_over]
    cases step e tok s with
    | next m => exact ih m
    | _ => rfl

/-! ## Quote marks -/

/-- Whether the innermost open form is a quote mark that waits for its form. -/
def State.waits (s : State α) : Bool :=
  match s.stack with
  | .marked _ _ _ :: _ => true
  | _ => false

theorem waits_addToGroup {start pos : Position} {t : Term α} {operands operators : List (Term α)} {p : Pending α}
    (h : addToGroup start t pos operands operators = .ok p) (stack : List (Pending α)) (forms : List (Term α)) :
    State.waits ⟨p :: stack, forms⟩ = false := by
  unfold addToGroup at h
  split at h
  · obtain rfl := Except.ok.inj h
    rfl
  · split at h
    · obtain rfl := Except.ok.inj h
      rfl
    · split at h
      · obtain rfl := Except.ok.inj h
        rfl
      · cases h

/-- Behind a finished form no quote mark waits. -/
theorem waits_deliver {start : Position} {t : Term α} {forms : List (Term α)} {stack : List (Pending α)}
    {s : State α} (h : deliver start t forms stack = .ok s) : s.waits = false := by
  induction stack generalizing start t with
  | nil =>
    obtain rfl := Except.ok.inj h
    rfl
  | cons top stack ih =>
    cases top with
    | group pos operands operators =>
      rw [deliver] at h
      split at h
      next group hg =>
        obtain rfl := Except.ok.inj h
        exact waits_addToGroup hg stack forms
      next => cases h
    | marked pos marker text => exact ih h
    | _ =>
      obtain rfl := Except.ok.inj h
      rfl

theorem waits_begin {tok : Token} {s s' : State α} (hk : tok.isMarker = false) (h : begin tok s = .next s') :
    s'.waits = false := by
  obtain ⟨kind, text, pos⟩ := tok
  cases kind with
  | opening b =>
    cases b <;>
    · obtain rfl := Effect.next.inj h
      rfl
  | marker m => cases hk
  | formatStart =>
    obtain rfl := Effect.next.inj h
    rfl
  | closing b => cases h
  | formatCode => cases h
  | formatEnd => cases h
  | eof => cases h
  | _ => exact waits_deliver (deliver_of_next h)

/-- Only a quote mark makes a quote mark wait. -/
theorem waits_step {tok : Token} {s s' : State α} (hk : tok.isMarker = false) (h : step e tok s = .next s') :
    s'.waits = false := by
  cases advances_of_step h with
  | begin _ h => exact waits_begin hk h
  | listEnd _ h => exact waits_deliver h
  | groupEnd _ _ h => exact waits_deliver h
  | formatEnd _ h => exact waits_deliver h
  | text | code => rfl

/-- A quote mark that waits behind a row of tokens is the last of them. -/
theorem marker_of_waits {tokens : List Token} {s : State α} (h : steps e .empty tokens = some s) (hw : s.waits = true) :
    ∃ front tok, tokens = front ++ [tok] ∧ tok.isMarker = true := by
  rcases List.eq_nil_or_concat tokens with rfl | ⟨front, tok, rfl⟩
  · obtain rfl := Option.some.inj h
    cases hw
  · rw [List.concat_eq_append, steps_append, Option.bind_eq_some_iff] at h
    obtain ⟨m, -, hm⟩ := h
    obtain ⟨s', hs', hlast⟩ := steps_cons.1 hm
    obtain rfl := Option.some.inj hlast
    refine ⟨front, tok, List.concat_eq_append .., ?_⟩
    by_contra hk
    have := waits_step (by simpa using hk) hs'
    rw [this] at hw
    cases hw

end Reader

end Lisplet
