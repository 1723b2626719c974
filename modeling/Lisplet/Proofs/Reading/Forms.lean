import Lisplet.Proofs.Reading.Groups
import Lisplet.Proofs.Reading.Steps
/-!
# Forms that were read have a spelling

Between two groups of tokens the reader's state holds spelled terms only and no open format string
(`State.Spelled`). Every single token keeps this (`spelled_step`), and so does a whole format string
(`spelled_format`) when its expressions are read as spelled terms; hence all forms of a text are
spelled (`spelled_of_readSource`).
-/
namespace Lisplet

open Term

variable {α : Type}

theorem Term.spelledAll_iff {ts : List (Term α)} : SpelledAll ts ↔ ∀ t ∈ ts, t.Spelled := by
  induction ts with
  | nil => simp [SpelledAll]
  | cons t ts ih => simp [SpelledAll, ih]

namespace Reader

/-- An open form that holds spelled terms, other than a format string. -/
def Pending.Spelled : Pending α → Prop
  | .list _ _ elements => ∀ t ∈ elements, t.Spelled
  | .group _ operands operators => (∀ t ∈ operands, t.Spelled) ∧ ∀ t ∈ operators, t.Spelled
  | .marked _ _ _ => True
  | .format _ _ => False

/-- A state between two groups of tokens, with spelled terms only. -/
def State.Spelled (s : State α) : Prop :=
  (∀ p ∈ s.stack, Pending.Spelled p) ∧ ∀ t ∈ s.forms, t.Spelled

theorem State.Spelled.push {s : State α} (h : s.Spelled) {p : Pending α} (hp : p.Spelled) :
    State.Spelled { s with stack := p :: s.stack } :=
  ⟨List.forall_mem_cons.2 ⟨hp, h.1⟩, h.2⟩

theorem State.Spelled.inFormat {s : State α} (h : s.Spelled) : s.inFormat = false := by
  obtain ⟨stack, forms⟩ := s
  rcases stack with _ | ⟨top, stack⟩
  · rfl
  · have := (List.forall_mem_cons.1 h.1).1
    cases top with
    | format pos parts => exact this.elim
    | _ => rfl

variable [Identity α] {e : Token → Except SyntaxError (Term α)}

theorem spelled_addToGroup {start pos : Position} {t : Term α} {operands operators : List (Term α)}
    {p : Pending α} (ht : t.Spelled) (hg : Pending.Spelled (.group pos operands operators))
    (h : addToGroup start t pos operands operators = .ok p) : p.Spelled := by
  unfold addToGroup at h
  split at h
  · obtain rfl := Except.ok.inj h
    exact ⟨List.forall_mem_cons.2 ⟨ht, hg.1⟩, hg.2⟩
  · split at h
    · obtain rfl := Except.ok.inj h
      exact ⟨hg.1, by simpa using ht⟩
    · split at h
      · obtain rfl := Except.ok.inj h
        exact ⟨hg.1, List.forall_mem_cons.2 ⟨ht, hg.2⟩⟩
      · cases h

theorem spelled_deliver {start : Position} {t : Term α} {forms : List (Term α)} {stack : List (Pending α)}
    {s : State α} (ht : t.Spelled) (hs : State.Spelled ⟨stack, forms⟩)
    (h : deliver start t forms stack = .ok s) : s.Spelled := by
  induction stack generalizing start t with
  | nil =>
    obtain rfl := Except.ok.inj h
    exact ⟨hs.1, List.forall_mem_cons.2 ⟨ht, hs.2⟩⟩
  | cons top stack ih =>
    obtain ⟨htop, hrest⟩ := List.forall_mem_cons.1 hs.1
    cases top with
    | list bracket pos elements =>
      obtain rfl := Except.ok.inj h
      exact ⟨List.forall_mem_cons.2 ⟨List.forall_mem_cons.2 ⟨ht, htop⟩, hrest⟩, hs.2⟩
    | group pos operands operators =>
      rw [deliver] at h
      split at h
      next group hg =>
        obtain rfl := Except.ok.inj h
        exact ⟨List.forall_mem_cons.2 ⟨spelled_addToGroup ht htop hg, hrest⟩, hs.2⟩
      next => cases h
    | marked pos marker text => exact ih (t := .marked pos marker t) ht ⟨hrest, hs.2⟩ h
    | format pos parts => exact htop.elim

omit [Identity α] in
theorem spelled_closeGroup {pos : Position} {operands operators : List (Term α)} {t : Term α}
    (hg : Pending.Spelled (.group pos operands operators)) (h : closeGroup pos operands operators = some t) :
    t.Spelled := by
  have hands : ∀ t ∈ operands.reverse, t.Spelled := fun t ht => hg.1 t (List.mem_reverse.1 ht)
  have hops : ∀ t ∈ operators.reverse, t.Spelled := fun t ht => hg.2 t (List.mem_reverse.1 ht)
  unfold closeGroup at h
  split at h
  next =>
    obtain rfl := Option.some.inj h
    trivial
  next u us _ hu =>
    obtain rfl := Option.some.inj h
    exact hands u (by simp [hu])
  next op ops hop =>
    split at h
    · cases h
    · obtain rfl := Option.some.inj h
      exact spelledAll_iff.2 (List.forall_mem_cons.2 ⟨hops op (by simp [hop]), hands⟩)

theorem spelled_begin {tok : Token} {s s' : State α} (ht : Lexer.IsSingle tok) (hs : s.Spelled)
    (h : begin tok s = .next s') : s'.Spelled := by
  obtain ⟨h₁, h₂, h₃, h₄, hsym⟩ := ht
  unfold begin at h
  split at h
  next =>
    obtain rfl := Effect.next.inj h
    exact hs.push (p := .group tok.position [] []) ⟨by simp, by simp⟩
  next bracket _ _ =>
    obtain rfl := Effect.next.inj h
    exact hs.push (p := .list bracket tok.position []) (by simp [Pending.Spelled])
  next marker _ =>
    obtain rfl := Effect.next.inj h
    exact hs.push (p := .marked tok.position marker tok.text) trivial
  next hk => exact absurd hk h₁
  next => exact spelled_deliver (t := .number _ _) trivial hs (deliver_of_next h)
  next => exact spelled_deliver (t := .string _ _) trivial hs (deliver_of_next h)
  next => exact spelled_deliver (t := .boolean _ _) trivial hs (deliver_of_next h)
  next => exact spelled_deliver (t := .nil _) trivial hs (deliver_of_next h)
  next hk => exact spelled_deliver (t := .symbol _ _) (hsym hk) hs (deliver_of_next h)
  all_goals cases h

/-- A single token leaves spelled terms only. -/
theorem spelled_step {tok : Token} {s s' : State α} (ht : Lexer.IsSingle tok) (hs : s.Spelled)
    (h : step e tok s = .next s') : s'.Spelled := by
  cases advances_of_step h with
  | begin _ h => exact spelled_begin ht hs h
  | listEnd _ h =>
    obtain ⟨htop, hrest⟩ := List.forall_mem_cons.1 hs.1
    refine spelled_deliver (t := .list _ _) ?_ ⟨hrest, hs.2⟩ h
    exact spelledAll_iff.2 fun t ht => htop t (List.mem_reverse.1 ht)
  | groupEnd _ hc h =>
    obtain ⟨htop, hrest⟩ := List.forall_mem_cons.1 hs.1
    exact spelled_deliver (spelled_closeGroup htop hc) ⟨hrest, hs.2⟩ h
  | text | code | formatEnd => exact (hs.1 _ List.mem_cons_self).elim

/-! ## Format strings -/

/-- The tokens inside a format string become its parts. -/
theorem steps_body {behindText : Bool} {body : List Token} (hb : Lexer.IsBody behindText body)
    (he : ∀ tok t, e tok = .ok t → t.Spelled) {pos : Position} {parts : List (Part α)}
    {stack : List (Pending α)} {forms : List (Term α)} {s : State α}
    (h : steps e ⟨.format pos parts :: stack, forms⟩ body = some s) :
    ∃ more, s = ⟨.format pos (more.reverse ++ parts) :: stack, forms⟩ ∧ SpelledParts behindText more ∧
      ((∃ tok ∈ body, tok.kind = .formatCode) → more.any Part.isCode) := by
  induction body generalizing behindText parts with
  | nil =>
    obtain rfl := Option.some.inj h
    exact ⟨[], rfl, trivial, by simp⟩
  | cons tok body ih =>
    obtain ⟨m, hm, hrest⟩ := steps_cons.1 h
    -- A token of a body is a text, which does not follow another one, or an expression.
    rcases hb with ⟨hk, hbt, htext, hb⟩ | ⟨hk, hb⟩
    · have hm' : m = ⟨.format pos (.text tok.text :: parts) :: stack, forms⟩ := by
        simpa [step, stepFormat, hk] using hm.symm
      subst hm'
      obtain ⟨more, rfl, hsp, hcode⟩ := ih hb hrest
      refine ⟨.text tok.text :: more, by simp, ⟨hbt, htext, hsp⟩, ?_⟩
      rintro ⟨t, ht, hkt⟩
      rcases List.mem_cons.1 ht with rfl | ht
      · rw [hk] at hkt
        cases hkt
      · simpa [Part.isCode] using hcode ⟨t, ht, hkt⟩
    · cases hem : e tok with
      | error err => simp [step, stepFormat, hk, hem] at hm
      | ok t =>
        have hm' : m = ⟨.format pos (.code t :: parts) :: stack, forms⟩ := by
          simpa [step, stepFormat, hk, hem] using hm.symm
        subst hm'
        obtain ⟨more, rfl, hsp, -⟩ := ih hb hrest
        exact ⟨.code t :: more, by simp, ⟨he tok t hem, hsp⟩, fun _ => by simp [Part.isCode]⟩

/-- A whole format string leaves spelled terms only. -/
theorem spelled_format {first last : Token} {body : List Token} (hf : first.kind = .formatStart)
    (hl : last.kind = .formatEnd) (hb : Lexer.IsBody false body) (hc : ∃ tok ∈ body, tok.kind = .formatCode)
    (he : ∀ tok t, e tok = .ok t → t.Spelled) {s s' : State α} (hs : s.Spelled)
    (h : steps e s (first :: (body ++ [last])) = some s') : s'.Spelled := by
  obtain ⟨m, hm, hrest⟩ := steps_cons.1 h
  -- The opener leaves an empty format string open, the body fills it, and the end delivers it.
  have hm' : m = ⟨.format first.position [] :: s.stack, s.forms⟩ := by
    rw [step_begin hs.inFormat (by simp [hf, begins])] at hm
    simpa [begin, hf] using hm.symm
  subst hm'
  rw [steps_append, Option.bind_eq_some_iff] at hrest
  obtain ⟨m, hbody, hlast⟩ := hrest
  obtain ⟨parts, rfl, hsp, hcode⟩ := steps_body hb he hbody
  obtain ⟨m, hend, hm⟩ := steps_cons.1 hlast
  obtain rfl := Option.some.inj hm
  simp only [step, stepFormat, hl, List.append_nil, List.reverse_reverse] at hend
  exact spelled_deliver (t := .format first.position parts) ⟨hsp, hcode hc⟩ hs (deliver_of_next hend)

/-- So does a row of groups. -/
theorem spelled_steps {tokens : List Token} (hg : Lexer.Grouped tokens)
    (he : ∀ tok t, e tok = .ok t → t.Spelled) {s s' : State α} (hs : s.Spelled)
    (h : steps e s tokens = some s') : s'.Spelled := by
  induction hg generalizing s with
  | nil =>
    obtain rfl := Option.some.inj h
    exact hs
  | single ht _ ih =>
    obtain ⟨m, hm, hrest⟩ := steps_cons.1 h
    exact ih (spelled_step ht hs hm) hrest
  | @format first last body rest hf hl hb hc _ ih =>
    have e : first :: (body ++ last :: rest) = first :: (body ++ [last]) ++ rest := by simp
    rw [e, steps_append, Option.bind_eq_some_iff] at h
    obtain ⟨m, hm, hrest⟩ := h
    exact ih (spelled_format hf hl hb hc he hs hm) hrest

/-! ## Whole texts -/

omit [Identity α] in
theorem spelled_empty : State.Spelled (State.empty : State α) := ⟨by simp [State.empty], by simp [State.empty]⟩

/-- Whatever the expressions of format strings are read with, the forms of a text are spelled if the
expressions are. -/
theorem spelled_of_readWith {source : List Char} {made : Position → List Token} (hl : Lexer.Lexes source made)
    (he : ∀ tok t, e tok = .ok t → t.Spelled) {p q : Position} {ts : List (Term α)}
    (h : (readWith e (made p ++ [.eofAt q])).complete = .ok ts) : ∀ t ∈ ts, t.Spelled := by
  have hg := Lexer.grouped_of_lexes hl p
  have hs := (readWith_eq_ok (Lexer.kind_ne_eof_of_grouped hg) q).1 h
  intro t ht
  exact (spelled_steps hg he spelled_empty hs).2 t (List.mem_reverse.2 ht)

/-- The expression of a format string is read as a spelled term, whatever the allowance. -/
theorem spelled_embedAt (n : Nat) (tok : Token) (t : Term α) (h : embedAt n tok = .ok t) : t.Spelled := by
  induction n generalizing tok t with
  | zero => cases h
  | succ n ih =>
    rw [embedAt] at h
    obtain ⟨tokens, hlex, hread⟩ := Except.bind_eq_ok h
    obtain ⟨forms, hforms, hone⟩ := Except.bind_eq_ok hread
    obtain ⟨made, hl, rfl⟩ := Lexer.lexAt_complete.1 hlex
    have hall := spelled_of_readWith hl ih hforms
    split at hone
    · cases hone
    · obtain rfl := Except.ok.inj hone
      exact hall _ (by simp)
    · cases hone

/-- Every form of a text has a spelling. -/
theorem spelled_of_readSource {source : String} {ts : List (Term α)} (h : readSource source = .ok ts) :
    ∀ t ∈ ts, t.Spelled := by
  rw [readSource] at h
  obtain ⟨tokens, hlex, hread⟩ := Except.bind_eq_ok h
  obtain ⟨made, hl, rfl⟩ := Lexer.lexAt_complete.1 hlex
  exact spelled_of_readWith hl (fun tok t => spelled_embedAt tok.text.length tok t) hread

end Reader

end Lisplet
