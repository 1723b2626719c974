import Lisplet.Proofs.Likeness.Reading
import Lisplet.Proofs.Likeness.Sessions
import Lisplet.Proofs.Reading.Prefixes
/-!
# Incomplete texts

A text that can be read from one place can be read from every place, as the same forms up to places (`Readable.move`), and
evaluating it is evaluating its forms (`Readable.evaluate`). Cut at the end of a line, such a text has an incomplete front, or
both its parts can be read, and their forms are those of the whole (`Readable.cut`), unless the cut stands between a
quote mark and its form.
-/
namespace Lisplet

/-- A text that starts at a place and can be read as a whole, with its tokens, the end mark apart, and its forms. -/
structure Readable (p : Position) (cs : List Char) (tokens : List Token) (forms : List Code) : Prop where
  lexed : Lexer.tokensFrom p cs = ⟨tokens ++ [.eofAt (p.after cs)], none⟩
  read : Reader.steps Reader.embed .empty tokens = some ⟨[], forms.reverse⟩

namespace Readable

open Reader

variable {p : Position} {cs : List Char} {tokens : List Token} {forms : List Code} {text : String}

theorem of_lexes {made : Position → List Token} (hl : Lexer.Lexes cs made)
    (h : steps embed .empty (made p) = some ⟨[], forms.reverse⟩) : Readable p cs (made p) forms :=
  ⟨Lexer.tokensFrom_of_lexes hl p, h⟩

theorem lexes (h : Readable p cs tokens forms) : ∃ made, Lexer.Lexes cs made ∧ made p = tokens := by
  obtain ⟨made, hl⟩ := Lexer.lexes_of_failure (congrArg Lexer.Lexed.failure h.lexed)
  have htokens := congrArg Lexer.Lexed.tokens ((Lexer.tokensFrom_of_lexes hl p).symm.trans h.lexed)
  exact ⟨made, hl, List.append_cancel_right htokens⟩

/-- A text can be read when its tokens and its forms can. -/
theorem of_complete (hlex : (Lexer.lex text).complete = .ok tokens) (hread : (Reader.read tokens).complete = .ok forms) :
    ∃ front, tokens = front ++ [.eofAt (Position.start.after text.toList)] ∧
      Readable .start text.toList front forms := by
  obtain ⟨made, hl, rfl⟩ := Lexer.lexAt_complete.1 hlex
  have hk := Lexer.kind_ne_eof_of_grouped (Lexer.grouped_of_lexes hl .start)
  exact ⟨_, rfl, of_lexes hl ((readWith_eq_ok hk _).1 hread)⟩

theorem lex_complete (h : Readable .start text.toList tokens forms) :
    (Lexer.lex text).complete = .ok (tokens ++ [.eofAt (Position.start.after text.toList)]) := by
  rw [Lexer.complete_eq_ok, Lexer.lex, Lexer.lexAt, h.lexed]
  exact ⟨rfl, rfl⟩

theorem read_complete (h : Readable p cs tokens forms) (q : Position) :
    (Reader.read (tokens ++ [.eofAt q])).complete = .ok forms := by
  obtain ⟨made, hl, rfl⟩ := h.lexes
  exact (readWith_eq_ok (Lexer.kind_ne_eof_of_grouped (Lexer.grouped_of_lexes hl p)) q).2 h.read

/-- Read from another place, a text has the same forms up to places. -/
theorem move (h : Readable p cs tokens forms) (q : Position) :
    ∃ tokens' forms', Readable q cs tokens' forms' ∧ forms.map (Term.seen .blind) = forms'.map (Term.seen .blind) := by
  obtain ⟨made, hl, rfl⟩ := h.lexes
  obtain ⟨⟨stack, found⟩, hm, hseen⟩ := seen_steps embed_seen (Lexer.seen_made hl p q) rfl h.read
  obtain ⟨hstack, hforms⟩ := State.mk.inj hseen
  obtain rfl : stack = [] := by simpa using hstack.symm
  refine ⟨made q, found.reverse, of_lexes hl (by rw [hm, List.reverse_reverse]), ?_⟩
  rw [List.map_reverse, ← hforms, List.map_reverse, List.reverse_reverse]

/-- Evaluating a text that can be read is evaluating its forms. -/
theorem evaluate (h : Readable .start text.toList tokens forms) : Session.evaluate text = Session.evaluateForms forms := by
  obtain ⟨hfail, hforms⟩ := complete_eq_ok.1 (h.read_complete (Position.start.after text.toList))
  unfold Session.evaluate
  simp only [h.lex_complete, hfail, hforms, bind_pure]

theorem not_isIncomplete (h : Readable .start text.toList tokens forms) : Session.isIncomplete text = false := by
  obtain ⟨hfail, -⟩ := complete_eq_ok.1 (h.read_complete (Position.start.after text.toList))
  unfold Session.isIncomplete
  simp only [h.lex_complete, hfail]

end Readable

/-! ## Cuts -/

namespace Session

open Reader

/-- A text that stops inside a string or a format string is incomplete. -/
theorem isIncomplete_of_unfinished {text : String} (h : Lexer.Unfinished text.toList) : isIncomplete text = true := by
  obtain ⟨cause, hcause, hfail⟩ := h
  obtain ⟨q, hq⟩ := hfail .start
  have hlex : (Lexer.lex text).complete = .error ⟨cause, q⟩ := by
    unfold Lexer.Lexed.complete Lexer.lex Lexer.lexAt
    rw [hq]
  unfold isIncomplete
  rw [hlex]
  rcases hcause with rfl | rfl <;> rfl

/-- So is one that leaves a list or a group open. -/
theorem isIncomplete_of_stack {text : String} {made : Position → List Token} (hl : Lexer.Lexes text.toList made)
    {s : State Value} (hs : steps embed .empty (made .start) = some s) (hw : s.waits = false) (hf : s.inFormat = false)
    (hne : s.stack ≠ []) : isIncomplete text = true := by
  have hlex : (Lexer.lex text).complete = .ok (made .start ++ [.eofAt (Position.start.after text.toList)]) :=
    Lexer.lexAt_complete.2 ⟨made, hl, rfl⟩
  have hread : Reader.read (made .start ++ [.eofAt (Position.start.after text.toList)]) =
      run embed s [.eofAt (Position.start.after text.toList)] := by
    rw [Reader.read, readWith, supply_of_eof, run_of_steps hs]
  unfold isIncomplete
  simp only [hlex, hread, run, step_eof]
  obtain ⟨stack, forms⟩ := s
  cases stack with
  | nil => exact absurd rfl hne
  | cons top stack =>
    cases top with
    | list bracket pos elements => rfl
    | group pos operands operators => rfl
    | marked pos marker text => cases hw
    | format pos parts => cases hf

end Session

namespace Reader

/-- States that are seen as the same have the same kind of open form innermost. -/
theorem top_eq_of_seen {s s' : State Value} (h : s.seen .blind = s'.seen .blind) :
    s.waits = s'.waits ∧ s.inFormat = s'.inFormat ∧ (s.stack = [] ↔ s'.stack = []) := by
  have htop (s : State Value) : (s.seen .blind).waits = s.waits ∧ (s.seen .blind).inFormat = s.inFormat ∧
      ((s.seen .blind).stack = [] ↔ s.stack = []) := by
    obtain ⟨stack, forms⟩ := s
    rcases stack with _ | ⟨_ | _ | _ | _, stack⟩ <;> simp [State.seen, Pending.seen, State.waits, State.inFormat]
  obtain ⟨hw, hf, hs⟩ := htop s
  obtain ⟨hw', hf', hs'⟩ := htop s'
  rw [h] at hw hf hs
  exact ⟨hw.symm.trans hw', hf.symm.trans hf', hs.symm.trans hs'⟩

end Reader

namespace Readable

open Reader

variable {p : Position} {more : List Char} {tokens : List Token} {forms : List Code} {text : String}

/-- Behind the tokens of a line no quote mark waits, if none is the last token on its line. -/
theorem not_waits {front behind : Position → List Token} (hf : Lexer.Lexes text.toList front)
    (hb : Lexer.Lexes more behind) {s : State Value} (hs : steps embed .empty (front p) = some s)
    (hm : Lexer.MarkersAttached (front p ++ behind (p.after (text.toList ++ ['\n'])) ++
      [.eofAt (p.after (text.toList ++ '\n' :: more))])) : s.waits = false := by
  by_contra hw
  obtain ⟨before, tok, hfront, hk⟩ := marker_of_waits hs (by simpa using hw)
  have hline := Position.line_after_newline p text.toList
  have hlast : tok.position.line ≤ (p.after text.toList).line :=
    (Lexer.lines_made hf p tok (by simp [hfront])).2
  rw [hfront, List.append_assoc, List.append_assoc, List.singleton_append] at hm
  have hnone := Lexer.not_marker_of_lines hm hlast fun next hnext => ?_
  · rw [hk] at hnone
    cases hnone
  -- what follows stands behind the end of the line
  rcases List.mem_append.1 hnext with hnext | hnext
  · have := (Lexer.lines_made hb _ next hnext).1
    omega
  · obtain rfl := List.mem_singleton.1 hnext
    have := Position.line_le_after (p.after (text.toList ++ ['\n'])) more
    rw [Position.after_newline]
    exact Int.lt_of_lt_of_le (by omega) this

/-- Cut at the end of a line, a text has an incomplete front or is read in two parts. -/
theorem cut (h : Readable p (text.toList ++ '\n' :: more) tokens forms)
    (hm : Lexer.MarkersAttached (tokens ++ [.eofAt (p.after (text.toList ++ '\n' :: more))]))
    (hc : Session.isIncomplete text = false) :
    ∃ front behind forms₁ forms₂, tokens = front ++ behind ∧ forms = forms₁ ++ forms₂ ∧
      Readable p text.toList front forms₁ ∧ Readable (p.after (text.toList ++ ['\n'])) more behind forms₂ := by
  rcases Lexer.lexes_cut (congrArg Lexer.Lexed.failure h.lexed) with ⟨front, behind, hf, hb, hall⟩ | hu
  · have htokens := congrArg Lexer.Lexed.tokens ((Lexer.tokensFrom_of_lexes hall p).symm.trans h.lexed)
    obtain rfl := List.append_cancel_right htokens
    have hread := h.read
    rw [steps_append, Option.bind_eq_some_iff] at hread
    obtain ⟨⟨stack, found⟩, hfront, hbehind⟩ := hread
    have hw := not_waits hf hb hfront hm
    have hin := (spelled_steps (Lexer.grouped_of_lexes hf p) (fun tok => spelled_embedAt tok.text.length tok)
      spelled_empty hfront).inFormat
    -- a form left open here is left open when the front is read by itself
    obtain ⟨s', hs', hseen⟩ := seen_steps embed_seen (Lexer.seen_made hf p .start) rfl hfront
    obtain ⟨hwaits, hformat, hstack⟩ := top_eq_of_seen hseen
    obtain rfl : stack = [] := by
      by_contra hne
      have := Session.isIncomplete_of_stack hf hs' (hwaits ▸ hw) (hformat ▸ hin) (fun he => hne (hstack.2 he))
      rw [hc] at this
      cases this
    rw [show (⟨[], found⟩ : State Value) = State.over found .empty from rfl, steps_over, Option.map_eq_some_iff] at hbehind
    obtain ⟨⟨stack, found'⟩, hbehind, hover⟩ := hbehind
    obtain ⟨hstack', hforms⟩ := State.mk.inj hover
    obtain rfl : stack = [] := hstack'
    refine ⟨front p, _, found.reverse, found'.reverse, rfl, ?_, .of_lexes hf ?_, .of_lexes hb ?_⟩
    · rw [← List.reverse_append, hforms, List.reverse_reverse]
    · rw [List.reverse_reverse, hfront]
    · rw [List.reverse_reverse, hbehind]
  · rw [Session.isIncomplete_of_unfinished hu] at hc
    cases hc

end Readable

end Lisplet
