import Lisplet.CommandLine
import Lisplet.Proofs.Session.Incomplete
/-!
# Lines typed one by one

Typed lines are gathered until they make a complete text, which is then evaluated (`Session.replay`). If the lines make up a
text that can be read, this comes to the same as evaluating the text at once, up to places (`Session.alike_replay`): each
text on the way is incomplete, or its forms are the next ones of the whole. The command line takes its lines in this
way (`Command.feedAll_of_replay`).
-/
namespace Lisplet

namespace Session

/-- Takes lines one by one: the outcomes of every text that was complete, and the text that is not complete yet. -/
def replay (buffer : String) : List String → Act (List Outcome × String)
  | [] => pure ([], buffer)
  | line :: lines =>
    let text := Command.append buffer line
    if isIncomplete text then replay text lines
    else do
      let outcomes ← evaluate text
      let (more, left) ← replay "" lines
      return (outcomes ++ more, left)

theorem evaluateForms_append (ts us : List Code) : evaluateForms (ts ++ us) = do
    let outcomes ← evaluateForms ts
    let more ← evaluateForms us
    return outcomes ++ more := by
  induction ts with
  | nil => simp only [List.nil_append, evaluateForms, pure_bind, bind_pure]
  | cons t ts ih => simp only [List.cons_append, evaluateForms, ih, bind_assoc, pure_bind]

/-! ## The text that is gathered -/

theorem append_ne {buffer : String} (h : buffer ≠ "") (line : String) :
    Command.append buffer line = buffer ++ "\n" ++ line := if_neg h

theorem append_lines (buffer line next : String) (lines : List String) :
    Command.append buffer ("\n".intercalate (line :: next :: lines)) =
      Command.append buffer line ++ "\n" ++ "\n".intercalate (next :: lines) := by
  rw [String.intercalate_cons_cons]
  unfold Command.append
  split
  · rfl
  · simp only [String.append_assoc]

theorem isIncomplete_empty : isIncomplete "" = false := by
  have h : Readable .start "".toList [] [] := .of_lexes .nil rfl
  exact h.not_isIncomplete

/-! ## All lines -/

/-- Lines that make up a text that can be read have, one by one, the outcomes that the forms of the text have, up to
places, and no text is left behind them. -/
theorem alike_replay {line : String} {lines : List String} {buffer : String} {p : Position} {tokens : List Token}
    {forms : List Code}
    (h : Readable p (Command.append buffer ("\n".intercalate (line :: lines))).toList tokens forms)
    (hm : Lexer.MarkersAttached
      (tokens ++ [.eofAt (p.after (Command.append buffer ("\n".intercalate (line :: lines))).toList)])) :
    Alike .blind (Prod.map (List.map (Outcome.seen .blind)) id) (replay buffer (line :: lines)) do
      let outcomes ← evaluateForms forms
      return (outcomes, "") := by
  -- the text typed so far starts at `p` of the whole
  induction lines generalizing buffer line p tokens forms with
  | nil =>
    rw [String.intercalate_singleton] at h
    obtain ⟨tokens', forms', h', hforms⟩ := h.move .start
    have hc := h'.not_isIncomplete
    simp only [replay, hc, Bool.false_eq_true, if_false, h'.evaluate, pure_bind, List.append_nil]
    exact .bind (alike_evaluateForms hforms.symm) fun os os' hos => .pure (by simp [hos])
  | cons next lines ih =>
    rw [append_lines] at h hm
    -- Either the text goes on, as the same text, or its forms are done and the rest stands alone.
    by_cases hc : isIncomplete (Command.append buffer line) = true
    · have hne : Command.append buffer line ≠ "" := by
        intro he
        rw [he, isIncomplete_empty] at hc
        cases hc
      rw [replay]
      simp only [hc, if_true]
      rw [← append_ne hne] at h hm
      exact ih h hm
    · rw [Bool.not_eq_true] at hc
      have hcs : (Command.append buffer line ++ "\n" ++ "\n".intercalate (next :: lines)).toList =
          (Command.append buffer line).toList ++ '\n' :: ("\n".intercalate (next :: lines)).toList := by
        simp
      rw [hcs] at h hm
      obtain ⟨front, behind, forms₁, forms₂, rfl, rfl, hf, hb⟩ := h.cut hm hc
      obtain ⟨tokens', forms', h', hforms⟩ := hf.move .start
      rw [List.append_assoc, Position.after_newline] at hm
      have hrest := ih (show Readable _ (Command.append "" ("\n".intercalate (next :: lines))).toList _ _ from hb) hm.behind
      rw [replay]
      simp only [hc, Bool.false_eq_true, if_false, h'.evaluate, evaluateForms_append, bind_assoc, pure_bind]
      refine .bind (alike_evaluateForms hforms.symm) fun os os' hos => ?_
      have hmore : Alike .blind (Prod.map (List.map (Outcome.seen .blind)) id)
          (do let (more, left) ← replay "" (next :: lines); return (os ++ more, left))
          (do let (more, left) ← (do let more ← evaluateForms forms₂; return (more, "")); return (os' ++ more, left)) := by
        refine .bind hrest fun r r' hr => .pure ?_
        obtain ⟨hmore, hleft⟩ := Prod.mk.inj hr
        simp only [Prod.map, List.map_append, hos, hmore, hleft]
      simpa only [bind_assoc, pure_bind] using hmore

/-- The same of all lines of a text. -/
theorem alike_replay_lines {lines : List String} {tokens : List Token} {forms : List Code}
    (h : Readable .start ("\n".intercalate lines).toList tokens forms)
    (hm : Lexer.MarkersAttached (tokens ++ [.eofAt (Position.start.after ("\n".intercalate lines).toList)])) :
    Alike .blind (Prod.map (List.map (Outcome.seen .blind)) id) (replay "" lines) do
      let outcomes ← evaluateForms forms
      return (outcomes, "") := by
  cases lines with
  | nil =>
    obtain rfl : tokens = [] := by
      have := congrArg Lexer.Lexed.tokens ((Lexer.tokensFrom_nil .start).symm.trans h.lexed)
      simpa [Token.eofAt] using this
    obtain rfl : forms = [] := by simpa [Reader.steps, Reader.State.empty] using h.read
    exact .pure rfl
  | cons line lines => exact alike_replay (show Readable .start (Command.append "" _).toList _ _ from h) hm

end Session

/-! ## Lines at the desk -/

/-- The line that is printed for an outcome, if there is one. -/
def Outcome.printed? (o : Outcome) : Option Printed :=
  o.text?.map fun text =>
    match o with
    | .value _ => .out text
    | .failed _ => .err text

namespace Command

theorem showOutcome_eq (o : Outcome) (d : Desk) :
    showOutcome o d = .ok () { d with printed := d.printed ++ o.printed?.toList.toArray } := by
  unfold showOutcome Outcome.printed?
  cases o.text? with
  | none => simp [pure, EStateM.pure]
  | some text => cases o <;> rfl

theorem showOutcomes_eq (outcomes : List Outcome) (d : Desk) :
    outcomes.forM showOutcome d =
      .ok () { d with printed := d.printed ++ (outcomes.filterMap Outcome.printed?).toArray } := by
  induction outcomes generalizing d with
  | nil => simp [pure, EStateM.pure]
  | cons o outcomes ih =>
    refine (EStateM.bind_of_ok (showOutcome_eq o d) fun _ => outcomes.forM showOutcome).trans ?_
    rw [ih]
    cases h : o.printed? <;> simp [h]

/-- An incomplete text is kept. -/
theorem feed_of_incomplete {d : Desk} {line : String} (h : Session.isIncomplete (append d.buffer line) = true) :
    feed line d = .ok none
      { d with buffer := append d.buffer line, prompts := d.prompts ++ continuationPrompt } := by
  show (if Session.isIncomplete (append d.buffer line) then _ else _ : Command (Option Float)) d = _
  rw [if_pos h]
  rfl

/-- A complete text is evaluated, and its outcomes are shown. -/
theorem feed_of_complete {d : Desk} {line : String} {outcomes : List Outcome} {s : Session}
    (h : Session.isIncomplete (append d.buffer line) = false)
    (hrun : Session.evaluate (append d.buffer line) d.session = .ok outcomes s) :
    ∃ prompts, feed line d = .ok none
      ⟨d.printed ++ (outcomes.filterMap Outcome.printed?).toArray, prompts, s, ""⟩ := by
  refine ⟨d.prompts ++ s.prompt, ?_⟩
  have hguarded : guarded (inSession (Session.evaluate (append d.buffer line))) { d with buffer := "" } =
      .ok (.ok outcomes) { d with session := s, buffer := "" } := by
    unfold guarded inSession
    simp only [hrun]
  show (if Session.isIncomplete (append d.buffer line) then _ else _ : Command (Option Float)) d = _
  rw [if_neg (by simp [h])]
  refine (EStateM.bind_of_ok hguarded _).trans ?_
  exact (EStateM.bind_of_ok (showOutcomes_eq outcomes _) _).trans rfl

/-- The command line takes its lines one by one: where that comes to outcomes, they are printed. -/
theorem feedAll_of_replay {lines : List String} {d : Desk} {outcomes : List Outcome} {left : String} {s : Session}
    (h : Session.replay d.buffer lines d.session = .ok (outcomes, left) s) :
    ∃ prompts, feedAll lines d = .ok none
      ⟨d.printed ++ (outcomes.filterMap Outcome.printed?).toArray, prompts, s, left⟩ := by
  induction lines generalizing d outcomes with
  | nil =>
    obtain ⟨⟨rfl, rfl⟩, rfl⟩ : (([], d.buffer) : List Outcome × String) = (outcomes, left) ∧ d.session = s := by
      simpa [Session.replay, pure, EStateM.pure] using h
    exact ⟨d.prompts, by simp [feedAll, pure, EStateM.pure]⟩
  | cons line lines ih =>
    simp only [Session.replay] at h
    by_cases hc : Session.isIncomplete (append d.buffer line) = true
    · rw [if_pos hc] at h
      obtain ⟨prompts, hfeed⟩ :=
        ih (d := { d with buffer := append d.buffer line, prompts := d.prompts ++ continuationPrompt }) h
      exact ⟨prompts, (EStateM.bind_of_ok (feed_of_incomplete hc) _).trans hfeed⟩
    · rw [if_neg hc] at h
      obtain ⟨os, t, hrun, hrest⟩ := EStateM.bind_eq_ok h
      obtain ⟨⟨more, left'⟩, t', hmore, hend⟩ := EStateM.bind_eq_ok hrest
      obtain ⟨⟨rfl, rfl⟩, rfl⟩ : ((os ++ more, left') : List Outcome × String) = (outcomes, left) ∧ t' = s := by
        simpa [pure, EStateM.pure] using hend
      obtain ⟨prompts, hfeed⟩ := feed_of_complete (by simpa using hc) hrun
      obtain ⟨prompts', hfeedAll⟩ :=
        ih (d := ⟨d.printed ++ (os.filterMap Outcome.printed?).toArray, prompts, t, ""⟩) hmore
      exact ⟨prompts', (EStateM.bind_of_ok hfeed _).trans (hfeedAll.trans (by simp))⟩

end Command

/-- Lines that make up a text that can be read, typed one by one, come to what the whole text comes to, up to places. Where
the whole text has outcomes, the lines have these outcomes, which are printed, and leave an empty text and the session as
the whole text leaves it; where something stops the whole text, it stops the lines in the same state. -/
theorem feedAll_eq_evaluate {lines : List String} {tokens : List Token} {forms : List Code}
    (hlex : (Lexer.lex ("\n".intercalate lines)).complete = .ok tokens)
    (hread : (Reader.read tokens).complete = .ok forms) (hm : Lexer.MarkersAttached tokens) {d : Desk}
    (hd : d.buffer = "") :
    (∀ outcomes s, Session.evaluate ("\n".intercalate lines) d.session = .ok outcomes s →
      ∃ (outcomes' : List Outcome) (d' : Desk), Session.replay "" lines d.session = .ok (outcomes', "") d'.session ∧
        outcomes'.map (Outcome.seen .blind) = outcomes.map (Outcome.seen .blind) ∧
        d'.session.seen .blind = s.seen .blind ∧ Command.feedAll lines d = .ok none d' ∧ d'.buffer = "" ∧
        d'.printed = d.printed ++ (outcomes'.filterMap Outcome.printed?).toArray) ∧
      ∀ e s, Session.evaluate ("\n".intercalate lines) d.session = .error e s →
        ∃ e' s', Session.replay "" lines d.session = .error e' s' ∧ e'.seen .blind = e.seen .blind ∧
          s'.seen .blind = s.seen .blind := by
  obtain ⟨front, rfl, h⟩ := Readable.of_complete hlex hread
  have hall := Session.alike_replay_lines h hm d.session d.session rfl
  rw [h.evaluate]
  constructor
  · intro outcomes s hrun
    rw [EStateM.bind_of_ok hrun] at hall
    obtain ⟨⟨outcomes', left⟩, s', hreplay, hr, hs⟩ := hall.of_ok
    obtain ⟨houtcomes, hleft⟩ := Prod.mk.inj hr
    obtain rfl : left = "" := hleft
    have hfrom : Session.replay d.buffer lines d.session = .ok (outcomes', "") s' := by rw [hd, hreplay]
    obtain ⟨prompts, hfeed⟩ := Command.feedAll_of_replay hfrom
    exact ⟨outcomes', _, hreplay, houtcomes, hs, hfeed, rfl, rfl⟩
  · intro e s hrun
    rw [EStateM.bind_of_error hrun] at hall
    exact hall.of_error

/-! ## A quoted list on two lines -/

/-- A quoted list on two lines, and a string. -/
def quotedLines : List String := ["'(a", "  b)", "\"c\""]

def quotedTokens : List Token :=
  [⟨.marker .quote, "'", ⟨1, 1⟩⟩, ⟨.opening .round, "(", ⟨1, 2⟩⟩, ⟨.symbol, "a", ⟨1, 3⟩⟩, ⟨.symbol, "b", ⟨2, 3⟩⟩,
    ⟨.closing .round, ")", ⟨2, 4⟩⟩, ⟨.string, "c", ⟨3, 1⟩⟩, .eofAt ⟨3, 4⟩]

def quotedForms : List Code :=
  [.marked ⟨1, 1⟩ .quote (.list ⟨1, 2⟩ [.symbol ⟨1, 3⟩ "a", .symbol ⟨2, 3⟩ "b"]), .string ⟨3, 1⟩ "c"]

/-- Their values. -/
def quotedValues : List Value := [.list [.symbol "a", .symbol "b"], .string .made "c"]

theorem lex_quotedLines : (Lexer.lex ("\n".intercalate quotedLines)).complete = .ok quotedTokens := by
  rw [Lexer.lex, Lexer.lexAt]
  cbv

theorem read_quotedTokens : (Reader.read quotedTokens).complete = .ok quotedForms := rfl

theorem evaluate_quotedLines (s : Session) :
    Session.evaluate ("\n".intercalate quotedLines) s =
      .ok (quotedValues.map .value) (quotedValues.foldl Session.remember s) := by
  obtain ⟨front, -, h⟩ := Readable.of_complete lex_quotedLines read_quotedTokens
  rw [h.evaluate]
  rfl

/-- The desk they are typed at. -/
def quotedDesk : Desk := Command.desk (.closed "/" [] []) {}

theorem feedAll_eq_evaluate_quotedLines :
    ∃ (outcomes' : List Outcome) (d' : Desk), Session.replay "" quotedLines quotedDesk.session =
        .ok (outcomes', "") d'.session ∧
      outcomes'.map (Outcome.seen .blind) = (quotedValues.map Outcome.value).map (Outcome.seen .blind) ∧
      d'.session.seen .blind = (quotedValues.foldl Session.remember quotedDesk.session).seen .blind ∧
      Command.feedAll quotedLines quotedDesk = .ok none d' ∧ d'.buffer = "" ∧
      d'.printed = quotedDesk.printed ++ (outcomes'.filterMap Outcome.printed?).toArray := by
  have hm : Lexer.MarkersAttached quotedTokens := by
    simp [Lexer.MarkersAttached, quotedTokens, Token.isMarker, Token.eofAt]
  exact (feedAll_eq_evaluate lex_quotedLines read_quotedTokens hm rfl).1 _ _ (evaluate_quotedLines quotedDesk.session)

end Lisplet
