import Lisplet.Proofs.Reading.Cuts
import Lisplet.Proofs.Reading.Groups
/-!
# Tokens stand where their text begins

A place in a text is the number of the line and of the column, and both can be counted in the text in front of it
(`Position.behind`, or `Position.counted` where the text starts elsewhere). Reading counts as it goes, and comes to the same
(`Position.after_eq_counted`, `Position.start_after`). So the tokens of a text stand where their own text begins, and those of
a text that stands in another one stand in that one (`standing_of_lexes`); and a text that cannot be lexed fails at a place in
it (`place_of_failure`).
-/
namespace Lisplet

/-! ## Counting lines and columns -/

namespace Text

/-- The last line of a text. -/
def lastLine (cs : List Char) : List Char := (cs.reverse.takeWhile (· != '\n')).reverse

theorem lastLine_newline (cs : List Char) : lastLine (cs ++ ['\n']) = [] := by simp [lastLine]

theorem lastLine_char {c : Char} (h : c ≠ '\n') (cs : List Char) : lastLine (cs ++ [c]) = lastLine cs ++ [c] := by
  simp [lastLine, h]

end Text

namespace Position

/-- The place behind the front of a text: the lines that end in the front and the units of its last line, counted from
one. -/
def behind (front : List Char) : Position := ⟨1 + front.count '\n', 1 + Text.units (Text.lastLine front)⟩

/-- The place behind the front of a text that starts at `origin`. Each line feed is a line more, and columns are counted from
the last one, or from the origin if there is none. -/
def counted (origin : Position) (front : List Char) : Position :=
  ⟨origin.line + front.count '\n', (if '\n' ∈ front then 1 else origin.column) + Text.units (Text.lastLine front)⟩

theorem after_eq_counted (origin : Position) (front : List Char) : origin.after front = origin.counted front := by
  induction front using List.reverseRecOn with
  | nil => simp [counted, Text.lastLine]
  | append_singleton front c ih =>
    rw [after_append, ih]
    by_cases hc : c = '\n'
    · subst hc
      simp [counted, advance, Text.lastLine_newline, Int.add_assoc]
    · simp [counted, advance, hc, Ne.symm hc, Text.lastLine_char hc, Int.add_assoc]

theorem start_after (front : List Char) : start.after front = behind front := by
  rw [after_eq_counted]
  simp [counted, behind, start]

end Position

/-- The rest of a text, and the place it begins at. -/
def StandsAt (whole : List Char) (p : Position) (rest : List Char) : Prop :=
  ∃ front, whole = front ++ rest ∧ p = .behind front

theorem StandsAt.after {whole front rest : List Char} {p : Position} (h : StandsAt whole p (front ++ rest)) :
    StandsAt whole (p.after front) rest := by
  obtain ⟨before, rfl, rfl⟩ := h
  refine ⟨before ++ front, by rw [List.append_assoc], ?_⟩
  rw [← Position.start_after, ← Position.start_after, Position.after_append]

theorem standsAt_start (whole : List Char) : StandsAt whole .start whole := ⟨[], rfl, rfl⟩

/-! ## Tokens stand where their text begins -/

namespace Lexer

/-- A token that is no part of a format string, in front of the text that it was made from. -/
inductive Leads : Token → List Char → Prop
  | string {raw value rest : List Char} (p : Position) : stringSpan (raw ++ '"' :: rest) = some (raw, value, rest) →
      Leads ⟨.string, String.ofList value, p⟩ ('"' :: (raw ++ '"' :: rest))
  | single {c : Char} {kind : Token.Kind} (p : Position) (rest : List Char) : singleKind? c = some kind →
      Leads ⟨kind, c.toString, p⟩ (c :: rest)
  | word {w rest : List Char} (p : Position) : w ≠ [] → (w ++ rest).takeWhile isWordChar = w →
      Leads ⟨wordKind w, String.ofList w, p⟩ (w ++ rest)

/-- A text or an expression of a format string that stands in a text. An expression is closed by a brace. -/
def StandsInside (whole : List Char) (tok : Token) : Prop :=
  (tok.kind = .string ∧ ∃ rest, StandsAt whole tok.position rest) ∨
    (tok.kind = .formatCode ∧ ∃ more, StandsAt whole tok.position (tok.text.toList ++ '\x7d' :: more))

/-- Tokens that stand in a text, each where its own text begins. -/
inductive Standing (whole : List Char) : List Token → Prop
  | nil : Standing whole []
  | single {tok : Token} {rest : List Char} {tokens : List Token} : StandsAt whole tok.position rest → Leads tok rest →
      Standing whole tokens → Standing whole (tok :: tokens)
  | format {first last : Token} {body tokens : List Token} {rest rest' : List Char} : first.kind = .formatStart →
      StandsAt whole first.position ('#' :: '"' :: rest) → (∀ tok ∈ body, StandsInside whole tok) →
      last.kind = .formatEnd → StandsAt whole last.position rest' → Standing whole tokens →
      Standing whole (first :: (body ++ last :: tokens))

variable {whole : List Char}

theorem standsInside_pieceTokens {p : Position} {ps : List Format.Piece} {more : List Char}
    (h : StandsAt whole p (ps.flatMap Format.Piece.written ++ more)) :
    ∀ tok ∈ pieceTokens p ps, StandsInside whole tok := by
  induction ps generalizing p with
  | nil => simp [pieceTokens]
  | cons piece ps ih =>
    rw [List.flatMap_cons, List.append_assoc] at h
    refine List.forall_mem_cons.2 ⟨?_, ih h.after⟩
    cases piece with
    | text raw value => exact .inl ⟨rfl, _, h⟩
    | code source =>
      refine .inr ⟨rfl, ps.flatMap Format.Piece.written ++ more, ?_⟩
      rw [String.toList_ofList]
      have hlead : StandsAt whole p (['#', '\x7b'] ++ (source ++ '\x7d' :: (ps.flatMap Format.Piece.written ++ more))) := by
        simpa [Format.Piece.written, Format.Piece.lead, Format.Piece.body, Format.Piece.tail] using h
      exact hlead.after

theorem head?_append_of_ends {rest tail : List Char} (hr : ∀ c, rest.head? = some c → isWordChar c = false)
    (ht : ∀ c, tail.head? = some c → isWordChar c = false) : ∀ c, (rest ++ tail).head? = some c → isWordChar c = false := by
  cases rest with
  | nil => exact ht
  | cons d rest => exact hr

/-- The brace behind an expression ends its last word, as the end of its text does. -/
theorem not_isWordChar_brace (more : List Char) : ∀ c, ('\x7d' :: more).head? = some c → isWordChar c = false := by
  rintro c ⟨⟩
  decide

/-- The tokens of a chunk stand where it does. A word goes no further when the text goes on with no word. -/
theorem standing_chunk {front rest tail : List Char} {made : Position → List Token} (h : Chunk front rest made)
    (ht : ∀ c, tail.head? = some c → isWordChar c = false) {p : Position}
    (hp : StandsAt whole p (front ++ (rest ++ tail))) {more : List Token} (hm : Standing whole more) :
    Standing whole (made p ++ more) := by
  cases h with
  | separator => exact hm
  | comment => exact hm
  | @string raw value _ hs =>
    have hlead : Leads ⟨.string, String.ofList value, p⟩ ('"' :: (raw ++ '"' :: (rest ++ tail))) := by
      refine .string p ?_
      simpa using stringSpan_extend hs tail
    exact .single (by simpa using hp) hlead hm
  | @format ps _ hs =>
    have hfirst : StandsAt whole p (['#', '"'] ++ (ps.flatMap Format.Piece.written ++ '"' :: (rest ++ tail))) := by
      simpa using hp
    have hbody : StandsAt whole (p.after ['#', '"']) (ps.flatMap Format.Piece.written ++ (['"'] ++ (rest ++ tail))) :=
      hfirst.after
    have hlast : StandsAt whole ((p.after ['#', '"']).after (ps.flatMap Format.Piece.written ++ ['"'])) (rest ++ tail) :=
      StandsAt.after (by simpa using hbody)
    have e : formatTokens ps p ++ more = ⟨.formatStart, "#\"", p⟩ :: (pieceTokens (p.after ['#', '"']) ps ++
        ⟨.formatEnd, "\"", (p.after ['#', '"']).after (ps.flatMap Format.Piece.written ++ ['"'])⟩ :: more) := by
      simp [formatTokens]
    rw [e]
    exact .format rfl hfirst (standsInside_pieceTokens hbody) rfl hlast hm
  | single hk => exact .single hp (.single p _ hk) hm
  | word hne hw hr hf =>
    exact .single hp (.word p hne (Text.takeWhile_run hw (head?_append_of_ends hr ht)).1) hm

/-- The tokens of a text stand in it, and in any text that it is part of. -/
theorem standing_of_lexes {cs tail : List Char} {made : Position → List Token} (h : Lexes cs made)
    (ht : ∀ c, tail.head? = some c → isWordChar c = false) {p : Position} (hp : StandsAt whole p (cs ++ tail)) :
    Standing whole (made p) := by
  induction h generalizing p with
  | nil => exact .nil
  | chunk hc _ ih =>
    rw [List.append_assoc] at hp
    exact standing_chunk hc ht hp (ih hp.after)

theorem Leads.isSingle {tok : Token} {rest : List Char} (h : Leads tok rest) : IsSingle tok := by
  cases h with
  | string p hs => exact ⟨by simp, by simp, by simp, by simp, by simp⟩
  | single p rest hs => exact singleKind?_isSingle hs p
  | word p hne hw => exact wordKind_isSingle hne (fun c hc => List.mem_takeWhile_imp (hw ▸ hc)) p

theorem Standing.single_of_cons {tok : Token} {tokens : List Token} (h : Standing whole (tok :: tokens))
    (hk : tok.kind ≠ .formatStart) :
    ∃ rest, StandsAt whole tok.position rest ∧ Leads tok rest ∧ Standing whole tokens := by
  cases h with
  | single hp hl hrest => exact ⟨_, hp, hl, hrest⟩
  | format hf => exact absurd hf hk

theorem Standing.format_of_cons {tok : Token} {tokens : List Token} (h : Standing whole (tok :: tokens))
    (hk : tok.kind = .formatStart) :
    ∃ body last more rest, tokens = body ++ last :: more ∧ StandsAt whole tok.position ('#' :: '"' :: rest) ∧
      (∀ tok ∈ body, StandsInside whole tok) ∧ last.kind = .formatEnd ∧ Standing whole more := by
  cases h with
  | single _ hl _ => exact absurd hk hl.isSingle.1
  | format _ hp hb hl _ hrest => exact ⟨_, _, _, _, rfl, hp, hb, hl, hrest⟩

/-- An expression among standing tokens is closed by a brace. -/
theorem Standing.code {tokens : List Token} (h : Standing whole tokens) {tok : Token} (hm : tok ∈ tokens)
    (hk : tok.kind = .formatCode) : ∃ more, StandsAt whole tok.position (tok.text.toList ++ '\x7d' :: more) := by
  induction h with
  | nil => cases hm
  | single _ hl _ ih =>
    rcases List.mem_cons.1 hm with rfl | hm
    · exact absurd hk hl.isSingle.2.1
    · exact ih hm
  | format hf _ hb hl _ _ ih =>
    rcases List.mem_cons.1 hm with rfl | hm
    · rw [hf] at hk
      cases hk
    rcases List.mem_append.1 hm with hm | hm
    · rcases hb tok hm with ⟨hs, -⟩ | ⟨-, hcode⟩
      · rw [hs] at hk
        cases hk
      · exact hcode
    rcases List.mem_cons.1 hm with rfl | hm
    · rw [hl] at hk
      cases hk
    · exact ih hm

/-- Every standing token is somewhere in the text. -/
theorem Standing.place {tokens : List Token} (h : Standing whole tokens) :
    ∀ tok ∈ tokens, ∃ rest, StandsAt whole tok.position rest := by
  induction h with
  | nil => simp
  | single hp _ _ ih => exact List.forall_mem_cons.2 ⟨⟨_, hp⟩, ih⟩
  | format _ hf hb _ hl _ ih =>
    refine List.forall_mem_cons.2 ⟨⟨_, hf⟩, List.forall_mem_append.2 ⟨fun tok hm => ?_, List.forall_mem_cons.2 ⟨⟨_, hl⟩, ih⟩⟩⟩
    rcases hb tok hm with ⟨-, hp⟩ | ⟨-, more, hp⟩
    · exact hp
    · exact ⟨_, hp⟩

theorem complete_eq_error {l : Lexed} {err : SyntaxError} (h : l.complete = .error err) : l.failure = some err := by
  unfold Lexed.complete at h
  cases hf : l.failure with
  | none =>
    rw [hf] at h
    cases h
  | some err' =>
    rw [hf] at h
    rw [Except.error.inj h]

/-- What cannot be lexed fails at a place of the text. -/
theorem place_of_failure {cs tail : List Char} {p : Position} {err : SyntaxError} (hp : StandsAt whole p (cs ++ tail))
    (h : (tokensFrom p cs).failure = some err) : ∃ rest, StandsAt whole err.position rest := by
  -- Chunks have any length, so the induction is on the length of what is left.
  induction hn : cs.length using Nat.strongRecOn generalizing cs p with
  | ind n ih =>
    rcases chunk_cases cs with rfl | ⟨front, rest, made, rfl, hc⟩ | ⟨cause, hb⟩
    · rw [tokensFrom_nil] at h
      cases h
    · have hlt : rest.length < n := by
        have := List.length_pos_of_ne_nil (chunk_ne_nil hc)
        rw [← hn, List.length_append]
        omega
      rw [List.append_assoc] at hp
      rw [tokensFrom_chunk hc, prepend_failure] at h
      exact ih rest.length hlt hp.after h rfl
    · rw [tokensFrom_broken hb] at h
      obtain rfl := Option.some.inj h
      exact ⟨_, hp⟩

end Lexer

end Lisplet
