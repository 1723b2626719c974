import Lisplet.Proofs.Reading.FormatStrings
/-!
# Texts cut at the end of a line

A text that can be read may be cut at the end of a line. Whatever the lexer finds in front of the cut it also finds in the
whole text (`chunk_extend`), so the front is lexed whole, and then the text behind the cut is, too, with the same tokens;
or the front stops inside a string or a format string, and its error says so (`lexes_cut`).
-/
namespace Lisplet

/-! ## Spans go on -/

namespace Format

/-- An expression ends where it ends, whatever follows. -/
theorem codeSpan_extend {depth : Nat} {inString : Bool} {cs source rest : List Char}
    (h : codeSpan depth inString cs = some (source, rest)) (more : List Char) :
    codeSpan depth inString (cs ++ more) = some (source, rest ++ more) := by
  fun_induction codeSpan depth inString cs generalizing source with
  | case1 => simp at h
  | case2 => simp at h
  | case3 depth e rest' ih =>
    obtain ⟨s, hs, rfl⟩ := span_of_map (f := ('\\' :: e :: ·)) h
    rw [List.cons_append, List.cons_append, codeSpan_escaped, ih hs]
    rfl
  | case4 depth c rest' hc ih =>
    obtain ⟨s, hs, rfl⟩ := span_of_map h
    rw [List.cons_append, codeSpan_quoted hc, ih hs]
    rfl
  | case5 =>
    -- The brace that ends the expression: what follows is left alone.
    obtain ⟨rfl, rfl⟩ := by simpa using h
    rw [List.cons_append, codeSpan_close]
  | case6 d rest' ih =>
    obtain ⟨s, hs, rfl⟩ := span_of_map h
    simp [codeSpan, ih hs]
  | case7 depth rest' hc ih =>
    obtain ⟨s, hs, rfl⟩ := span_of_map h
    simp [codeSpan, ih hs]
  | case8 depth c rest' hc hc' ih =>
    obtain ⟨s, hs, rfl⟩ := span_of_map h
    rw [List.cons_append, codeSpan_char hc hc', ih hs]
    rfl

/-- A stop with more text behind it. -/
def Stop.extend (more : List Char) : Stop → Stop
  | .quote rest => .quote (rest ++ more)
  | .code rest => .code (rest ++ more)
  | .ended => .ended

/-- A run of text that is stopped by a mark is stopped there, whatever follows. -/
theorem textRun_extend {cs raw value : List Char} {stop : Stop} (h : textRun true cs = (raw, value, stop))
    (hs : stop ≠ .ended) (more : List Char) : textRun true (cs ++ more) = (raw, value, stop.extend more) := by
  -- By length, since an escape takes two characters at once.
  induction hn : cs.length using Nat.strongRecOn generalizing cs raw value with
  | ind n ih =>
    rcases cs with _ | ⟨c, rest⟩
    · obtain ⟨-, -, rfl⟩ := by simpa [textRun] using h
      exact absurd rfl hs
    by_cases hq : c = '"'
    · subst hq
      rw [textRun_quote] at h
      obtain ⟨rfl, rfl, rfl⟩ := by simpa using h
      exact textRun_quote (rest ++ more)
    by_cases hb : c = '\\'
    · subst hb
      rcases rest with _ | ⟨e, rest⟩
      · obtain ⟨-, -, rfl⟩ := by simpa [textRun] using h
        exact absurd rfl hs
      · rw [textRun_escaped] at h
        obtain ⟨rfl, rfl, rfl⟩ := by simpa using h
        have hrest := ih rest.length (by rw [← hn, List.length_cons, List.length_cons]; omega) rfl rfl
        rw [List.cons_append, List.cons_append, textRun_escaped, hrest]
    by_cases hc : c = '#' ∧ rest.head? = some '\x7b'
    · obtain ⟨rfl, hhead⟩ := hc
      obtain ⟨rest, rfl⟩ := List.head?_eq_some_iff.1 hhead
      rw [textRun_code] at h
      obtain ⟨rfl, rfl, rfl⟩ := by simpa using h
      exact textRun_code true (rest ++ more)
    · rw [textRun_char hq hb fun hc' hd => hc ⟨hc', hd⟩] at h
      obtain ⟨rfl, rfl, rfl⟩ := by simpa using h
      have hrest := ih rest.length (by simp [← hn]) rfl rfl
      -- A `#` at the very end could open an expression with what follows, but then the run had no stop.
      have hhead : c = '#' → (rest ++ more).head? ≠ some '\x7b' := by
        intro hc'
        rcases rest with _ | ⟨d, rest⟩
        · exact absurd rfl hs
        · exact fun hd => hc ⟨hc', hd⟩
      rw [List.cons_append, textRun_char hq hb hhead, hrest]

/-- A format string that ends is split as it is, whatever follows. -/
theorem pieces_extend {cs rest : List Char} {ps : List Piece} (h : pieces true cs = .ok (ps, rest))
    (more : List Char) : pieces true (cs ++ more) = .ok (ps, rest ++ more) := by
  generalize hq : true = quoted at h
  fun_induction pieces quoted cs generalizing ps rest with
  | case1 => simp at h
  | case2 cs raw value run hn => exact absurd hq.symm hn
  | case3 cs raw value left run =>
    obtain ⟨rfl, rfl⟩ := by simpa using h
    subst hq
    exact pieces_quote (textRun_extend run (by simp) more)
  | case4 => simp at h
  | case5 => simp at h
  | case6 cs raw value left run source left' span more' left'' hmore ih =>
    obtain ⟨rfl, rfl⟩ := by simpa using h
    subst hq
    rw [pieces_code (textRun_extend run (by simp) more) (codeSpan_extend span more), ih hmore]

/-- Splitting a format string fails when its text or an expression in it does not end. -/
theorem pieces_error {quoted : Bool} {cs : List Char} {cause : SyntaxError.Cause} (h : pieces quoted cs = .error cause) :
    cause = .unclosedString ∨ cause = .unclosedInterpolation := by
  fun_induction pieces quoted cs generalizing cause with
  | case1 => exact .inl (Except.error.inj h).symm
  | case2 => cases h
  | case3 => cases h
  | case4 => exact .inr (Except.error.inj h).symm
  | case5 cs raw value left run source left' span cause' hmore ih => exact ih (hmore.trans h)
  | case6 => cases h

theorem scan_extend {cs : List Char} {s : Scan} (h : scan true cs = .ok s) (more : List Char) :
    scan true (cs ++ more) = .ok ⟨s.pieces, s.rest ++ more⟩ := by
  unfold scan at h
  split at h
  next => cases h
  next ps rest hp =>
    split at h
    case isTrue hc =>
      obtain rfl := Except.ok.inj h
      rw [scan, pieces_extend hp]
      exact if_pos hc
    case isFalse => cases h

/-- A format string with more text behind it can only be read if it ends or stops in the middle. -/
theorem scan_error {cs : List Char} {cause : SyntaxError.Cause} (h : scan true cs = .error cause) {more : List Char}
    {s : Scan} (hs : scan true (cs ++ more) = .ok s) : cause = .unclosedString ∨ cause = .unclosedInterpolation := by
  unfold scan at h
  split at h
  next cause' hp =>
    obtain rfl := Except.error.inj h
    exact pieces_error hp
  next ps rest hp =>
    split at h
    case isTrue => cases h
    case isFalse hc =>
      rw [scan, pieces_extend hp] at hs
      simp only [hc] at hs
      cases hs

end Format

namespace Lexer

/-- A string ends where it ends, whatever follows. -/
theorem stringSpan_extend {cs raw value rest : List Char} (h : stringSpan cs = some (raw, value, rest))
    (more : List Char) : stringSpan (cs ++ more) = some (raw, value, rest ++ more) := by
  fun_induction stringSpan cs generalizing raw value with
  | case1 => simp at h
  | case2 rest =>
    obtain ⟨rfl, rfl, rfl⟩ := by simpa using h
    rw [List.cons_append, stringSpan.eq_def]
    simp
  | case3 => simp at h
  | case4 e rest' hq ih =>
    obtain ⟨⟨raw', value', r⟩, hs, heq⟩ := Option.map_eq_some_iff.1 h
    obtain ⟨rfl, rfl, rfl⟩ := by simpa using heq
    simp [stringSpan, ih hs]
  | case5 c rest' hq hb ih =>
    obtain ⟨⟨raw', value', r⟩, hs, heq⟩ := Option.map_eq_some_iff.1 h
    obtain ⟨rfl, rfl, rfl⟩ := by simpa using heq
    rw [List.cons_append, stringSpan.eq_def]
    simp [hq, hb, ih hs]

/-! ## Chunks in front of the end of a line -/

theorem head?_append_newline {rest more : List Char} {c : Char} (h : (rest ++ '\n' :: more).head? = some c) :
    rest.head? = some c ∨ c = '\n' := by
  cases rest with
  | nil => exact .inr (by simpa using h.symm)
  | cons d rest => exact .inl h

/-- The first chunk of a text is the first chunk of the text with further lines. -/
theorem chunk_extend {front rest : List Char} {made : Position → List Token} (h : Chunk front rest made)
    (more : List Char) : Chunk front (rest ++ '\n' :: more) made := by
  cases h with
  | separator hs => exact .separator hs
  | comment ht hr =>
    refine .comment ht fun c hc => ?_
    rcases head?_append_newline hc with hc | rfl
    · exact hr c hc
    · rfl
  | @string raw value _ hs =>
    refine .string ?_
    simpa using stringSpan_extend hs ('\n' :: more)
  | @format ps _ hs =>
    refine .format ?_
    simpa using Format.scan_extend hs ('\n' :: more)
  | single hk => exact .single hk
  | word hne hw hr hf =>
    refine .word hne hw (fun c hc => ?_) fun he hq => ?_
    · rcases head?_append_newline hc with hc | rfl
      · exact hr c hc
      · decide
    · rcases head?_append_newline hq with hq | hq
      · exact hf he hq
      · cases hq

/-- A text that stops inside a string or a format string: reading it from any place fails, and says so. -/
def Unfinished (cs : List Char) : Prop :=
  ∃ cause, (cause = .unclosedString ∨ cause = .unclosedInterpolation) ∧
    ∀ p, ∃ q, (tokensFrom p cs).failure = some ⟨cause, q⟩

/-- Of a text that can be read, the lines in front of a cut can be read, and so can those behind it, or the
lines in front stop inside a string or a format string. -/
theorem lexes_cut {cs more : List Char} {p : Position} (h : (tokensFrom p (cs ++ '\n' :: more)).failure = none) :
    (∃ front behind, Lexes cs front ∧ Lexes more behind ∧
      Lexes (cs ++ '\n' :: more) fun p => front p ++ behind (p.after (cs ++ ['\n']))) ∨ Unfinished cs := by
  induction hn : cs.length using Nat.strongRecOn generalizing cs p with
  | ind n ih =>
    rcases chunk_cases cs with rfl | ⟨front, rest, made, rfl, hc⟩ | ⟨cause, hb⟩
    -- The front is used up: the end of the line is a separator.
    · have hnl : Chunk ['\n'] more fun _ => [] := .separator (by decide)
      have hm : (tokensFrom (p.after ['\n']) more).failure = none := by
        rw [List.nil_append, ← List.singleton_append, tokensFrom_chunk hnl] at h
        exact h
      obtain ⟨behind, hl⟩ := lexes_of_failure hm
      exact .inl ⟨_, behind, .nil, hl, .chunk hnl hl⟩
    · have hce := chunk_extend hc more
      have hlt : rest.length < n := by
        have := List.length_pos_of_ne_nil (chunk_ne_nil hc)
        rw [← hn, List.length_append]
        omega
      rw [List.append_assoc, tokensFrom_chunk hce] at h
      rcases ih rest.length hlt h rfl with ⟨front', behind, hl, hm, hall⟩ | ⟨cause, hcause, hfail⟩
      · refine .inl ⟨_, behind, .chunk hc hl, hm, ?_⟩
        have := Lexes.chunk hce hall
        simpa using this
      · refine .inr ⟨cause, hcause, fun p => ?_⟩
        rw [tokensFrom_chunk hc]
        exact hfail _
    · refine .inr ⟨cause, ?_, fun p => ⟨p, by rw [tokensFrom_broken hb]⟩⟩
      cases hb with
      | string hs => exact .inl rfl
      | @format rest _ hs =>
        have hf : (tokensFrom p ('#' :: '"' :: (rest ++ '\n' :: more))).failure = none := h
        rw [tokensFrom_format] at hf
        -- The whole text is read, so this format string goes on behind the cut.
        cases hscan : Format.scan true (rest ++ '\n' :: more) with
        | ok s => exact Format.scan_error hs hscan
        | error cause' =>
          rw [hscan] at hf
          cases hf

end Lexer

end Lisplet
