import Mathlib.Data.List.TakeWhile
import Lisplet.Proofs.Reading.Tokens
import Lisplet.Text.Words
/-!
# A text as a row of chunks

The lexer cuts a text into chunks: a separator, a comment, a string, a format string, a bracket or
quote mark, a word. `Chunk front rest made` says that `front` is the first chunk of `front ++ rest` and
makes the tokens `made p` where it stands at `p`; `Lexes` says the same of a whole text, and
`Broken` names the two ways a text can begin with no chunk. A text that is read without an error is one
that `Lexes` (`lexes_of_failure`, `tokensFrom_of_lexes`), so a fact about its tokens is a fact about
chunks, by induction over `Lexes`.
-/
namespace Lisplet.Lexer

/-- The tokens of a format string that starts at `p`. -/
def formatTokens (ps : List Format.Piece) (p : Position) : List Token :=
  let inside := p.after ['#', '"']
  let behind := inside.after (ps.flatMap Format.Piece.written ++ ['"'])
  ⟨.formatStart, "#\"", p⟩ :: (pieceTokens inside ps ++ [⟨.formatEnd, "\"", behind⟩])

/-- The first chunk of a text, what follows it, and the tokens it makes. -/
inductive Chunk : List Char → List Char → (Position → List Token) → Prop
  | separator {c : Char} {rest : List Char} : Text.isSeparator c → Chunk [c] rest fun _ => []
  | comment {text rest : List Char} : (∀ c ∈ text, c ≠ '\n') → (∀ c, rest.head? = some c → c = '\n') →
      Chunk (';' :: text) rest fun _ => []
  | string {raw value rest : List Char} : stringSpan (raw ++ '"' :: rest) = some (raw, value, rest) →
      Chunk ('"' :: (raw ++ ['"'])) rest fun p => [⟨.string, String.ofList value, p⟩]
  | format {ps : List Format.Piece} {rest : List Char} :
      Format.scan true (ps.flatMap Format.Piece.written ++ '"' :: rest) = .ok ⟨ps, rest⟩ →
      Chunk ('#' :: '"' :: (ps.flatMap Format.Piece.written ++ ['"'])) rest (formatTokens ps)
  | single {c : Char} {kind : Token.Kind} {rest : List Char} : singleKind? c = some kind →
      Chunk [c] rest fun p => [⟨kind, c.toString, p⟩]
  | word {w rest : List Char} : w ≠ [] → (∀ c ∈ w, isWordChar c) →
      (∀ c, rest.head? = some c → isWordChar c = false) → (w = ['#'] → rest.head? ≠ some '"') →
      Chunk w rest fun p => [⟨wordKind w, String.ofList w, p⟩]

/-- A text that begins with a string or a format string which cannot be read. -/
inductive Broken : List Char → SyntaxError.Cause → Prop
  | string {rest : List Char} : stringSpan rest = none → Broken ('"' :: rest) .unclosedString
  | format {rest : List Char} {cause : SyntaxError.Cause} : Format.scan true rest = .error cause →
      Broken ('#' :: '"' :: rest) cause

/-- A text made of chunks, and the tokens it makes. -/
inductive Lexes : List Char → (Position → List Token) → Prop
  | nil : Lexes [] fun _ => []
  | chunk {front rest : List Char} {made more : Position → List Token} :
      Chunk front rest made → Lexes rest more → Lexes (front ++ rest) fun p => made p ++ more (p.after front)

theorem chunk_ne_nil {front rest : List Char} {made : Position → List Token} (h : Chunk front rest made) :
    front ≠ [] := by
  cases h with
  | word hne => exact hne
  | _ => simp

/-! ## The lexer goes chunk by chunk -/

/-- A whole word is one token, whatever cannot go on with it follows. -/
theorem tokensFrom_chunk_word {w rest : List Char} (hne : w ≠ []) (hw : ∀ c ∈ w, isWordChar c)
    (hr : ∀ c, rest.head? = some c → isWordChar c = false) (hf : w = ['#'] → rest.head? ≠ some '"')
    (p : Position) :
    tokensFrom p (w ++ rest) = (tokensFrom (p.after w) rest).prepend [⟨wordKind w, String.ofList w, p⟩] := by
  obtain ⟨c, w, rfl⟩ := List.exists_cons_of_ne_nil hne
  have hhead : c ≠ '#' ∨ (w ++ rest).head? ≠ some '"' := by
    rw [or_iff_not_imp_left, not_not]
    rintro rfl h
    cases w with
    | nil => exact hf rfl h
    | cons d w =>
      obtain rfl : d = '"' := by simpa using h
      exact absurd (hw '"' (by simp)) (by decide)
  obtain ⟨ht, hd⟩ := Text.takeWhile_run (fun d hd => hw d (List.mem_cons_of_mem c hd)) hr
  rw [List.cons_append, tokensFrom_word (hw c (by simp)) p _ hhead, ht, hd]

theorem tokensFrom_chunk {front rest : List Char} {made : Position → List Token} (h : Chunk front rest made)
    (p : Position) : tokensFrom p (front ++ rest) = (tokensFrom (p.after front) rest).prepend (made p) := by
  cases h with
  | separator hs => exact tokensFrom_separator hs p rest
  | @comment text _ ht hr =>
    have hnl : ∀ c ∈ text, (c != '\n') = true := fun c hc => by simpa using ht c hc
    obtain ⟨h₁, h₂⟩ := Text.takeWhile_run hnl (fun c hc => by simpa using hr c hc)
    rw [List.cons_append, tokensFrom_comment, h₁, h₂]
    rfl
  | @string raw value _ hs =>
    have e : '"' :: (raw ++ ['"']) ++ rest = '"' :: (raw ++ '"' :: rest) := by simp
    rw [e, tokensFrom_quote, hs]
    rfl
  | @format ps _ hs =>
    have e : '#' :: '"' :: (ps.flatMap Format.Piece.written ++ ['"']) ++ rest =
        '#' :: '"' :: (ps.flatMap Format.Piece.written ++ '"' :: rest) := by simp
    rw [e, tokensFrom_format, hs]
    rfl
  | single hk => exact tokensFrom_single hk p rest
  | word hne hw hr hf => exact tokensFrom_chunk_word hne hw hr hf p

theorem tokensFrom_broken {cs : List Char} {cause : SyntaxError.Cause} (h : Broken cs cause) (p : Position) :
    tokensFrom p cs = ⟨[], some ⟨cause, p⟩⟩ := by
  cases h with
  | string hs => rw [tokensFrom_quote, hs]
  | format hs => rw [tokensFrom_format, hs]

/-- Every text is empty, begins with a chunk, or cannot be read at its first character. -/
theorem chunk_cases (cs : List Char) :
    cs = [] ∨ (∃ front rest made, cs = front ++ rest ∧ Chunk front rest made) ∨ ∃ cause, Broken cs cause := by
  cases cs with
  | nil => exact .inl rfl
  | cons c cs =>
    right
    -- In the order in which the lexer looks: what none of the tests before takes is a word.
    by_cases hs : Text.isSeparator c
    · exact .inl ⟨[c], cs, _, rfl, .separator hs⟩
    by_cases hc : c = ';'
    · refine .inl ⟨';' :: cs.takeWhile (· != '\n'), cs.dropWhile (· != '\n'), _, ?_, .comment ?_ ?_⟩
      · rw [hc, List.cons_append, List.takeWhile_append_dropWhile]
      · intro d hd
        simpa using List.mem_takeWhile_imp hd
      · intro d hd
        simpa using Text.head?_dropWhile hd
    by_cases hq : c = '"'
    · subst hq
      cases hspan : stringSpan cs with
      | none => exact .inr ⟨_, .string hspan⟩
      | some span =>
        obtain ⟨raw, value, rest⟩ := span
        have happ := stringSpan_append hspan
        rw [happ] at hspan
        exact .inl ⟨_, rest, _, by simp [happ], .string hspan⟩
    by_cases hf : c = '#' ∧ cs.head? = some '"'
    · obtain ⟨rfl, hhead⟩ := hf
      obtain ⟨cs, rfl⟩ : ∃ more, cs = '"' :: more := by
        cases cs with
        | nil => simp at hhead
        | cons d more => exact ⟨more, by simpa using hhead⟩
      cases hscan : Format.scan true cs with
      | error cause => exact .inr ⟨_, .format hscan⟩
      | ok scan =>
        obtain ⟨ps, rest⟩ := scan
        have happ : cs = ps.flatMap Format.Piece.written ++ '"' :: rest := by
          simpa [Format.closing] using Format.scan_append hscan
        rw [happ] at hscan
        exact .inl ⟨_, rest, _, by simp [happ], .format hscan⟩
    left
    cases hk : singleKind? c with
    | some kind => exact ⟨[c], cs, _, rfl, .single hk⟩
    | none =>
      have hw : isWordChar c := isWordChar_iff.2 ⟨hs, hk, hq, hc⟩
      refine ⟨c :: cs.takeWhile isWordChar, cs.dropWhile isWordChar, _, ?_, .word (by simp) ?_ ?_ ?_⟩
      · rw [List.cons_append, List.takeWhile_append_dropWhile]
      · intro d hd
        rcases List.mem_cons.1 hd with rfl | hd
        · exact hw
        · exact List.mem_takeWhile_imp hd
      · exact fun d hd => Text.head?_dropWhile hd
      · intro he hhead
        -- A word that is only a `#` in front of a quote would have been a format string.
        obtain ⟨rfl, htake⟩ := List.cons.inj he
        have hall : cs.dropWhile isWordChar = cs := by
          simpa [htake] using List.takeWhile_append_dropWhile (p := isWordChar) (l := cs)
        exact hf ⟨rfl, hall ▸ hhead⟩

/-! ## Whole texts -/

theorem tokensFrom_of_lexes {cs : List Char} {made : Position → List Token} (h : Lexes cs made) (p : Position) :
    tokensFrom p cs = ⟨made p ++ [.eofAt (p.after cs)], none⟩ := by
  induction h generalizing p with
  | nil => exact tokensFrom_nil p
  | chunk hc _ ih =>
    rw [tokensFrom_chunk hc, ih]
    simp [Lexed.prepend]

/-- A text is lexed whole or up to a place where a string or format string cannot be read. -/
theorem lexes_or_broken (cs : List Char) :
    (∃ made, Lexes cs made) ∨
      ∃ cause, (∃ rest, rest <:+ cs ∧ Broken rest cause) ∧
        ∀ p, ∃ q, (tokensFrom p cs).failure = some ⟨cause, q⟩ := by
  -- Chunks have any length, so the induction is on the length of what is left.
  induction hn : cs.length using Nat.strongRecOn generalizing cs with
  | ind n ih =>
    rcases chunk_cases cs with rfl | ⟨front, rest, made, rfl, hc⟩ | ⟨cause, hb⟩
    · exact .inl ⟨_, .nil⟩
    · have hlt : rest.length < n := by
        have := List.length_pos_of_ne_nil (chunk_ne_nil hc)
        rw [← hn, List.length_append]
        omega
      rcases ih rest.length hlt rest rfl with ⟨more, hl⟩ | ⟨cause, ⟨tail, hs, hb⟩, hfail⟩
      · exact .inl ⟨_, .chunk hc hl⟩
      · refine .inr ⟨cause, ⟨tail, hs.trans (List.suffix_append front rest), hb⟩, fun p => ?_⟩
        rw [tokensFrom_chunk hc]
        exact hfail _
    · exact .inr ⟨cause, ⟨cs, List.suffix_rfl, hb⟩, fun p => ⟨p, by rw [tokensFrom_broken hb]⟩⟩

theorem lexes_of_failure {p : Position} {cs : List Char} (h : (tokensFrom p cs).failure = none) :
    ∃ made, Lexes cs made := by
  rcases lexes_or_broken cs with hl | ⟨cause, -, hfail⟩
  · exact hl
  · obtain ⟨q, hq⟩ := hfail p
    rw [h] at hq
    cases hq

/-- The tokens of a text, when there are any, are those its chunks make. -/
theorem lexAt_complete {origin : Position} {source : String} {tokens : List Token} :
    (lexAt origin source).complete = .ok tokens ↔
      ∃ made, Lexes source.toList made ∧ tokens = made origin ++ [.eofAt (origin.after source.toList)] := by
  rw [complete_eq_ok, lexAt]
  constructor
  · rintro ⟨hf, rfl⟩
    obtain ⟨made, hl⟩ := lexes_of_failure hf
    exact ⟨made, hl, by rw [tokensFrom_of_lexes hl]⟩
  · rintro ⟨made, hl, rfl⟩
    rw [tokensFrom_of_lexes hl]
    exact ⟨rfl, rfl⟩

end Lisplet.Lexer
