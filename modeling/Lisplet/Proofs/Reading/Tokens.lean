import Mathlib.Data.List.Basic
import Lisplet.Token.Lexer
/-!
# What the lexer does with the first character

One equation for each way a text can begin: a separator, a comment, a string, a format string, a
bracket or quote mark, a word. Everything else about tokens is derived from these, so the scanning
loop itself is opened here only.
-/
namespace Lisplet.Lexer

@[simp] theorem prepend_failure (front : List Token) (l : Lexed) : (l.prepend front).failure = l.failure := rfl

@[simp] theorem prepend_nil (l : Lexed) : l.prepend [] = l := rfl

theorem prepend_prepend (a b : List Token) (l : Lexed) : (l.prepend b).prepend a = l.prepend (a ++ b) := by
  simp [Lexed.prepend]

/-- A text is lexed completely if nothing failed, and then the tokens are all there. -/
theorem complete_eq_ok {l : Lexed} {tokens : List Token} :
    l.complete = .ok tokens ↔ l.failure = none ∧ l.tokens = tokens := by
  unfold Lexed.complete
  cases h : l.failure <;> simp

/-! ## Characters -/

/-- A character belongs to a word unless it separates words or begins something else. -/
theorem isWordChar_iff {c : Char} :
    isWordChar c ↔ ¬ Text.isSeparator c ∧ singleKind? c = none ∧ c ≠ '"' ∧ c ≠ ';' := by
  simp [isWordChar, isDelimiter, and_assoc]

theorem singleKind?_of_isSeparator {c : Char} (h : Text.isSeparator c) : singleKind? c = none := by
  simp only [Text.isSeparator, Bool.or_eq_true, beq_iff_eq] at h
  rcases h with ((rfl | rfl) | rfl) | rfl <;> decide

/-! ## Strings -/

theorem stringSpan_quote (rest : List Char) : stringSpan ('"' :: rest) = some ([], [], rest) := by
  rw [stringSpan.eq_def]
  simp

/-- A backslash takes the next character with it, so that an escaped quote does not end the string. -/
theorem stringSpan_backslash (e : Char) (rest : List Char) :
    stringSpan ('\\' :: e :: rest) =
      (stringSpan rest).map fun (raw, value, r) => ('\\' :: e :: raw, Format.unescape e :: value, r) := by
  rw [stringSpan.eq_def]
  simp

theorem stringSpan_char {c : Char} (hq : c ≠ '"') (hb : c ≠ '\\') (rest : List Char) :
    stringSpan (c :: rest) = (stringSpan rest).map fun (raw, value, r) => (c :: raw, c :: value, r) := by
  rw [stringSpan.eq_def]
  simp [hq, hb]

/-! ## The first token -/

theorem tokensFrom_nil (p : Position) : tokensFrom p [] = ⟨[.eofAt p], none⟩ := by
  rw [tokensFrom]

theorem tokensFrom_separator {c : Char} (h : Text.isSeparator c) (p : Position) (rest : List Char) :
    tokensFrom p (c :: rest) = tokensFrom (p.advance c) rest := by
  rw [tokensFrom, if_pos h]

/-- A comment leaves no token; it reaches to the end of its line. -/
theorem tokensFrom_comment (p : Position) (rest : List Char) :
    tokensFrom p (';' :: rest) =
      tokensFrom ((p.advance ';').after (rest.takeWhile (· != '\n'))) (rest.dropWhile (· != '\n')) := by
  rw [tokensFrom, if_neg (by decide), if_pos rfl]

/-- A quoted string is one token, at the place of its opening quote, where an unclosed one fails too. -/
theorem tokensFrom_quote (p : Position) (rest : List Char) :
    tokensFrom p ('"' :: rest) =
      match stringSpan rest with
      | none => ⟨[], some ⟨.unclosedString, p⟩⟩
      | some (raw, value, rest') =>
        (tokensFrom (p.after ('"' :: raw ++ ['"'])) rest').prepend [⟨.string, String.ofList value, p⟩] := by
  rw [tokensFrom, if_neg (by decide), if_neg (by decide), if_pos rfl]
  split
  next h => rw [h]
  next h => rw [h]

/-- A format string is a run of tokens between a start and an end, placed as if its pieces had been lexed in turn. -/
theorem tokensFrom_format (p : Position) (rest : List Char) :
    tokensFrom p ('#' :: '"' :: rest) =
      match Format.scan true rest with
      | .error cause => ⟨[], some ⟨cause, p⟩⟩
      | .ok scan =>
        let inside := p.after ['#', '"']
        let behind := inside.after (scan.pieces.flatMap Format.Piece.written ++ ['"'])
        (tokensFrom behind scan.rest).prepend
          (⟨.formatStart, "#\"", p⟩ :: pieceTokens inside scan.pieces ++ [⟨.formatEnd, "\"", behind⟩]) := by
  rw [tokensFrom, if_neg (by decide), if_neg (by decide), if_neg (by decide), if_pos (by simp)]
  simp only [List.tail_cons]
  split
  next h => rw [h]
  next h => rw [h]

theorem tokensFrom_single {c : Char} {kind : Token.Kind} (h : singleKind? c = some kind) (p : Position)
    (rest : List Char) :
    tokensFrom p (c :: rest) = (tokensFrom (p.advance c) rest).prepend [⟨kind, c.toString, p⟩] := by
  have hs : ¬ Text.isSeparator c := fun hs => by simp [singleKind?_of_isSeparator hs] at h
  have h₁ : c ≠ ';' := by rintro rfl; exact absurd h (by decide +revert)
  have h₂ : c ≠ '"' := by rintro rfl; exact absurd h (by decide +revert)
  have h₃ : c ≠ '#' := by rintro rfl; exact absurd h (by decide +revert)
  rw [tokensFrom, if_neg hs, if_neg h₁, if_neg h₂, if_neg (fun hc => h₃ hc.1)]
  simp only [h]

/-- A word is as long as it can be. Only a `#` in front of a quote begins something else. -/
theorem tokensFrom_word {c : Char} (h : isWordChar c) (p : Position) (rest : List Char)
    (hf : c ≠ '#' ∨ rest.head? ≠ some '"') :
    tokensFrom p (c :: rest) =
      (tokensFrom (p.after (c :: rest.takeWhile isWordChar)) (rest.dropWhile isWordChar)).prepend
        [⟨wordKind (c :: rest.takeWhile isWordChar), String.ofList (c :: rest.takeWhile isWordChar), p⟩] := by
  obtain ⟨hs, hk, hq, hc⟩ := isWordChar_iff.1 h
  rw [tokensFrom, if_neg hs, if_neg hc, if_neg hq, if_neg (fun hc => hf.elim (· hc.1) (· hc.2))]
  simp only [hk]

end Lisplet.Lexer
