import Lisplet.Proofs.Reading.FormatStrings
/-!
# The tokens of a written term

A spelled and plain term, written at a place and followed by something that cannot go on with it, has
exactly the tokens one expects (`tokensFrom_write`). The proof goes through the term; text that
follows is part of the statement, since each piece of a term is written in front of the next.
-/
namespace Lisplet

variable {α : Type}

/-- A part of a format string as the scan finds it. -/
def Part.piece : Part α → Format.Piece
  | .text s => .text (Format.escapeLiteral s.toList) s.toList
  | .code t => .code t.write

namespace Term

/-! ## Expressions of format strings -/

mutual

/-- The end of an expression does not lie inside a written term. -/
theorem passes_write : (t : Term α) → t.Spelled → t.Plain Text.isBlank true → Format.Passes t.write
  | number _ _, _, hp => by
    rw [write]
    exact Format.passes_of_word fun c hc =>
      Lexer.isWordChar_of_isNumeralChar (Number.isNumeralChar_of_isNumeral (Number.isNumeral_brief hp) c hc)
  | string _ _, _, hp => by
    rw [write]
    exact Format.passes_quote hp
  | symbol _ _, hs, _ => by
    rw [write]
    exact Format.passes_of_word hs.2.1
  | boolean _ b, _, _ => by
    rw [write]
    exact Format.passes_of_word (Lexer.isWordChar_boolean b)
  | nil _, _, _ => by
    rw [write]
    exact Format.passes_of_word Lexer.isWordChar_nil
  | list _ ts, hs, hp => by
    rw [write, ← List.singleton_append]
    have bracket : ∀ c, c = '(' ∨ c = ')' → Format.Passes [c] := by
      rintro c (rfl | rfl) <;> exact Format.passes_char (by decide) (by decide) (by decide)
    exact Format.passes_append (bracket _ (.inl rfl))
      (Format.passes_append (passes_writeAll ts hs hp) (bracket _ (.inr rfl)))
  | marked _ m t, hs, hp => by
    rw [write, ← List.singleton_append]
    refine Format.passes_append ?_ (passes_write t hs hp)
    cases m <;> exact Format.passes_char (by decide) (by decide) (by decide)
  | format _ _, _, hp => by simp [Plain] at hp
  | embedded _ _, hs, _ => by simp [Spelled] at hs
termination_by structural t => t

theorem passes_writeAll : (ts : List (Term α)) → SpelledAll ts → PlainAll Text.isBlank true ts → Format.Passes (writeAll ts)
  | [], _, _ => by
    rw [writeAll]
    exact Format.passes_nil
  | [t], hs, hp => by
    rw [writeAll]
    exact passes_write t hs.1 hp.1
  | t :: u :: ts, hs, hp => by
    rw [writeAll, ← List.singleton_append]
    · exact Format.passes_append (passes_write t hs.1 hp.1)
        (Format.passes_append (Format.passes_char (by decide) (by decide) (by decide))
          (passes_writeAll (u :: ts) hs.2 hp.2))
    · simp
termination_by structural ts => ts

end

/-- A written term is not blank, unless it is a blank symbol. -/
theorem not_blank_write {t : Term α} (hs : t.Spelled) (hp : t.Plain Text.isBlank true)
    (hb : ¬ t.IsSymbolOf Text.isBlank) : t.write.all Text.isBlank = false := by
  cases t with
  | number _ x =>
    have hn := Number.isNumeral_brief hp
    rw [write]
    cases h : (Number.brief x).toList with
    | nil => rw [h] at hn; exact absurd hn (by decide)
    | cons c cs =>
      have hc := Number.isBlank_of_isNumeralChar (Number.isNumeralChar_of_isNumeral hn c (by simp [h]))
      simp [hc]
  | string _ s => simp [write, Text.quote, show Text.isBlank '"' = false by decide]
  | symbol _ name => simpa [write, IsSymbolOf] using hb
  | boolean _ b => rw [write]; cases b <;> decide
  | nil _ => rw [write]; decide
  | list _ ts => simp [write, show Text.isBlank '(' = false by decide]
  | marked _ m t => rw [write]; cases m <;> simp [Marker.char, Text.isBlank]
  | format _ _ => simp [Plain] at hp
  | embedded _ _ => simp [Spelled] at hs

/-! ## Parts of format strings -/

theorem written_piece (part : Part α) (ps : List (Part α)) :
    writeParts (part :: ps) = part.piece.written ++ writeParts ps := by
  cases part <;> simp [writeParts, Part.piece, Format.Piece.written, Format.Piece.lead, Format.Piece.body,
    Format.Piece.tail]

theorem writeParts_eq (ps : List (Part α)) : writeParts ps = (ps.map Part.piece).flatMap Format.Piece.written := by
  induction ps with
  | nil => rw [writeParts]; rfl
  | cons part ps ih => rw [written_piece, ih]; rfl

/-- The parts of a format string, written and closed by a quote, are split where they were joined. -/
theorem pieces_writeParts : (ps : List (Part α)) → SpelledParts false ps → PlainParts Text.isBlank ps → (rest : List Char) →
    Format.pieces true (writeParts ps ++ '"' :: rest) = .ok (ps.map Part.piece, rest)
  | [], _, _, rest => by
    rw [writeParts]
    exact Format.pieces_quote (Format.textRun_quote rest)
  | .code t :: ps, hs, hp, rest => by
    have e : writeParts (.code t :: ps) ++ '"' :: rest =
        '#' :: '\x7b' :: (t.write ++ '\x7d' :: (writeParts ps ++ '"' :: rest)) := by simp [writeParts]
    have hspan := passes_write t hs.1 hp.1 0 ('\x7d' :: (writeParts ps ++ '"' :: rest))
    rw [Format.codeSpan_close] at hspan
    rw [e, Format.pieces_code (Format.textRun_code true _) hspan, pieces_writeParts ps hs.2 hp.2.2 rest]
    simp [Format.literal, Part.piece]
  | [.text s], hs, hp, rest => by
    have hrun := Format.textRun_escapeLiteral hp.1 ('"' :: rest) (by simp)
    rw [Format.textRun_quote] at hrun
    have hne : s.toList ≠ [] := fun h => hs.2.1 (String.toList_eq_nil_iff.1 h)
    rw [writeParts, writeParts, List.append_nil, Format.pieces_quote hrun]
    simp [Format.literal, Part.piece, hne]
  | .text s :: .code t :: ps, hs, hp, rest => by
    have e : writeParts (.text s :: .code t :: ps) ++ '"' :: rest = Format.escapeLiteral s.toList ++
        '#' :: '\x7b' :: (t.write ++ '\x7d' :: (writeParts ps ++ '"' :: rest)) := by simp [writeParts]
    -- Text in front of an expression runs up to its opening brace; the expression passes its own text.
    have hrun := Format.textRun_escapeLiteral hp.1
      ('#' :: '\x7b' :: (t.write ++ '\x7d' :: (writeParts ps ++ '"' :: rest))) (by simp)
    rw [Format.textRun_code] at hrun
    have hspan := passes_write t hs.2.2.1 hp.2.1 0 ('\x7d' :: (writeParts ps ++ '"' :: rest))
    rw [Format.codeSpan_close] at hspan
    have hne : s.toList ≠ [] := fun h => hs.2.1 (String.toList_eq_nil_iff.1 h)
    rw [e, Format.pieces_code hrun hspan, pieces_writeParts ps hs.2.2.2 hp.2.2.2 rest]
    simp [Format.literal, Part.piece, hne]
  | .text _ :: .text _ :: _, hs, _, _ => by simp [SpelledParts] at hs
termination_by structural ps => ps

theorem any_isCode_piece (ps : List (Part α)) :
    (ps.map Part.piece).any Format.Piece.isCode = ps.any Part.isCode := by
  rw [List.any_map]
  congr 1
  funext part
  cases part <;> rfl

theorem any_isBlankCode_piece : (ps : List (Part α)) → (b : Bool) → SpelledParts b ps → PlainParts Text.isBlank ps →
    (ps.map Part.piece).any Format.Piece.isBlankCode = false
  | [], _, _, _ => rfl
  | .text _ :: ps, _, hs, hp => by
    simpa [Part.piece, Format.Piece.isBlankCode] using any_isBlankCode_piece ps true hs.2.2 hp.2
  | .code t :: ps, _, hs, hp => by
    have hblank := not_blank_write hs.1 hp.1 hp.2.1
    have ih := any_isBlankCode_piece ps false hs.2 hp.2.2
    rw [List.map_cons, List.any_cons, ih, Bool.or_false]
    exact hblank

/-- The scan of a written format string finds its parts. -/
theorem scan_writeParts {ps : List (Part α)} (hs : SpelledParts false ps) (hcode : ps.any Part.isCode)
    (hp : PlainParts Text.isBlank ps) (rest : List Char) :
    Format.scan true (writeParts ps ++ '"' :: rest) = .ok ⟨ps.map Part.piece, rest⟩ := by
  unfold Format.scan
  rw [pieces_writeParts ps hs hp rest]
  simp only [any_isCode_piece, hcode, any_isBlankCode_piece ps false hs hp, Bool.not_false, Bool.and_true, if_true]

/-! ## Tokens -/

mutual

/-- The tokens of a term that is written at a place. -/
def tokensAt (p : Position) : Term α → List Token
  | number _ x => [⟨.number, Number.brief x, p⟩]
  | string _ s => [⟨.string, s, p⟩]
  | symbol _ name => [⟨.symbol, name, p⟩]
  | boolean _ b => [⟨.boolean, String.ofList (Text.Word.boolean b), p⟩]
  | nil _ => [⟨.nil, String.ofList Text.Word.nil, p⟩]
  | list _ ts =>
    ⟨.opening .round, "(", p⟩ ::
      (tokensAllAt (p.advance '(') ts ++ [⟨.closing .round, ")", (p.advance '(').after (writeAll ts)⟩])
  | marked _ m t => ⟨.marker m, m.char.toString, p⟩ :: tokensAt (p.advance m.char) t
  | format _ ps =>
    let inside := p.after ['#', '"']
    ⟨.formatStart, "#\"", p⟩ :: (Lexer.pieceTokens inside (ps.map Part.piece) ++
      [⟨.formatEnd, "\"", inside.after (writeParts ps ++ ['"'])⟩])
  | embedded _ _ => []
termination_by structural t => t

/-- The tokens of a row of terms that is written at a place. -/
def tokensAllAt (p : Position) : List (Term α) → List Token
  | [] => []
  | t :: ts => tokensAt p t ++ tokensAllAt ((p.after (write t)).advance ' ') ts
termination_by structural ts => ts

end

mutual

theorem tokensFrom_write : (t : Term α) → t.Spelled → t.Plain Text.isBlank false → (p : Position) → (rest : List Char) →
    Lexer.Ends rest →
    Lexer.tokensFrom p (t.write ++ rest) = (Lexer.tokensFrom (p.after t.write) rest).prepend (tokensAt p t)
  | number _ x, _, hp, p, rest, he => by
    rw [write, Lexer.tokensFrom_numeral (Number.isNumeral_brief hp) he, String.ofList_toList, tokensAt]
  | string _ s, _, hp, p, rest, _ => by
    rw [write, Lexer.tokensFrom_quoted hp, String.ofList_toList, tokensAt]
  | symbol _ name, hs, _, p, rest, he => by
    rw [write, Lexer.tokensFrom_wholeWord hs.1 hs.2.1 he, hs.2.2, String.ofList_toList, tokensAt]
  | boolean _ b, _, _, p, rest, he => by
    have hk : Lexer.wordKind (Text.Word.boolean b) = .boolean := by cases b <;> decide
    rw [write, Lexer.tokensFrom_wholeWord (by cases b <;> simp [Text.Word.boolean])
      (Lexer.isWordChar_boolean b) he, hk, tokensAt]
  | nil _, _, _, p, rest, he => by
    have hk : Lexer.wordKind Text.Word.nil = .nil := by decide
    rw [write, Lexer.tokensFrom_wholeWord (by simp [Text.Word.nil]) Lexer.isWordChar_nil he, hk, tokensAt]
  | list q ts, hs, hp, p, rest, _ => by
    have e : write (list q ts) ++ rest = '(' :: (writeAll ts ++ ')' :: rest) := by simp [write]
    have hopen : Lexer.singleKind? '(' = some (.opening .round) := by decide
    have hclose : Lexer.singleKind? ')' = some (.closing .round) := by decide
    rw [e, Lexer.tokensFrom_single hopen, tokensFrom_writeAll ts hs hp (p.advance '(') rest,
      Lexer.tokensFrom_single hclose]
    simp [Lexer.prepend_prepend, write, tokensAt]
  | marked q m t, hs, hp, p, rest, he => by
    have e : write (marked q m t) ++ rest = m.char :: (write t ++ rest) := by simp [write]
    have hk : Lexer.singleKind? m.char = some (.marker m) := by cases m <;> decide
    rw [e, Lexer.tokensFrom_single hk, tokensFrom_write t hs hp _ rest he]
    simp [Lexer.prepend_prepend, write, tokensAt]
  | format q ps, hs, hp, p, rest, _ => by
    have e : write (format q ps) ++ rest = '#' :: '"' :: (writeParts ps ++ '"' :: rest) := by simp [write]
    rw [e, Lexer.tokensFrom_format, scan_writeParts hs.1 hs.2 hp.2 rest]
    simp [write, tokensAt, ← writeParts_eq]
  | embedded _ _, hs, _, _, _, _ => by simp [Spelled] at hs
termination_by structural t => t

/-- The elements of a list, up to its closing bracket. -/
theorem tokensFrom_writeAll : (ts : List (Term α)) → SpelledAll ts → PlainAll Text.isBlank false ts → (p : Position) →
    (rest : List Char) →
    Lexer.tokensFrom p (writeAll ts ++ ')' :: rest) =
      (Lexer.tokensFrom (p.after (writeAll ts)) (')' :: rest)).prepend (tokensAllAt p ts)
  | [], _, _, p, rest => by simp [writeAll, tokensAllAt]
  | [t], hs, hp, p, rest => by
    rw [writeAll, tokensFrom_write t hs.1 hp.1 p _ (Lexer.ends_bracket rest)]
    simp [tokensAllAt]
  | t :: u :: ts, hs, hp, p, rest => by
    have e : writeAll (t :: u :: ts) = write t ++ ' ' :: writeAll (u :: ts) := by rw [writeAll]; simp
    rw [e, List.append_assoc, List.cons_append, tokensFrom_write t hs.1 hp.1 p _ (Lexer.ends_space _),
      Lexer.tokensFrom_separator (by decide), tokensFrom_writeAll (u :: ts) hs.2 hp.2]
    simp [Lexer.prepend_prepend, tokensAllAt]
termination_by structural ts => ts

end

end Term

end Lisplet
