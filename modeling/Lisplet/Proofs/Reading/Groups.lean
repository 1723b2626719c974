import Lisplet.Proofs.Reading.Spelling
/-!
# The shape of a row of tokens

The lexer makes single tokens and whole format strings, one behind the other (`Grouped`). Inside a
format string no text is empty and none follows another, and there is an expression (`Alternate`,
`scan_alternate`). The tokens of a text are such groups (`grouped_of_lexes`).
-/
namespace Lisplet

namespace Format

/-- Pieces none of whose texts is empty or follows another. -/
def Alternate (behindText : Bool) : List Piece → Prop
  | [] => True
  | .text _ value :: ps => behindText = false ∧ value ≠ [] ∧ Alternate true ps
  | .code _ :: ps => Alternate false ps

theorem alternate_literal_code {raw value source : List Char} {more : List Piece} (h : Alternate false more) :
    Alternate false (literal raw value ++ .code source :: more) := by
  cases value with
  | nil => simpa [literal, Alternate] using h
  | cons c value => simpa [literal, Alternate] using h

theorem alternate_literal (raw value : List Char) : Alternate false (literal raw value) := by
  cases value <;> simp [literal, Alternate]

/-- Texts and expressions follow one another in such a way that no two texts meet. -/
theorem pieces_alternate {quoted : Bool} {cs : List Char} {ps : List Piece} {rest : List Char}
    (h : pieces quoted cs = .ok (ps, rest)) : Alternate false ps := by
  fun_induction pieces quoted cs generalizing ps rest with
  | case1 => simp at h
  | case2 cs raw value =>
    obtain ⟨rfl, rfl⟩ := by simpa using h
    exact alternate_literal raw value
  | case3 cs raw value =>
    obtain ⟨rfl, rfl⟩ := by simpa using h
    exact alternate_literal raw value
  | case4 => simp at h
  | case5 => simp at h
  | case6 cs raw value left run source left' span more left'' hmore ih =>
    obtain ⟨rfl, rfl⟩ := by simpa using h
    exact alternate_literal_code (ih hmore)

theorem scan_alternate {quoted : Bool} {cs : List Char} {s : Scan} (h : scan quoted cs = .ok s) :
    Alternate false s.pieces ∧ s.pieces.any Piece.isCode := by
  unfold scan at h
  split at h
  next => simp at h
  next ps rest hp =>
    split at h
    case isTrue hc =>
      obtain rfl := by simpa using h
      exact ⟨pieces_alternate hp, (Bool.and_eq_true_iff.1 hc).1⟩
    case isFalse => simp at h

end Format

namespace Lexer

/-- A token that stands for itself: no part of a format string and not the end. A symbol is a word that
reads as one. -/
def IsSingle (tok : Token) : Prop :=
  tok.kind ≠ .formatStart ∧ tok.kind ≠ .formatCode ∧ tok.kind ≠ .formatEnd ∧ tok.kind ≠ .eof ∧
    (tok.kind = .symbol → IsSymbolWord tok.text.toList)

/-- The tokens inside a format string. -/
def IsBody (behindText : Bool) : List Token → Prop
  | [] => True
  | tok :: rest =>
    (tok.kind = .string ∧ behindText = false ∧ tok.text ≠ "" ∧ IsBody true rest) ∨
      (tok.kind = .formatCode ∧ IsBody false rest)

/-- Single tokens and whole format strings. -/
inductive Grouped : List Token → Prop
  | nil : Grouped []
  | single {tok : Token} {rest : List Token} : IsSingle tok → Grouped rest → Grouped (tok :: rest)
  | format {first last : Token} {body rest : List Token} :
      first.kind = .formatStart → last.kind = .formatEnd → IsBody false body →
      (∃ tok ∈ body, tok.kind = .formatCode) → Grouped rest → Grouped (first :: (body ++ last :: rest))

theorem isBody_pieceTokens {behindText : Bool} {ps : List Format.Piece} (h : Format.Alternate behindText ps)
    (p : Position) : IsBody behindText (pieceTokens p ps) := by
  induction ps generalizing behindText p with
  | nil => trivial
  | cons piece ps ih =>
    cases piece with
    | text raw value =>
      refine .inl ⟨rfl, h.1, fun he => h.2.1 ?_, ih h.2.2 _⟩
      exact String.ofList_injective he
    | code source => exact .inr ⟨rfl, ih h _⟩

theorem exists_formatCode {ps : List Format.Piece} (h : ps.any Format.Piece.isCode) (p : Position) :
    ∃ tok ∈ pieceTokens p ps, tok.kind = .formatCode := by
  induction ps generalizing p with
  | nil => simp at h
  | cons piece ps ih =>
    cases piece with
    | text raw value =>
      obtain ⟨tok, hm, hk⟩ := ih (by simpa [Format.Piece.isCode] using h) (p.after (Format.Piece.text raw value).written)
      exact ⟨tok, List.mem_cons_of_mem _ hm, hk⟩
    | code source => exact ⟨_, List.mem_cons_self, rfl⟩

/-- A character that is a token by itself is one of the kinds that stand alone. -/
theorem singleKind?_isSingle {c : Char} {kind : Token.Kind} (h : singleKind? c = some kind) (p : Position) :
    IsSingle ⟨kind, c.toString, p⟩ := by
  have hk : kind ≠ .formatStart ∧ kind ≠ .formatCode ∧ kind ≠ .formatEnd ∧ kind ≠ .eof ∧ kind ≠ .symbol := by
    -- Each of the nine characters has a kind of its own, none of them one of these.
    unfold singleKind? at h
    iterate 9
      rcases ite_eq_iff.1 h with ⟨-, h⟩ | ⟨-, h⟩
      · obtain rfl := Option.some.inj h
        decide
    cases h
  exact ⟨hk.1, hk.2.1, hk.2.2.1, hk.2.2.2.1, fun he => absurd he hk.2.2.2.2⟩

theorem wordKind_isSingle {w : List Char} (hne : w ≠ []) (hw : ∀ c ∈ w, isWordChar c) (p : Position) :
    IsSingle ⟨wordKind w, String.ofList w, p⟩ := by
  have hk : wordKind w ≠ .formatStart ∧ wordKind w ≠ .formatCode ∧ wordKind w ≠ .formatEnd ∧ wordKind w ≠ .eof := by
    unfold wordKind literalKind?
    grind
  refine ⟨hk.1, hk.2.1, hk.2.2.1, hk.2.2.2, fun hs => ?_⟩
  rw [String.toList_ofList]
  exact ⟨hne, hw, hs⟩

theorem kind_ne_eof_of_isBody {behindText : Bool} {body : List Token} (h : IsBody behindText body) :
    ∀ tok ∈ body, tok.kind ≠ .eof := by
  induction body generalizing behindText with
  | nil => simp
  | cons tok body ih =>
    rcases h with ⟨hk, -, -, h⟩ | ⟨hk, h⟩
    · exact List.forall_mem_cons.2 ⟨by simp [hk], ih h⟩
    · exact List.forall_mem_cons.2 ⟨by simp [hk], ih h⟩

/-- The end mark stands in no group. -/
theorem kind_ne_eof_of_grouped {tokens : List Token} (h : Grouped tokens) : ∀ tok ∈ tokens, tok.kind ≠ .eof := by
  induction h with
  | nil => simp
  | single ht _ ih => exact List.forall_mem_cons.2 ⟨ht.2.2.2.1, ih⟩
  | format hf hl hb _ _ ih =>
    refine List.forall_mem_cons.2 ⟨by simp [hf], List.forall_mem_append.2 ⟨kind_ne_eof_of_isBody hb, ?_⟩⟩
    exact List.forall_mem_cons.2 ⟨by simp [hl], ih⟩

/-- A chunk makes whole groups. -/
theorem grouped_chunk {front rest : List Char} {made : Position → List Token} (h : Chunk front rest made)
    (p : Position) {more : List Token} (hm : Grouped more) : Grouped (made p ++ more) := by
  cases h with
  | separator => exact hm
  | comment => exact hm
  | string => exact .single ⟨by simp, by simp, by simp, by simp, by simp⟩ hm
  | format hs =>
    obtain ⟨ha, hc⟩ := Format.scan_alternate hs
    have e : ∀ (first last : Token) (body : List Token),
        first :: (body ++ [last]) ++ more = first :: (body ++ last :: more) := by simp
    rw [formatTokens, e]
    exact .format rfl rfl (isBody_pieceTokens ha _) (exists_formatCode hc _) hm
  | single hk => exact .single (singleKind?_isSingle hk p) hm
  | word hne hw => exact .single (wordKind_isSingle hne hw p) hm

/-- The tokens of a text are whole groups. -/
theorem grouped_of_lexes {cs : List Char} {made : Position → List Token} (h : Lexes cs made) (p : Position) :
    Grouped (made p) := by
  induction h generalizing p with
  | nil => exact .nil
  | chunk hc _ ih => exact grouped_chunk hc p (ih _)

end Lexer

end Lisplet
