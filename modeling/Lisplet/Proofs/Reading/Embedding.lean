import Lisplet.Proofs.Reading.Cuts
import Lisplet.Proofs.Reading.Tiling
/-!
# Where an embedded expression ends

The end of an expression in a format string is found by counting braces and skipping string literals, and not by lexing it.
An expression ends where it was written to end exactly if it closes its own braces and quotes (`lex_embedded_iff`). The lexer
finds the same braces in it, comments and format strings apart: the count sees a format string as characters, where the
quotes of an inner literal are quotes of its own. So an expression without comments, whose format strings close what they
open, is embedded whole exactly if its braces are balanced (`lex_embedded_iff_balanced`). A format string with no quote in its
expressions closes what it opens (`Lexer.closed_of_format`).
-/
namespace Lisplet

namespace Format

/-! ## Closed source -/

theorem codeSpan_literal {raw value : List Char} (h : Literal false raw value) (depth : Nat) (rest : List Char) :
    codeSpan depth true (raw ++ '"' :: rest) =
      (codeSpan depth false rest).map fun (s, r) => (raw ++ '"' :: s, r) := by
  induction h with
  | nil => simp [codeSpan_quoted]
  | char hq hb _ _ ih =>
    rw [List.cons_append, codeSpan_quoted hb, bne_iff_ne.2 hq, ih, Option.map_map]
    rfl
  | escaped e _ ih =>
    rw [List.cons_append, List.cons_append, codeSpan_escaped, ih, Option.map_map]
    rfl

/-- The search for the end of an expression goes through source that closes what it opens. -/
theorem Closed.passes {cs : List Char} (h : Closed cs) : Passes cs := by
  induction h with
  | nil => exact passes_nil
  | char hclose hopen hquote _ ih => exact passes_append (passes_char hclose hopen hquote) ih
  | @quoted raw value cs hraw _ ih =>
    intro depth rest
    rw [List.cons_append, List.append_assoc, List.cons_append, codeSpan_char (by decide) (by decide)]
    simp [codeSpan_literal hraw, ih depth rest, Function.comp_def]
  | @braced inside cs _ _ ihinside ih =>
    intro depth rest
    have hclose (d : Nat) (more : List Char) : codeSpan (d + 1) false ('\x7d' :: more) =
        (codeSpan d false more).map fun (s, r) => ('\x7d' :: s, r) := by
      simp [codeSpan]
    have hopen (d : Nat) (more : List Char) : codeSpan d false ('\x7b' :: more) =
        (codeSpan (d + 1) false more).map fun (s, r) => ('\x7b' :: s, r) := by
      simp [codeSpan]
    rw [List.cons_append, List.append_assoc, List.cons_append, hopen, ihinside, hclose, ih]
    simp [Function.comp_def]

/-- An expression ends where it was written to end exactly if it closes what it opens. -/
theorem codeSpan_eq_some_iff {cs : List Char} (rest : List Char) :
    codeSpan 0 false (cs ++ '\x7d' :: rest) = some (cs, rest) ↔ Closed cs := by
  refine ⟨fun h => by simpa [Closing] using closing_of_codeSpan h, fun h => ?_⟩
  rw [h.passes, codeSpan_close]
  simp

/-! ## Format strings that close what they open -/

theorem Literal.append {format : Bool} {raw value more rest : List Char} (h : Literal format raw value)
    (hmore : Literal false more rest) : Literal false (raw ++ more) (value ++ rest) := by
  induction h with
  | nil => exact hmore
  | char hq hb _ _ ih => exact .char hq hb (by simp) ih
  | escaped e _ ih => exact .escaped e ih

/-- Source without quotes can stand between quotes, with the brace that ends it. A backslash at its end takes the brace. -/
theorem literal_of_not_mem {source more rest : List Char} (h : '"' ∉ source) (hmore : Literal false more rest) :
    ∃ value, Literal false (source ++ '\x7d' :: more) value := by
  -- By length, since a backslash takes two characters at once.
  induction hn : source.length using Nat.strongRecOn generalizing source with
  | ind n ih =>
    rcases source with _ | ⟨c, source⟩
    · exact ⟨_, .char (by decide) (by decide) (by simp) hmore⟩
    obtain ⟨hc, hsource⟩ := List.ne_and_not_mem_of_not_mem_cons h
    by_cases hb : c = '\\'
    · subst hb
      rcases source with _ | ⟨d, source⟩
      · exact ⟨_, .escaped '\x7d' hmore⟩
      · obtain ⟨value, hvalue⟩ := ih source.length (by simp [← hn]) (List.ne_and_not_mem_of_not_mem_cons hsource).2 rfl
        exact ⟨_, .escaped d hvalue⟩
    · obtain ⟨value, hvalue⟩ := ih source.length (by simp [← hn]) hsource rfl
      exact ⟨_, .char (Ne.symm hc) hb (by simp) hvalue⟩

end Format

namespace Lexer

/-- The body of a format string can stand between the quotes of a string, if no quote is in its expressions. -/
theorem FormatBody.literal {k : Nat} {body : List Char} {placed : List (Nat × Token)} (h : FormatBody k body placed)
    (hquote : ∀ q ∈ placed, q.2.kind = .formatCode → '"' ∉ q.2.text.toList) :
    ∃ value, Format.Literal false body value := by
  induction h with
  | nil => exact ⟨_, .nil⟩
  | text hraw _ _ _ ih =>
    obtain ⟨value, hvalue⟩ := ih fun q hq => hquote q (List.mem_cons_of_mem _ hq)
    exact ⟨_, hraw.append hvalue⟩
  | @code k source more p placed _ _ ih =>
    obtain ⟨value, hvalue⟩ := ih fun q hq => hquote q (List.mem_cons_of_mem _ hq)
    have hsource : '"' ∉ source := by simpa using hquote _ (List.mem_cons_self ..) rfl
    obtain ⟨value, hvalue⟩ := Format.literal_of_not_mem hsource hvalue
    exact ⟨_, .char (by decide) (by decide) (by simp) (.char (by decide) (by decide) (by simp) hvalue)⟩

/-- A format string closes what it opens, if no quote is in its expressions. -/
theorem closed_of_format {more rest : List Char} {made : Position → List Token}
    (h : Chunk ('#' :: '"' :: more) rest made) (p : Position)
    (hquote : ∀ tok ∈ made p, tok.kind = .formatCode → '"' ∉ tok.text.toList) :
    Format.Closed ('#' :: '"' :: more) := by
  cases h with
  | word _ hw => exact absurd (hw '"' (by simp)) (by decide)
  | @format ps _ hs =>
    have hbody := formatBody_of_pieces (pieces_of_scan hs) 0 (p.after ['#', '"'])
    obtain ⟨value, hvalue⟩ := hbody.literal fun q hq hk => by
      refine hquote q.2 ?_ hk
      have hmem : q.2 ∈ pieceTokens (p.after ['#', '"']) ps := by
        rw [← tokens_placedPieces 0]
        exact List.mem_map_of_mem hq
      exact List.mem_cons_of_mem _ (List.mem_append_left _ hmem)
    exact .char (by decide) (by decide) (by decide) (.quoted hvalue .nil)

/-! ## Braces among tokens -/

/-- The kinds of the curly braces. -/
def IsBrace (kind : Token.Kind) : Prop := kind = .opening .curly ∨ kind = .closing .curly

theorem not_isBrace_wordKind (w : List Char) : ¬ IsBrace (wordKind w) := by
  unfold wordKind literalKind?
  grind [IsBrace]

theorem not_isBrace_formatTokens (ps : List Format.Piece) (p : Position) : ∀ tok ∈ formatTokens ps p, ¬ IsBrace tok.kind := by
  have hpieces (q : Position) : ∀ tok ∈ pieceTokens q ps, ¬ IsBrace tok.kind := by
    induction ps generalizing q with
    | nil => simp [pieceTokens]
    | cons piece ps ih =>
      refine List.forall_mem_cons.2 ⟨?_, ih _⟩
      cases piece <;> simp [IsBrace, Format.Piece.isCode]
  refine List.forall_mem_cons.2 ⟨by simp [IsBrace], List.forall_mem_append.2 ⟨hpieces _, ?_⟩⟩
  exact List.forall_mem_singleton.2 (by simp [IsBrace])

/-- The number of curly braces that are open behind a token. -/
def braceStep (depth : Nat) (tok : Token) : Option Nat :=
  if tok.kind = .opening .curly then some (depth + 1)
  else if tok.kind = .closing .curly then
    match depth with
    | 0 => none
    | d + 1 => some d
  else some depth

/-- The number of curly braces that are open behind tokens. There is none if a brace is closed that was not opened. -/
def bracesBehind (depth : Nat) (tokens : List Token) : Option Nat := tokens.foldlM braceStep depth

/-- The curly braces among tokens are balanced, and nest properly. -/
def BracesBalanced (tokens : List Token) : Prop := bracesBehind 0 tokens = some 0

instance (tokens : List Token) : Decidable (BracesBalanced tokens) := inferInstanceAs (Decidable (_ = _))

theorem bracesBehind_append_of_not_isBrace {front : List Token} (h : ∀ tok ∈ front, ¬ IsBrace tok.kind) (depth : Nat)
    (tokens : List Token) :
    bracesBehind depth (front ++ tokens) = bracesBehind depth tokens := by
  induction front with
  | nil => rfl
  | cons tok front ih =>
    obtain ⟨htok, hfront⟩ := List.forall_mem_cons.1 h
    have hstep : braceStep depth tok = some depth := by simp_all [braceStep, IsBrace]
    simpa [bracesBehind, hstep] using ih hfront

theorem bracesBehind_concat_eof (depth : Nat) (tokens : List Token) (p : Position) :
    bracesBehind depth (tokens ++ [.eofAt p]) = bracesBehind depth tokens := by
  have hstep (d : Nat) : braceStep d (.eofAt p) = some d := rfl
  simp [bracesBehind, List.foldlM_append, hstep]

/-! ## The chunks of an expression -/

/-- The chunks of a text, in their order, and the tokens they make. -/
inductive Chunks : List Char → List (List Char) → (Position → List Token) → Prop
  | nil : Chunks [] [] fun _ => []
  | cons {front rest : List Char} {chunks : List (List Char)} {made more : Position → List Token} :
      Chunk front rest made → Chunks rest chunks more →
      Chunks (front ++ rest) (front :: chunks) fun p => made p ++ more (p.after front)

/-- A text can be lexed exactly if it has chunks. -/
theorem lexes_iff_chunks {cs : List Char} {made : Position → List Token} :
    Lexes cs made ↔ ∃ chunks, Chunks cs chunks made := by
  constructor
  · intro h
    induction h with
    | nil => exact ⟨_, .nil⟩
    | chunk hc _ ih =>
      obtain ⟨chunks, hchunks⟩ := ih
      exact ⟨_, .cons hc hchunks⟩
  · rintro ⟨chunks, h⟩
    induction h with
    | nil => exact .nil
    | cons hc _ ih => exact .chunk hc ih

/-- A chunk of an expression is a curly brace, or the count goes through it and it makes no curly brace. -/
theorem brace_or_passes {front rest : List Char} {made : Position → List Token} (h : Chunk front rest made)
    (hcomment : front.head? ≠ some ';') (hformat : ['#', '"'] <+: front → Format.Closed front) :
    (front = ['\x7b'] ∧ ∀ p, ∃ tok, made p = [tok] ∧ tok.kind = .opening .curly) ∨
      (front = ['\x7d'] ∧ ∀ p, ∃ tok, made p = [tok] ∧ tok.kind = .closing .curly) ∨
      (Format.Passes front ∧ ∀ p, ∀ tok ∈ made p, ¬ IsBrace tok.kind) := by
  cases h with
  | @separator c _ hs =>
    have hchar (d : Char) (hd : Text.isSeparator d = false) : c ≠ d := by
      rintro rfl
      simp [hd] at hs
    exact .inr (.inr ⟨Format.passes_char (hchar _ rfl) (hchar _ rfl) (hchar _ rfl), by simp⟩)
  | comment => exact absurd rfl hcomment
  | string hs =>
    have hclosed := Format.Closed.quoted (literal_of_stringSpan hs) .nil
    exact .inr (.inr ⟨hclosed.passes, by simp [IsBrace]⟩)
  | format hs => exact .inr (.inr ⟨(hformat (List.prefix_append ['#', '"'] _)).passes, not_isBrace_formatTokens _⟩)
  | @single c kind _ hk =>
    -- Of the characters that are tokens by themselves only the curly braces are counted.
    by_cases hopen : c = '\x7b'
    · subst hopen
      exact .inl ⟨rfl, fun p => ⟨_, rfl, (Option.some.inj hk).symm⟩⟩
    by_cases hclose : c = '\x7d'
    · subst hclose
      exact .inr (.inl ⟨rfl, fun p => ⟨_, rfl, (Option.some.inj hk).symm⟩⟩)
    have hquote : c ≠ '"' := by
      rintro rfl
      cases hk
    have hkind : ¬ IsBrace kind := by
      unfold singleKind? at hk
      grind [IsBrace]
    exact .inr (.inr ⟨Format.passes_char hclose hopen hquote, by simpa using hkind⟩)
  | word hne hw =>
    exact .inr (.inr ⟨Format.passes_of_word hw, by simpa using not_isBrace_wordKind _⟩)

/-- The count of braces comes to the end of an expression exactly if its tokens close the curly braces that are open. -/
theorem codeSpan_eq_some_iff_of_chunks {cs : List Char} {chunks : List (List Char)} {made : Position → List Token}
    (h : Chunks cs chunks made) (hcomment : ∀ chunk ∈ chunks, chunk.head? ≠ some ';')
    (hformat : ∀ chunk ∈ chunks, ['#', '"'] <+: chunk → Format.Closed chunk) (p : Position) (depth : Nat) (rest : List Char) :
    Format.codeSpan depth false (cs ++ '\x7d' :: rest) = some (cs, rest) ↔ bracesBehind depth (made p) = some 0 := by
  induction h generalizing p depth with
  | nil => cases depth <;> simp [Format.codeSpan, bracesBehind]
  | @cons front cs chunks made more hc _ ih =>
    obtain ⟨hfront, hcomment⟩ := List.forall_mem_cons.1 hcomment
    obtain ⟨hclosed, hformat⟩ := List.forall_mem_cons.1 hformat
    have ih := ih hcomment hformat (p.after front)
    rw [List.append_assoc]
    rcases brace_or_passes hc hfront hclosed with ⟨rfl, hmade⟩ | ⟨rfl, hmade⟩ | ⟨hpass, hmade⟩
    · obtain ⟨tok, htok, hk⟩ := hmade p
      simpa [Format.codeSpan, htok, bracesBehind, braceStep, hk] using ih (depth + 1)
    · obtain ⟨tok, htok, hk⟩ := hmade p
      cases depth with
      | zero => simp [Format.codeSpan, htok, bracesBehind, braceStep, hk]
      | succ depth => simpa [Format.codeSpan, htok, bracesBehind, braceStep, hk] using ih depth
    · rw [bracesBehind_append_of_not_isBrace (hmade p), ← ih depth, hpass]
      simp

/-! ## Embedded expressions -/

/-- A format string of one expression, as it is written. -/
def embedded (e : String) : String := "#\"#\x7b" ++ e ++ "\x7d\""

/-- The tokens of a format string of one expression, and the one that ends the text. -/
def embeddedTokens (e : String) : List Token :=
  let behind := Position.start.after (embedded e).toList
  [⟨.formatStart, "#\"", ⟨1, 1⟩⟩, ⟨.formatCode, e, ⟨1, 5⟩⟩, ⟨.formatEnd, "\"", behind⟩, .eofAt behind]

theorem toList_embedded (e : String) :
    (embedded e).toList = '#' :: '"' :: '#' :: '\x7b' :: (e.toList ++ ['\x7d', '"']) := by
  simp [embedded]

/-- The first expression of a format string that begins with one. -/
theorem scan_code {cs : List Char} {s : Format.Scan} (h : Format.scan true ('#' :: '\x7b' :: cs) = .ok s) :
    ∃ source rest more, Format.codeSpan 0 false cs = some (source, rest) ∧ s.pieces = .code source :: more := by
  have hp := pieces_of_scan h
  cases hspan : Format.codeSpan 0 false cs with
  | none =>
    rw [Format.pieces_unclosed (Format.textRun_code true cs) hspan] at hp
    cases hp
  | some span =>
    obtain ⟨source, rest⟩ := span
    rw [Format.pieces_code (Format.textRun_code true cs) hspan] at hp
    split at hp
    · cases hp
    · obtain ⟨hs, -⟩ := Prod.mk.inj (Except.ok.inj hp)
      exact ⟨source, rest, _, rfl, hs.symm⟩

theorem scan_of_closed {cs : List Char} (hblank : cs.all Text.isBlank = false) (h : Format.Closed cs) (rest : List Char) :
    Format.scan true ('#' :: '\x7b' :: (cs ++ '\x7d' :: '"' :: rest)) = .ok ⟨[.code cs], rest⟩ := by
  have hquote : Format.pieces true ('"' :: rest) = .ok ([], rest) := Format.pieces_quote (Format.textRun_quote rest)
  have hpieces := Format.pieces_code (Format.textRun_code true (cs ++ '\x7d' :: '"' :: rest))
    ((Format.codeSpan_eq_some_iff ('"' :: rest)).2 h)
  rw [hquote] at hpieces
  simp [Format.scan, hpieces, Format.literal, Format.Piece.isCode, Format.Piece.isBlankCode, hblank]

/-- An expression is embedded whole exactly if it closes its own braces and quotes. -/
theorem lex_embedded_iff {e : String} (hblank : e.toList.all Text.isBlank = false) :
    (lex (embedded e)).complete = .ok (embeddedTokens e) ↔ Format.Closed e.toList := by
  rw [lex, lexAt, complete_eq_ok, toList_embedded, tokensFrom_format]
  constructor
  · rintro ⟨hf, htokens⟩
    cases hscan : Format.scan true ('#' :: '\x7b' :: (e.toList ++ ['\x7d', '"'])) with
    | error cause =>
      rw [hscan] at hf
      cases hf
    | ok s =>
      rw [hscan] at htokens
      obtain ⟨source, rest, more, hspan, hpieces⟩ := scan_code hscan
      have hsource : String.ofList source = e := by
        simp [hpieces, pieceTokens, Lexed.prepend, embeddedTokens, Format.Piece.content] at htokens
        exact htokens.2.1.2.1
      obtain rfl : source = e.toList := by rw [← hsource, String.toList_ofList]
      obtain rfl : rest = ['"'] := by simpa using (Format.codeSpan_append hspan).symm
      exact (Format.codeSpan_eq_some_iff _).1 hspan
  · intro h
    rw [scan_of_closed hblank h []]
    refine ⟨by simp [tokensFrom_nil], ?_⟩
    simp [tokensFrom_nil, pieceTokens, Lexed.prepend, embeddedTokens, toList_embedded, Format.Piece.content,
      Format.Piece.isCode, Format.Piece.lead, Format.Piece.written, Format.Piece.body, Format.Piece.tail,
      Position.after_append]
    decide

/-- An expression that can be lexed, with no comment and with format strings that close what they open, is embedded whole
exactly if its curly braces are balanced. -/
theorem lex_embedded_iff_balanced {e : String} {origin : Position} {tokens : List Token} {chunks : List (List Char)}
    {made : Position → List Token} (hlex : (lexAt origin e).complete = .ok tokens) (hchunks : Chunks e.toList chunks made)
    (hblank : e.toList.all Text.isBlank = false) (hcomment : ∀ chunk ∈ chunks, chunk.head? ≠ some ';')
    (hformat : ∀ chunk ∈ chunks, ['#', '"'] <+: chunk → Format.Closed chunk) :
    (lex (embedded e)).complete = .ok (embeddedTokens e) ↔ BracesBalanced tokens := by
  have hmade := lexAt_complete.2 ⟨made, lexes_iff_chunks.2 ⟨_, hchunks⟩, Eq.refl (made origin ++ _)⟩
  obtain rfl := Except.ok.inj (hmade.symm.trans hlex)
  rw [lex_embedded_iff hblank, ← Format.codeSpan_eq_some_iff [],
    codeSpan_eq_some_iff_of_chunks hchunks hcomment hformat origin, BracesBalanced, bracesBehind_concat_eof]

/-- A string and a format string between braces, each with a brace of its own. -/
def nestedSource : String := "\x7bf \"\x7d\" #\"#\x7bx\x7d\"\x7d"

def nestedTokens : List Token :=
  [⟨.opening .curly, "\x7b", ⟨1, 1⟩⟩, ⟨.symbol, "f", ⟨1, 2⟩⟩, ⟨.string, "\x7d", ⟨1, 4⟩⟩, ⟨.formatStart, "#\"", ⟨1, 8⟩⟩,
    ⟨.formatCode, "x", ⟨1, 12⟩⟩, ⟨.formatEnd, "\"", ⟨1, 15⟩⟩, ⟨.closing .curly, "\x7d", ⟨1, 15⟩⟩]

def nestedChunks : List (List Char) :=
  [['\x7b'], ['f'], [' '], ['"', '\x7d', '"'], [' '], ['#', '"', '#', '\x7b', 'x', '\x7d', '"'], ['\x7d']]

theorem chunks_nestedSource : ∃ made, Chunks nestedSource.toList nestedChunks made ∧ made ⟨1, 1⟩ = nestedTokens := by
  have hword : Chunk ['f'] " \"\x7d\" #\"#\x7bx\x7d\"\x7d".toList _ :=
    .word (by simp) (List.all_eq_true.1 rfl) (by rintro c ⟨rfl⟩; decide) (by simp)
  have hspan : stringSpan (['\x7d'] ++ '"' :: " #\"#\x7bx\x7d\"\x7d".toList) = some (['\x7d'], ['\x7d'], _) := rfl
  have hx : Format.Closed ['x'] := .char (by decide) (by decide) (by decide) .nil
  have hscan : Format.scan true ([Format.Piece.code ['x']].flatMap Format.Piece.written ++ '"' :: ['\x7d']) = _ :=
    scan_of_closed rfl hx ['\x7d']
  have hclose : Chunks ['\x7d'] [['\x7d']] _ := .cons (.single rfl) .nil
  exact ⟨_, .cons (.single rfl) (.cons hword (.cons (.separator rfl) (.cons (.string hspan) (.cons (.separator rfl)
    (.cons (.format hscan) hclose))))), by decide⟩

theorem lex_embedded_iff_balanced_nestedSource : ∃ made,
    (lexAt ⟨1, 1⟩ nestedSource).complete = .ok (nestedTokens ++ [.eofAt ⟨1, 16⟩]) ∧
      Chunks nestedSource.toList nestedChunks made ∧ nestedSource.toList.all Text.isBlank = false ∧
      (∀ chunk ∈ nestedChunks, chunk.head? ≠ some ';') ∧
      (∀ chunk ∈ nestedChunks, ['#', '"'] <+: chunk → Format.Closed chunk) ∧
      BracesBalanced (nestedTokens ++ [.eofAt ⟨1, 16⟩]) ∧
      ((lex (embedded nestedSource)).complete = .ok (embeddedTokens nestedSource) ↔
        BracesBalanced (nestedTokens ++ [.eofAt ⟨1, 16⟩])) := by
  obtain ⟨made, hchunks, hmade⟩ := chunks_nestedSource
  have hlex : (lexAt ⟨1, 1⟩ nestedSource).complete = .ok (nestedTokens ++ [.eofAt ⟨1, 16⟩]) :=
    lexAt_complete.2 ⟨made, lexes_iff_chunks.2 ⟨_, hchunks⟩, by rw [hmade]; rfl⟩
  have hclosed : Format.Closed ['#', '"', '#', '\x7b', 'x', '\x7d', '"'] := by
    have hx : '"' ∉ ['#', '\x7b', 'x'] := by decide
    obtain ⟨value, hraw⟩ := Format.literal_of_not_mem hx .nil
    exact .char (by decide) (by decide) (by decide) (.quoted hraw .nil)
  have hformat : ∀ chunk ∈ nestedChunks, ['#', '"'] <+: chunk → Format.Closed chunk := by
    simp [nestedChunks, hclosed]
  exact ⟨made, hlex, hchunks, rfl, by decide, hformat, by decide,
    lex_embedded_iff_balanced hlex hchunks rfl (by decide) hformat⟩

/-- A format string with a string in its expression. The count takes the first quote of that string for the closing quote of
the format string, and so does not see that a brace stands in the string. -/
def crossedSource : String := "#\"#\x7b \"\x7d\" \x7d\""

def crossedTokens : List Token :=
  [⟨.formatStart, "#\"", ⟨1, 1⟩⟩, ⟨.formatCode, " \"\x7d\" ", ⟨1, 5⟩⟩, ⟨.formatEnd, "\"", ⟨1, 12⟩⟩]

theorem toList_crossedSource : crossedSource.toList = ['#', '"', '#', '\x7b', ' ', '"', '\x7d', '"', ' ', '\x7d', '"'] := rfl

theorem chunks_crossedSource : ∃ made,
    Chunks crossedSource.toList [crossedSource.toList] made ∧ made ⟨1, 1⟩ = crossedTokens := by
  have hcode : Format.Closed [' ', '"', '\x7d', '"', ' '] := by
    have hraw : Format.Literal false ['\x7d'] ['\x7d'] := .char (by decide) (by decide) (by simp) .nil
    exact .char (by decide) (by decide) (by decide) (.quoted hraw (.char (by decide) (by decide) (by decide) .nil))
  have hscan : Format.scan true ([Format.Piece.code [' ', '"', '\x7d', '"', ' ']].flatMap Format.Piece.written ++ ['"']) = _ :=
    scan_of_closed rfl hcode []
  rw [toList_crossedSource]
  exact ⟨_, .cons (.format hscan) .nil, by decide⟩

/-- A format string that is an expression by itself and has no curly braces among its tokens may not be embedded whole. -/
theorem lex_embedded_crossedSource_ne :
    (lex crossedSource).complete = .ok (crossedTokens ++ [.eofAt ⟨1, 12⟩]) ∧
      (∃ made, Chunks crossedSource.toList [crossedSource.toList] made) ∧
      BracesBalanced (crossedTokens ++ [.eofAt ⟨1, 12⟩]) ∧ crossedSource.toList.all Text.isBlank = false ∧
      crossedSource.toList.head? ≠ some ';' ∧
      (lex (embedded crossedSource)).complete ≠ .ok (embeddedTokens crossedSource) := by
  obtain ⟨made, hchunks, hmade⟩ := chunks_crossedSource
  have hlex : (lexAt ⟨1, 1⟩ crossedSource).complete = .ok (crossedTokens ++ [.eofAt ⟨1, 12⟩]) :=
    lexAt_complete.2 ⟨made, lexes_iff_chunks.2 ⟨_, hchunks⟩, by rw [hmade]; rfl⟩
  have hblank : crossedSource.toList.all Text.isBlank = false := by
    rw [toList_crossedSource]
    rfl
  have hhead : crossedSource.toList.head? ≠ some ';' := by
    rw [toList_crossedSource]
    decide
  refine ⟨hlex, ⟨made, hchunks⟩, by decide, hblank, hhead, ?_⟩
  rw [ne_eq, lex_embedded_iff hblank, ← Format.codeSpan_eq_some_iff [], toList_crossedSource]
  decide

end Lexer

end Lisplet
