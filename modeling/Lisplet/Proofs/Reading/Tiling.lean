import Lisplet.Proofs.Reading.Standing
/-!
# Tokens tile their text

A text that can be lexed is covered by spans, one for each bracket, quote mark, word, string and format string, with nothing
but separators and comments between them. A `Tile` is such a span by its two offsets, with the tokens that are made of it and
the offset at which each of them stands. `IsTile` says what the span looks like in the text, and `Tiling` that tiles follow
one another through the text.

The lexer goes chunk by chunk: a chunk is a tile or it is skipped (`tile_or_skipped`), so the chunks of a whole text make a
tiling of it (`tiling_of_lexes`). Main statement: the tokens of a text are those of its tiles in turn, and stand where counting
lines and columns from the origin leads (`tiling_of_complete`).
-/
namespace Lisplet

/-! ## Spans of a text -/

namespace Text

/-- The part of a text from one offset up to another. -/
def slice (cs : List Char) (start stop : Nat) : List Char := (cs.take stop).drop start

theorem slice_self (cs : List Char) (k : Nat) : slice cs k k = [] := by simp [slice]

theorem slice_append (front mid rest : List Char) :
    slice (front ++ (mid ++ rest)) front.length (front.length + mid.length) = mid := by
  rw [slice, ← List.append_assoc, ← List.length_append, List.take_left, List.drop_left]

theorem slice_append_drop (cs : List Char) {start stop : Nat} (h : start ≤ stop) :
    slice cs start stop ++ cs.drop stop = cs.drop start := by
  rw [slice, List.drop_take]
  conv_rhs => rw [← List.take_append_drop (stop - start) (cs.drop start), List.drop_drop]
  congr 2
  omega

/-- A slice that starts earlier has more in front. -/
theorem slice_of_drop {cs mid rest : List Char} {k stop : Nat} (h : cs.drop k = mid ++ rest)
    (hs : k + mid.length ≤ stop) : slice cs k stop = mid ++ slice cs (k + mid.length) stop := by
  have hrest : cs.drop (k + mid.length) = rest := by rw [← List.drop_drop, h, List.drop_left]
  rw [slice, slice, List.drop_take, List.drop_take, h, hrest, List.take_append,
    List.take_of_length_le (by omega)]
  congr 2
  omega

end Text

/-! ## Text between quotes, and source between braces -/

namespace Format

/-- Text as it is written between quotes, and the text it denotes. A backslash takes the next character with it, and no other
quote stands inside; in a format string no expression is opened either. -/
inductive Literal (format : Bool) : List Char → List Char → Prop
  | nil : Literal format [] []
  | char {c : Char} {raw value : List Char} : c ≠ '"' → c ≠ '\\' →
      (format = true → c = '#' → raw.head? ≠ some '\x7b') → Literal format raw value →
      Literal format (c :: raw) (c :: value)
  | escaped (e : Char) {raw value : List Char} : Literal format raw value →
      Literal format ('\\' :: e :: raw) (unescape e :: value)

/-- Source in which each brace and each quote is closed, braces between quotes apart. -/
inductive Closed : List Char → Prop
  | nil : Closed []
  | char {c : Char} {cs : List Char} : c ≠ '\x7d' → c ≠ '\x7b' → c ≠ '"' → Closed cs → Closed (c :: cs)
  | quoted {raw value cs : List Char} : Literal false raw value → Closed cs → Closed ('"' :: (raw ++ '"' :: cs))
  | braced {inside cs : List Char} : Closed inside → Closed cs → Closed ('\x7b' :: (inside ++ '\x7d' :: cs))

/-- Source that closes a number of braces that were opened in front of it. -/
def Closing : Nat → List Char → Prop
  | 0, cs => Closed cs
  | depth + 1, cs => ∃ inside more, cs = inside ++ '\x7d' :: more ∧ Closed inside ∧ Closing depth more

/-- What can stand in front of closed source can stand in front of source that closes braces. -/
theorem Closing.append {front : List Char} (hfront : ∀ cs, Closed cs → Closed (front ++ cs)) {depth : Nat}
    {cs : List Char} (h : Closing depth cs) : Closing depth (front ++ cs) := by
  cases depth with
  | zero => exact hfront cs h
  | succ depth =>
    obtain ⟨inside, more, rfl, hinside, hmore⟩ := h
    exact ⟨front ++ inside, more, by simp, hfront inside hinside, hmore⟩

theorem Closing.braced {depth : Nat} {cs : List Char} (h : Closing (depth + 1) cs) : Closing depth ('\x7b' :: cs) := by
  obtain ⟨inside, more, rfl, hinside, hmore⟩ := h
  have hfront : ∀ cs, Closed cs → Closed ('\x7b' :: (inside ++ ['\x7d']) ++ cs) := by
    intro cs hcs
    simpa using Closed.braced hinside hcs
  simpa using hmore.append hfront

/-- The source of an expression closes the braces that are open, and in a string literal that literal first. -/
theorem closing_of_codeSpan {depth : Nat} {inString : Bool} {cs source rest : List Char}
    (h : codeSpan depth inString cs = some (source, rest)) :
    if inString then ∃ raw value more, source = raw ++ '"' :: more ∧ Literal false raw value ∧ Closing depth more
    else Closing depth source := by
  fun_induction codeSpan depth inString cs generalizing source with
  | case1 => simp at h
  | case2 => simp at h
  | case3 depth e rest' ih =>
    -- A backslash takes the next character with it into the literal, a quote included.
    obtain ⟨s, hs, rfl⟩ := span_of_map (f := ('\\' :: e :: ·)) h
    obtain ⟨raw, value, more, rfl, hraw, hmore⟩ := ih hs
    exact ⟨'\\' :: e :: raw, _, more, by simp, .escaped e hraw, hmore⟩
  | case4 depth c rest' hc ih =>
    obtain ⟨s, hs, rfl⟩ := span_of_map h
    have ih := ih hs
    by_cases hq : c = '"'
    · subst hq
      exact ⟨[], [], s, rfl, .nil, by simpa using ih⟩
    · obtain ⟨raw, value, more, rfl, hraw, hmore⟩ := by simpa [hq] using ih
      exact ⟨c :: raw, c :: value, more, by simp, .char hq hc (by simp) hraw, hmore⟩
  | case5 =>
    obtain ⟨rfl, rfl⟩ := by simpa using h
    exact Closed.nil
  | case6 d rest' ih =>
    obtain ⟨s, hs, rfl⟩ := span_of_map h
    exact ⟨[], s, rfl, .nil, ih hs⟩
  | case7 depth rest' _ ih =>
    obtain ⟨s, hs, rfl⟩ := span_of_map h
    exact (ih hs).braced
  | case8 depth c rest' hc hc' ih =>
    obtain ⟨s, hs, rfl⟩ := span_of_map h
    have ih := ih hs
    by_cases hq : c = '"'
    · subst hq
      -- The quote opens a literal, which is closed before the braces are.
      obtain ⟨raw, value, more, rfl, hraw, hmore⟩ := by simpa using ih
      have hfront : ∀ cs, Closed cs → Closed ('"' :: (raw ++ ['"']) ++ cs) := by
        intro cs hcs
        simpa using Closed.quoted hraw hcs
      simpa using hmore.append hfront
    · have hrest : Closing depth s := by simpa [hq] using ih
      have hfront : ∀ cs, Closed cs → Closed ([c] ++ cs) := fun cs hcs => .char hc hc' hq hcs
      exact hrest.append hfront

theorem literal_of_textRun {cs raw value : List Char} {stop : Stop} (h : textRun true cs = (raw, value, stop))
    (hs : stop ≠ .ended) : Literal true raw value := by
  generalize hq : true = quoted at h
  fun_induction textRun quoted cs generalizing raw value with
  | case1 => simp_all
  | case2 c rest hc =>
    obtain ⟨rfl, rfl, -⟩ := by simpa using h
    exact .nil
  | case3 c => simp_all
  | case4 c _ hc e rest' raw' value' stop' heq ih =>
    obtain ⟨rfl, rfl, rfl⟩ := by simpa using h
    obtain rfl : c = '\\' := by simpa [← hq] using hc
    exact .escaped e (ih heq)
  | case5 c rest _ _ hc =>
    obtain ⟨rfl, rfl, -⟩ := by simpa using h
    exact .nil
  | case6 c rest hquote hslash hcode raw' value' stop' heq ih =>
    obtain ⟨rfl, rfl, rfl⟩ := by simpa using h
    subst hq
    refine .char (by simpa using hquote) (by simpa using hslash) (fun _ hc hhead => ?_) (ih heq)
    -- What the run goes on with stands behind the `#`, so a brace there would have opened an expression.
    have happ := textRun_append true rest
    rw [heq] at happ
    obtain ⟨tail, rfl⟩ := List.head?_eq_some_iff.1 hhead
    exact hcode (by rw [happ, hc]; rfl)

end Format

namespace Lexer

theorem literal_of_stringSpan {cs raw value rest : List Char} (h : stringSpan cs = some (raw, value, rest)) :
    Format.Literal false raw value := by
  fun_induction stringSpan cs generalizing raw value with
  | case1 => simp at h
  | case2 =>
    obtain ⟨rfl, rfl, rfl⟩ := by simpa using h
    exact .nil
  | case3 => simp at h
  | case4 e rest' _ ih =>
    obtain ⟨⟨raw', value', r⟩, hs, heq⟩ := Option.map_eq_some_iff.1 h
    obtain ⟨rfl, rfl, rfl⟩ := by simpa using heq
    exact .escaped e (ih hs)
  | case5 c rest' hq hb ih =>
    obtain ⟨⟨raw', value', r⟩, hs, heq⟩ := Option.map_eq_some_iff.1 h
    obtain ⟨rfl, rfl, rfl⟩ := by simpa using heq
    exact .char hq hb (by simp) (ih hs)

/-! ## Tiles -/

/-- A span of a text, from `start` up to but not including `stop`, and the tokens that are made of it, each with the offset in
the text at which it stands. -/
structure Tile where
  start : Nat
  stop : Nat
  placed : List (Nat × Token)

/-- The tokens that are made of a tile. -/
def Tile.tokens (t : Tile) : List Token := t.placed.map Prod.snd

/-- Each token of a tile stands where counting from the origin to its offset leads. -/
def Tile.Counts (origin : Position) (cs : List Char) (t : Tile) : Prop :=
  ∀ q ∈ t.placed, q.2.position = origin.counted (cs.take q.1)

/-- The body of a format string, which begins at an offset and ends at its closing quote, and the tokens in it. A text runs up
to the next expression or to the end; an expression stands between its braces. -/
inductive FormatBody : Nat → List Char → List (Nat × Token) → Prop
  | nil {k : Nat} : FormatBody k [] []
  | text {k : Nat} {raw value more : List Char} {p : Position} {placed : List (Nat × Token)} :
      Format.Literal true raw value → value ≠ [] → (more = [] ∨ ['#', '\x7b'] <+: more) →
      FormatBody (k + raw.length) more placed →
      FormatBody k (raw ++ more) ((k, ⟨.string, String.ofList value, p⟩) :: placed)
  | code {k : Nat} {source more : List Char} {p : Position} {placed : List (Nat × Token)} : Format.Closed source →
      FormatBody (k + 2 + source.length + 1) more placed →
      FormatBody k ('#' :: '\x7b' :: (source ++ '\x7d' :: more)) ((k + 2, ⟨.formatCode, String.ofList source, p⟩) :: placed)

/-- What the span of a tile is in a text. A word goes neither further to the left nor to the right; a string or a format
string lies between its quotes, and the token that ends a format string stands behind the closing one. -/
inductive IsTile (cs : List Char) : Tile → Prop
  | delimiter {k : Nat} {c : Char} {kind : Token.Kind} {p : Position} : Text.slice cs k (k + 1) = [c] →
      singleKind? c = some kind → IsTile cs ⟨k, k + 1, [(k, ⟨kind, c.toString, p⟩)]⟩
  | word {start stop : Nat} {w : List Char} {p : Position} : Text.slice cs start stop = w → w ≠ [] →
      (∀ c ∈ w, isWordChar c) → (∀ c, (cs.take start).getLast? = some c → isWordChar c = false) →
      (∀ c, (cs.drop stop).head? = some c → isWordChar c = false) →
      IsTile cs ⟨start, stop, [(start, ⟨wordKind w, String.ofList w, p⟩)]⟩
  | string {start stop : Nat} {raw value : List Char} {p : Position} :
      Text.slice cs start stop = '"' :: (raw ++ ['"']) → Format.Literal false raw value →
      IsTile cs ⟨start, stop, [(start, ⟨.string, String.ofList value, p⟩)]⟩
  | format {start stop : Nat} {body : List Char} {placed : List (Nat × Token)} {p q : Position} :
      Text.slice cs start stop = '#' :: '"' :: (body ++ ['"']) → FormatBody (start + 2) body placed →
      IsTile cs ⟨start, stop, (start, ⟨.formatStart, "#\"", p⟩) :: (placed ++ [(stop, ⟨.formatEnd, "\"", q⟩)])⟩

/-- Separators and comments in front of the rest of a text. A comment runs up to a line feed or to the end of the text. -/
inductive Skipped (behind : List Char) : List Char → Prop
  | nil : Skipped behind []
  | separator {c : Char} {gap : List Char} : Text.isSeparator c → Skipped behind gap → Skipped behind (c :: gap)
  | comment {text gap : List Char} : (∀ c ∈ text, c ≠ '\n') → (∀ c, (gap ++ behind).head? = some c → c = '\n') →
      Skipped behind gap → Skipped behind (';' :: (text ++ gap))

/-- Tiles that follow one another through a text from an offset on. In front of each of them and behind the last are only
separators and comments. -/
inductive Tiling (cs : List Char) : Nat → List Tile → Prop
  | done {k : Nat} : Skipped [] (cs.drop k) → Tiling cs k []
  | tile {k : Nat} {t : Tile} {ts : List Tile} : k ≤ t.start → Skipped (cs.drop t.start) (Text.slice cs k t.start) →
      t.start < t.stop → t.stop ≤ cs.length → IsTile cs t → Tiling cs t.stop ts → Tiling cs k (t :: ts)

/-- The tiles of a tiling are in order, and none overlaps another. -/
theorem Tiling.ordered {cs : List Char} {k : Nat} {ts : List Tile} (h : Tiling cs k ts) :
    (∀ t ∈ ts, k ≤ t.start) ∧ ts.Pairwise fun a b => a.stop ≤ b.start := by
  induction h with
  | done _ => simp
  | tile hk _ hlt _ _ _ ih =>
    refine ⟨List.forall_mem_cons.2 ⟨hk, fun t ht => ?_⟩, List.pairwise_cons.2 ih⟩
    have := ih.1 t ht
    omega

/-- What is skipped in front of a tiling widens its first gap. -/
theorem Tiling.skip {cs mid rest : List Char} {k : Nat} {ts : List Tile} (h : cs.drop k = mid ++ rest)
    (hskip : ∀ gap behind, gap ++ behind = rest → Skipped behind gap → Skipped behind (mid ++ gap))
    (ht : Tiling cs (k + mid.length) ts) : Tiling cs k ts := by
  have hrest : cs.drop (k + mid.length) = rest := by rw [← List.drop_drop, h, List.drop_left]
  cases ht with
  | done hgap =>
    rw [hrest] at hgap
    exact .done (h ▸ hskip rest [] (List.append_nil rest) hgap)
  | tile hk hgap hlt hle htile hmore =>
    refine .tile (by omega) ?_ hlt hle htile hmore
    rw [Text.slice_of_drop h hk]
    exact hskip _ _ (by rw [Text.slice_append_drop cs hk, hrest]) hgap

/-! ## Format strings -/

/-- The tokens of the pieces of a format string whose body starts at an offset and a place, with the offsets at which they
stand. -/
def placedPieces : Nat → Position → List Format.Piece → List (Nat × Token)
  | _, _, [] => []
  | k, p, piece :: more =>
    (k + piece.lead.length, ⟨if piece.isCode then .formatCode else .string, String.ofList piece.content,
      p.after piece.lead⟩) :: placedPieces (k + piece.written.length) (p.after piece.written) more

theorem tokens_placedPieces (k : Nat) (p : Position) (ps : List Format.Piece) :
    (placedPieces k p ps).map Prod.snd = pieceTokens p ps := by
  induction ps generalizing k p with
  | nil => rfl
  | cons piece ps ih => simp [placedPieces, pieceTokens, ih]

/-- The tokens in a format string stand where their offsets are. -/
theorem position_placedPieces (origin : Position) (front rest : List Char) (ps : List Format.Piece) :
    ∀ q ∈ placedPieces front.length (origin.after front) ps,
      q.2.position = origin.after ((front ++ (ps.flatMap Format.Piece.written ++ rest)).take q.1) := by
  induction ps generalizing front with
  | nil => simp [placedPieces]
  | cons piece ps ih =>
    have htext : front ++ ((piece :: ps).flatMap Format.Piece.written ++ rest) =
        front ++ piece.written ++ (ps.flatMap Format.Piece.written ++ rest) := by simp
    refine List.forall_mem_cons.2 ⟨?_, ?_⟩
    · have hlead : front ++ ((piece :: ps).flatMap Format.Piece.written ++ rest) =
          front ++ piece.lead ++ (piece.body ++ piece.tail ++ (ps.flatMap Format.Piece.written ++ rest)) := by
        simp [Format.Piece.written]
      rw [hlead, ← List.length_append, List.take_left, Position.after_append]
    · have ih := ih (front ++ piece.written)
      rw [List.length_append, Position.after_append] at ih
      rw [htext]
      exact ih

theorem formatBody_literal {k : Nat} {p : Position} {raw value : List Char} (more : List Format.Piece)
    (hraw : Format.Literal true raw value)
    (hnext : more.flatMap Format.Piece.written = [] ∨ ['#', '\x7b'] <+: more.flatMap Format.Piece.written)
    (hmore : ∀ k p, FormatBody k (more.flatMap Format.Piece.written) (placedPieces k p more)) :
    FormatBody k ((Format.literal raw value ++ more).flatMap Format.Piece.written)
      (placedPieces k p (Format.literal raw value ++ more)) := by
  cases value with
  | nil => exact hmore k p
  | cons c value =>
    have hwritten : (Format.Piece.text raw (c :: value)).written = raw := by
      simp [Format.Piece.written, Format.Piece.lead, Format.Piece.body, Format.Piece.tail]
    have htext := FormatBody.text (p := p) hraw (by simp) hnext (hmore (k + raw.length) (p.after raw))
    simpa [Format.literal, placedPieces, hwritten, Format.Piece.lead, Format.Piece.isCode, Format.Piece.content] using htext

theorem pieces_of_scan {quoted : Bool} {cs : List Char} {s : Format.Scan} (h : Format.scan quoted cs = .ok s) :
    Format.pieces quoted cs = .ok (s.pieces, s.rest) := by
  unfold Format.scan at h
  split at h
  next => simp at h
  next ps rest hp =>
    split at h
    · obtain rfl := by simpa using h
      exact hp
    · simp at h

/-- The pieces of a format string make its body. -/
theorem formatBody_of_pieces {cs rest : List Char} {ps : List Format.Piece} (h : Format.pieces true cs = .ok (ps, rest))
    (k : Nat) (p : Position) : FormatBody k (ps.flatMap Format.Piece.written) (placedPieces k p ps) := by
  generalize hq : true = quoted at h
  fun_induction Format.pieces quoted cs generalizing ps rest k p with
  | case1 => simp at h
  | case2 => simp_all
  | case3 cs raw value left run =>
    obtain ⟨rfl, rfl⟩ := by simpa using h
    subst hq
    have hraw := Format.literal_of_textRun run (by simp)
    -- The body ends behind a text, with nothing left to place.
    simpa using formatBody_literal [] hraw (.inl rfl) fun _ _ => .nil
  | case4 => simp at h
  | case5 => simp at h
  | case6 cs raw value left run source left' span more left'' hmore ih =>
    obtain ⟨rfl, rfl⟩ := by simpa using h
    subst hq
    have hraw := Format.literal_of_textRun run (by simp)
    have hclosed : Format.Closed source := by simpa [Format.Closing] using Format.closing_of_codeSpan span
    have hwritten : (Format.Piece.code source).written = '#' :: '\x7b' :: (source ++ ['\x7d']) := by
      simp [Format.Piece.written, Format.Piece.lead, Format.Piece.body, Format.Piece.tail]
    refine formatBody_literal _ hraw (.inr ⟨source ++ ['\x7d'] ++ more.flatMap Format.Piece.written, ?_⟩) fun k p => ?_
    · simp [hwritten]
    · have hcode := FormatBody.code (k := k) (p := p.after ['#', '\x7b']) hclosed
        (ih (k + 2 + source.length + 1) (p.after (Format.Piece.code source).written) hmore)
      simpa [placedPieces, hwritten, Format.Piece.lead, Format.Piece.isCode, Format.Piece.content, Nat.add_assoc,
        Nat.add_comm, Nat.add_left_comm] using hcode

/-! ## From chunks to tiles -/

/-- No word goes on from a text into what follows it. -/
def Apart (front rest : List Char) : Prop :=
  ∀ c d, front.getLast? = some c → rest.head? = some d → isWordChar c → isWordChar d = false

/-- Behind a chunk no word goes on. -/
theorem apart_chunk {mid rest : List Char} {made : Position → List Token} (h : Chunk mid rest made) (front : List Char) :
    Apart (front ++ mid) rest := by
  intro c d hc hd hw
  obtain ⟨hsep, hsingle, hquote, -⟩ := isWordChar_iff.1 hw
  cases h with
  | separator hs =>
    obtain rfl := by simpa using hc
    exact absurd hs hsep
  | comment ht hr =>
    obtain rfl := hr d hd
    decide
  | string hs =>
    obtain rfl := by simpa [List.getLast?_cons] using hc
    exact absurd rfl hquote
  | format hs =>
    obtain rfl := by simpa [List.getLast?_cons] using hc
    exact absurd rfl hquote
  | single hk =>
    obtain rfl := by simpa using hc
    simp [hk] at hsingle
  | word hne hall hr hf => exact hr d hd

/-- A word, in a text where it does not go on to either side. -/
theorem isTile_word {front w rest : List Char} {p : Position} (hne : w ≠ []) (hw : ∀ c ∈ w, isWordChar c)
    (hr : ∀ c, rest.head? = some c → isWordChar c = false) (ha : Apart front (w ++ rest)) :
    IsTile (front ++ (w ++ rest)) ⟨front.length, front.length + w.length,
      [(front.length, ⟨wordKind w, String.ofList w, p⟩)]⟩ := by
  refine .word (Text.slice_append front w rest) hne hw ?_ ?_
  · intro c hc
    rw [List.take_left] at hc
    obtain ⟨d, w, rfl⟩ := List.exists_cons_of_ne_nil hne
    by_contra hword
    have hd := ha c d hc rfl (by simpa using hword)
    simp [hw d (by simp)] at hd
  · intro c hc
    rw [← List.append_assoc, ← List.length_append, List.drop_left] at hc
    exact hr c hc

/-- A token counts where its tile starts. -/
theorem counts_start {origin : Position} {front rest : List Char} {stop : Nat} {kind : Token.Kind} {text : String} :
    Tile.Counts origin (front ++ rest) ⟨front.length, stop, [(front.length, ⟨kind, text, origin.after front⟩)]⟩ := by
  simp [Tile.Counts, Position.after_eq_counted]

/-- The tokens of a format string that stands behind the front of a text, each with its offset. -/
def placedFormat (origin : Position) (front : List Char) (ps : List Format.Piece) : List (Nat × Token) :=
  let body := ps.flatMap Format.Piece.written
  let stop := front.length + (body.length + 3)
  (front.length, ⟨.formatStart, "#\"", origin.after front⟩) ::
    (placedPieces (front.length + 2) ((origin.after front).after ['#', '"']) ps ++
      [(stop, ⟨.formatEnd, "\"", ((origin.after front).after ['#', '"']).after (body ++ ['"'])⟩)])

theorem counts_format {origin : Position} {front rest : List Char} {ps : List Format.Piece} {stop : Nat} :
    Tile.Counts origin (front ++ ('#' :: '"' :: (ps.flatMap Format.Piece.written ++ ['"']) ++ rest))
      ⟨front.length, stop, placedFormat origin front ps⟩ := by
  intro q hq
  rw [← Position.after_eq_counted]
  rcases List.mem_cons.1 hq with rfl | hq
  · simp
  rcases List.mem_append.1 hq with hq | hq
  · have hpieces := position_placedPieces origin (front ++ ['#', '"']) ('"' :: rest) ps q
      (by simpa [Position.after_append] using hq)
    simpa using hpieces
  · obtain rfl := List.mem_singleton.1 hq
    have hlength : front.length + ((ps.flatMap Format.Piece.written).length + 3) =
        (front ++ '#' :: '"' :: (ps.flatMap Format.Piece.written ++ ['"'])).length := by simp
    rw [← List.append_assoc, hlength, List.take_left]
    simp [Position.after_append]

/-- A chunk of a text is skipped, or it is a tile with the tokens it makes. -/
theorem tile_or_skipped (origin : Position) {front mid rest : List Char} {made : Position → List Token}
    (h : Chunk mid rest made) (ha : Apart front (mid ++ rest)) :
    (made (origin.after front) = [] ∧ ∀ gap behind, gap ++ behind = rest → Skipped behind gap → Skipped behind (mid ++ gap)) ∨
      ∃ t, t.start = front.length ∧ t.stop = front.length + mid.length ∧ IsTile (front ++ (mid ++ rest)) t ∧
        t.Counts origin (front ++ (mid ++ rest)) ∧ t.tokens = made (origin.after front) := by
  cases h with
  | separator hs => exact .inl ⟨rfl, fun gap behind _ hgap => .separator hs hgap⟩
  | comment ht hr =>
    refine .inl ⟨rfl, ?_⟩
    rintro gap behind rfl hgap
    exact .comment ht hr hgap
  | @string raw value _ hs =>
    exact .inr ⟨_, rfl, rfl, .string (Text.slice_append _ _ _) (literal_of_stringSpan hs), counts_start, rfl⟩
  | @format ps _ hs =>
    have hbody := formatBody_of_pieces (pieces_of_scan hs) (front.length + 2) ((origin.after front).after ['#', '"'])
    have hstop : ('#' :: '"' :: (ps.flatMap Format.Piece.written ++ ['"'])).length =
        (ps.flatMap Format.Piece.written).length + 3 := by simp
    refine .inr ⟨⟨_, _, placedFormat origin front ps⟩, rfl, rfl, ?_, counts_format, ?_⟩
    · rw [placedFormat, ← hstop]
      exact .format (Text.slice_append _ _ _) hbody
    · simp [Tile.tokens, placedFormat, formatTokens, tokens_placedPieces]
  | single hk => exact .inr ⟨_, rfl, rfl, .delimiter (Text.slice_append _ _ _) hk, counts_start, rfl⟩
  | word hne hw hr hf => exact .inr ⟨_, rfl, rfl, isTile_word hne hw hr ha, counts_start, rfl⟩

/-- The chunks of the rest of a text make a tiling of it. -/
theorem tiling_of_lexes (origin : Position) (front : List Char) {rest : List Char} {made : Position → List Token}
    (h : Lexes rest made) (ha : Apart front rest) :
    ∃ ts, Tiling (front ++ rest) front.length ts ∧ (∀ t ∈ ts, t.Counts origin (front ++ rest)) ∧
      ts.flatMap Tile.tokens = made (origin.after front) := by
  induction h generalizing front with
  | nil => exact ⟨[], .done (by simpa using Skipped.nil), by simp, rfl⟩
  | @chunk mid rest made more hc _ ih =>
    obtain ⟨ts, hts, hcounts, htokens⟩ := ih _ (apart_chunk hc front)
    rw [List.append_assoc, List.length_append] at hts
    simp only [List.append_assoc] at hcounts
    rw [Position.after_append] at htokens
    rcases tile_or_skipped origin hc ha with ⟨hnone, hskip⟩ | ⟨t, hstart, hstop, htile, ht, hmade⟩
    · refine ⟨ts, hts.skip (by simp) hskip, hcounts, ?_⟩
      simp [htokens, hnone]
    · refine ⟨t :: ts, .tile hstart.ge ?_ ?_ ?_ htile (hstop ▸ hts), List.forall_mem_cons.2 ⟨ht, hcounts⟩, ?_⟩
      · rw [hstart, Text.slice_self]
        exact .nil
      · have := List.length_pos_of_ne_nil (chunk_ne_nil hc)
        omega
      · simp [hstop]
      · simp [htokens, hmade]

/-- The tokens of a text that can be lexed tile it. There are spans in order, none overlapping another, with only separators
and comments between them; the tokens are those of the spans one after the other and one that ends the text, and each stands
where counting from the origin leads. -/
theorem tiling_of_complete {origin : Position} {source : String} {tokens : List Token}
    (h : (lexAt origin source).complete = .ok tokens) :
    ∃ ts, Tiling source.toList 0 ts ∧ ts.Pairwise (fun a b => a.stop ≤ b.start) ∧
      (∀ t ∈ ts, t.Counts origin source.toList) ∧
      tokens = ts.flatMap Tile.tokens ++ [.eofAt (origin.counted source.toList)] ∧
      ∀ tok ∈ ts.flatMap Tile.tokens, tok.kind ≠ .eof := by
  obtain ⟨made, hl, rfl⟩ := lexAt_complete.1 h
  obtain ⟨ts, hts, hcounts, htokens⟩ := tiling_of_lexes origin [] hl (by simp [Apart])
  rw [Position.after_nil] at htokens
  refine ⟨ts, hts, hts.ordered.2, hcounts, ?_, ?_⟩
  · rw [htokens, Position.after_eq_counted]
  · rw [htokens]
    exact kind_ne_eof_of_grouped (grouped_of_lexes hl origin)

/-- A format string, a comment and a word that ends with the mark of a format string, in front of a string. -/
def crowdedSource : String := "#\"😀#\x7bx\x7d\";c\nb#\"q\""

def crowdedTokens : List Token :=
  [⟨.formatStart, "#\"", ⟨3, 5⟩⟩, ⟨.string, "😀", ⟨3, 7⟩⟩, ⟨.formatCode, "x", ⟨3, 11⟩⟩, ⟨.formatEnd, "\"", ⟨3, 14⟩⟩,
    ⟨.symbol, "b#", ⟨4, 1⟩⟩, ⟨.string, "q", ⟨4, 3⟩⟩]

theorem lexAt_crowdedSource : (lexAt ⟨3, 5⟩ crowdedSource).complete = .ok (crowdedTokens ++ [.eofAt ⟨4, 6⟩]) := by
  have h : crowdedSource.toList = '#' :: '"' :: "😀#\x7bx\x7d\";c\nb#\"q\"".toList := rfl
  rw [lexAt, h, tokensFrom_format]
  cbv

theorem tiling_of_complete_crowdedSource :
    (lexAt ⟨3, 5⟩ crowdedSource).complete = .ok (crowdedTokens ++ [.eofAt ⟨4, 6⟩]) ∧
      ∃ ts, Tiling crowdedSource.toList 0 ts ∧ ts.Pairwise (fun a b => a.stop ≤ b.start) ∧
        (∀ t ∈ ts, t.Counts ⟨3, 5⟩ crowdedSource.toList) ∧
        crowdedTokens ++ [.eofAt ⟨4, 6⟩] = ts.flatMap Tile.tokens ++ [.eofAt (Position.counted ⟨3, 5⟩ crowdedSource.toList)] ∧
        ∀ tok ∈ ts.flatMap Tile.tokens, tok.kind ≠ .eof :=
  ⟨lexAt_crowdedSource, tiling_of_complete lexAt_crowdedSource⟩

end Lexer

end Lisplet
