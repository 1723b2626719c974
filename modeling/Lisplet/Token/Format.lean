import Lisplet.SyntaxError
import Lisplet.Text.Words
import Lisplet.Text.Units
/-!
# The inside of a format string

A format string is literal text with embedded expressions, each opened by `#` and a brace and closed
by the brace that balances it; braces nest inside an expression and string literals are skipped. In a
quoted body escapes are resolved and a double quote ends the body; a raw body runs to the end of the
text and has no escapes. The result is a row of pieces that keep their own source, so nothing of the
body is lost. At least one expression is required and none may be blank.

Main statement: the pieces as written, the end of the body and the rest make up the text that was
read (`pieces_append`). A run of text and an embedded expression each leave less than they were given
(`textRun_shorter`, `codeSpan_shorter`), which is why the scan ends.
-/
namespace Lisplet.Format

open SyntaxError (Cause)

/-- The character an escaped character stands for. -/
def unescape (c : Char) : Char :=
  if c = 'n' then '\n' else if c = 't' then '\t' else if c = 'r' then '\r' else c

/-- A piece of a body: literal text, as written and as denoted, or the source of an expression. -/
inductive Piece where
  | text (raw value : List Char)
  | code (source : List Char)
deriving DecidableEq, Repr

namespace Piece

/-- What stands in the source before the contents of a piece. -/
def lead : Piece → List Char
  | text _ _ => []
  | code _ => ['#', '\x7b']

/-- The contents of a piece as they stand in the source. -/
def body : Piece → List Char
  | text raw _ => raw
  | code source => source

/-- What stands in the source behind the contents of a piece. -/
def tail : Piece → List Char
  | text _ _ => []
  | code _ => ['\x7d']

/-- A piece as it stands in the source. -/
def written (p : Piece) : List Char := p.lead ++ p.body ++ p.tail

/-- The text a piece hands on: denoted text, or an expression's source. -/
def content : Piece → List Char
  | text _ value => value
  | code source => source

/-- Whether a piece is an expression. -/
def isCode : Piece → Bool
  | text _ _ => false
  | code _ => true

/-- Whether a piece is an expression of blank characters only. -/
def isBlankCode : Piece → Bool
  | text _ _ => false
  | code source => source.all Text.isBlank

end Piece

/-- Reads an expression up to the brace that closes it: its source and what follows the brace.
`depth` counts the braces open inside, and `inString` holds between the quotes of a literal. -/
def codeSpan : Nat → Bool → List Char → Option (List Char × List Char)
  | _, _, [] => none
  | depth, true, c :: rest =>
    if c = '\\' then
      match rest with
      | [] => none
      | e :: rest' => (codeSpan depth true rest').map fun (s, r) => (c :: e :: s, r)
    else (codeSpan depth (c != '"') rest).map fun (s, r) => (c :: s, r)
  | depth, false, c :: rest =>
    if c = '\x7d' then
      match depth with
      | 0 => some ([], rest)
      | d + 1 => (codeSpan d false rest).map fun (s, r) => (c :: s, r)
    else if c = '\x7b' then (codeSpan (depth + 1) false rest).map fun (s, r) => (c :: s, r)
    else (codeSpan depth (c == '"') rest).map fun (s, r) => (c :: s, r)
termination_by structural _ _ cs => cs

/-- A span with more in front of its source is a span. -/
theorem span_of_map {f : List Char → List Char} {span : Option (List Char × List Char)} {source rest : List Char}
    (h : (span.map fun (s, r) => (f s, r)) = some (source, rest)) : ∃ s, span = some (s, rest) ∧ f s = source := by
  obtain ⟨⟨s, r⟩, hs, heq⟩ := Option.map_eq_some_iff.1 h
  obtain ⟨rfl, rfl⟩ := Prod.mk.inj heq
  exact ⟨s, hs, rfl⟩

/-- An expression's source and the rest make up the text read, a closing brace between them. -/
theorem codeSpan_append {depth : Nat} {inString : Bool} {cs source rest : List Char}
    (h : codeSpan depth inString cs = some (source, rest)) :
    cs = source ++ '\x7d' :: rest := by
  fun_induction codeSpan depth inString cs generalizing source with
  | case1 => simp at h
  | case2 => simp at h
  | case3 depth e rest' ih =>
    obtain ⟨s, hs, rfl⟩ := span_of_map (f := ('\\' :: e :: ·)) h
    simp [ih hs]
  | case4 depth c rest' _ ih =>
    obtain ⟨s, hs, rfl⟩ := span_of_map h
    simp [ih hs]
  | case5 =>
    obtain ⟨rfl, rfl⟩ := by simpa using h
    rfl
  | case6 d rest' ih =>
    obtain ⟨s, hs, rfl⟩ := span_of_map h
    simp [ih hs]
  | case7 depth rest' _ ih =>
    obtain ⟨s, hs, rfl⟩ := span_of_map h
    simp [ih hs]
  | case8 depth c rest' _ _ ih =>
    obtain ⟨s, hs, rfl⟩ := span_of_map h
    simp [ih hs]

theorem codeSpan_shorter {depth : Nat} {inString : Bool} {cs source rest : List Char}
    (h : codeSpan depth inString cs = some (source, rest)) : rest.length < cs.length := by
  rw [codeSpan_append h]; simp; omega

/-- What ends a run of literal text. -/
inductive Stop where
  /-- The closing quote; the rest follows it. -/
  | quote (rest : List Char)
  /-- The opening of an expression; the rest follows it. -/
  | code (rest : List Char)
  /-- The end of the source. -/
  | ended
deriving DecidableEq, Repr

namespace Stop

/-- What is left to read behind a stop. -/
def rest : Stop → List Char
  | quote rest => rest
  | code rest => rest
  | ended => []

/-- The mark that makes the stop, as it stands in the source. -/
def mark : Stop → List Char
  | quote _ => ['"']
  | code _ => ['#', '\x7b']
  | ended => []

end Stop

/-- Reads literal text: the text as written, the text it denotes, and what ends it. -/
def textRun (quoted : Bool) : List Char → List Char × List Char × Stop
  | [] => ([], [], .ended)
  | c :: rest =>
    if quoted && c == '"' then ([], [], .quote rest)
    else if quoted && c == '\\' then
      match rest with
      | [] => ([c], [], .ended)
      | e :: rest' =>
        let (raw, value, stop) := textRun quoted rest'
        (c :: e :: raw, unescape e :: value, stop)
    else if c == '#' && rest.head? == some '\x7b' then ([], [], .code rest.tail)
    else
      let (raw, value, stop) := textRun quoted rest
      (c :: raw, c :: value, stop)
termination_by structural cs => cs

/-- A run of text, the mark that ends it and the rest make up the text read. -/
theorem textRun_append (quoted : Bool) (cs : List Char) :
    cs = (textRun quoted cs).1 ++ (textRun quoted cs).2.2.mark ++ (textRun quoted cs).2.2.rest := by
  fun_induction textRun quoted cs with
  | case1 => rfl
  | case2 c rest h => simp_all [Stop.mark, Stop.rest]
  | case3 c => rfl
  | case4 c _ _ e rest' raw value stop heq ih => rw [heq] at ih; simpa using ih
  | case5 c rest _ _ h =>
    cases rest with
    | nil => simp at h
    | cons d rest => simp_all [Stop.mark, Stop.rest]
  | case6 c rest _ _ _ raw value stop heq ih => rw [heq] at ih; simpa using ih

theorem textRun_shorter {quoted : Bool} {cs rest : List Char} {raw value : List Char}
    (h : textRun quoted cs = (raw, value, .code rest)) : rest.length < cs.length := by
  have := textRun_append quoted cs
  rw [h] at this
  rw [this]; simp [Stop.mark, Stop.rest]; omega

/-- A run of text as a piece; an empty run makes none. -/
def literal (raw value : List Char) : List Piece :=
  if value.isEmpty then [] else [.text raw value]

/-- Splits a body into pieces, and returns them with the text behind the body. -/
def pieces (quoted : Bool) (cs : List Char) : Except Cause (List Piece × List Char) :=
  match _run : textRun quoted cs with
  | (raw, value, .ended) =>
    if quoted then .error .unclosedString else .ok (literal raw value, [])
  | (raw, value, .quote rest) => .ok (literal raw value, rest)
  | (raw, value, .code rest) =>
    match _span : codeSpan 0 false rest with
    | none => .error .unclosedInterpolation
    | some (source, rest') =>
      match pieces quoted rest' with
      | .error cause => .error cause
      | .ok (more, left) => .ok (literal raw value ++ .code source :: more, left)
termination_by cs.length
decreasing_by
  have h₁ := textRun_shorter _run
  have h₂ := codeSpan_shorter _span
  omega

/-- What ends a body: a quote, or nothing when the body is raw. -/
def closing (quoted : Bool) : List Char := if quoted then ['"'] else []

/-- Only a quoted body stops at a quote. -/
theorem quoted_of_textRun_quote {quoted : Bool} {cs raw value rest : List Char}
    (h : textRun quoted cs = (raw, value, .quote rest)) : quoted = true := by
  fun_induction textRun quoted cs generalizing raw value <;> simp_all

/-- A run that denotes no text was written as none, unless the source ends behind a backslash. -/
theorem raw_nil_of_textRun {quoted : Bool} {cs raw : List Char} {stop : Stop}
    (h : textRun quoted cs = (raw, [], stop)) (hs : quoted = false ∨ stop ≠ .ended) : raw = [] := by
  unfold textRun at h
  split at h
  · simp_all
  · split at h
    · simp_all
    · split at h
      · split at h <;> simp_all
      · split at h <;> simp_all

theorem written_literal {quoted : Bool} {cs raw value : List Char} {stop : Stop}
    (h : textRun quoted cs = (raw, value, stop)) (hs : quoted = false ∨ stop ≠ .ended) :
    (literal raw value).flatMap Piece.written = raw := by
  unfold literal
  cases value with
  | nil => simp [raw_nil_of_textRun h hs]
  | cons c value => simp [Piece.written, Piece.lead, Piece.body, Piece.tail]

/-- Nothing of a body is lost: its pieces as written, its end and the rest make up the text read. -/
theorem pieces_append {quoted : Bool} {cs : List Char} {ps : List Piece} {rest : List Char}
    (h : pieces quoted cs = .ok (ps, rest)) :
    cs = ps.flatMap Piece.written ++ closing quoted ++ rest := by
  fun_induction pieces quoted cs generalizing ps rest with
  | case1 => simp at h
  | case2 cs raw value run hq =>
    obtain ⟨rfl, rfl⟩ := by simpa using h
    rw [written_literal run (.inl (by simpa using hq))]
    have := textRun_append quoted cs
    rw [run] at this
    simpa [closing, hq, Stop.mark, Stop.rest] using this
  | case3 cs raw value left run =>
    obtain ⟨rfl, rfl⟩ := by simpa using h
    rw [written_literal run (.inr (by simp))]
    have := textRun_append quoted cs
    rw [run] at this
    simpa [closing, quoted_of_textRun_quote run, Stop.mark, Stop.rest] using this
  | case4 => simp at h
  | case5 => simp at h
  | case6 cs raw value left run source left' span more left'' hmore ih =>
    obtain ⟨rfl, rfl⟩ := by simpa using h
    have key := textRun_append quoted cs
    have tail := codeSpan_append span
    rw [ih hmore] at tail
    rw [List.flatMap_append, written_literal run (.inr (by simp))]
    simpa [run, Stop.mark, Stop.rest, Piece.written, Piece.lead, Piece.body, Piece.tail, tail]
      using key

/-- A body split into pieces, and the text behind it. -/
structure Scan where
  pieces : List Piece
  rest : List Char
deriving DecidableEq, Repr

/-- Splits a body and checks its expressions: there is one, and none is blank. -/
def scan (quoted : Bool) (cs : List Char) : Except Cause Scan :=
  match pieces quoted cs with
  | .error cause => .error cause
  | .ok (ps, rest) =>
    if ps.any Piece.isCode && !ps.any Piece.isBlankCode then .ok ⟨ps, rest⟩
    else .error .formatWithoutExpression

theorem scan_append {quoted : Bool} {cs : List Char} {s : Scan} (h : scan quoted cs = .ok s) :
    cs = s.pieces.flatMap Piece.written ++ closing quoted ++ s.rest := by
  unfold scan at h
  split at h
  next => simp at h
  next ps rest hp =>
    split at h
    · obtain rfl := by simpa using h
      exact pieces_append hp
    · simp at h

/-! ## Offsets -/

/-- A part of a body that is split by units: text as denoted, or the source of an expression. -/
inductive Fragment where
  | text (value : List UInt16)
  | code (source : List UInt16)
deriving DecidableEq, Repr

/-- The units of a piece in which a character stands for each. -/
def Piece.fragment : Piece → Fragment
  | text _ value => .text (value.map Text.charUnit)
  | code source => .code (source.map Text.charUnit)

/-- Each piece with the offset of its contents. -/
def offsets : Int → List Piece → List (Int × Fragment)
  | _, [] => []
  | start, p :: ps => (start + p.lead.length, p.fragment) :: offsets (start + p.written.length) ps

/-- Parts that start in front of the text, at `start`, with the text read there. -/
def withFront (start : Int) (front : List UInt16) : List (Int × Fragment) → List (Int × Fragment)
  | (_, .text value) :: parts => (start, .text (front ++ value)) :: parts
  | parts => (start, .text front) :: parts

/-- Splits the body that starts at an offset of a text, both in units: the parts with their offsets, and the offset
behind the body. An offset may lie in front of the text, where a word stands at each place, or inside a character. -/
def scanFrom (start : Int) (quoted : Bool) (source : List UInt16) :
    Except Cause (List (Int × Fragment) × Int) :=
  match scan quoted ((source.drop start.toNat).map Text.unitChar) with
  | .error cause => .error cause
  | .ok s =>
    let base := max start 0
    let placed := offsets base s.pieces
    let front := Text.codeUnits (List.replicate (-start).toNat Text.Word.undefined).flatten
    .ok (if front.isEmpty then placed else withFront start front placed,
      base + (s.pieces.flatMap Piece.written).length + (closing quoted).length)

end Lisplet.Format
