import Lisplet.Token.Format
import Lisplet.Number.Numeral
/-!
# From text to tokens

Separators and comments fall away; what is left are brackets and quote markers of one character,
strings, format strings, and words, which run to the next separator or delimiter. A word is a
boolean, the empty list, a number or a symbol. Reading stops at the first error and keeps the tokens
found before it; the tokens of a format string come only once all of it has been read.

Main statement: a string's source, its closing quote and the rest make up the text read
(`stringSpan_append`).
-/
namespace Lisplet.Lexer

/-- The kind of a token that is a single character. -/
def singleKind? (c : Char) : Option Token.Kind :=
  if c = '(' then some (.opening .round)
  else if c = ')' then some (.closing .round)
  else if c = '[' then some (.opening .square)
  else if c = ']' then some (.closing .square)
  else if c = '\x7b' then some (.opening .curly)
  else if c = '\x7d' then some (.closing .curly)
  else if c = '\'' then some (.marker .quote)
  else if c = '\x60' then some (.marker .quasiquote)
  else if c = ',' then some (.marker .unquote)
  else none

/-- The characters that end a word besides the separators. -/
def isDelimiter (c : Char) : Bool :=
  (singleKind? c).isSome || c == '"' || c == ';'

/-- The characters a word is made of. -/
def isWordChar (c : Char) : Bool := !Text.isSeparator c && !isDelimiter c

/-- The words that are no symbols, numbers apart. -/
def literalKind? (word : String) : Option Token.Kind :=
  if word = "true" ∨ word = "false" ∨ word = "#t" ∨ word = "#f" then some .boolean
  else if word = "nil" ∨ word = "empty" then some .nil
  else none

/-- The kind of a word. -/
def wordKind (word : List Char) : Token.Kind :=
  match literalKind? (String.ofList word) with
  | some kind => kind
  | none => if Number.isNumeral word then .number else .symbol

/-- Reads a string behind its opening quote: its text as written, the text it denotes, and what
follows the closing quote. -/
def stringSpan : List Char → Option (List Char × List Char × List Char)
  | [] => none
  | c :: rest =>
    if c = '"' then some ([], [], rest)
    else if c = '\\' then
      match rest with
      | [] => none
      | e :: rest' =>
        (stringSpan rest').map fun (raw, value, r) => (c :: e :: raw, Format.unescape e :: value, r)
    else (stringSpan rest).map fun (raw, value, r) => (c :: raw, c :: value, r)
termination_by structural cs => cs

theorem stringSpan_append {cs raw value rest : List Char}
    (h : stringSpan cs = some (raw, value, rest)) : cs = raw ++ '"' :: rest := by
  fun_induction stringSpan cs generalizing raw value with
  | case1 => simp at h
  | case2 =>
    obtain ⟨rfl, rfl, rfl⟩ := by simpa using h
    rfl
  | case3 => simp at h
  | case4 e rest' _ ih =>
    obtain ⟨⟨raw', value', r⟩, hs, heq⟩ := Option.map_eq_some_iff.1 h
    obtain ⟨rfl, rfl, rfl⟩ := by simpa using heq
    simp [ih hs]
  | case5 c rest' _ _ ih =>
    obtain ⟨⟨raw', value', r⟩, hs, heq⟩ := Option.map_eq_some_iff.1 h
    obtain ⟨rfl, rfl, rfl⟩ := by simpa using heq
    simp [ih hs]

/-- The tokens of the pieces of a format string whose body starts at `p`. -/
def pieceTokens : Position → List Format.Piece → List Token
  | _, [] => []
  | p, piece :: more =>
    ⟨if piece.isCode then .formatCode else .string, String.ofList piece.content,
      p.after piece.lead⟩ :: pieceTokens (p.after piece.written) more

/-- The tokens found, and the error that stopped the reading, if one did. -/
structure Lexed where
  tokens : List Token
  failure : Option SyntaxError
deriving DecidableEq, Repr

/-- More tokens in front. -/
def Lexed.prepend (front : List Token) (l : Lexed) : Lexed :=
  { l with tokens := front ++ l.tokens }

/-- All tokens, or the error that stopped the reading. -/
def Lexed.complete (l : Lexed) : Except SyntaxError (List Token) :=
  match l.failure with
  | none => .ok l.tokens
  | some e => .error e

/-- Reads the tokens of a text that starts at `p`. -/
def tokensFrom (p : Position) (cs : List Char) : Lexed :=
  match cs with
  | [] => ⟨[.eofAt p], none⟩
  | c :: rest =>
    if Text.isSeparator c then tokensFrom (p.advance c) rest
    else if c = ';' then
      tokensFrom ((p.advance c).after (rest.takeWhile (· != '\n'))) (rest.dropWhile (· != '\n'))
    else if c = '"' then
      match _span : stringSpan rest with
      | none => ⟨[], some ⟨.unclosedString, p⟩⟩
      | some (raw, value, rest') =>
        (tokensFrom (p.after (c :: raw ++ ['"'])) rest').prepend
          [⟨.string, String.ofList value, p⟩]
    else if c = '#' ∧ rest.head? = some '"' then
      match _scan : Format.scan true rest.tail with
      | .error cause => ⟨[], some ⟨cause, p⟩⟩
      | .ok scan =>
        let inside := p.after ['#', '"']
        let behind := inside.after (scan.pieces.flatMap Format.Piece.written ++ ['"'])
        (tokensFrom behind scan.rest).prepend
          (⟨.formatStart, "#\"", p⟩ :: pieceTokens inside scan.pieces ++ [⟨.formatEnd, "\"", behind⟩])
    else match singleKind? c with
      | some kind => (tokensFrom (p.advance c) rest).prepend [⟨kind, c.toString, p⟩]
      | none =>
        let word := c :: rest.takeWhile isWordChar
        (tokensFrom (p.after word) (rest.dropWhile isWordChar)).prepend
          [⟨wordKind word, String.ofList word, p⟩]
termination_by cs.length
decreasing_by
  · simp
  · have := (List.dropWhile_suffix (l := rest) (· != '\n')).length_le
    simp only [List.length_cons]; omega
  · rw [stringSpan_append _span]; simp; omega
  · have h := congrArg List.length (Format.scan_append _scan)
    simp [Format.closing] at h ⊢
    omega
  · simp
  · have := (List.dropWhile_suffix (l := rest) isWordChar).length_le
    simp only [List.length_cons]; omega

/-- The tokens of a text that starts at a given place of an enclosing one. -/
def lexAt (origin : Position) (source : String) : Lexed := tokensFrom origin source.toList

/-- The tokens of a text. -/
def lex (source : String) : Lexed := lexAt .start source

end Lisplet.Lexer
