import Lisplet.Proofs.Reading.Standing
/-!
# Texts joined at the end of a line

Whatever follows the end of a line changes nothing for the lexer in front of it, and starts afresh behind it. So a text that
can be read may be put in front of any other one, which then starts at the beginning of a later line (`lexAt_joined`), whether
it can be read or not.
-/
namespace Lisplet

/-- Behind the end of a line a new one begins. Its number grows by one for each end of a line that was passed. -/
theorem Position.after_line (p : Position) (cs : List Char) :
    p.after (cs ++ ['\n']) = ⟨p.line + (cs.count '\n' : Int) + 1, 1⟩ := by
  rw [after_append, after_eq_counted p cs]
  rfl

namespace Lexer

/-- Two texts with the end of a line between them are lexed one behind the other. -/
theorem lexes_newline {cs more : List Char} {front behind : Position → List Token} (hf : Lexes cs front)
    (hb : Lexes more behind) :
    Lexes (cs ++ '\n' :: more) fun p => front p ++ behind (p.after (cs ++ ['\n'])) := by
  induction hf with
  | nil =>
    have hline : Chunk ['\n'] more fun _ => [] := .separator (by decide)
    exact .chunk hline hb
  | chunk hc _ ih => simpa using Lexes.chunk (chunk_extend hc more) ih

/-- Behind a text that can be read and the end of a line, reading goes on as at the start of a text. -/
theorem tokensFrom_joined {cs : List Char} {made : Position → List Token} (h : Lexes cs made) (more : List Char)
    (p : Position) :
    tokensFrom p (cs ++ '\n' :: more) = (tokensFrom (p.after (cs ++ ['\n'])) more).prepend (made p) := by
  induction h generalizing p with
  | nil =>
    have hline : Chunk ['\n'] more fun _ => [] := .separator (by decide)
    exact tokensFrom_chunk hline p
  | @chunk front rest made behind hc _ ih =>
    rw [List.append_assoc, tokensFrom_chunk (chunk_extend hc more), ih, prepend_prepend, List.append_assoc,
      Position.after_append p front]

/-- The tokens of two texts with the end of a line between them, of which the first can be read: those of the first one
without its end, and then all that reading the second one gives from the line behind, the error included if there is one. -/
theorem lexAt_joined {origin : Position} {first : String} {tokens : List Token}
    (h : (lexAt origin first).complete = .ok tokens) (second : String) :
    tokens = tokens.dropLast ++ [.eofAt (origin.after first.toList)] ∧
      lexAt origin (first ++ "\n" ++ second) =
        (lexAt ⟨origin.line + (first.toList.count '\n' : Int) + 1, 1⟩ second).prepend tokens.dropLast := by
  obtain ⟨made, hl, rfl⟩ := lexAt_complete.1 h
  have hwhole : (first ++ "\n" ++ second).toList = first.toList ++ '\n' :: second.toList := by simp
  rw [List.dropLast_concat]
  refine ⟨rfl, ?_⟩
  rw [lexAt, hwhole, tokensFrom_joined hl, Position.after_line, lexAt]

/-- A comment, and a format string whose expression is on its second line. -/
def remarkedFormat : String := "; not \"read\n#\"a#\x7b\nb\x7d\""

/-- The tokens of the format string. -/
def remarkedTokens : List Token :=
  [⟨.formatStart, "#\"", ⟨4, 1⟩⟩, ⟨.string, "a", ⟨4, 3⟩⟩, ⟨.formatCode, "\nb", ⟨4, 6⟩⟩, ⟨.formatEnd, "\"", ⟨5, 4⟩⟩]

theorem lexAt_remarkedFormat :
    (lexAt ⟨3, 7⟩ remarkedFormat).complete = .ok (remarkedTokens ++ [.eofAt ⟨5, 4⟩]) := by
  decide +kernel

/-- A string that does not end fails on its own line, behind the tokens of the format string. -/
theorem lexAt_joined_remarkedFormat :
    (lexAt ⟨3, 7⟩ remarkedFormat).complete = .ok (remarkedTokens ++ [.eofAt ⟨5, 4⟩]) ∧
      lexAt ⟨3, 7⟩ (remarkedFormat ++ "\n" ++ " x \"") =
        ⟨remarkedTokens ++ [⟨.symbol, "x", ⟨6, 2⟩⟩], some ⟨.unclosedString, ⟨6, 4⟩⟩⟩ := by
  obtain ⟨-, hjoined⟩ := lexAt_joined lexAt_remarkedFormat " x \""
  have hsecond : lexAt ⟨6, 1⟩ " x \"" = ⟨[⟨.symbol, "x", ⟨6, 2⟩⟩], some ⟨.unclosedString, ⟨6, 4⟩⟩⟩ := by decide +kernel
  refine ⟨lexAt_remarkedFormat, hjoined.trans ?_⟩
  have hline : (⟨3 + (remarkedFormat.toList.count '\n' : Int) + 1, 1⟩ : Position) = ⟨6, 1⟩ := by decide
  rw [hline, hsecond]
  rfl

end Lexer

end Lisplet
