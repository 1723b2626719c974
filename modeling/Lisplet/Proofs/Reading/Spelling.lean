import Lisplet.Proofs.Number.ReadBack
import Lisplet.Proofs.Reading.Chunks
import Lisplet.Term.Reader
/-!
# Terms that have a spelling

`Term.Spelled` says what every term that was read from a text is like: its symbols are words that
read as symbols, it holds no finished value, and the parts of its format strings are texts and
expressions as the scan leaves them. `Term.Plain` says which of these terms can be told from their
source again. Neither looks at places.

The second half is about the characters of a spelling: what a word, a number and a string read as
when something that cannot go on with them follows (`Ends`).
-/
namespace Lisplet

/-- A character that a string can hold and still be read back from its quoted form. -/
def Text.IsQuotable (c : Char) : Prop := 0x20 ≤ c.toNat ∨ c = '\n' ∨ c = '\r' ∨ c = '\t'

/-- A word that reads as a symbol. -/
def Lexer.IsSymbolWord (w : List Char) : Prop :=
  w ≠ [] ∧ (∀ c ∈ w, isWordChar c) ∧ wordKind w = .symbol

/-- Whether a part of a format string is an expression. -/
def Part.isCode {α : Type} : Part α → Bool
  | .text _ => false
  | .code _ => true

namespace Term

variable {α : Type}

/-- A symbol of nothing but characters of a class. -/
def IsSymbolOf (blank : Char → Bool) : Term α → Prop
  | symbol _ name => name.toList.all blank
  | _ => False

mutual

/-- What a term is like that was read from a text. -/
def Spelled : Term α → Prop
  | number _ _ | string _ _ | boolean _ _ | nil _ => True
  | symbol _ name => Lexer.IsSymbolWord name.toList
  | list _ ts => SpelledAll ts
  | marked _ _ t => Spelled t
  | format _ ps => SpelledParts false ps ∧ ps.any Part.isCode
  | embedded _ _ => False
termination_by structural t => t

/-- A row of terms as they are read. -/
def SpelledAll : List (Term α) → Prop
  | [] => True
  | t :: ts => Spelled t ∧ SpelledAll ts
termination_by structural ts => ts

/-- The parts of a format string as they are read: no text is empty, and none follows another. -/
def SpelledParts (behindText : Bool) : List (Part α) → Prop
  | [] => True
  | .text s :: ps => behindText = false ∧ s ≠ "" ∧ SpelledParts true ps
  | .code t :: ps => Spelled t ∧ SpelledParts false ps
termination_by structural ps => ps

end

mutual

/-- A term whose source tells everything about it. Numbers are finite, strings hold no control
character without an escape of its own, format strings do not nest (`inside` holds within one), their
text does not look like an expression, and no expression of theirs is a symbol of `blank` characters. -/
def Plain (blank : Char → Bool) (inside : Bool) : Term α → Prop
  | number _ x => Number.IsFinite x
  | string _ s => ∀ c ∈ s.toList, Text.IsQuotable c
  | list _ ts => PlainAll blank inside ts
  | marked _ _ t => Plain blank inside t
  | format _ ps => inside = false ∧ PlainParts blank ps
  | symbol _ _ | boolean _ _ | nil _ | embedded _ _ => True
termination_by structural t => t

/-- A row of plain terms. -/
def PlainAll (blank : Char → Bool) (inside : Bool) : List (Term α) → Prop
  | [] => True
  | t :: ts => Plain blank inside t ∧ PlainAll blank inside ts
termination_by structural ts => ts

/-- The parts of a plain format string. -/
def PlainParts (blank : Char → Bool) : List (Part α) → Prop
  | [] => True
  | .text s :: ps => ¬ ['#', '\x7b'] <:+: s.toList ∧ PlainParts blank ps
  | .code t :: ps => Plain blank true t ∧ ¬ IsSymbolOf blank t ∧ PlainParts blank ps
termination_by structural ps => ps

end

mutual

/-- What is plain within a format string is plain everywhere. -/
theorem plain_of_inside {blank : Char → Bool} : (t : Term α) → t.Plain blank true → t.Plain blank false
  | number _ _, h | string _ _, h | symbol _ _, h | boolean _ _, h | nil _, h | embedded _ _, h => h
  | list _ ts, h => plainAll_of_inside ts h
  | marked _ _ t, h => plain_of_inside t h
  | format _ _, h => absurd h.1 (by decide)
termination_by structural t => t

theorem plainAll_of_inside {blank : Char → Bool} :
    (ts : List (Term α)) → PlainAll blank true ts → PlainAll blank false ts
  | [], h => h
  | t :: ts, h => ⟨plain_of_inside t h.1, plainAll_of_inside ts h.2⟩
termination_by structural ts => ts

end

end Term

namespace Lexer

/-- Text that cannot go on with a word in front of it, nor make a format string of it. -/
def Ends (rest : List Char) : Prop := ∀ c, rest.head? = some c → isWordChar c = false ∧ c ≠ '"'

theorem ends_nil : Ends [] := by simp [Ends]

theorem ends_space (rest : List Char) : Ends (' ' :: rest) := by
  rintro c ⟨rfl⟩
  decide

theorem ends_bracket (rest : List Char) : Ends (')' :: rest) := by
  rintro c ⟨rfl⟩
  decide

/-! ## Words -/

/-- A whole word is one token. -/
theorem tokensFrom_wholeWord {w rest : List Char} (hne : w ≠ []) (hw : ∀ c ∈ w, isWordChar c) (he : Ends rest)
    (p : Position) :
    tokensFrom p (w ++ rest) = (tokensFrom (p.after w) rest).prepend [⟨wordKind w, String.ofList w, p⟩] :=
  tokensFrom_chunk (.word hne hw (fun c hc => (he c hc).1) fun _ hq => (he '"' hq).2 rfl) p

/-! ## Fixed words -/

theorem isWordChar_boolean (b : Bool) : ∀ c ∈ Text.Word.boolean b, isWordChar c := by
  refine List.all_eq_true.1 ?_
  cases b <;> rfl

theorem isWordChar_nil : ∀ c ∈ Text.Word.nil, isWordChar c := List.all_eq_true.1 rfl

/-! ## Numbers -/

theorem isWordChar_of_isDigit {c : Char} (h : c.isDigit) : isWordChar c := by
  have hne : ∀ d : Char, d.isDigit = false → c ≠ d := by
    rintro d hd rfl
    rw [h] at hd
    cases hd
  have hk : singleKind? c = none := by
    simp [singleKind?, hne '(' rfl, hne ')' rfl, hne '[' rfl, hne ']' rfl, hne '\x7b' rfl, hne '\x7d' rfl,
      hne '\'' rfl, hne '\x60' rfl, hne ',' rfl]
  simp [isWordChar_iff, Text.isSeparator, hk, hne ' ' rfl, hne '\t' rfl, hne '\n' rfl, hne '\r' rfl,
    hne '"' rfl, hne ';' rfl]

theorem isWordChar_of_isNumeralChar {c : Char} (h : Number.IsNumeralChar c) : isWordChar c := by
  rcases h with h | rfl | rfl | rfl | rfl | rfl
  · exact isWordChar_of_isDigit h
  all_goals decide

/-- A numeral is none of the fixed words, so its kind is that of a number. -/
theorem wordKind_of_isNumeral {cs : List Char} (h : Number.isNumeral cs) : wordKind cs = .number := by
  have hne : ∀ w : List Char, Number.isNumeral w = false → String.ofList cs ≠ String.ofList w := by
    intro w hw he
    rw [String.ofList_injective he, hw] at h
    cases h
  have hlit : literalKind? (String.ofList cs) = none := by
    simp only [literalKind?]
    rw [if_neg, if_neg]
    · rintro (h | h)
      · exact hne ['n', 'i', 'l'] (by decide) h
      · exact hne ['e', 'm', 'p', 't', 'y'] (by decide) h
    · rintro (h | h | h | h)
      · exact hne ['t', 'r', 'u', 'e'] (by decide) h
      · exact hne ['f', 'a', 'l', 's', 'e'] (by decide) h
      · exact hne ['#', 't'] (by decide) h
      · exact hne ['#', 'f'] (by decide) h
  simp [wordKind, hlit, h]

theorem tokensFrom_numeral {w rest : List Char} (h : Number.isNumeral w) (he : Ends rest) (p : Position) :
    tokensFrom p (w ++ rest) =
      (tokensFrom (p.after w) rest).prepend [⟨.number, String.ofList w, p⟩] := by
  have hne : w ≠ [] := by
    rintro rfl
    exact absurd h (by decide)
  rw [tokensFrom_wholeWord hne (fun c hc => isWordChar_of_isNumeralChar (Number.isNumeralChar_of_isNumeral h c hc)) he,
    wordKind_of_isNumeral h]

/-! ## Strings -/

/-- A character is quoted by a backslash and one more character, or stands for itself. -/
theorem escape_cases {c : Char} (h : Text.IsQuotable c) :
    (∃ e, Text.escape c = ['\\', e] ∧ Format.unescape e = c) ∨
      (Text.escape c = [c] ∧ c ≠ '"' ∧ c ≠ '\\') := by
  by_cases h₁ : c = '"'
  · exact .inl ⟨'"', by simp [Text.escape, h₁], by simp [Format.unescape, h₁]⟩
  by_cases h₂ : c = '\\'
  · exact .inl ⟨'\\', by simp [Text.escape, h₂], by simp [Format.unescape, h₂]⟩
  by_cases h₃ : c = '\n'
  · exact .inl ⟨'n', by simp [Text.escape, h₃], by simp [Format.unescape, h₃]⟩
  by_cases h₄ : c = '\r'
  · exact .inl ⟨'r', by simp [Text.escape, h₄], by simp [Format.unescape, h₄]⟩
  by_cases h₅ : c = '\t'
  · exact .inl ⟨'t', by simp [Text.escape, h₅], by simp [Format.unescape, h₅]⟩
  have hc : ¬ c.toNat < 0x20 := by
    rcases h with h | h | h | h
    · omega
    · exact absurd h h₃
    · exact absurd h h₄
    · exact absurd h h₅
  have h₆ : c ≠ '\x08' := by rintro rfl; exact hc (by decide)
  have h₇ : c ≠ '\x0c' := by rintro rfl; exact hc (by decide)
  exact .inr ⟨by simp [Text.escape, h₁, h₂, h₃, h₄, h₅, h₆, h₇, hc], h₁, h₂⟩

theorem stringSpan_escape {c : Char} (h : Text.IsQuotable c) (rest : List Char) :
    stringSpan (Text.escape c ++ rest) =
      (stringSpan rest).map fun (raw, value, r) => (Text.escape c ++ raw, c :: value, r) := by
  rcases escape_cases h with ⟨e, he, rfl⟩ | ⟨he, hq, hb⟩
  · rw [he]
    exact stringSpan_backslash e rest
  · rw [he]
    exact stringSpan_char hq hb rest

/-- A quoted string reads as the text it quotes. -/
theorem stringSpan_flatMap_escape {cs : List Char} (h : ∀ c ∈ cs, Text.IsQuotable c) (rest : List Char) :
    stringSpan (cs.flatMap Text.escape ++ '"' :: rest) = some (cs.flatMap Text.escape, cs, rest) := by
  induction cs with
  | nil => exact stringSpan_quote rest
  | cons c cs ih =>
    rw [List.flatMap_cons, List.append_assoc, stringSpan_escape (h c (by simp)),
      ih (fun d hd => h d (List.mem_cons_of_mem c hd))]
    rfl

theorem tokensFrom_quoted {cs : List Char} (h : ∀ c ∈ cs, Text.IsQuotable c) (p : Position) (rest : List Char) :
    tokensFrom p (Text.quote cs ++ rest) =
      (tokensFrom (p.after (Text.quote cs)) rest).prepend [⟨.string, String.ofList cs, p⟩] := by
  have e : Text.quote cs ++ rest = '"' :: (cs.flatMap Text.escape ++ '"' :: rest) := by simp [Text.quote]
  rw [e, tokensFrom_quote, stringSpan_flatMap_escape h]
  simp [Text.quote]

end Lexer

end Lisplet
