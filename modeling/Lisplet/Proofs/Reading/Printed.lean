import Lisplet.Proofs.Number.Plain
import Lisplet.Proofs.Reading.Derivations
import Lisplet.Value.Bridge
import Lisplet.Value.Equality
import Lisplet.Value.Printer
/-!
# Printed data reads back

Numbers, strings, booleans, symbols and lists of them are data (`Value.Datum`). Printed with its strings quoted, a datum is
the tokens of one form, whatever cannot go on with them follows, and that form stands for an equal value (`ReadsBack`). Each
kind of datum has its own lemma; a list is the only one that is made of others, and the list of the symbol `quote` and one
more is printed with a mark instead. Main statement: the text of a datum is read as one form, whose value equals the datum
(`readSource_repr`).
-/
namespace Lisplet

/-- A name that is lexed as one symbol of this name. -/
def Lexer.IsSymbolName (name : String) : Prop :=
  ∃ p q, (Lexer.lex name).complete = .ok [⟨.symbol, name, p⟩, .eofAt q]

/-- A symbol's name is a word. -/
theorem Lexer.IsSymbolName.isSymbolWord {name : String} (h : IsSymbolName name) : IsSymbolWord name.toList := by
  obtain ⟨p, q, hlex⟩ := h
  obtain ⟨made, hl, htokens⟩ := lexAt_complete.1 hlex
  have hsplit : [(⟨.symbol, name, p⟩ : Token)] ++ [.eofAt q] = made .start ++ [.eofAt _] := htokens
  obtain ⟨hmade, -⟩ := List.append_inj' hsplit rfl
  have hgroup := grouped_of_lexes hl .start
  rw [← hmade] at hgroup
  generalize hrow : [(⟨.symbol, name, p⟩ : Token)] = row at hgroup
  cases hgroup with
  | nil => cases hrow
  | single hsingle _ =>
    obtain ⟨rfl, -⟩ := List.cons.inj hrow
    exact hsingle.2.2.2.2 rfl
  | format => simp at hrow

namespace Value

/-- Data that can be printed and read: finite numbers, strings of characters that can be quoted, booleans, symbols with names
that are lexed as such, and lists of data. -/
inductive Datum : Value → Prop
  | number {origin : Origin} {x : Float} : Number.IsFinite x → Datum (number origin x)
  | string {origin : Origin} {s : String} : (∀ c ∈ s.toList, Text.IsQuotable c) → Datum (string origin s)
  | boolean {b : Bool} : Datum (boolean b)
  | symbol {name : String} : Lexer.IsSymbolName name → Datum (symbol name)
  | list {items : List Value} : (∀ v ∈ items, Datum v) → Datum (list items)

/-- A text that reads as a value. Wherever it stands and whatever cannot go on with it follows, it is the tokens of one form,
and that form stands for an equal value. -/
def ReadsBack (text : List Char) (v : Value) : Prop :=
  ∀ p, ∃ tree : Reader.Tree, tree.Valid Value ∧ (tree.term : Code).toValue.equal v = true ∧
    ∀ rest, Lexer.Ends rest →
      Lexer.tokensFrom p (text ++ rest) = (Lexer.tokensFrom (p.after text) rest).prepend tree.tokens

/-! ## Data of one token -/

theorem readsBack_number {origin : Origin} {x : Float} (h : Number.IsFinite x) :
    ReadsBack (Number.plain x).toList (number origin x) := by
  intro p
  refine ⟨.atom ⟨.number, Number.plain x, p⟩, .atom rfl, Number.equal_symm (Number.equal_ofText_plain h), ?_⟩
  intro rest he
  rw [Lexer.tokensFrom_numeral (Number.isNumeral_plain h) he, String.ofList_toList]
  rfl

theorem readsBack_string {origin : Origin} {s : String} (h : ∀ c ∈ s.toList, Text.IsQuotable c) :
    ReadsBack (Text.quote s.toList) (string origin s) := by
  intro p
  refine ⟨.atom ⟨.string, s, p⟩, .atom rfl, beq_self_eq_true s, ?_⟩
  intro rest _
  rw [Lexer.tokensFrom_quoted h, String.ofList_toList]
  rfl

theorem readsBack_boolean (b : Bool) : ReadsBack (Text.Word.boolean b) (boolean b) := by
  intro p
  have hk : Lexer.wordKind (Text.Word.boolean b) = .boolean := by cases b <;> decide
  refine ⟨.atom ⟨.boolean, String.ofList (Text.Word.boolean b), p⟩, .atom rfl, by cases b <;> rfl, ?_⟩
  intro rest he
  rw [Lexer.tokensFrom_wholeWord (by cases b <;> simp [Text.Word.boolean]) (Lexer.isWordChar_boolean b) he, hk]
  rfl

theorem readsBack_symbol {name : String} (h : Lexer.IsSymbolWord name.toList) : ReadsBack name.toList (symbol name) := by
  intro p
  refine ⟨.atom ⟨.symbol, name, p⟩, .atom rfl, beq_self_eq_true name, ?_⟩
  intro rest he
  rw [Lexer.tokensFrom_wholeWord h.1 h.2.1 he, h.2.2, String.ofList_toList]
  rfl

/-! ## Lists -/

/-- A quoted datum is printed with a mark in front. -/
theorem ReadsBack.quotation {text : List Char} {v : Value} (h : ReadsBack text v) :
    ReadsBack ('\'' :: text) (list [symbol "quote", v]) := by
  intro p
  obtain ⟨tree, hvalid, hequal, htokens⟩ := h (p.advance '\'')
  refine ⟨.marked .quote ⟨.marker .quote, "'", p⟩ tree, .marked rfl hvalid, ?_, ?_⟩
  · simpa [Reader.Tree.term, Term.toValue, Marker.word, equal, equalAll] using hequal
  · intro rest he
    have hmark : Lexer.singleKind? '\'' = some (.marker .quote) := by decide
    rw [List.cons_append, Lexer.tokensFrom_single hmark, htokens rest he, Lexer.prepend_prepend]
    rfl

/-- The items of a list, up to its closing bracket. -/
theorem readsBack_items {items : List Value} (h : ∀ v ∈ items, ReadsBack (v.write .quoted) v) (p : Position) :
    ∃ trees : List Reader.Tree, (∀ t ∈ trees, t.Valid Value) ∧
      equalAll (Term.toValues (Reader.Tree.terms trees)) items = true ∧
      ∀ rest, Lexer.tokensFrom p ([' '].intercalate (writeAll .quoted items) ++ ')' :: rest) =
        (Lexer.tokensFrom (p.after ([' '].intercalate (writeAll .quoted items))) (')' :: rest)).prepend
          (Reader.Tree.tokensAll trees) := by
  induction items generalizing p with
  | nil => exact ⟨[], by simp, rfl, fun rest => rfl⟩
  | cons v items ih =>
    obtain ⟨tree, hvalid, hequal, htokens⟩ := h v (by simp) p
    cases items with
    | nil =>
      refine ⟨[tree], by simpa using hvalid, by simpa [Reader.Tree.terms, Term.toValues, equalAll] using hequal, ?_⟩
      intro rest
      simpa [writeAll, Reader.Tree.tokensAll] using htokens _ (Lexer.ends_bracket rest)
    | cons w items =>
      -- A blank stands between two items, and the row goes on behind it.
      have hrow := ih (fun u hu => h u (List.mem_cons_of_mem v hu))
      obtain ⟨trees, hvalids, hequals, hrest⟩ := hrow ((p.after (v.write .quoted)).advance ' ')
      have htext : [' '].intercalate (writeAll .quoted (v :: w :: items)) =
          v.write .quoted ++ ' ' :: [' '].intercalate (writeAll .quoted (w :: items)) := by
        simp [writeAll, List.intercalate]
      refine ⟨tree :: trees, List.forall_mem_cons.2 ⟨hvalid, hvalids⟩, ?_, ?_⟩
      · simp [Reader.Tree.terms, Term.toValues, equalAll, hequal, hequals]
      · intro rest
        rw [htext, List.append_assoc, List.cons_append, htokens _ (Lexer.ends_space _),
          Lexer.tokensFrom_separator (by decide), hrest rest]
        simp [Lexer.prepend_prepend, Reader.Tree.tokensAll]

theorem exists_of_isQuotation {items : List Value} (h : isQuotation items = true) : ∃ v, items = [symbol "quote", v] := by
  unfold isQuotation at h
  split at h
  · obtain rfl := beq_iff_eq.1 h
    exact ⟨_, rfl⟩
  · cases h

/-- A list of what reads back reads back. -/
theorem readsBack_list {items : List Value} (h : ∀ v ∈ items, ReadsBack (v.write .quoted) v) :
    ReadsBack ((list items).write .quoted) (list items) := by
  rw [write, listText]
  split
  case isTrue hquotation =>
    obtain ⟨v, rfl⟩ := exists_of_isQuotation hquotation
    simpa [writeAll] using (h v (by simp)).quotation
  case isFalse =>
    intro p
    obtain ⟨trees, hvalids, hequals, hrest⟩ := readsBack_items h (p.advance '(')
    let closing : Token :=
      ⟨.closing .round, ")", (p.advance '(').after ([' '].intercalate (writeAll .quoted items))⟩
    refine ⟨.list .round ⟨.opening .round, "(", p⟩ trees closing, .list (by decide) rfl rfl hvalids, ?_, ?_⟩
    · simpa [Reader.Tree.term, Term.toValue, equal] using hequals
    · intro rest _
      have hopen : Lexer.singleKind? '(' = some (.opening .round) := by decide
      have hclose : Lexer.singleKind? ')' = some (.closing .round) := by decide
      rw [List.cons_append, List.append_assoc, List.singleton_append, Lexer.tokensFrom_single hopen, hrest,
        Lexer.tokensFrom_single hclose]
      simp [Lexer.prepend_prepend, Reader.Tree.tokens, closing]

theorem Datum.readsBack {v : Value} (h : Datum v) : ReadsBack (v.write .quoted) v := by
  induction h with
  | number hx => exact readsBack_number hx
  | string hs => exact readsBack_string hs
  | boolean => exact readsBack_boolean _
  | symbol hname => exact readsBack_symbol hname.isSymbolWord
  | list _ ih => exact readsBack_list ih

end Value

namespace Reader

/-- The printed text of a datum is read as one form, and that form stands for a value that equals the datum. -/
theorem readSource_repr {v : Value} (h : v.Datum) :
    ∃ f : Code, readSource v.repr = .ok [f] ∧ f.toValue.equal v = true := by
  obtain ⟨tree, hvalid, hequal, htokens⟩ := h.readsBack .start
  have hlex : (Lexer.lex v.repr).complete = .ok (Tree.tokensAll [tree] ++ [.eofAt (Position.start.after (v.write .quoted))]) := by
    have h := htokens [] Lexer.ends_nil
    rw [List.append_nil, Lexer.tokensFrom_nil] at h
    rw [Lexer.complete_eq_ok, Lexer.lex, Lexer.lexAt, Value.repr, Value.text, String.toList_ofList, h]
    simp [Lexer.Lexed.prepend, Tree.tokensAll]
  obtain ⟨made, hl, hmade⟩ := Lexer.lexAt_complete.1 hlex
  have hk : ∀ tok ∈ Tree.tokensAll [tree], tok.kind ≠ .eof := by
    rw [(List.append_inj' hmade rfl).1]
    exact Lexer.kind_ne_eof_of_grouped (Lexer.grouped_of_lexes hl .start)
  refine ⟨tree.term, ?_, hequal⟩
  rw [readSource, hlex]
  exact read_of_valid (by simpa using hvalid) hk rfl

/-- A quoted list of the negative zero, the greatest double, the empty list, a string with escapes and a symbol that starts
with a sign. -/
def quotedData : Value :=
  .list [.symbol "quote", .list [.number .made (Number.ofMagnitude true 0),
    .number .made (Number.ofMagnitude false (Number.magnitudeBits (2 ^ 53 - 1) 971)), .nil, .string .made "\"\n\\",
    .symbol "-x", .boolean false]]

theorem datum_quotedData : quotedData.Datum := by
  have hquote : Lexer.IsSymbolName "quote" := ⟨⟨1, 1⟩, ⟨1, 6⟩, by cbv⟩
  have hsymbol : Lexer.IsSymbolName "-x" := ⟨⟨1, 1⟩, ⟨1, 3⟩, by cbv⟩
  have hzero : Number.IsFinite (Number.ofMagnitude true 0) :=
    ⟨_, _, _, Number.shape_ofMagnitude (m := 0) (q := -1074) ⟨by norm_num, .inr rfl, by norm_num, by norm_num⟩ true⟩
  have hgreatest : Number.IsFinite (Number.ofMagnitude false (Number.magnitudeBits (2 ^ 53 - 1) 971)) :=
    ⟨_, _, _, Number.shape_ofMagnitude ⟨by norm_num, .inl (by norm_num), by norm_num, by norm_num⟩ false⟩
  have hstring : ∀ c ∈ "\"\n\\".toList, Text.IsQuotable c := by
    intro c hc
    obtain rfl | rfl | rfl : c = '"' ∨ c = '\n' ∨ c = '\\' := by simpa using hc
    · exact .inl (by decide)
    · exact .inr (.inl rfl)
    · exact .inl (by decide)
  have hnil : Value.nil.Datum := .list fun v hv => by cases hv
  refine .list (List.forall_mem_cons.2 ⟨.symbol hquote, List.forall_mem_singleton.2 (.list ?_)⟩)
  simp only [List.forall_mem_cons]
  exact ⟨.number hzero, .number hgreatest, hnil, .string hstring, .symbol hsymbol, .boolean, by simp⟩

theorem readSource_repr_quotedData :
    quotedData.Datum ∧ ∃ f : Code, readSource quotedData.repr = .ok [f] ∧ f.toValue.equal quotedData = true :=
  ⟨datum_quotedData, readSource_repr datum_quotedData⟩

end Reader

end Lisplet
