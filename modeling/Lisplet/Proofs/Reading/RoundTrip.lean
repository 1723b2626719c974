import Lisplet.Proofs.Reading.Forms
import Lisplet.Proofs.Reading.Written
import Lisplet.Value
/-!
# Written terms read back

`Term.again` is the term that a written term reads as: the same one with other places and its numbers
read from their text. The reader, given the tokens of a written term in any state, delivers this term
(`run_tokensAt`); so the source of a spelled and plain term is read as one form, which is the same
term (`readSource_again`, `same_again`).
-/
namespace Lisplet

variable {α : Type}

/-- The characters that Unicode counts as white space. -/
def Text.isWhiteSpace (c : Char) : Bool :=
  let n := c.toNat
  (0x09 ≤ n && n ≤ 0x0D) || n == 0x20 || n == 0x85 || n == 0xA0 || n == 0x1680 || (0x2000 ≤ n && n ≤ 0x200A) ||
    n == 0x2028 || n == 0x2029 || n == 0x202F || n == 0x205F || n == 0x3000

namespace Term

mutual

/-- The term that a term written at a place reads as. -/
def again (p : Position) : Term α → Term α
  | number _ x => number p (Number.ofText (Number.brief x))
  | string _ s => string p s
  | symbol _ name => symbol p name
  | boolean _ b => boolean p b
  | nil _ => nil p
  | list _ ts => list p (againAll (p.advance '(') ts)
  | marked _ m t => marked p m (again (p.advance m.char) t)
  | format _ ps => format p (againParts (p.after ['#', '"']) ps)
  | embedded _ v => embedded p v
termination_by structural t => t

/-- The terms that a row of terms written at a place reads as. -/
def againAll (p : Position) : List (Term α) → List (Term α)
  | [] => []
  | t :: ts => again p t :: againAll ((p.after (write t)).advance ' ') ts
termination_by structural ts => ts

/-- The parts that the parts of a format string written at a place read as. -/
def againParts (p : Position) : List (Part α) → List (Part α)
  | [] => []
  | .text s :: ps => .text s :: againParts (p.after (Format.escapeLiteral s.toList)) ps
  | .code t :: ps =>
    .code (again (p.after ['#', '\x7b']) t) :: againParts (p.after ('#' :: '\x7b' :: (write t ++ ['\x7d']))) ps
termination_by structural ps => ps

end

variable [Identity α]

mutual

theorem same_again : (t : Term α) → (inside : Bool) → t.Spelled → t.Plain Text.isBlank inside → (p : Position) →
    same t (again p t) = true
  | number _ _, _, _, hp, _ => by
    rw [again, same]
    exact Number.equal_ofText_brief hp
  | string _ _, _, _, _, _ => by simp [again, same]
  | symbol _ _, _, _, _, _ => by simp [again, same]
  | boolean _ _, _, _, _, _ => by simp [again, same]
  | nil _, _, _, _, _ => by simp [again, same]
  | list _ ts, inside, hs, hp, p => by
    rw [again, same]
    exact sameAll_again ts inside hs hp _
  | marked _ m t, inside, hs, hp, p => by
    simp [again, same, same_again t inside hs hp]
  | format _ ps, _, hs, hp, p => by
    rw [again, same]
    exact sameParts_again ps false hs.1 hp.2 _
  | embedded _ _, _, hs, _, _ => by simp [Spelled] at hs
termination_by structural t => t

theorem sameAll_again : (ts : List (Term α)) → (inside : Bool) → SpelledAll ts → PlainAll Text.isBlank inside ts →
    (p : Position) → sameAll ts (againAll p ts) = true
  | [], _, _, _, _ => by simp [againAll, sameAll]
  | t :: ts, inside, hs, hp, p => by
    simp [againAll, sameAll, same_again t inside hs.1 hp.1, sameAll_again ts inside hs.2 hp.2]
termination_by structural ts => ts

theorem sameParts_again : (ps : List (Part α)) → (b : Bool) → SpelledParts b ps → PlainParts Text.isBlank ps →
    (p : Position) → sameParts ps (againParts p ps) = true
  | [], _, _, _, _ => by simp [againParts, sameParts]
  | .text _ :: ps, _, hs, hp, p => by
    simp [againParts, sameParts, sameParts_again ps true hs.2.2 hp.2]
  | .code t :: ps, _, hs, hp, p => by
    simp [againParts, sameParts, same_again t true hs.1 hp.1, sameParts_again ps false hs.2 hp.2.2]
termination_by structural ps => ps

end

end Term

namespace Reader

open Term

variable [Identity α]

/-- A way to read expressions that reads written terms without format strings back. -/
def ReadsBack (e : Token → Except SyntaxError (Term α)) : Prop :=
  ∀ (t : Term α) (p : Position), t.Spelled → t.Plain Text.isBlank true →
    e ⟨.formatCode, t.source, p⟩ = .ok (again p t)

variable {e : Token → Except SyntaxError (Term α)}

mutual

/-- The tokens of a written term deliver the term it reads as. -/
theorem run_tokensAt : (t : Term α) → (inside : Bool) → t.Spelled → t.Plain Text.isBlank inside →
    (inside = false → ReadsBack e) → (p : Position) → (s s' : State α) → s.inFormat = false →
    deliver p (again p t) s.forms s.stack = .ok s' → (more : List Token) →
    run e s (tokensAt p t ++ more) = run e s' more
  | number _ _, _, _, _, _, p, s, s', hs, hd, more => by
    rw [tokensAt]
    exact run_atom hs rfl rfl hd more
  | string _ _, _, _, _, _, p, s, s', hs, hd, more => by
    rw [tokensAt]
    exact run_atom hs rfl rfl hd more
  | symbol _ _, _, _, _, _, p, s, s', hs, hd, more => by
    rw [tokensAt]
    exact run_atom hs rfl rfl hd more
  | boolean _ b, _, _, _, _, p, s, s', hs, hd, more => by
    rw [tokensAt]
    refine run_atom hs rfl ?_ hd more
    cases b <;> rfl
  | nil _, _, _, _, _, p, s, s', hs, hd, more => by
    rw [tokensAt]
    exact run_atom hs rfl rfl hd more
  | list _ ts, inside, hsp, hp, he, p, s, s', hs, hd, more => by
    rw [tokensAt, List.cons_append, run_enter (p := .list .round p []) hs rfl rfl, List.append_assoc,
      run_tokensAllAt ts inside hsp hp he]
    refine run_listEnd rfl ?_ more
    simpa [again] using hd
  | marked _ m t, inside, hsp, hp, he, p, s, s', hs, hd, more => by
    -- A delivery to a mark goes on to what is below, so the state behind is the one the whole term leaves.
    rw [tokensAt, List.cons_append, run_enter (p := .marked p m m.char.toString) hs rfl rfl]
    refine run_tokensAt t inside hsp hp he _ _ s' rfl ?_ more
    simpa [again, deliver] using hd
  | format _ ps, inside, hsp, hp, he, p, s, s', hs, hd, more => by
    rw [tokensAt, List.cons_append, run_enter (p := .format p []) hs rfl rfl, List.append_assoc,
      run_pieceTokens ps false hsp.1 hp.2 (he hp.1)]
    refine run_formatEnd rfl ?_ more
    simpa [again] using hd
  | embedded _ _, _, hsp, _, _, _, _, _, _, _, _ => by simp [Spelled] at hsp
termination_by structural t => t

theorem run_tokensAllAt : (ts : List (Term α)) → (inside : Bool) → SpelledAll ts → PlainAll Text.isBlank inside ts →
    (inside = false → ReadsBack e) → (p : Position) → (bracket : Bracket) → (pos : Position) →
    (elements : List (Term α)) → (stack : List (Pending α)) → (forms : List (Term α)) → (more : List Token) →
    run e ⟨.list bracket pos elements :: stack, forms⟩ (tokensAllAt p ts ++ more) =
      run e ⟨.list bracket pos ((againAll p ts).reverse ++ elements) :: stack, forms⟩ more
  | [], _, _, _, _, _, _, _, _, _, _, _ => by simp [tokensAllAt, againAll]
  | t :: ts, inside, hsp, hp, he, p, bracket, pos, elements, stack, forms, more => by
    rw [tokensAllAt, List.append_assoc,
      run_tokensAt t inside hsp.1 hp.1 he p _ ⟨.list bracket pos (again p t :: elements) :: stack, forms⟩ rfl rfl,
      run_tokensAllAt ts inside hsp.2 hp.2 he]
    simp [againAll]
termination_by structural ts => ts

theorem run_pieceTokens : (ps : List (Part α)) → (b : Bool) → SpelledParts b ps → PlainParts Text.isBlank ps →
    ReadsBack e → (p : Position) → (pos : Position) → (parts : List (Part α)) →
    (stack : List (Pending α)) → (forms : List (Term α)) → (more : List Token) →
    run e ⟨.format pos parts :: stack, forms⟩ (Lexer.pieceTokens p (ps.map Part.piece) ++ more) =
      run e ⟨.format pos ((againParts p ps).reverse ++ parts) :: stack, forms⟩ more
  | [], _, _, _, _, _, _, _, _, _, _ => by simp [Lexer.pieceTokens, againParts]
  | .text s :: ps, _, hsp, hp, he, p, pos, parts, stack, forms, more => by
    rw [List.map_cons, Lexer.pieceTokens, List.cons_append, run_text rfl,
      run_pieceTokens ps true hsp.2.2 hp.2 he]
    simp [againParts, Part.piece, Format.Piece.content, Format.Piece.written, Format.Piece.lead,
      Format.Piece.body, Format.Piece.tail]
  | .code t :: ps, _, hsp, hp, he, p, pos, parts, stack, forms, more => by
    rw [List.map_cons, Lexer.pieceTokens, List.cons_append]
    refine (run_code rfl (he t _ hsp.1 hp.1) pos parts stack forms _).trans ?_
    rw [run_pieceTokens ps false hsp.2 hp.2.2 he]
    simp [againParts, Part.piece, Format.Piece.written, Format.Piece.lead,
      Format.Piece.body, Format.Piece.tail]
termination_by structural ps => ps

end

/-- A row that holds the tokens of one written term is read as that term. -/
theorem readWith_tokensAt {t : Term α} {inside : Bool} (hs : t.Spelled) (hp : t.Plain Text.isBlank inside)
    (he : inside = false → ReadsBack e) (p q : Position) :
    (readWith e (tokensAt p t ++ [.eofAt q])).complete = .ok [again p t] := by
  rw [readWith, supply_of_eof,
    run_tokensAt t inside hs hp he p .empty ⟨[], [again p t]⟩ rfl rfl [.eofAt q]]
  rfl

omit [Identity α] in
theorem write_ne_nil {t : Term α} (hs : t.Spelled) (hp : t.Plain Text.isBlank true) : t.write ≠ [] := by
  intro h
  cases t with
  | number _ x =>
    rw [write] at h
    have hn := Number.isNumeral_brief hp
    rw [h] at hn
    exact absurd hn (by decide)
  | symbol _ name =>
    rw [write] at h
    exact hs.1 h
  | boolean _ b => rw [write] at h; cases b <;> cases h
  | embedded _ _ => simp [Spelled] at hs
  | _ => simp [write, Text.quote, Text.Word.nil] at h

/-- An expression without format strings is read back from its source, with any allowance. -/
theorem readsBack_embed : ReadsBack (embed : Token → Except SyntaxError (Term α)) := by
  intro t p hs hp
  have hlen : t.source.length ≠ 0 := by
    simpa [source, String.length_ofList] using write_ne_nil hs hp
  -- A source is never empty, so its length allows one reading, and no more is needed.
  obtain ⟨n, hn⟩ := Nat.exists_eq_succ_of_ne_zero hlen
  have hlex : (Lexer.lexAt p t.source).complete = .ok (tokensAt p t ++ [.eofAt (p.after t.write)]) := by
    have h := tokensFrom_write t hs (plain_of_inside t hp) p [] Lexer.ends_nil
    rw [List.append_nil, Lexer.tokensFrom_nil] at h
    rw [Lexer.complete_eq_ok, Lexer.lexAt, source, String.toList_ofList, h]
    exact ⟨rfl, rfl⟩
  have hread := readWith_tokensAt (e := embedAt n) hs hp (by simp) p (p.after t.write)
  simp [embed, hn, embedAt, hlex, hread, bind, Except.bind]

/-- The source of a spelled and plain term is read as one form. -/
theorem readSource_again {t : Term α} (hs : t.Spelled) (hp : t.Plain Text.isBlank false) :
    readSource t.source = .ok [again .start t] := by
  have hlex : (Lexer.lex t.source).complete = .ok (tokensAt .start t ++ [.eofAt (Position.start.after t.write)]) := by
    have h := tokensFrom_write t hs hp .start [] Lexer.ends_nil
    rw [List.append_nil, Lexer.tokensFrom_nil] at h
    rw [Lexer.complete_eq_ok, Lexer.lex, Lexer.lexAt, source, String.toList_ofList, h]
    exact ⟨rfl, rfl⟩
  rw [readSource, hlex]
  exact readWith_tokensAt hs hp (fun _ => readsBack_embed) .start _

/-! ## Reading what was printed -/

/-- Every form of a text that is plain is read back from its source, as the same form. -/
theorem readSource_source {source : String} {ts : List (Term α)} {t : Term α} (h : readSource source = .ok ts)
    (ht : t ∈ ts) (hp : t.Plain Text.isBlank false) :
    ∃ t', readSource t.source = .ok [t'] ∧ t.same t' = true := by
  have hs := spelled_of_readSource h t ht
  exact ⟨again .start t, readSource_again hs hp, same_again t false hs hp .start⟩

/-- A format string with an escaped quote, and a brace in a string of its expression. -/
def quotedFormat : Code :=
  .format ⟨1, 1⟩ [.text "\"", .code (.list ⟨1, 7⟩
    [.symbol ⟨1, 8⟩ "f", .marked ⟨1, 10⟩ .quote (.symbol ⟨1, 11⟩ "x"), .string ⟨1, 13⟩ "\n\x7d"])]

theorem readSource_quotedFormat : readSource "#\"\\\"#\x7b(f 'x \"\\n\x7d\")\x7d\"" = .ok [quotedFormat] := by
  have h : ("#\"\\\"#\x7b(f 'x \"\\n\x7d\")\x7d\"" : String).toList =
    '#' :: '"' :: "\\\"#\x7b(f 'x \"\\n\x7d\")\x7d\"".toList := rfl
  rw [readSource, Lexer.lex, Lexer.lexAt, h, Lexer.tokensFrom_format]
  cbv

theorem plain_quotedFormat : quotedFormat.Plain Text.isBlank false := by
  refine ⟨rfl, by decide, ⟨trivial, trivial, ?_, trivial⟩, id, trivial⟩
  intro c hc
  obtain rfl | rfl : c = '\n' ∨ c = '\x7d' := by simpa using hc
  · exact .inr (.inl rfl)
  · exact .inl (by decide)

theorem readSource_source_quotedFormat :
    readSource "#\"\\\"#\x7b(f 'x \"\\n\x7d\")\x7d\"" = .ok [quotedFormat] ∧ quotedFormat ∈ [quotedFormat] ∧
      quotedFormat.Plain Text.isBlank false ∧
      ∃ t', readSource quotedFormat.source = .ok [t'] ∧ quotedFormat.same t' = true :=
  ⟨readSource_quotedFormat, List.mem_singleton_self _, plain_quotedFormat,
    readSource_source readSource_quotedFormat (List.mem_singleton_self _) plain_quotedFormat⟩

/-- A format string whose expression is a symbol of the byte order mark. -/
def byteOrderFormat : Code := .format ⟨1, 1⟩ [.code (.symbol ⟨1, 7⟩ "\uFEFF")]

theorem readSource_byteOrderFormat : readSource "#\"#\x7b \x7b\uFEFF\x7d \x7d\"" = .ok [byteOrderFormat] := by
  have h : ("#\"#\x7b \x7b\uFEFF\x7d \x7d\"" : String).toList =
    '#' :: '"' :: "#\x7b \x7b\uFEFF\x7d \x7d\"".toList := rfl
  rw [readSource, Lexer.lex, Lexer.lexAt, h, Lexer.tokensFrom_format]
  cbv

theorem readSource_source_byteOrderFormat :
    (readSource byteOrderFormat.source : Except SyntaxError (List Code)) =
      .error ⟨.formatWithoutExpression, .start⟩ := by
  have h : byteOrderFormat.source.toList = '#' :: '"' :: "#\x7b\uFEFF\x7d\"".toList := rfl
  rw [readSource, Lexer.lex, Lexer.lexAt, h, Lexer.tokensFrom_format]
  cbv

/-- The byte order mark is no white space, and yet an expression of it alone counts as blank. -/
theorem not_readSource_source_of_isWhiteSpace : ¬ ∀ (source : String) (ts : List Code) (t : Code),
    readSource source = .ok ts → t ∈ ts → t.Plain Text.isWhiteSpace false →
      ∃ t', readSource t.source = .ok [t'] ∧ t.same t' = true := by
  intro hall
  have hspace : ¬ "\uFEFF".toList.all Text.isWhiteSpace := by decide
  have hplain : byteOrderFormat.Plain Text.isWhiteSpace false := ⟨rfl, trivial, hspace, trivial⟩
  obtain ⟨t', ht', -⟩ := hall _ _ _ readSource_byteOrderFormat (List.mem_singleton_self _) hplain
  rw [readSource_source_byteOrderFormat] at ht'
  cases ht'

end Reader

end Lisplet
