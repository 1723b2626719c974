import Lisplet.Proofs.Evaluation.Calling
import Lisplet.Proofs.Likeness.Evaluating
import Lisplet.Proofs.Likeness.Reading
import Lisplet.Proofs.Reading.Acceptance
import Lisplet.Proofs.Reading.Cuts
/-!
# Formatting at run time

A format string can be written as a literal or be handed to `format` as a string. The literal is scanned up to its closing
quote, read as a whole with its expressions where they stand, and evaluated; `format` scans all of its argument, and reads each
expression just before it evaluates it. If the text between the expressions needs no escapes, both scans find the same
pieces (`Format.scan_quoted_of_raw`), and an expression is the same form in both (`Reader.embed_of_readSource`). So both go
through the same evaluations in turn, and the calling scope that `format` evaluates with makes no difference (`agree_format`).
-/
namespace Lisplet

namespace Format

/-! ## Raw and quoted bodies -/

/-- The stop of a raw run with a quote behind the body. -/
def Stop.quoted : Stop → Stop
  | .quote rest => .quote (rest ++ ['"'])
  | .code rest => .code (rest ++ ['"'])
  | .ended => .quote []

/-- Raw text without quotes and backslashes is read in the same way in front of a closing quote. -/
theorem textRun_quoted_of_raw {cs raw value : List Char} {stop : Stop} (h : textRun false cs = (raw, value, stop))
    (hquote : '"' ∉ value) (hslash : '\\' ∉ value) : textRun true (cs ++ ['"']) = (raw, value, stop.quoted) := by
  generalize hq : false = quoted at h
  fun_induction textRun quoted cs generalizing raw value with
  | case1 =>
    obtain ⟨rfl, rfl, rfl⟩ := by simpa using h
    exact textRun_quote []
  | case2 => simp_all
  | case3 => simp_all
  | case4 => simp_all
  | case5 c rest _ _ hcode =>
    obtain ⟨rfl, rfl, rfl⟩ := by simpa using h
    obtain ⟨rfl, hhead⟩ : c = '#' ∧ rest.head? = some '\x7b' := by simpa using hcode
    obtain ⟨rest, rfl⟩ := List.head?_eq_some_iff.1 hhead
    exact textRun_code true (rest ++ ['"'])
  | case6 c rest _ _ hcode raw' value' stop' heq ih =>
    obtain ⟨rfl, rfl, rfl⟩ := by simpa using h
    obtain ⟨hcquote, hquote⟩ := List.ne_and_not_mem_of_not_mem_cons hquote
    obtain ⟨hcslash, hslash⟩ := List.ne_and_not_mem_of_not_mem_cons hslash
    have hhead : c = '#' → (rest ++ ['"']).head? ≠ some '\x7b' := by
      rintro rfl
      cases rest with
      | nil => simp
      | cons d rest => simpa using hcode
    rw [List.cons_append, textRun_char (Ne.symm hcquote) (Ne.symm hcslash) hhead, ih hquote hslash heq]

/-- Text that is written as it is between quotes. -/
def Piece.Unescaped : Piece → Prop
  | .text _ value => '"' ∉ value ∧ '\\' ∉ value
  | .code _ => True

theorem unescaped_of_literal {raw value : List Char} (h : ∀ p ∈ literal raw value, p.Unescaped) :
    '"' ∉ value ∧ '\\' ∉ value := by
  cases value with
  | nil => simp
  | cons c value => exact h (.text raw (c :: value)) (by simp [literal])

/-- A raw body whose text needs no escapes has the same pieces between quotes. -/
theorem pieces_quoted_of_raw {cs left : List Char} {ps : List Piece} (h : pieces false cs = .ok (ps, left))
    (hps : ∀ p ∈ ps, p.Unescaped) : pieces true (cs ++ ['"']) = .ok (ps, []) := by
  generalize hq : false = quoted at h
  fun_induction pieces quoted cs generalizing ps left with
  | case1 => simp at h
  | case2 cs raw value run hn =>
    obtain ⟨rfl, rfl⟩ := by simpa using h
    subst hq
    obtain ⟨hquote, hslash⟩ := unescaped_of_literal hps
    exact pieces_quote (textRun_quoted_of_raw run hquote hslash)
  | case3 cs raw value left run =>
    cases hq.trans (quoted_of_textRun_quote run)
  | case4 => simp at h
  | case5 => simp at h
  | case6 cs raw value left run source left' span more left'' hmore ih =>
    obtain ⟨rfl, rfl⟩ := by simpa using h
    subst hq
    obtain ⟨hliteral, hcode⟩ := List.forall_mem_append.1 hps
    obtain ⟨hquote, hslash⟩ := unescaped_of_literal hliteral
    have ih := ih (List.forall_mem_cons.1 hcode).2 hmore
    rw [pieces_code (textRun_quoted_of_raw run hquote hslash) (codeSpan_extend span ['"']), ih]

theorem scan_quoted_of_raw {cs : List Char} {s : Scan} (h : scan false cs = .ok s) (hs : ∀ p ∈ s.pieces, p.Unescaped) :
    scan true (cs ++ ['"']) = .ok ⟨s.pieces, []⟩ := by
  unfold scan at h
  split at h
  next => cases h
  next ps rest hp =>
    split at h
    case isTrue hc =>
      obtain rfl := Except.ok.inj h
      rw [scan, pieces_quoted_of_raw hp hs]
      exact if_pos hc
    case isFalse => cases h

end Format

namespace Reader

/-! ## Expressions -/

/-- What is read as a text of its own is read as the expression of a format string, up to places. -/
theorem embed_of_readSource (tok : Token) {u : Code} (h : readSource tok.text = .ok [u]) :
    ∃ t, embed tok = .ok t ∧ t.seen .blind = u.seen .blind := by
  obtain ⟨tokens, hlex, hread⟩ := Except.bind_eq_ok h
  obtain ⟨made, hl, rfl⟩ := Lexer.lexAt_complete.1 hlex
  have hk := Lexer.kind_ne_eof_of_grouped (Lexer.grouped_of_lexes hl .start)
  obtain ⟨trees, hvalid, htokens, hterms⟩ := exists_trees_of_readWith onlyDerived_embed hk rfl hread
  obtain ⟨body, rfl, rfl⟩ := exists_singleton_of_terms hterms
  have hembeds : Embeds ⟨tok.kind, tok.text, .start⟩ body :=
    embeds_iff.2 ⟨made, hl, by simpa [Tree.tokensAll] using htokens⟩
  have hstart := embed_of_valid (List.forall_mem_singleton.1 hvalid) hembeds
  obtain ⟨t, ht, hseen⟩ := seen_embedAt tok.text.length ⟨tok.kind, tok.text, .start⟩ tok rfl hstart
  exact ⟨t, ht, hseen.symm⟩

/-- A piece of text, or the source of exactly one form. -/
def OneForm : Format.Piece → Prop
  | .text _ _ => True
  | .code source => ∃ u : Code, readSource (String.ofList source) = .ok [u]

/-- A piece of a scanned body and the part it is read as: text as it is, and an expression as the one form of its source, up
to places. -/
inductive ReadAs : Format.Piece → Part Value → Prop
  | text (raw value : List Char) : ReadAs (.text raw value) (.text (String.ofList value))
  | code {source : List Char} {t u : Code} : readSource (String.ofList source) = .ok [u] → t.seen .blind = u.seen .blind →
      ReadAs (.code source) (.code t)

theorem steps_pieceTokens {ps : List Format.Piece} (hps : ∀ piece ∈ ps, OneForm piece) (p pos : Position)
    (parts : List (Part Value)) (stack : List (Pending Value)) (forms : List Code) :
    ∃ more, List.Forall₂ ReadAs ps more ∧
      steps embed ⟨.format pos parts :: stack, forms⟩ (Lexer.pieceTokens p ps) =
        some ⟨.format pos (more.reverse ++ parts) :: stack, forms⟩ := by
  induction ps generalizing p parts with
  | nil => exact ⟨[], .nil, rfl⟩
  | cons piece ps ih =>
    obtain ⟨hpiece, hps⟩ := List.forall_mem_cons.1 hps
    have ih := ih hps
    -- What the piece adds stands in front of the parts that were there, which are kept in reverse.
    cases piece with
    | text raw value =>
      obtain ⟨more, hmore, hsteps⟩ :=
        ih (p.after (Format.Piece.text raw value).written) (.text (String.ofList value) :: parts)
      have hstep : step embed ⟨.string, String.ofList value, p⟩ ⟨.format pos parts :: stack, forms⟩ =
          .next ⟨.format pos (.text (String.ofList value) :: parts) :: stack, forms⟩ := rfl
      refine ⟨_, .cons (.text raw value) hmore, ?_⟩
      rw [List.reverse_cons, List.append_assoc]
      exact steps_cons.2 ⟨_, hstep, hsteps⟩
    | code source =>
      obtain ⟨u, hu⟩ := hpiece
      obtain ⟨t, ht, hseen⟩ := embed_of_readSource ⟨.formatCode, String.ofList source, p.after ['#', '\x7b']⟩ hu
      obtain ⟨more, hmore, hsteps⟩ := ih (p.after (Format.Piece.code source).written) (.code t :: parts)
      have hstep : step embed ⟨.formatCode, String.ofList source, p.after ['#', '\x7b']⟩ ⟨.format pos parts :: stack, forms⟩ =
          .next ⟨.format pos (.code t :: parts) :: stack, forms⟩ := by
        simp only [step, stepFormat, ht]
      refine ⟨_, .cons (.code hu hseen) hmore, ?_⟩
      rw [List.reverse_cons, List.append_assoc]
      exact steps_cons.2 ⟨_, hstep, hsteps⟩

theorem steps_formatTokens {ps : List Format.Piece} (hps : ∀ piece ∈ ps, OneForm piece) (p : Position) :
    ∃ parts, List.Forall₂ ReadAs ps parts ∧
      steps embed .empty (Lexer.formatTokens ps p) = some ⟨[], [.format p parts]⟩ := by
  obtain ⟨parts, hparts, hsteps⟩ := steps_pieceTokens hps (p.after ['#', '"']) p [] [] []
  have hopen : step embed ⟨.formatStart, "#\"", p⟩ (.empty : State Value) = .next ⟨[.format p []], []⟩ := rfl
  refine ⟨parts, hparts, steps_cons.2 ⟨_, hopen, ?_⟩⟩
  rw [steps_append, hsteps]
  simp [steps, step, stepFormat, deliver, Effect.ofDelivery]

/-- A format string as it is written around a body. -/
def formatLiteral (body : String) : String := "#\"" ++ body ++ "\""

theorem lexes_formatLiteral {body : String} {s : Format.Scan}
    (h : Format.scan true (body.toList ++ ['"']) = .ok ⟨s.pieces, []⟩) :
    Lexer.Lexes (formatLiteral body).toList (Lexer.formatTokens s.pieces) := by
  have hwritten : body.toList ++ ['"'] = s.pieces.flatMap Format.Piece.written ++ ['"'] := by
    simpa [Format.closing] using Format.scan_append h
  have hscan : Format.scan true (s.pieces.flatMap Format.Piece.written ++ ['"']) = .ok ⟨s.pieces, []⟩ := hwritten ▸ h
  have hlexes := Lexer.Lexes.chunk (.format hscan) .nil
  simpa [formatLiteral, ← hwritten] using hlexes

/-- A body that `format` takes is read between quotes as one format string, with the parts that its pieces are read as. -/
theorem readSource_formatLiteral {body : String} {s : Format.Scan} (h : Format.scan false body.toList = .ok s)
    (htext : ∀ p ∈ s.pieces, p.Unescaped) (hcode : ∀ p ∈ s.pieces, OneForm p) :
    ∃ parts, List.Forall₂ ReadAs s.pieces parts ∧ readSource (formatLiteral body) = .ok [.format .start parts] := by
  have hl := lexes_formatLiteral (Format.scan_quoted_of_raw h htext)
  have hk := Lexer.kind_ne_eof_of_grouped (Lexer.grouped_of_lexes hl .start)
  have hlex : (Lexer.lex (formatLiteral body)).complete = .ok _ := Lexer.lexAt_complete.2 ⟨_, hl, rfl⟩
  obtain ⟨parts, hparts, hsteps⟩ := steps_formatTokens hcode .start
  refine ⟨parts, hparts, ?_⟩
  rw [readSource, hlex]
  exact (readWith_eq_ok hk _).2 hsteps

end Reader

/-! ## The same evaluations -/

/-- The built-in procedure that formats a string. -/
def Builtin.formatting : Builtin := ⟨"format", .exactly 1, .control .format⟩

example : Builtin.formatting ∈ Builtin.table := by decide

theorem Fault.readForm_of_readSource {source : String} {u : Code} (h : Reader.readSource source = .ok [u]) :
    Fault.readForm source = .ok u := by
  rw [Fault.readForm, Fault.readForms, h]
  rfl

theorem callerBlind_formatPieces {r : Recursion} (h : r.CallerBlind) (ps : List Format.Piece) :
    Eval.CallerBlind (Control.formatPieces r ps) := by
  fun_induction Control.formatPieces r ps with
  | case1 => exact .pure _
  | case2 raw value ps ih => exact .bind ih fun _ => .pure _
  | case3 source ps ih =>
    exact .bind (.ofExcept _) fun t => .bind (h.evaluate t .global) fun _ => .bind ih fun _ => .pure _

/-- A call of `format` with a string that can be scanned formats its pieces, whichever scope it is made in. -/
theorem call_formatting {r : Recursion} (h : r.CallerBlind) {body : String} {scan : Format.Scan}
    (hscan : Format.scan false body.toList = .ok scan) (origin : Origin) (scope : Scope) :
    Builtin.formatting.call r [.string origin body] scope =
      (do return .string .made (String.join (← Control.formatPieces r scan.pieces))) := by
  have htext : Control.formatText r body = (do return .string .made (String.join (← Control.formatPieces r scan.pieces))) := by
    rw [Control.formatText, hscan]
  have hblind : Eval.CallerBlind (Control.formatText r body) := by
    rw [htext]
    exact .bind (callerBlind_formatPieces h _) fun _ => .pure _
  rw [← htext, ← hblind.withCaller_eq scope]
  rfl

/-- Parts that were read and the pieces they were read from are formatted alike. -/
theorem alike_formatted {r : Recursion} (h : r.Respects (.exactly .blind) r) {ps : List Format.Piece}
    {parts : List (Part Value)} (hps : List.Forall₂ Reader.ReadAs ps parts) :
    Alike (.exactly .blind) id id (r.formatParts .global parts) (Control.formatPieces r ps) := by
  induction hps with
  | nil => exact .pure rfl
  | cons hpart _ ih =>
    cases hpart with
    | text raw value => exact .bindId ih fun _ => .pure rfl
    | @code source t u hu ht =>
      rw [Recursion.formatParts, Control.formatPieces, Fault.readForm_of_readSource hu, Eval.ofExcept, pure_bind]
      refine .bind (h.evaluate .global ht) fun v v' hv => .bindId ih fun _ => .pure ?_
      rw [Value.eq_of_seen Value.display (fun _ _ => Value.display_seen _) hv]

/-- A format string and a call of `format` with its body have the same outcome, from every store and whichever scope the
call is made in: the same string, or an error that is the same up to its place, with the same effects. -/
theorem agree_format {body : String} {scan : Format.Scan} (h : Format.scan false body.toList = .ok scan)
    (htext : ∀ p ∈ scan.pieces, p.Unescaped) (hcode : ∀ p ∈ scan.pieces, Reader.OneForm p) :
    ∃ t, Reader.readSource (Reader.formatLiteral body) = .ok [t] ∧ ∀ (n : Nat) (origin : Origin) (scope : Scope) (s : Store),
      Agree .blind (Store.seen .blind) id (evaluate (n + 1) t .global s)
        (Builtin.formatting.call ⟨evaluate n, apply n⟩ [.string origin body] scope s) := by
  obtain ⟨parts, hparts, hread⟩ := Reader.readSource_formatLiteral h htext hcode
  refine ⟨_, hread, fun n origin scope s => ?_⟩
  rw [call_formatting (callerBlind_evaluate n) h, evaluate_succ]
  have halike : Alike (.exactly .blind) id id
      (Recursion.evaluateAtom ⟨evaluate n, apply n⟩ .global (.format .start parts)) _ :=
    .bindId (alike_formatted (respects_evaluate .blind n) hparts) fun texts => .pure rfl
  exact (halike s s rfl).agree

/-- A body with a call in it, between two runs of text. -/
def greetingBody : String := "dear #\x7b(f \"\x7d\")\x7d!"

def greetingPieces : List Format.Piece :=
  [.text ['d', 'e', 'a', 'r', ' '] ['d', 'e', 'a', 'r', ' '], .code ['(', 'f', ' ', '"', '\x7d', '"', ')'], .text ['!'] ['!']]

theorem scan_greetingBody : Format.scan false greetingBody.toList = .ok ⟨greetingPieces, []⟩ := by
  cbv

theorem readSource_greetingCall : (Reader.readSource "(f \"\x7d\")" : Except SyntaxError (List Code)) =
    .ok [.list ⟨1, 1⟩ [.symbol ⟨1, 2⟩ "f", .string ⟨1, 4⟩ "\x7d"]] := by
  cbv

theorem agree_format_greetingBody : Format.scan false greetingBody.toList = .ok ⟨greetingPieces, []⟩ ∧
    (∀ p ∈ greetingPieces, p.Unescaped) ∧ (∀ p ∈ greetingPieces, Reader.OneForm p) ∧
    ∃ t, Reader.readSource (Reader.formatLiteral greetingBody) = .ok [t] ∧
      ∀ (n : Nat) (origin : Origin) (scope : Scope) (s : Store),
        Agree .blind (Store.seen .blind) id (evaluate (n + 1) t .global s)
          (Builtin.formatting.call ⟨evaluate n, apply n⟩ [.string origin greetingBody] scope s) := by
  have htext : ∀ p ∈ greetingPieces, p.Unescaped := by
    simp [greetingPieces, Format.Piece.Unescaped]
  have hcode : ∀ p ∈ greetingPieces, Reader.OneForm p := by
    have hcall : Reader.OneForm (.code ['(', 'f', ' ', '"', '\x7d', '"', ')']) := ⟨_, readSource_greetingCall⟩
    exact List.forall_mem_cons.2 ⟨trivial, List.forall_mem_cons.2 ⟨hcall, List.forall_mem_singleton.2 trivial⟩⟩
  exact ⟨scan_greetingBody, htext, hcode, agree_format scan_greetingBody htext hcode⟩

end Lisplet
