import Lisplet.Proofs.Equality.Terms
import Lisplet.Proofs.Likeness.Reading
import Lisplet.Proofs.Reading.Cuts
/-!
# Infix groups and prefix lists

A source of one form can stand on a line of its own in any text: its tokens are those it has alone, up to places, and so is its
form (`SoleForm.lexesTo`). So an infix group of such sources, a line each, has a derivation if its operators are the same, and
then it is the same list as the prefix form of the operands. At the first operator that differs the reading stops
(`readSource_infixText`).
-/
namespace Lisplet

/-- Terms that differ in places only are the same, if no number in them is NaN. -/
theorem Term.same_of_seen {t u : Code} (h : t.seen .blind = u.seen .blind) (hu : u.NaNFree) : t.same u = true := by
  rw [← Term.same_seen (w := .blind), h, Term.same_seen]
  exact Term.same_refl u hu

/-- Sameness does not depend on places. -/
theorem Term.same_congr {t t' u u' : Code} (ht : t.seen .blind = t'.seen .blind) (hu : u.seen .blind = u'.seen .blind) :
    t.same u = t'.same u' := by
  rw [← Term.same_seen (w := .blind), ht, hu, Term.same_seen]

namespace Reader

/-! ## What was read holds no NaN -/

theorem wordKind_eq_number {w : List Char} (h : Lexer.wordKind w = .number) : Number.isNumeral w := by
  unfold Lexer.wordKind Lexer.literalKind? at h
  grind

theorem nanFree_of_readSource {source : String} {ts : List Code} (h : readSource source = .ok ts) :
    ∀ t ∈ ts, t.NaNFree := by
  have hp : StandsAt source.toList .start (source.toList ++ []) := by
    rw [List.append_nil]
    exact standsAt_start _
  obtain ⟨tokens, hlex, hread⟩ := Except.bind_eq_ok h
  obtain ⟨made, hl, rfl⟩ := Lexer.lexAt_complete.1 hlex
  have hk := Lexer.kind_ne_eof_of_grouped (Lexer.grouped_of_lexes hl .start)
  obtain ⟨trees, hvalid, htokens, rfl⟩ := exists_trees_of_readWith onlyDerived_embed hk rfl hread
  have hstanding : Lexer.Standing source.toList (Tree.tokensAll trees ++ []) := by
    rw [List.append_nil, htokens]
    exact Lexer.standing_of_lexes hl (by simp) hp
  intro t ht pos x hx
  obtain ⟨rest, -, hkind, rfl⟩ := (placed_row (fun tree hm => (hvalid tree hm).placed) hstanding).1 t ht _ hx
  exact Number.isNaN_ofText_of_isNumeral (by simpa using wordKind_eq_number hkind)

/-! ## Lines -/

/-- A text that is lexed wherever it starts, with tokens of which `P` holds. -/
def LexesTo (cs : List Char) (P : List Token → Prop) : Prop := ∃ made, Lexer.Lexes cs made ∧ ∀ p, P (made p)

/-- A source text of one form, and the form. -/
structure SoleForm where
  source : String
  term : Code
  read : readSource source = .ok [term]

/-- A derivation of a form at another place. -/
structure Derives (f : SoleForm) (tree : Tree) : Prop where
  valid : tree.Valid Value
  seen : Term.seen .blind tree.term = f.term.seen .blind

/-- A source of one form has the tokens of a derivation wherever it starts. -/
theorem SoleForm.lexesTo (f : SoleForm) :
    LexesTo f.source.toList fun toks => ∃ tree, Derives f tree ∧ tree.tokens = toks := by
  obtain ⟨tokens, hlex, hread⟩ := Except.bind_eq_ok f.read
  obtain ⟨made, hl, rfl⟩ := Lexer.lexAt_complete.1 hlex
  refine ⟨made, hl, fun p => ?_⟩
  obtain ⟨ts, hts, hseen⟩ := seen_readWith embed_seen hl hread p .start
  obtain ⟨t, rfl, ht⟩ := List.map_eq_singleton_iff.1 hseen.symm
  have hk := Lexer.kind_ne_eof_of_grouped (Lexer.grouped_of_lexes hl p)
  obtain ⟨trees, hvalid, htokens, hterms⟩ := exists_trees_of_readWith onlyDerived_embed hk rfl hts
  obtain ⟨tree, rfl, rfl⟩ := exists_singleton_of_terms hterms
  exact ⟨tree, ⟨List.forall_mem_singleton.1 hvalid, ht⟩, by simpa [Tree.tokensAll] using htokens⟩

/-- The tokens of a line are in front of those of the lines behind it. -/
theorem lexes_line {cs more : List Char} {front behind : Position → List Token} (h : Lexer.Lexes cs front)
    (hmore : Lexer.Lexes more behind) :
    Lexer.Lexes (cs ++ '\n' :: more) fun p => front p ++ behind (p.after (cs ++ ['\n'])) := by
  induction h with
  | nil => exact .chunk (.separator (by decide) : Lexer.Chunk ['\n'] more fun _ => []) hmore
  | chunk hc _ ih => simpa using Lexer.Lexes.chunk (Lexer.chunk_extend hc more) ih

variable {P : List Token → Prop} {more : List Char}

theorem lexesTo_line (f : SoleForm) (h : LexesTo more P) : LexesTo (f.source.toList ++ '\n' :: more) fun toks =>
    ∃ tree rest, Derives f tree ∧ P rest ∧ toks = tree.tokens ++ rest := by
  obtain ⟨made, hl, hmade⟩ := f.lexesTo
  obtain ⟨behind, hbehind, hP⟩ := h
  refine ⟨_, lexes_line hl hbehind, fun p => ?_⟩
  obtain ⟨tree, hderives, htokens⟩ := hmade p
  exact ⟨tree, _, hderives, hP _, by rw [htokens]⟩

/-- Sources, a line each. -/
def lines (fs : List SoleForm) : List Char := fs.flatMap fun f => f.source.toList ++ ['\n']

theorem lexesTo_lines (fs : List SoleForm) (h : LexesTo more P) : LexesTo (lines fs ++ more) fun toks =>
    ∃ trees rest, List.Forall₂ Derives fs trees ∧ P rest ∧ toks = Tree.tokensAll trees ++ rest := by
  induction fs with
  | nil =>
    obtain ⟨behind, hbehind, hP⟩ := h
    exact ⟨behind, hbehind, fun p => ⟨[], _, .nil, hP p, rfl⟩⟩
  | cons f fs ih =>
    obtain ⟨made, hl, hmade⟩ := lexesTo_line f ih
    refine ⟨made, by simpa [lines] using hl, fun p => ?_⟩
    obtain ⟨tree, _, hderives, ⟨trees, rest, htrees, hP, rfl⟩, htoks⟩ := hmade p
    exact ⟨tree :: trees, rest, .cons hderives htrees, hP, by rw [htoks, Tree.tokensAll, List.append_assoc]⟩

/-- Two brackets with sources between them, a line each, have the tokens of derivations between two tokens. -/
theorem lexesTo_bracketed {b d : Char} {kind kind' : Token.Kind} (hb : Lexer.singleKind? b = some kind)
    (hd : Lexer.singleKind? d = some kind') (fs : List SoleForm) : LexesTo (b :: (lines fs ++ [d])) fun toks =>
      ∃ opening trees closing, opening.kind = kind ∧ closing.kind = kind' ∧ List.Forall₂ Derives fs trees ∧
        toks = opening :: (Tree.tokensAll trees ++ [closing]) := by
  have hclosing : LexesTo [d] fun toks => ∃ closing, closing.kind = kind' ∧ toks = [closing] :=
    ⟨_, .chunk (.single hd) .nil, fun p => ⟨⟨kind', d.toString, p⟩, rfl, rfl⟩⟩
  obtain ⟨made, hl, hmade⟩ := lexesTo_lines fs hclosing
  refine ⟨_, .chunk (.single hb) hl, fun p => ?_⟩
  obtain ⟨trees, _, htrees, ⟨closing, hkind, rfl⟩, htoks⟩ := hmade (p.after [b])
  exact ⟨⟨kind, b.toString, p⟩, trees, closing, rfl, hkind, htrees, by rw [htoks]; rfl⟩

/-- The text of two brackets with sources between them, a line each. -/
def bracketed (b : Char) (f : SoleForm) (fs : List SoleForm) (d : Char) : String :=
  b.toString ++ "\n".intercalate ((f :: fs).map SoleForm.source) ++ "\n" ++ d.toString

theorem toList_bracketed (b : Char) (f : SoleForm) (fs : List SoleForm) (d : Char) :
    (bracketed b f fs d).toList = b :: (lines (f :: fs) ++ [d]) := by
  have hlines (f : SoleForm) : ("\n".intercalate ((f :: fs).map SoleForm.source)).toList ++ ['\n'] = lines (f :: fs) := by
    induction fs generalizing f with
    | nil => simp [lines]
    | cons g fs ih =>
      have hg := ih g
      rw [List.map_cons] at hg
      rw [List.map_cons, List.map_cons, String.intercalate_cons_cons, lines, List.flatMap_cons, ← lines, ← hg]
      simp
  simp [bracketed, ← hlines]

/-- The forms of a source that is lexed are those of its tokens. -/
theorem readSource_of_lexesTo {source : String} (h : LexesTo source.toList P) : ∃ toks q, P toks ∧
    (∀ tok ∈ toks, tok.kind ≠ .eof) ∧
      (readSource source : Except SyntaxError (List Code)) = (read (toks ++ [.eofAt q])).complete := by
  obtain ⟨made, hl, hP⟩ := h
  refine ⟨_, Position.start.after source.toList, hP .start,
    Lexer.kind_ne_eof_of_grouped (Lexer.grouped_of_lexes hl .start), ?_⟩
  have hlex : (Lexer.lex source).complete = .ok _ := Lexer.lexAt_complete.2 ⟨made, hl, rfl⟩
  rw [readSource, hlex]
  rfl

/-! ## Rows of derivations -/

theorem valid_of_derives {fs : List SoleForm} {trees : List Tree} (h : List.Forall₂ Derives fs trees) :
    ∀ t ∈ trees, t.Valid Value := by
  induction h with
  | nil => simp
  | cons hd _ ih => exact List.forall_mem_cons.2 ⟨hd.valid, ih⟩

theorem seen_terms {fs : List SoleForm} {trees : List Tree} (h : List.Forall₂ Derives fs trees) :
    (Tree.terms trees).map (Term.seen .blind) = fs.map fun f => f.term.seen .blind := by
  induction h with
  | nil => rfl
  | cons hd _ ih => rw [Tree.terms, List.map_cons, List.map_cons, hd.seen, ih]

theorem Link.trees_append (ls ls' : List Link) : Link.trees (ls ++ ls') = Link.trees ls ++ Link.trees ls' := by
  induction ls with
  | nil => rfl
  | cons l ls ih =>
    cases l
    simp [Link.trees, ih]

theorem Link.tokensAll_append (ls ls' : List Link) :
    Link.tokensAll (ls ++ ls') = Link.tokensAll ls ++ Link.tokensAll ls' := by
  simp only [← Link.tokensAll_trees, Link.trees_append, Tree.tokensAll_append]

/-- An operator and an operand with the derivations of a link. -/
def DerivesLink (link : SoleForm × SoleForm) : Link → Prop
  | .mk op t => Derives link.1 op ∧ Derives link.2 t

/-- Operators and operands in turn. -/
def members (links : List (SoleForm × SoleForm)) : List SoleForm := links.flatMap fun link => [link.1, link.2]

theorem exists_links {links : List (SoleForm × SoleForm)} {trees : List Tree}
    (h : List.Forall₂ Derives (members links) trees) :
    ∃ ls, trees = Link.trees ls ∧ List.Forall₂ DerivesLink links ls := by
  induction links generalizing trees with
  | nil =>
    cases h
    exact ⟨[], rfl, .nil⟩
  | cons link links ih =>
    obtain _ | ⟨hop, _ | ⟨ht, hrest⟩⟩ := h
    obtain ⟨ls, rfl, hls⟩ := ih hrest
    exact ⟨.mk _ _ :: ls, rfl, .cons ⟨hop, ht⟩ hls⟩

theorem seen_operands {links : List (SoleForm × SoleForm)} {ls : List Link} (h : List.Forall₂ DerivesLink links ls) :
    (Link.operands ls).map (Term.seen .blind) = links.map fun link => link.2.term.seen .blind := by
  induction h with
  | nil => rfl
  | @cons link l links ls hd _ ih =>
    cases l with
    | mk op t => rw [Link.operands, List.map_cons, List.map_cons, hd.2.seen, ih]

theorem exists_of_mem_links {links : List (SoleForm × SoleForm)} {ls : List Link} (h : List.Forall₂ DerivesLink links ls) :
    ∀ op t, Link.mk op t ∈ ls → ∃ link ∈ links, Derives link.1 op ∧ Derives link.2 t := by
  induction h with
  | nil => simp
  | @cons link l links ls hd _ ih =>
    intro op t hm
    rcases List.mem_cons.1 hm with rfl | hm
    · exact ⟨link, List.mem_cons_self, hd⟩
    · obtain ⟨link', hlink', hderives⟩ := ih op t hm
      exact ⟨link', List.mem_cons_of_mem _ hlink', hderives⟩

theorem valid_of_links {links : List (SoleForm × SoleForm)} {ls : List Link} (h : List.Forall₂ DerivesLink links ls) :
    ∀ tree ∈ Link.trees ls, tree.Valid Value := by
  refine Link.forall_mem_trees (fun op t hm => ?_) fun op t hm => ?_
  · obtain ⟨link, -, hop, -⟩ := exists_of_mem_links h op t hm
    exact hop.valid
  · obtain ⟨link, -, -, ht⟩ := exists_of_mem_links h op t hm
    exact ht.valid

/-- The first operator that differs from a term, with the links in front of it and behind it. -/
theorem exists_differing {t : Code} {links : List (SoleForm × SoleForm)} {ls : List Link}
    (h : List.Forall₂ DerivesLink links ls) (hdiffers : ∃ link ∈ links, t.same link.1.term = false) :
    ∃ before op operand after, ls = before ++ .mk op operand :: after ∧
      (∀ op' operand', Link.mk op' operand' ∈ before → t.same op'.term = true) ∧ t.same op.term = false := by
  induction h with
  | nil => simp at hdiffers
  | @cons link l links ls hd _ ih =>
    obtain ⟨op, operand⟩ := l
    have hsame : t.same op.term = t.same link.1.term := Term.same_congr rfl hd.1.seen
    cases hop : t.same link.1.term with
    | false => exact ⟨[], op, operand, ls, rfl, by simp, hsame.trans hop⟩
    | true =>
      obtain ⟨before, bad, operand', after, rfl, hbefore, hbad⟩ := ih (by simpa [hop] using hdiffers)
      refine ⟨.mk op operand :: before, bad, operand', after, rfl, fun op' operand'' hm => ?_, hbad⟩
      rcases List.mem_cons.1 hm with heq | hm
      · obtain ⟨rfl, rfl⟩ := Link.mk.inj heq
        exact hsame.trans hop
      · exact hbefore op' operand'' hm

/-! ## Infix groups -/

/-- An operator that differs from the first one stops the reading of an infix group. -/
theorem run_mismatch {e : Token → Except SyntaxError Code} {opening : Token} {first op second bad : Tree} {links : List Link}
    (ho : opening.kind = .opening .curly) (hfirst : Delivered e first) (hop : Delivered e op) (hsecond : Delivered e second)
    (hlinks : ∀ t ∈ Link.trees links, Delivered e t)
    (hsame : ∀ op' t, Link.mk op' t ∈ links → (op.term : Code).same op'.term) (hbad : Concludes e bad)
    (hdiffers : (op.term : Code).same bad.term = false) (rest : List Token) :
    (run e .empty (opening :: (first.tokens ++ (op.tokens ++ (second.tokens ++ Link.tokensAll links))) ++
      (bad.tokens ++ rest))).failure = some ⟨.infixMismatch (op.term : Code).source (bad.term : Code).source, bad.start⟩ := by
  obtain ⟨front, last, htokens, hconcludes⟩ := hbad
  obtain ⟨m, hfront, hlast⟩ := hconcludes ⟨.group opening.position ((Link.operands links).reverse ++
    [second.term, first.term]) ((Link.operators links).reverse ++ [op.term]) :: State.empty.stack,
    State.empty.forms⟩ rfl
  have hadd : addToGroup bad.start (bad.term : Code) opening.position
      ((Link.operands links).reverse ++ [second.term, first.term]) ((Link.operators links).reverse ++ [op.term]) =
        .error ⟨.infixMismatch (op.term : Code).source (bad.term : Code).source, bad.start⟩ := by
    simp [addToGroup, Link.length_operators, hdiffers]
  have hfailed : step e last m =
      .failed ⟨.infixMismatch (op.term : Code).source (bad.term : Code).source, bad.start⟩ true := by
    rw [hlast, deliver, hadd]
    rfl
  rw [run_of_steps (steps_chain ho hfirst hop hsecond hlinks hsame rfl), htokens, List.append_assoc, run_of_steps hfront,
    List.singleton_append, run, hfailed]

/-- An infix group: a first operand, and operators with the operands behind them. -/
def infixText (first : SoleForm) (links : List (SoleForm × SoleForm)) : String :=
  bracketed '\x7b' first (members links) '\x7d'

/-- A list of an operator and its operands. -/
def prefixText (op : SoleForm) (operands : List SoleForm) : String := bracketed '(' op operands ')'

/-- The tokens of an infix group and its derivations. -/
theorem readSource_infixText_eq (first op second : SoleForm) (links : List (SoleForm × SoleForm)) :
    ∃ opening first' op' second' ls closing q, opening.kind = .opening .curly ∧ closing.kind = .closing .curly ∧
      Derives first first' ∧ Derives op op' ∧ Derives second second' ∧ List.Forall₂ DerivesLink links ls ∧
      (∀ tok ∈ (Tree.chain opening first' op' second' ls closing).tokens, tok.kind ≠ .eof) ∧
      (readSource (infixText first ((op, second) :: links)) : Except SyntaxError (List Code)) =
        (read ((Tree.chain opening first' op' second' ls closing).tokens ++ [.eofAt q])).complete := by
  have hlexes := lexesTo_bracketed (b := '\x7b') (d := '\x7d') rfl rfl (first :: members ((op, second) :: links))
  rw [← toList_bracketed] at hlexes
  obtain ⟨toks, q, ⟨opening, trees, closing, ho, hc, htrees, rfl⟩, hk, hread⟩ := readSource_of_lexesTo hlexes
  obtain _ | ⟨hfirst, _ | ⟨hop, _ | ⟨hsecond, hrest⟩⟩⟩ := htrees
  obtain ⟨ls, rfl, hls⟩ := exists_links hrest
  refine ⟨opening, _, _, _, ls, closing, q, ho, hc, hfirst, hop, hsecond, hls, ?_, ?_⟩
  · simpa [Tree.tokens, Tree.tokensAll, Link.tokensAll_trees] using hk
  · rw [infixText, hread]
    simp [Tree.tokens, Tree.tokensAll, Link.tokensAll_trees]

theorem complete_of_failure {r : Reading Value} {err : SyntaxError} (h : r.failure = some err) : r.complete = .error err := by
  rw [Reading.complete, h]

/-- The tokens of one derivation are read as its term. -/
theorem read_of_tree {tree : Tree} (h : tree.Valid Value) (hk : ∀ tok ∈ tree.tokens, tok.kind ≠ .eof) (q : Position) :
    (read (tree.tokens ++ [.eofAt q])).complete = .ok [(tree.term : Code)] := by
  have hlast : (Token.eofAt q).kind = .eof := rfl
  have hread := read_of_valid (α := Value) (List.forall_mem_singleton.2 h) (by simpa [Tree.tokensAll] using hk) hlast
  simpa [Tree.tokensAll, Tree.terms] using hread

/-- A list of sources is read as the list of their forms. -/
theorem readSource_prefixText (op : SoleForm) (operands : List SoleForm) : ∃ pos ts,
    readSource (prefixText op operands) = .ok [(.list pos ts : Code)] ∧
      ts.map (Term.seen .blind) = (op :: operands).map fun f => f.term.seen .blind := by
  have hlexes := lexesTo_bracketed (b := '(') (d := ')') rfl rfl (op :: operands)
  rw [← toList_bracketed] at hlexes
  obtain ⟨toks, q, ⟨opening, trees, closing, ho, hc, htrees, rfl⟩, hk, hread⟩ := readSource_of_lexesTo hlexes
  have hvalid : (Tree.list .round opening trees closing).Valid Value :=
    .list (by decide) ho hc (valid_of_derives htrees)
  exact ⟨opening.position, Tree.terms trees, hread.trans (read_of_tree hvalid hk q), seen_terms htrees⟩

/-- An infix group whose operators are the same is read as the list of its operator and its operands. -/
theorem readSource_infixText_of_same (first op second : SoleForm) {links : List (SoleForm × SoleForm)}
    (hsame : ∀ link ∈ links, op.term.same link.1.term = true) : ∃ pos ts,
    readSource (infixText first ((op, second) :: links)) = .ok [(.list pos ts : Code)] ∧
      ts.map (Term.seen .blind) = (op :: first :: second :: links.map Prod.snd).map fun f => f.term.seen .blind := by
  obtain ⟨opening, first', op', second', ls, closing, q, ho, hc, hfirst, hop, hsecond, hls, hk, hread⟩ :=
    readSource_infixText_eq first op second links
  have hlink := exists_of_mem_links hls
  have hvalid : (Tree.chain opening first' op' second' ls closing).Valid Value := by
    refine .chain ho hc hfirst.valid hop.valid hsecond.valid (fun op'' t hm => ?_) (fun op'' t hm => ?_) fun op'' t hm => ?_
    · obtain ⟨link, -, hderives, -⟩ := hlink op'' t hm
      exact hderives.valid
    · obtain ⟨link, -, -, hderives⟩ := hlink op'' t hm
      exact hderives.valid
    · obtain ⟨link, hmem, hderives, -⟩ := hlink op'' t hm
      rw [Term.same_congr hop.seen hderives.seen]
      exact hsame link hmem
  refine ⟨_, _, hread.trans (read_of_tree hvalid hk q), ?_⟩
  simp [hop.seen, hfirst.seen, hsecond.seen, seen_operands hls]

/-- An infix group two operators of which differ is not read. -/
theorem readSource_infixText_of_differs (first op second : SoleForm) {links : List (SoleForm × SoleForm)}
    (hdiffers : ∃ link ∈ links, op.term.same link.1.term = false) : ∃ err,
    (readSource (infixText first ((op, second) :: links)) : Except SyntaxError (List Code)) = .error err ∧
      err.code = .infixMismatch := by
  obtain ⟨opening, first', op', second', ls, closing, q, ho, hc, hfirst, hop, hsecond, hls, hk, hread⟩ :=
    readSource_infixText_eq first op second links
  have hreads (toks : List Token) : ReadsCode (embed : Token → Except SyntaxError Code) toks :=
    fun _ _ _ _ hb he => embed_of_valid hb he
  obtain ⟨before, bad, t, after, rfl, hsame, hbad⟩ := exists_differing (t := op'.term) hls
    (by simpa [Term.same_congr hop.seen rfl] using hdiffers)
  have hlinks := valid_of_links hls
  have hbefore : ∀ tree ∈ Link.trees before, tree.Valid Value := fun tree hm =>
    hlinks tree (by rw [Link.trees_append]; exact List.mem_append_left _ hm)
  have hbadValid : bad.Valid Value := hlinks bad (by simp [Link.trees_append, Link.trees])
  have hrun := run_mismatch ho (hfirst.valid.delivered (hreads _)) (hop.valid.delivered (hreads _))
    (hsecond.valid.delivered (hreads _)) (fun tree hm => (hbefore tree hm).delivered (hreads _)) hsame
    (hbadValid.concludes (hreads _)) hbad (t.tokens ++ (Link.tokensAll after ++ [closing, .eofAt q]))
  have hfailure : (read (α := Value) ((Tree.chain opening first' op' second' (before ++ .mk bad t :: after) closing).tokens ++
      [.eofAt q])).failure = some ⟨.infixMismatch (op'.term : Code).source (bad.term : Code).source, bad.start⟩ := by
    rw [read, readWith, supply_of_eof]
    simpa [Tree.tokens, Link.tokensAll_append, Link.tokensAll] using hrun
  exact ⟨_, hread.trans (complete_of_failure hfailure), rfl⟩

/-- Infix groups and prefix lists are the same forms. Operands and operators are sources of one form. If all operators of a
group are the same as the first one, the text of the group is read as one form, and the text of the list of the operator and
the operands is read as one that is the same. Otherwise reading the group fails, since its operators differ. -/
theorem readSource_infixText (first op second : SoleForm) (links : List (SoleForm × SoleForm)) :
    ((∀ link ∈ links, op.term.same link.1.term = true) → ∃ t u : Code,
      readSource (infixText first ((op, second) :: links)) = .ok [t] ∧
        readSource (prefixText op (first :: second :: links.map Prod.snd)) = .ok [u] ∧ t.same u = true) ∧
    ((∃ link ∈ links, op.term.same link.1.term = false) → ∃ err,
      (readSource (infixText first ((op, second) :: links)) : Except SyntaxError (List Code)) = .error err ∧
        err.code = .infixMismatch) := by
  refine ⟨fun hsame => ?_, readSource_infixText_of_differs first op second⟩
  obtain ⟨pos, ts, hinfix, hts⟩ := readSource_infixText_of_same first op second hsame
  obtain ⟨pos', us, hprefix, hus⟩ := readSource_prefixText op (first :: second :: links.map Prod.snd)
  have hseen : Term.seen .blind (.list pos ts) = Term.seen .blind (.list pos' us) := by
    rw [Term.seen, Term.seen, Term.seenAll_eq_map, Term.seenAll_eq_map, hts, hus]
    rfl
  exact ⟨_, _, hinfix, hprefix, Term.same_of_seen hseen (nanFree_of_readSource hprefix _ List.mem_cons_self)⟩

/-- An operand with a comment behind it. -/
def remarked : SoleForm := ⟨"a ; the first", .symbol ⟨1, 1⟩ "a", by cbv⟩

/-- A quoted group in the place of an operand. -/
def quotedProduct : SoleForm :=
  ⟨"'\x7bb * c\x7d",
    .marked ⟨1, 1⟩ .quote (.list ⟨1, 2⟩ [.symbol ⟨1, 5⟩ "*", .symbol ⟨1, 3⟩ "b", .symbol ⟨1, 7⟩ "c"]), by cbv⟩

/-- Operators of one character. -/
def plus : SoleForm := ⟨"+", .symbol ⟨1, 1⟩ "+", by cbv⟩

def minus : SoleForm := ⟨"-", .symbol ⟨1, 1⟩ "-", by cbv⟩

/-- The sum of three operands is read as in prefix form, and a sum that goes on as a difference is not read. -/
theorem readSource_infixText_remarked :
    (infixText remarked [(plus, quotedProduct), (plus, remarked)] =
        "\x7ba ; the first\n+\n'\x7bb * c\x7d\n+\na ; the first\n\x7d" ∧
      ∃ t u : Code, readSource (infixText remarked [(plus, quotedProduct), (plus, remarked)]) = .ok [t] ∧
        readSource (prefixText plus [remarked, quotedProduct, remarked]) = .ok [u] ∧ t.same u = true) ∧
    ∃ err, (readSource (infixText remarked [(plus, quotedProduct), (minus, remarked)]) : Except SyntaxError (List Code)) =
      .error err ∧ err.code = .infixMismatch :=
  ⟨⟨by decide, (readSource_infixText remarked plus quotedProduct [(plus, remarked)]).1 (by simp [plus, Term.same])⟩,
    (readSource_infixText remarked plus quotedProduct [(minus, remarked)]).2 (by simp [plus, minus, Term.same])⟩

end Reader

end Lisplet
