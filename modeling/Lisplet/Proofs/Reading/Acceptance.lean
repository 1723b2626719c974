import Lisplet.Proofs.Reading.Derivations
import Lisplet.Value
/-!
# The reader accepts exactly its grammar

Whatever the reader has read so far has derivations: the forms that are done have whole ones, and each form on the stack
is an opened one, whose elements are derived (`Built`). One token keeps that (`Built.step`), so any number of tokens does
(`Built.steps`). At the end of the tokens no form is open, and all of them are derived.

Main statement: of tokens with one end mark, the reader reads the terms of a derivation, exactly when there is one, and
there is one at most (`read_eq_ok_iff`).
-/
namespace Lisplet.Reader

variable {α : Type} [Identity α] {e : Token → Except SyntaxError (Term α)}

/-! ## Opened forms -/

/-- The forms of an infix group up to an operand: the first operator is the one that all others are equal to. -/
structure Chained (α : Type) [Identity α] (first op second : Tree) (links : List Link) : Prop where
  operand : first.Valid α
  operator : op.Valid α
  other : second.Valid α
  operators : ∀ op' t, Link.mk op' t ∈ links → op'.Valid α
  operands : ∀ op' t, Link.mk op' t ∈ links → t.Valid α
  same : ∀ op' t, Link.mk op' t ∈ links → (op.term : Term α).same op'.term

/-- A form that has begun outside format strings, with the derivations of what it holds so far. -/
inductive Opened where
  | list (bracket : Bracket) (opening : Token) (elements : List Tree)
  | marked (marker : Marker) (mark : Token)
  | brace (opening : Token)
  | operand (opening : Token) (first : Tree)
  | operator (opening : Token) (first op : Tree)
  | chain (opening : Token) (first op second : Tree) (links : List Link)
  | dangling (opening : Token) (first op second : Tree) (links : List Link) (next : Tree)

/-- The tokens of an opened form. -/
def Opened.tokens : Opened → List Token
  | .list _ opening ts => opening :: Tree.tokensAll ts
  | .marked _ mark => [mark]
  | .brace opening => [opening]
  | .operand opening first => opening :: first.tokens
  | .operator opening first op => opening :: (first.tokens ++ op.tokens)
  | .chain opening first op second links => opening :: (first.tokens ++ op.tokens ++ second.tokens ++ Link.tokensAll links)
  | .dangling opening first op second links next =>
    opening :: (first.tokens ++ op.tokens ++ second.tokens ++ Link.tokensAll links ++ next.tokens)

/-- The tokens of a row of opened forms, the innermost of which comes first in the row and last in the text. -/
def Opened.tokensAll : List Opened → List Token
  | [] => []
  | o :: os => Opened.tokensAll os ++ o.tokens

/-- What the reader keeps of a form that has begun. -/
inductive Stands : Opened → Pending α → Prop
  | list {bracket : Bracket} {opening : Token} {ts : List Tree} : bracket ≠ .curly → opening.kind = .opening bracket →
      (∀ t ∈ ts, t.Valid α) → Stands (.list bracket opening ts) (.list bracket opening.position (Tree.terms ts).reverse)
  | marked {marker : Marker} {mark : Token} (text : String) : mark.kind = .marker marker →
      Stands (.marked marker mark) (.marked mark.position marker text)
  | brace {opening : Token} : opening.kind = .opening .curly → Stands (.brace opening) (.group opening.position [] [])
  | operand {opening : Token} {first : Tree} : opening.kind = .opening .curly → first.Valid α →
      Stands (.operand opening first) (.group opening.position [first.term] [])
  | operator {opening : Token} {first op : Tree} : opening.kind = .opening .curly → first.Valid α → op.Valid α →
      Stands (.operator opening first op) (.group opening.position [first.term] [op.term])
  | chain {opening : Token} {first op second : Tree} {links : List Link} : opening.kind = .opening .curly →
      Chained α first op second links → Stands (.chain opening first op second links)
        (.group opening.position ((Link.operands links).reverse ++ [second.term, first.term])
          ((Link.operators links).reverse ++ [op.term]))
  | dangling {opening : Token} {first op second : Tree} {links : List Link} {next : Tree} :
      opening.kind = .opening .curly → Chained α first op second links → next.Valid α →
      (op.term : Term α).same next.term → Stands (.dangling opening first op second links next)
        (.group opening.position ((Link.operands links).reverse ++ [second.term, first.term])
          (next.term :: ((Link.operators links).reverse ++ [op.term])))

/-- A state outside format strings that the tokens read so far lead to: forms that are done and forms that have begun. -/
inductive Outside : List Token → State α → Prop
  | intro {done : List Tree} {opened : List Opened} {stack : List (Pending α)} : (∀ t ∈ done, t.Valid α) →
      List.Forall₂ Stands opened stack →
      Outside (Tree.tokensAll done ++ Opened.tokensAll opened) ⟨stack, (Tree.terms done).reverse⟩

/-- A state that the tokens read so far lead to. -/
inductive Built : List Token → State α → Prop
  | outside {tokens : List Token} {s : State α} : Outside tokens s → Built tokens s
  | inside {tokens : List Token} {stack : List (Pending α)} {forms : List (Term α)} {opening : Token}
      {ps : List Piece} : Outside tokens ⟨stack, forms⟩ → opening.kind = .formatStart → Piece.Fit (Tree.Valid α) ps →
      Built (tokens ++ opening :: ps.map Piece.token)
        ⟨.format opening.position (Piece.parts ps).reverse :: stack, forms⟩

theorem Outside.inFormat {tokens : List Token} {s : State α} (h : Outside tokens s) : s.inFormat = false := by
  cases h with
  | intro _ hopened =>
    cases hopened with
    | nil => rfl
    | cons htop _ => cases htop <;> rfl

/-! ## A derivation is delivered -/

/-- A link more at the end. -/
theorem Chained.snoc {first op second next t : Tree} {links : List Link} (h : Chained α first op second links)
    (hnext : next.Valid α) (hsame : (op.term : Term α).same next.term) (ht : t.Valid α) :
    Chained α first op second (links ++ [.mk next t]) := by
  have hcases {P : Tree → Tree → Prop} (hold : ∀ op' t, Link.mk op' t ∈ links → P op' t) (hnew : P next t) :
      ∀ op' t', Link.mk op' t' ∈ links ++ [.mk next t] → P op' t' := by
    intro op' t' hm
    rcases List.mem_append.1 hm with hm | hm
    · exact hold op' t' hm
    · obtain ⟨rfl, rfl⟩ := Link.mk.inj (List.mem_singleton.1 hm)
      exact hnew
  exact ⟨h.operand, h.operator, h.other, hcases h.operators hnext, hcases h.operands ht, hcases h.same hsame⟩

/-- The innermost form may have become another one. -/
theorem outside_of_top {done : List Tree} {os : List Opened} {stack : List (Pending α)} {o : Opened} {p : Pending α}
    {tokens : List Token} (hdone : ∀ t ∈ done, t.Valid α) (hrest : List.Forall₂ Stands os stack) (htop : Stands o p)
    (htokens : tokens = Tree.tokensAll done ++ (Opened.tokensAll os ++ o.tokens)) :
    Outside tokens ⟨p :: stack, (Tree.terms done).reverse⟩ := by
  rw [htokens]
  exact .intro hdone (.cons htop hrest)

/-- A derivation that is delivered is put to those that are there. -/
theorem Outside.deliver {tokens : List Token} {stack : List (Pending α)} {forms : List (Term α)} {t : Tree}
    {start : Position} {s : State α} (h : Outside tokens ⟨stack, forms⟩) (ht : t.Valid α)
    (hd : deliver start t.term forms stack = .ok s) : Outside (tokens ++ t.tokens) s := by
  cases h with
  | @intro done opened _ hdone hopened =>
    induction hopened generalizing t start with
    | nil =>
      obtain rfl := Except.ok.inj hd
      have htokens : Tree.tokensAll done ++ Opened.tokensAll [] ++ t.tokens =
          Tree.tokensAll (done ++ [t]) ++ Opened.tokensAll [] := by
        simp [Tree.tokensAll_append, Tree.tokensAll, Opened.tokensAll]
      rw [← Tree.reverse_terms_snoc, htokens]
      exact .intro (List.forall_mem_append.2 ⟨hdone, List.forall_mem_singleton.2 ht⟩) .nil
    | @cons top p os stack htop hrest ih =>
      -- Each kind of form takes the derivation in its own way; a mark makes a new one of it, for the form around it.
      cases htop with
      | @list bracket opening ts hb ho hts =>
        obtain rfl := Except.ok.inj hd
        rw [← Tree.reverse_terms_snoc]
        refine outside_of_top hdone hrest (.list hb ho ?_) ?_
        · exact List.forall_mem_append.2 ⟨hts, List.forall_mem_singleton.2 ht⟩
        · simp [Opened.tokensAll, Opened.tokens, Tree.tokensAll_append, Tree.tokensAll]
      | @marked marker mark text hm =>
        have hout := ih (t := .marked marker mark t) (.marked hm ht) hd
        have htokens : Tree.tokensAll done ++ Opened.tokensAll (.marked marker mark :: os) ++ t.tokens =
            Tree.tokensAll done ++ Opened.tokensAll os ++ (Tree.marked marker mark t).tokens := by
          simp [Opened.tokensAll, Opened.tokens, Tree.tokens]
        rw [htokens]
        exact hout
      | brace ho =>
        obtain rfl := Except.ok.inj hd
        exact outside_of_top hdone hrest (.operand ho ht) (by simp [Opened.tokensAll, Opened.tokens])
      | operand ho hfirst =>
        obtain rfl := Except.ok.inj hd
        exact outside_of_top hdone hrest (.operator ho hfirst ht) (by simp [Opened.tokensAll, Opened.tokens])
      | @operator opening first op ho hfirst hop =>
        obtain rfl := Except.ok.inj hd
        have hchain : Chained α first op t [] := ⟨hfirst, hop, ht, by simp, by simp, by simp⟩
        exact outside_of_top hdone hrest (.chain ho hchain)
          (by simp [Opened.tokensAll, Opened.tokens, Link.tokensAll])
      | @chain opening first op second links ho hchain =>
        have hne : ((Link.operands links).reverse ++ [second.term, (first.term : Term α)]).length ≠
            ((Link.operators links).reverse ++ [(op.term : Term α)]).length := by
          simp [Link.length_operators]
        rw [Reader.deliver, addToGroup, if_neg hne] at hd
        have hlast : ((Link.operators links).reverse ++ [(op.term : Term α)]).getLast? = some op.term := by simp
        rw [hlast] at hd
        dsimp only at hd
        split at hd
        next group hgroup =>
          split at hgroup
          case isTrue hsame =>
            obtain rfl := Except.ok.inj hgroup
            obtain rfl := Except.ok.inj hd
            exact outside_of_top hdone hrest (.dangling ho hchain ht hsame) (by simp [Opened.tokensAll, Opened.tokens])
          case isFalse => cases hgroup
        next => cases hd
      | @dangling opening first op second links next ho hchain hnext hsame =>
        have hlen : ((Link.operands links).reverse ++ [second.term, (first.term : Term α)]).length =
            (next.term :: ((Link.operators links).reverse ++ [(op.term : Term α)])).length := by
          simp [Link.length_operators]
        rw [Reader.deliver, addToGroup, if_pos hlen] at hd
        obtain rfl := Except.ok.inj hd
        have hmore : Stands (.chain opening first op second (links ++ [.mk next t]))
            (.group opening.position (t.term :: ((Link.operands links).reverse ++ [second.term, first.term]))
              ((next.term : Term α) :: ((Link.operators links).reverse ++ [op.term]))) := by
          simpa [Link.operands_snoc, Link.operators_snoc] using Stands.chain ho (hchain.snoc hnext hsame ht)
        exact outside_of_top hdone hrest hmore (by simp [Opened.tokensAll, Opened.tokens, Link.tokensAll_snoc])

/-! ## What one token does -/

/-- A form that begins: an atom is delivered, anything else is opened. -/
theorem Outside.begin {tokens : List Token} {s s' : State α} {tok : Token} (h : Outside tokens s)
    (hb : begin tok s = .next s') : Built (tokens ++ [tok]) s' := by
  obtain ⟨stack, forms⟩ := s
  have hopen {o : Opened} {p : Pending α} (hstands : Stands o p) (ho : o.tokens = [tok])
      (he : Effect.next ⟨p :: stack, forms⟩ = Effect.next s') : Built (tokens ++ [tok]) s' := by
    obtain rfl := Effect.next.inj he
    cases h with
    | intro hdone hopened =>
      exact .outside (outside_of_top hdone hopened hstands (by rw [ho, List.append_assoc]))
  by_cases hatom : isAtom tok.kind
  · rw [begin_of_isAtom hatom] at hb
    exact .outside (h.deliver (t := .atom tok) (.atom hatom) (deliver_of_next hb))
  unfold Reader.begin at hb
  split at hb
  case h_1 hk => exact hopen (.brace hk) rfl hb
  case h_2 bracket hne hk => exact hopen (o := .list bracket tok []) (.list hne hk (by simp)) rfl hb
  case h_3 marker hk => exact hopen (.marked tok.text hk) rfl hb
  case h_4 hk =>
    obtain rfl := Effect.next.inj hb
    have hnone : Piece.Fit (Tree.Valid α) [] := ⟨by simp, by simp, by simp⟩
    exact .inside h hk hnone
  -- What is left are the atoms, and the tokens that begin nothing.
  all_goals simp_all [isAtom]

/-- What is left of a state when its innermost form is taken away. -/
theorem Outside.pop {tokens : List Token} {p : Pending α} {stack : List (Pending α)} {forms : List (Term α)}
    (h : Outside tokens ⟨p :: stack, forms⟩) :
    ∃ front o, Stands o p ∧ tokens = front ++ o.tokens ∧ Outside front ⟨stack, forms⟩ := by
  cases h with
  | intro hdone hopened =>
    cases hopened with
    | cons htop hrest => exact ⟨_, _, htop, by rw [Opened.tokensAll, List.append_assoc], .intro hdone hrest⟩

/-- A closing brace makes a derivation of an infix group, unless it ends with an operator. -/
theorem exists_tree_of_closeGroup {o : Opened} {pos : Position} {operands operators : List (Term α)} {t : Term α}
    {closing : Token} (h : Stands o (.group pos operands operators)) (hc : closing.kind = .closing .curly)
    (ht : closeGroup pos operands operators = some t) :
    ∃ tree : Tree, tree.Valid α ∧ tree.tokens = o.tokens ++ [closing] ∧ tree.term = t := by
  cases h with
  | @brace opening ho =>
    obtain rfl := Option.some.inj ht
    exact ⟨.empty opening closing, .empty ho hc, rfl, rfl⟩
  | @operand opening first ho hfirst =>
    obtain rfl := Option.some.inj ht
    exact ⟨.sole opening first closing, .sole ho hc hfirst, by simp [Tree.tokens, Opened.tokens], rfl⟩
  | operator => cases ht
  | @chain opening first op second links ho h =>
    obtain rfl : _ = t := by simpa [closeGroup, Link.length_operators] using ht
    refine ⟨.chain opening first op second links closing, ?_, by simp [Tree.tokens, Opened.tokens], rfl⟩
    exact .chain ho hc h.operand h.operator h.other h.operators h.operands h.same
  | @dangling opening first op second links next ho h => simp [closeGroup, Link.length_operators] at ht

/-- A reader of expressions that reads only what has a derivation. -/
def OnlyDerived (e : Token → Except SyntaxError (Term α)) : Prop :=
  ∀ tok t, e tok = .ok t → ∃ body : Tree, body.Valid α ∧ Embeds tok body ∧ body.term = t

theorem Built.toOutside {tokens : List Token} {s : State α} (h : Built tokens s) (hs : s.inFormat = false) :
    Outside tokens s := by
  cases h with
  | outside h => exact h
  | inside => cases hs

/-- Inside a format string the tokens behind its start are its pieces. -/
theorem Built.toInside {tokens : List Token} {pos : Position} {parts : List (Part α)} {stack : List (Pending α)}
    {forms : List (Term α)} (h : Built tokens ⟨.format pos parts :: stack, forms⟩) :
    ∃ front opening ps, Outside front ⟨stack, forms⟩ ∧ opening.kind = .formatStart ∧ Piece.Fit (Tree.Valid α) ps ∧
      tokens = front ++ opening :: ps.map Piece.token ∧ pos = opening.position ∧ parts = (Piece.parts ps).reverse := by
  cases h with
  | outside h => exact absurd h.inFormat (by simp [State.inFormat])
  | inside h ho hfit => exact ⟨_, _, _, h, ho, hfit, rfl, rfl, rfl⟩

/-- One token more. -/
theorem Built.step {tokens : List Token} {s s' : State α} {tok : Token} (h : Built tokens s) (he : OnlyDerived e)
    (hstep : Advances e tok s s') : Built (tokens ++ [tok]) s' := by
  cases hstep with
  | begin hs hb => exact (h.toOutside hs).begin hb
  | @listEnd bracket _ _ _ _ _ hk hd =>
    -- What stands open came from an opening bracket and whole trees, which the closing one makes a tree of.
    obtain ⟨front, o, hstands, rfl, hout⟩ := (h.toOutside rfl).pop
    cases hstands with
    | @list _ opening ts hb ho hts =>
      have htree : (Tree.list bracket opening ts tok).Valid α := .list hb ho hk hts
      have htokens : front ++ Opened.tokens (.list bracket opening ts) ++ [tok] =
          front ++ (Tree.list bracket opening ts tok).tokens := by
        simp [Opened.tokens, Tree.tokens]
      rw [List.reverse_reverse] at hd
      exact htokens ▸ .outside (hout.deliver htree hd)
  | groupEnd hk ht hd =>
    obtain ⟨front, o, hstands, rfl, hout⟩ := (h.toOutside rfl).pop
    obtain ⟨tree, hvalid, htokens, rfl⟩ := exists_tree_of_closeGroup hstands hk ht
    rw [List.append_assoc, ← htokens]
    exact .outside (hout.deliver hvalid hd)
  | text hk =>
    obtain ⟨front, opening, ps, hout, ho, hfit, rfl, rfl, rfl⟩ := h.toInside
    have hmore := Built.inside hout ho (hfit.text_snoc hk)
    simpa [Piece.parts_append, Piece.parts, Piece.token] using hmore
  | code hk ht =>
    obtain ⟨front, opening, ps, hout, ho, hfit, rfl, rfl, rfl⟩ := h.toInside
    obtain ⟨body, hbody, hembeds, rfl⟩ := he _ _ ht
    have hmore := Built.inside hout ho (hfit.code_snoc hk hembeds hbody)
    simpa [Piece.parts_append, Piece.parts, Piece.token] using hmore
  | formatEnd hk hd =>
    obtain ⟨front, opening, ps, hout, ho, hfit, rfl, rfl, rfl⟩ := h.toInside
    have htree : (Tree.format opening ps tok).Valid α := .format ho hk hfit.text hfit.code hfit.body
    have htokens : front ++ opening :: ps.map Piece.token ++ [tok] = front ++ (Tree.format opening ps tok).tokens := by
      simp [Tree.tokens]
    rw [List.reverse_reverse] at hd
    exact htokens ▸ .outside (hout.deliver htree hd)

/-- Any number of tokens more. -/
theorem Built.steps {tokens more : List Token} {s s' : State α} (h : Built tokens s) (he : OnlyDerived e)
    (hsteps : steps e s more = some s') : Built (tokens ++ more) s' := by
  induction more generalizing tokens s with
  | nil =>
    obtain rfl := Option.some.inj hsteps
    rw [List.append_nil]
    exact h
  | cons tok more ih =>
    obtain ⟨m, hm, hrest⟩ := steps_cons.1 hsteps
    have hmore := ih (h.step he (advances_of_step hm)) hrest
    rw [List.append_assoc] at hmore
    exact hmore

theorem built_empty : Built [] (State.empty : State α) :=
  have hnone : ∀ t ∈ ([] : List Tree), t.Valid α := by simp
  .outside (.intro hnone .nil)

/-- The forms that are done have derivations, made of the tokens read first. -/
theorem Built.done {tokens : List Token} {s : State α} (h : Built tokens s) :
    ∃ ts : List Tree, (∀ t ∈ ts, t.Valid α) ∧ Tree.tokensAll ts <+: tokens ∧ Tree.terms ts = s.forms.reverse ∧
      (s.stack = [] → Tree.tokensAll ts = tokens) := by
  have houtside {tokens : List Token} {stack : List (Pending α)} {forms : List (Term α)}
      (h : Outside tokens ⟨stack, forms⟩) : ∃ ts : List Tree, (∀ t ∈ ts, t.Valid α) ∧ Tree.tokensAll ts <+: tokens ∧
        Tree.terms ts = forms.reverse ∧ (stack = [] → Tree.tokensAll ts = tokens) := by
    cases h with
    | @intro ts opened _ hts hopened =>
      refine ⟨ts, hts, List.prefix_append _ _, by rw [List.reverse_reverse], ?_⟩
      rintro rfl
      cases hopened
      simp [Opened.tokensAll]
  cases h with
  | outside h => exact houtside h
  | inside h _ _ =>
    obtain ⟨ts, hts, hprefix, hforms, -⟩ := houtside h
    exact ⟨ts, hts, hprefix.trans (List.prefix_append _ _), hforms, by simp⟩

/-! ## Readings -/

/-- The forms of a reading, failed or not, are those of a state that it came to. -/
theorem exists_steps_of_run (s : State α) (tokens : List Token) :
    ∃ front s', front <+: tokens ∧ steps e s front = some s' ∧ (run e s tokens).forms = s'.forms.reverse := by
  induction tokens generalizing s with
  | nil => exact ⟨[], s, List.prefix_rfl, rfl, rfl⟩
  | cons tok tokens ih =>
    rw [run]
    cases hs : Reader.step e tok s with
    | next m =>
      obtain ⟨front, s', hprefix, hsteps, hforms⟩ := ih m
      exact ⟨tok :: front, s', List.cons_prefix_cons.2 ⟨rfl, hprefix⟩, steps_cons.2 ⟨m, hs, hsteps⟩, hforms⟩
    | finished => exact ⟨[], s, List.nil_prefix, rfl, rfl⟩
    | failed err used => exact ⟨[], s, List.nil_prefix, rfl, rfl⟩

/-- The forms of a reading, failed or not, have derivations, made of the tokens read first. -/
theorem exists_trees_of_run (he : OnlyDerived e) (tokens : List Token) {last : Token} (hlast : last.kind = .eof) :
    ∃ trees : List Tree, (∀ t ∈ trees, t.Valid α) ∧ Tree.tokensAll trees <+: tokens ∧
      (run e .empty (tokens ++ [last])).forms = Tree.terms trees := by
  obtain ⟨front, s, hprefix, hsteps, hforms⟩ := exists_steps_of_run (e := e) .empty (tokens ++ [last])
  obtain ⟨trees, hvalid, hdone, hterms, -⟩ := (built_empty.steps he hsteps).done
  have hfront : front <+: tokens := by
    rcases List.prefix_concat_iff.1 hprefix with rfl | hfront
    · -- The end mark is the last token of a reading, never a step of one.
      rw [steps_append] at hsteps
      obtain ⟨m, -, hend⟩ := Option.bind_eq_some_iff.1 hsteps
      obtain ⟨m', hstep, -⟩ := steps_cons.1 hend
      rw [step_last hlast] at hstep
      split at hstep <;> cases hstep
    · exact hfront
  exact ⟨trees, hvalid, hdone.trans hfront, hforms.trans hterms.symm⟩

/-- What is read without an error has a derivation. -/
theorem exists_trees_of_readWith (he : OnlyDerived e) {tokens : List Token} (hk : ∀ tok ∈ tokens, tok.kind ≠ .eof)
    {last : Token} (hlast : last.kind = .eof) {ts : List (Term α)}
    (h : (readWith e (tokens ++ [last])).complete = .ok ts) :
    ∃ trees : List Tree, (∀ t ∈ trees, t.Valid α) ∧ Tree.tokensAll trees = tokens ∧ Tree.terms trees = ts := by
  have hsteps := (readWith_eq_ok_of_last hk hlast).1 h
  obtain ⟨trees, hvalid, -, hterms, htokens⟩ := (built_empty.steps he hsteps).done
  exact ⟨trees, hvalid, htokens rfl, by simpa using hterms⟩

omit [Identity α] in
theorem exists_singleton_of_terms {trees : List Tree} {t : Term α} (h : Tree.terms trees = [t]) :
    ∃ tree, trees = [tree] ∧ tree.term = t := by
  cases trees with
  | nil => cases h
  | cons tree trees =>
    obtain ⟨ht, hrest⟩ := List.cons.inj h
    cases trees with
    | nil => exact ⟨tree, rfl, ht⟩
    | cons tree' trees => cases hrest

/-- What is read as the expression of a format string has a derivation, whatever the allowance. -/
theorem onlyDerived_embedAt (n : Nat) : OnlyDerived (embedAt n : Token → Except SyntaxError (Term α)) := by
  induction n with
  | zero =>
    intro tok t h
    cases h
  | succ n ih =>
    intro tok t h
    rw [embedAt] at h
    obtain ⟨tokens, hlex, hread⟩ := Except.bind_eq_ok h
    obtain ⟨forms, hforms, hone⟩ := Except.bind_eq_ok hread
    obtain ⟨made, hl, rfl⟩ := Lexer.lexAt_complete.1 hlex
    have hk := Lexer.kind_ne_eof_of_grouped (Lexer.grouped_of_lexes hl tok.position)
    obtain ⟨trees, hvalid, htokens, hterms⟩ := exists_trees_of_readWith ih hk rfl hforms
    split at hone
    next => cases hone
    next u =>
      obtain rfl := Except.ok.inj hone
      obtain ⟨body, rfl, rfl⟩ := exists_singleton_of_terms hterms
      refine ⟨body, List.forall_mem_singleton.1 hvalid, embeds_iff.2 ⟨made, hl, ?_⟩, rfl⟩
      simpa [Tree.tokensAll] using htokens
    next => cases hone

theorem onlyDerived_embed : OnlyDerived (embed : Token → Except SyntaxError (Term α)) :=
  fun tok t h => onlyDerived_embedAt tok.text.length tok t h

/-- The reader accepts exactly its grammar. Of a row of tokens with an end mark at its end and nowhere else, it reads the
terms `ts` without an error if and only if the row is derived by valid trees with these terms, which are then the only
trees that derive it. Each tree takes up at least one token; and when the reading fails, the forms before the failure are
derived by the first tokens of the row. -/
theorem read_eq_ok_iff {tokens : List Token} (hk : ∀ tok ∈ tokens, tok.kind ≠ .eof) {last : Token}
    (hlast : last.kind = .eof) :
    (∀ ts : List (Term α), (read (tokens ++ [last])).complete = .ok ts ↔
      ∃ trees : List Tree, (∀ t ∈ trees, t.Valid α) ∧ Tree.tokensAll trees = tokens ∧ Tree.terms trees = ts) ∧
    (∀ trees trees' : List Tree, (∀ t ∈ trees, t.Valid α) → (∀ t ∈ trees', t.Valid α) →
      Tree.tokensAll trees = tokens → Tree.tokensAll trees' = tokens → trees = trees') ∧
    (∀ t : Tree, t.Valid α → t.tokens ≠ []) ∧
    ∃ trees : List Tree, (∀ t ∈ trees, t.Valid α) ∧ Tree.tokensAll trees <+: tokens ∧
      (read (tokens ++ [last])).forms = (Tree.terms trees : List (Term α)) := by
  refine ⟨fun ts => ⟨fun h => ?accepted, ?derived⟩, ?unique, ?consumes, ?begun⟩
  case accepted => exact exists_trees_of_readWith onlyDerived_embed hk hlast h
  case derived =>
    rintro ⟨trees, hvalid, rfl, rfl⟩
    exact read_of_valid hvalid hk hlast
  case unique =>
    intro trees trees' hvalid hvalid' htokens htokens'
    exact unique_trees hvalid hvalid' (htokens.trans htokens'.symm)
  case consumes =>
    intro t ht hnil
    obtain ⟨tok, rest, htok, -⟩ := ht.head
    rw [hnil] at htok
    cases htok
  case begun =>
    rw [read, readWith, supply_of_last tokens hlast]
    exact exists_trees_of_run onlyDerived_embed tokens hlast

/-- The derivation of `'{a + b + c}`. -/
def quotedSum : Tree :=
  .marked .quote ⟨.marker .quote, "'", ⟨1, 1⟩⟩
    (.chain ⟨.opening .curly, "\x7b", ⟨1, 2⟩⟩ (.atom ⟨.symbol, "a", ⟨1, 3⟩⟩) (.atom ⟨.symbol, "+", ⟨1, 5⟩⟩)
      (.atom ⟨.symbol, "b", ⟨1, 7⟩⟩) [.mk (.atom ⟨.symbol, "+", ⟨1, 9⟩⟩) (.atom ⟨.symbol, "c", ⟨1, 11⟩⟩)]
      ⟨.closing .curly, "\x7d", ⟨1, 12⟩⟩)

theorem quotedSum_valid : quotedSum.Valid Value := by
  refine .marked rfl (.chain rfl rfl (.atom rfl) (.atom rfl) (.atom rfl) ?_ ?_ ?_)
  all_goals
    intro op t hm
    obtain ⟨rfl, rfl⟩ := Link.mk.inj (List.mem_singleton.1 hm)
  · exact .atom rfl
  · exact .atom rfl
  · rfl

theorem read_eq_ok_iff_quotedSum :
    (read (quotedSum.tokens ++ [.eofAt ⟨1, 13⟩])).complete = .ok [(quotedSum.term : Code)] ∧
      ∀ trees : List Tree, (∀ t ∈ trees, t.Valid Value) → Tree.tokensAll trees = quotedSum.tokens →
        trees = [quotedSum] := by
  have hk : ∀ tok ∈ quotedSum.tokens, tok.kind ≠ .eof := by decide
  have hone : ∀ t ∈ [quotedSum], t.Valid Value := List.forall_mem_singleton.2 quotedSum_valid
  have htokens : Tree.tokensAll [quotedSum] = quotedSum.tokens := List.append_nil _
  have hlast : (Token.eofAt ⟨1, 13⟩).kind = .eof := rfl
  obtain ⟨hread, hunique, -, -⟩ := read_eq_ok_iff (α := Value) hk hlast
  exact ⟨(hread _).2 ⟨[quotedSum], hone, htokens, rfl⟩, fun trees hvalid he => hunique trees _ hvalid hone he htokens⟩

end Lisplet.Reader
