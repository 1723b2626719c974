import Lisplet.Proofs.Reading.Acceptance
import Lisplet.Proofs.Reading.Failures
import Lisplet.Proofs.Reading.Standing
/-!
# Places are true

The reader gives a node the place of the token that the node begins with, and an error the place of a token or of an open
form. A form that was read has a derivation, and its tokens stand where their text begins, also those of an expression in a
format string, which is lexed from the place where it stands. Hence every node of a form that was read stands where its text
begins, at any depth (`Tree.Valid.placed`), and every error is at a place of the text (`place_of_readWith`).
-/
namespace Lisplet

theorem Except.bind_eq_error {ε β γ : Type} {x : Except ε β} {f : β → Except ε γ} {err : ε} (h : (x >>= f) = .error err) :
    x = .error err ∨ ∃ b, x = .ok b ∧ f b = .error err := by
  cases x with
  | ok b => exact .inr ⟨b, rfl, h⟩
  | error err' => exact .inl (congrArg Except.error (Except.error.inj h))

/-! ## Nodes -/

variable {α : Type}

mutual

/-- The nodes of a term, the expressions of its format strings included. -/
def Term.nodes : Term α → List (Term α)
  | .list pos ts => .list pos ts :: Term.nodesAll ts
  | .marked pos m t => .marked pos m t :: Term.nodes t
  | .format pos ps => .format pos ps :: Part.nodesAll ps
  | .number pos x => [.number pos x]
  | .string pos s => [.string pos s]
  | .symbol pos name => [.symbol pos name]
  | .boolean pos b => [.boolean pos b]
  | .nil pos => [.nil pos]
  | .embedded pos v => [.embedded pos v]
termination_by structural t => t

/-- The nodes of a row of terms. -/
def Term.nodesAll : List (Term α) → List (Term α)
  | [] => []
  | t :: ts => Term.nodes t ++ Term.nodesAll ts
termination_by structural ts => ts

/-- The nodes of the parts of a format string. -/
def Part.nodesAll : List (Part α) → List (Term α)
  | [] => []
  | .text _ :: ps => Part.nodesAll ps
  | .code t :: ps => Term.nodes t ++ Part.nodesAll ps
termination_by structural ps => ps

end

open Lexer in
/-- A node in front of the text that it begins with: a word that reads as it, a string that denotes it, a bracket, a quote
mark, or the opener of a format string. -/
def Term.BeginsWith (rest : List Char) : Term α → Prop
  | .number _ x => wordKind (rest.takeWhile isWordChar) = .number ∧
      x = Number.ofText (String.ofList (rest.takeWhile isWordChar))
  | .symbol _ name => wordKind (rest.takeWhile isWordChar) = .symbol ∧ name.toList = rest.takeWhile isWordChar
  | .boolean _ b => String.ofList (rest.takeWhile isWordChar) ∈ if b then ["true", "#t"] else ["false", "#f"]
  | .nil _ => String.ofList (rest.takeWhile isWordChar) ∈ ["nil", "empty"]
  | .string _ s => ∃ raw behind, rest = '"' :: (raw ++ '"' :: behind) ∧
      stringSpan (raw ++ '"' :: behind) = some (raw, s.toList, behind)
  | .list _ _ => ∃ c ∈ ['(', '[', '\x7b'], [c] <+: rest
  | .marked _ m _ => [m.char] <+: rest
  | .format _ _ => ['#', '"'] <+: rest
  | .embedded _ _ => False

/-- A node whose place is where its text begins. -/
def Term.Stands (whole : List Char) (n : Term α) : Prop :=
  ∃ rest, StandsAt whole n.position rest ∧ n.BeginsWith rest

/-- A term all of whose nodes stand where their text begins. -/
def Term.Placed (whole : List Char) (t : Term α) : Prop := ∀ n ∈ t.nodes, n.Stands whole

namespace Reader

variable {whole : List Char}

theorem nodesAll_placed {ts : List (Term α)} (h : ∀ t ∈ ts, t.Placed whole) : ∀ n ∈ Term.nodesAll ts, n.Stands whole := by
  induction ts with
  | nil => simp [Term.nodesAll]
  | cons t ts ih =>
    obtain ⟨ht, hts⟩ := List.forall_mem_cons.1 h
    exact List.forall_mem_append.2 ⟨ht, ih hts⟩

theorem placed_format {pos : Position} {rest : List Char} {ps : List (Part α)}
    (h : StandsAt whole pos ('#' :: '"' :: rest)) (hps : ∀ t, Part.code t ∈ ps → t.Placed whole) :
    (Term.format pos ps).Placed whole := by
  have hparts : ∀ n ∈ Part.nodesAll ps, n.Stands whole := by
    clear h
    induction ps with
    | nil => simp [Part.nodesAll]
    | cons part ps ih =>
      have hrest := ih fun t hm => hps t (List.mem_cons_of_mem _ hm)
      cases part with
      | text s => exact hrest
      | code t => exact List.forall_mem_append.2 ⟨hps t List.mem_cons_self, hrest⟩
  exact List.forall_mem_cons.2 ⟨⟨_, h, List.prefix_append ['#', '"'] rest⟩, hparts⟩

/-! ## Tokens that nodes begin with -/

theorem mem_of_singleKind?_opening {c : Char} {b : Bracket} (h : Lexer.singleKind? c = some (.opening b)) :
    c ∈ ['(', '[', '\x7b'] := by
  unfold Lexer.singleKind? at h
  grind

theorem eq_char_of_singleKind?_marker {c : Char} {m : Marker} (h : Lexer.singleKind? c = some (.marker m)) :
    c = m.char := by
  unfold Lexer.singleKind? at h
  cases m <;> grind [Marker.char]

theorem singleKind?_isAtom {c : Char} {kind : Token.Kind} (h : Lexer.singleKind? c = some kind) : isAtom kind = false := by
  unfold Lexer.singleKind? at h
  grind [isAtom]

theorem ofList_mem_of_wordKind_boolean {w : List Char} (h : Lexer.wordKind w = .boolean) :
    String.ofList w ∈ if (String.ofList w == "true" || String.ofList w == "#t") = true then ["true", "#t"]
      else ["false", "#f"] := by
  unfold Lexer.wordKind Lexer.literalKind? at h
  grind

theorem ofList_mem_of_wordKind_nil {w : List Char} (h : Lexer.wordKind w = .nil) : String.ofList w ∈ ["nil", "empty"] := by
  unfold Lexer.wordKind Lexer.literalKind? at h
  grind

theorem isAtom_wordKind (w : List Char) : isAtom (Lexer.wordKind w) ∧ Lexer.wordKind w ≠ .string := by
  unfold Lexer.wordKind Lexer.literalKind?
  grind [isAtom]

/-- A token that is a form by itself leads the text of that form. -/
theorem beginsWith_atomTerm {tok : Token} {rest : List Char} (hl : Lexer.Leads tok rest) (hk : isAtom tok.kind) :
    (atomTerm tok : Term α).BeginsWith rest := by
  cases hl with
  | string p hs => exact ⟨_, _, rfl, by rw [String.toList_ofList]; exact hs⟩
  | single p rest hs =>
    rw [singleKind?_isAtom hs] at hk
    cases hk
  | @word w rest p _ hw =>
    -- The word is the same on both sides; what is left is to read its kind.
    cases hkind : Lexer.wordKind w with
    | number => exact ⟨by rw [hw, hkind], by rw [hw]⟩
    | boolean => simpa only [atomTerm, Term.BeginsWith, hw] using ofList_mem_of_wordKind_boolean hkind
    | nil => simpa only [atomTerm, Term.BeginsWith, hw] using ofList_mem_of_wordKind_nil hkind
    | symbol => exact ⟨by rw [hw, hkind], by rw [hw, String.toList_ofList]⟩
    | string => exact absurd hkind (isAtom_wordKind w).2
    | _ =>
      rw [hkind] at hk
      cases hk

theorem position_atomTerm (tok : Token) : (atomTerm tok : Term α).position = tok.position := by
  unfold atomTerm
  split <;> rfl

theorem nodes_atomTerm (tok : Token) : (atomTerm tok : Term α).nodes = [atomTerm tok] := by
  unfold atomTerm
  split <;> rfl

/-- A token that is no form by itself is a single character. -/
theorem char_of_leads {tok : Token} {rest : List Char} (hl : Lexer.Leads tok rest) (hk : isAtom tok.kind = false) :
    ∃ c more, rest = c :: more ∧ Lexer.singleKind? c = some tok.kind := by
  cases hl with
  | string => cases hk
  | single p more hs => exact ⟨_, more, rfl, hs⟩
  | @word w more p _ _ => exact absurd (isAtom_wordKind w).1 (by simpa using hk)

theorem placed_atom {tok : Token} {rest : List Char} (hp : StandsAt whole tok.position rest) (hl : Lexer.Leads tok rest)
    (hk : isAtom tok.kind) : (atomTerm tok : Term α).Placed whole := by
  rw [Term.Placed, nodes_atomTerm, List.forall_mem_singleton]
  exact ⟨rest, by rwa [position_atomTerm], beginsWith_atomTerm hl hk⟩

theorem placed_list {tok : Token} {rest : List Char} {b : Bracket} {ts : List (Term α)}
    (hp : StandsAt whole tok.position rest) (hl : Lexer.Leads tok rest) (hk : tok.kind = .opening b)
    (hts : ∀ t ∈ ts, t.Placed whole) : (Term.list tok.position ts).Placed whole := by
  obtain ⟨c, more, rfl, hc⟩ := char_of_leads hl (by rw [hk]; rfl)
  rw [hk] at hc
  have hstands : (Term.list tok.position ts).Stands whole :=
    ⟨_, hp, c, mem_of_singleKind?_opening hc, List.prefix_append [c] more⟩
  exact List.forall_mem_cons.2 ⟨hstands, nodesAll_placed hts⟩

theorem placed_marked {tok : Token} {rest : List Char} {m : Marker} {t : Term α}
    (hp : StandsAt whole tok.position rest) (hl : Lexer.Leads tok rest) (hk : tok.kind = .marker m)
    (ht : t.Placed whole) : (Term.marked tok.position m t).Placed whole := by
  obtain ⟨c, more, rfl, hc⟩ := char_of_leads hl (by rw [hk]; rfl)
  rw [hk] at hc
  obtain rfl := eq_char_of_singleKind?_marker hc
  have hstands : (Term.marked tok.position m t).Stands whole := ⟨_, hp, List.prefix_append [m.char] more⟩
  exact List.forall_mem_cons.2 ⟨hstands, ht⟩

/-! ## Derivations -/

/-- A tree whose term is placed wherever its tokens stand; the tokens behind it stand, too. -/
def Tree.Places (α : Type) (whole : List Char) (t : Tree) : Prop :=
  ∀ more, Lexer.Standing whole (t.tokens ++ more) → (t.term : Term α).Placed whole ∧ Lexer.Standing whole more

theorem placed_row {ts : List Tree} (hts : ∀ t ∈ ts, t.Places α whole) {more : List Token}
    (h : Lexer.Standing whole (Tree.tokensAll ts ++ more)) :
    (∀ t ∈ (Tree.terms ts : List (Term α)), t.Placed whole) ∧ Lexer.Standing whole more := by
  induction ts with
  | nil => exact ⟨by simp [Tree.terms], h⟩
  | cons t ts ih =>
    obtain ⟨ht, hts⟩ := List.forall_mem_cons.1 hts
    rw [Tree.tokensAll, List.append_assoc] at h
    obtain ⟨hplaced, hrest⟩ := ht _ h
    obtain ⟨hterms, hmore⟩ := ih hts hrest
    exact ⟨List.forall_mem_cons.2 ⟨hplaced, hterms⟩, hmore⟩

/-- A row of trees between two brackets: where it opens, its terms, and what is behind it. -/
theorem placed_between {ts : List Tree} {opening closing : Token} {b : Bracket} (hts : ∀ t ∈ ts, t.Places α whole)
    (ho : opening.kind = .opening b) (hc : closing.kind = .closing b) {more : List Token}
    (h : Lexer.Standing whole (opening :: (Tree.tokensAll ts ++ closing :: more))) :
    (∃ rest, StandsAt whole opening.position rest ∧ Lexer.Leads opening rest) ∧
      (∀ t ∈ (Tree.terms ts : List (Term α)), t.Placed whole) ∧ Lexer.Standing whole more := by
  obtain ⟨rest, hp, hl, hrow⟩ := h.single_of_cons (by simp [ho])
  obtain ⟨hterms, hclosing⟩ := placed_row hts hrow
  obtain ⟨-, -, -, hmore⟩ := hclosing.single_of_cons (by simp [hc])
  exact ⟨⟨rest, hp, hl⟩, hterms, hmore⟩

theorem Link.operands_subset (links : List Link) :
    (Link.operands links : List (Term α)) ⊆ Tree.terms (Link.trees links) := by
  induction links with
  | nil => simp [Link.operands]
  | cons link links ih =>
    cases link with
    | mk op t => exact List.cons_subset.2 ⟨by simp [Link.trees, Tree.terms], fun u hu => by simp [Link.trees, Tree.terms, ih hu]⟩

/-- The body of a format string ends at the first end of one. -/
theorem body_eq {body body' : List Token} {last last' : Token} {more more' : List Token}
    (hb : ∀ tok ∈ body, tok.kind ≠ .formatEnd) (hb' : ∀ tok ∈ body', tok.kind ≠ .formatEnd) (hl : last.kind = .formatEnd)
    (hl' : last'.kind = .formatEnd) (he : body ++ last :: more = body' ++ last' :: more') : body = body' ∧ more = more' := by
  have htake := congrArg (List.takeWhile (·.kind != .formatEnd)) he
  rw [List.takeWhile_append_of_pos (by simpa using hb), List.takeWhile_append_of_pos (by simpa using hb')] at htake
  obtain rfl : body = body' := by simpa [hl, hl'] using htake
  exact ⟨rfl, (List.cons.inj (List.append_cancel_left he)).2⟩

theorem kind_of_pieces {P : Tree → Prop} {ps : List Piece} (h : Piece.Fit P ps) :
    ∀ tok ∈ ps.map Piece.token, tok.kind ≠ .formatEnd := by
  induction ps with
  | nil => simp
  | cons piece ps ih => exact List.forall_mem_cons.2 ⟨kind_of_fit h, ih h.tail⟩

/-- The expressions of a format string that stands in a text are placed in it. -/
theorem placed_pieces {ps : List Piece} (hfit : Piece.Fit (Tree.Places α whole) ps)
    (h : ∀ tok ∈ ps.map Piece.token, Lexer.StandsInside whole tok) :
    ∀ t, Part.code t ∈ (Piece.parts ps : List (Part α)) → t.Placed whole := by
  induction ps with
  | nil => simp [Piece.parts]
  | cons piece ps ih =>
    obtain ⟨hpiece, hps⟩ := List.forall_mem_cons.1 h
    have hrest := ih hfit.tail hps
    intro t hm
    cases piece with
    | text tok => exact hrest t (by simpa [Piece.parts] using hm)
    | code tok body =>
      rcases List.mem_cons.1 hm with heq | hm
      · obtain rfl := Part.code.inj heq
        obtain ⟨hk, hembeds⟩ := hfit.code tok body List.mem_cons_self
        obtain ⟨made, hl, htokens⟩ := embeds_iff.1 hembeds
        rcases hpiece with ⟨hs, -⟩ | ⟨-, more, hp⟩
        · exact absurd hs (by simp [Piece.token, hk])
        -- The tokens of the expression stand in the text around it.
        have hstanding := Lexer.standing_of_lexes hl (Lexer.not_isWordChar_brace more) hp
        refine (hfit.body tok body List.mem_cons_self [] ?_).1
        rwa [List.append_nil, htokens]
      · exact hrest t hm

variable [Identity α]

/-- The term of a derivation is placed where its tokens stand. -/
theorem Tree.Valid.placed {t : Tree} (h : t.Valid α) : t.Places α whole := by
  induction h with
  | atom hk =>
    intro more h
    obtain ⟨rest, hp, hl, hmore⟩ := h.single_of_cons (by rintro he; simp [he, isAtom] at hk)
    exact ⟨placed_atom hp hl hk, hmore⟩
  | list hb ho hc _ ih =>
    intro more h
    obtain ⟨⟨rest, hp, hl⟩, hterms, hmore⟩ := placed_between ih ho hc (by simpa [Tree.tokens] using h)
    exact ⟨placed_list hp hl ho hterms, hmore⟩
  | marked hm _ ih =>
    intro more h
    obtain ⟨rest, hp, hl, hbody⟩ := h.single_of_cons (by simp [hm])
    obtain ⟨hterm, hmore⟩ := ih more hbody
    exact ⟨placed_marked hp hl hm hterm, hmore⟩
  | empty ho hc =>
    intro more h
    have hnone : ∀ t ∈ ([] : List Tree), t.Places α whole := by simp
    obtain ⟨⟨rest, hp, hl⟩, -, hmore⟩ := placed_between hnone ho hc h
    exact ⟨placed_list hp hl ho (by simp), hmore⟩
  | sole ho hc _ ih =>
    intro more h
    obtain ⟨-, hterms, hmore⟩ := placed_between (List.forall_mem_singleton.2 ih) ho hc
      (by simpa [Tree.tokens, Tree.tokensAll] using h)
    exact ⟨hterms _ List.mem_cons_self, hmore⟩
  | @chain opening closing first op second links ho hc _ _ _ _ _ _ ihfirst ihop ihsecond ihops ihhands =>
    intro more h
    have hmembers : ∀ t ∈ first :: op :: second :: Link.trees links, t.Places α whole := by
      simpa using ⟨ihfirst, ihop, ihsecond, Link.forall_mem_trees ihops ihhands⟩
    obtain ⟨⟨rest, hp, hl⟩, hterms, hmore⟩ := placed_between hmembers ho hc
      (by simpa [Tree.tokens, Tree.tokensAll, Link.tokensAll_trees] using h)
    refine ⟨placed_list hp hl ho ?_, hmore⟩
    -- In the term the operator comes first, in the text the first operand does; of the links only the operands are kept.
    simp only [Tree.terms, List.forall_mem_cons] at hterms ⊢
    obtain ⟨hfirst, hop, hsecond, hlinks⟩ := hterms
    exact ⟨hop, hfirst, hsecond, fun t ht => hlinks t (Link.operands_subset links ht)⟩
  | @format opening closing pieces ho hc htexts hcodes _ ih =>
    intro more h
    obtain ⟨body, last, more', rest, htokens, hp, hbody, hlast, hmore⟩ := h.format_of_cons ho
    have hfit : Piece.Fit (Tree.Places α whole) pieces := ⟨htexts, hcodes, ih⟩
    have hinside : ∀ tok ∈ body, tok.kind ≠ .formatEnd := by
      intro tok hm
      rcases hbody tok hm with ⟨hk, -⟩ | ⟨hk, -⟩ <;> simp [hk]
    obtain ⟨rfl, rfl⟩ := body_eq (kind_of_pieces hfit) hinside hc hlast (by simpa using htokens)
    exact ⟨placed_format hp (placed_pieces hfit hbody), hmore⟩

/-! ## Errors -/

variable {e : Token → Except SyntaxError (Term α)} {P : Position → Prop}

theorem position_addToGroup {start pos : Position} {t : Term α} {operands operators : List (Term α)} {p : Pending α}
    (h : addToGroup start t pos operands operators = .ok p) : p.position = pos := by
  unfold addToGroup at h
  split at h
  · obtain rfl := Except.ok.inj h
    rfl
  · split at h
    · obtain rfl := Except.ok.inj h
      rfl
    · split at h
      · obtain rfl := Except.ok.inj h
        rfl
      · cases h

theorem opened_deliver {start : Position} {t : Term α} {forms : List (Term α)} {stack : List (Pending α)} {s : State α}
    (h : deliver start t forms stack = .ok s) (hs : ∀ p ∈ stack, P p.position) : ∀ p ∈ s.stack, P p.position := by
  induction stack generalizing start t with
  | nil =>
    obtain rfl := Except.ok.inj h
    exact hs
  | cons top stack ih =>
    obtain ⟨htop, hrest⟩ := List.forall_mem_cons.1 hs
    cases top with
    | group pos operands operators =>
      rw [deliver] at h
      split at h
      next group hadd =>
        obtain rfl := Except.ok.inj h
        exact List.forall_mem_cons.2 ⟨position_addToGroup hadd ▸ htop, hrest⟩
      next => cases h
    | marked pos marker text => exact ih h hrest
    | _ =>
      obtain rfl := Except.ok.inj h
      exact List.forall_mem_cons.2 ⟨htop, hrest⟩

/-- Forms are open at the places of tokens. -/
theorem opened_step {tok : Token} {s s' : State α} (h : Advances e tok s s') (ht : P tok.position)
    (hs : ∀ p ∈ s.stack, P p.position) : ∀ p ∈ s'.stack, P p.position := by
  cases h with
  | begin _ hb =>
    unfold begin at hb
    split at hb
    case h_5 | h_6 | h_7 | h_8 | h_9 => exact opened_deliver (deliver_of_next hb) hs
    all_goals
      cases hb
      try exact List.forall_mem_cons.2 ⟨ht, hs⟩
  | listEnd _ hd | groupEnd _ _ hd | formatEnd _ hd => exact opened_deliver hd (List.forall_mem_cons.1 hs).2
  | text | code => exact List.forall_mem_cons.2 (List.forall_mem_cons.1 hs)

theorem opened_steps {tokens : List Token} {s s' : State α} (h : steps e s tokens = some s')
    (ht : ∀ tok ∈ tokens, P tok.position) (hs : ∀ p ∈ s.stack, P p.position) : ∀ p ∈ s'.stack, P p.position := by
  induction tokens generalizing s with
  | nil =>
    obtain rfl := Option.some.inj h
    exact hs
  | cons tok tokens ih =>
    obtain ⟨htok, htokens⟩ := List.forall_mem_cons.1 ht
    obtain ⟨m, hm, hrest⟩ := steps_cons.1 h
    exact ih hrest htokens (opened_step (advances_of_step hm) htok hs)

/-- A reading that fails does so at a place of a kind, if its tokens are at such places and its expressions fail there. -/
theorem place_of_run {tokens : List Token} (ht : ∀ tok ∈ tokens, P tok.position)
    (he : ∀ tok ∈ tokens, tok.kind = .formatCode → ∀ err, e tok = .error err → P err.position) {err : SyntaxError}
    (h : (run e .empty tokens).failure = some err) : P err.position := by
  obtain ⟨front, tok, rest, m, used, rfl, hsteps, hfailed, -⟩ := exists_failed_of_run h
  obtain ⟨hfront, hrest⟩ := List.forall_mem_append.1 ht
  have htok : P tok.position := hrest tok List.mem_cons_self
  have hopen : ∀ p ∈ m.stack, P p.position := opened_steps hsteps hfront (by simp [State.empty])
  cases fails_of_step hfailed with
  | mismatch _ _ hnear =>
    rcases hnear with rfl | ⟨p, hp, rfl⟩
    · exact htok
    · exact hopen p hp
  | dangling | unexpected | unexpectedInFormat => exact htok
  | list hp | group hp | mark _ hp => exact hopen _ hp
  | code hk herr => exact he tok (by simp) hk err herr

omit [Identity α] in
theorem complete_eq_error {r : Reading α} {err : SyntaxError} (h : r.complete = .error err) : r.failure = some err := by
  unfold Reading.complete at h
  cases hf : r.failure with
  | none =>
    rw [hf] at h
    cases h
  | some err' =>
    rw [hf] at h
    rw [Except.error.inj h]

/-- A reader of expressions that fails at places of the text. -/
def FailsInside (whole : List Char) (e : Token → Except SyntaxError (Term α)) : Prop :=
  ∀ tok err more, StandsAt whole tok.position (tok.text.toList ++ '\x7d' :: more) → e tok = .error err →
    ∃ rest, StandsAt whole err.position rest

/-- A text that stands in another and cannot be read fails at a place of that one. -/
theorem place_of_readWith {cs tail : List Char} {made : Position → List Token} (hl : Lexer.Lexes cs made)
    (ht : ∀ c, tail.head? = some c → Lexer.isWordChar c = false) {p : Position} (hp : StandsAt whole p (cs ++ tail))
    (he : FailsInside whole e) {err : SyntaxError}
    (h : (readWith e (made p ++ [.eofAt (p.after cs)])).complete = .error err) : ∃ rest, StandsAt whole err.position rest := by
  have hstanding := Lexer.standing_of_lexes hl ht hp
  have hfails : ∀ tok ∈ made p, tok.kind = .formatCode → ∀ err, e tok = .error err →
      ∃ rest, StandsAt whole err.position rest := by
    intro tok hm hk err herr
    obtain ⟨more, hcode⟩ := hstanding.code hm hk
    exact he tok err more hcode herr
  replace h := complete_eq_error h
  rw [readWith, supply_of_eof] at h
  refine place_of_run (P := fun q => ∃ rest, StandsAt whole q rest) ?_ ?_ h
  · exact List.forall_mem_append.2 ⟨hstanding.place, List.forall_mem_singleton.2 ⟨tail, hp.after⟩⟩
  · refine List.forall_mem_append.2 ⟨hfails, List.forall_mem_singleton.2 fun hk => ?_⟩
    cases hk

theorem failsInside_embedAt (n : Nat) : FailsInside whole (embedAt n : Token → Except SyntaxError (Term α)) := by
  induction n with
  | zero =>
    intro tok err more hp h
    obtain rfl := Except.error.inj h
    exact ⟨_, hp⟩
  | succ n ih =>
    intro tok err more hp h
    rw [embedAt] at h
    rcases Except.bind_eq_error h with hlex | ⟨tokens, hlex, h⟩
    · exact Lexer.place_of_failure hp (Lexer.complete_eq_error hlex)
    obtain ⟨made, hl, rfl⟩ := Lexer.lexAt_complete.1 hlex
    rcases Except.bind_eq_error h with hread | ⟨forms, -, h⟩
    · exact place_of_readWith hl (Lexer.not_isWordChar_brace more) hp ih hread
    -- No form or more than one: the error is at the expression.
    split at h
    · obtain rfl := Except.error.inj h
      exact ⟨_, hp⟩
    · cases h
    · obtain rfl := Except.error.inj h
      exact ⟨_, hp⟩

theorem placed_of_readSource {source : String} {forms : List (Term α)} (h : readSource source = .ok forms) :
    ∀ t ∈ forms, t.Placed source.toList := by
  have hp : StandsAt source.toList .start (source.toList ++ []) := by
    rw [List.append_nil]
    exact standsAt_start _
  have hnil : ∀ c, ([] : List Char).head? = some c → Lexer.isWordChar c = false := nofun
  obtain ⟨tokens, hlex, hread⟩ := Except.bind_eq_ok h
  obtain ⟨made, hl, rfl⟩ := Lexer.lexAt_complete.1 hlex
  have hk := Lexer.kind_ne_eof_of_grouped (Lexer.grouped_of_lexes hl .start)
  obtain ⟨trees, hvalid, htokens, rfl⟩ := exists_trees_of_readWith onlyDerived_embed hk rfl hread
  have hstanding : Lexer.Standing source.toList (Tree.tokensAll trees ++ []) := by
    rw [List.append_nil, htokens]
    exact Lexer.standing_of_lexes hl hnil hp
  exact (placed_row (fun tree hm => (hvalid tree hm).placed) hstanding).1

/-- Places are true. Of a text that is read, every node of every form, inside the expressions of format strings too, is at
the line and column of the text that it begins with. A text that cannot be read fails at the line and column of a place
in it. -/
theorem place_of_readSource (source : String) :
    (∀ forms : List (Term α), readSource source = .ok forms → ∀ t ∈ forms, ∀ n ∈ t.nodes, ∃ front rest,
      source.toList = front ++ rest ∧ n.position = .behind front ∧ n.BeginsWith rest) ∧
    ∀ err, (readSource source : Except SyntaxError (List (Term α))) = .error err → ∃ front rest,
      source.toList = front ++ rest ∧ err.position = .behind front := by
  have hp : StandsAt source.toList .start (source.toList ++ []) := by
    rw [List.append_nil]
    exact standsAt_start _
  have hnil : ∀ c, ([] : List Char).head? = some c → Lexer.isWordChar c = false := nofun
  refine ⟨fun forms h t ht n hn => ?nodes, fun err h => ?errors⟩
  case nodes =>
    obtain ⟨rest, ⟨front, hcut, hpos⟩, hbegins⟩ := placed_of_readSource h t ht n hn
    exact ⟨front, rest, hcut, hpos, hbegins⟩
  case errors =>
    have hplace : ∃ rest, StandsAt source.toList err.position rest := by
      rcases Except.bind_eq_error h with hlex | ⟨tokens, hlex, hread⟩
      · exact Lexer.place_of_failure hp (Lexer.complete_eq_error hlex)
      obtain ⟨made, hl, rfl⟩ := Lexer.lexAt_complete.1 hlex
      have hfails : FailsInside source.toList (embed : Token → Except SyntaxError (Term α)) :=
        fun tok => failsInside_embedAt tok.text.length tok
      exact place_of_readWith hl hnil hp hfails hread
    obtain ⟨rest, front, hcut, hpos⟩ := hplace
    exact ⟨front, rest, hcut, hpos⟩

/-- A format string on a second line, with a quoted symbol behind a character of two units. -/
def quotedInFormat : Code := .format ⟨2, 1⟩ [.text "😀", .code (.marked ⟨2, 8⟩ .quote (.symbol ⟨2, 9⟩ "y"))]

theorem readSource_quotedInFormat : readSource "\n#\"😀#\x7b 'y \x7d\"" = .ok [quotedInFormat] := by
  have h : ("\n#\"😀#\x7b 'y \x7d\"" : String).toList = '\n' :: '#' :: '"' :: "😀#\x7b 'y \x7d\"".toList := rfl
  rw [readSource, Lexer.lex, Lexer.lexAt, h, Lexer.tokensFrom_separator (by decide), Lexer.tokensFrom_format]
  cbv

theorem readSource_openList : (readSource "\n (a" : Except SyntaxError (List Code)) =
    .error ⟨.unclosedList (.eofAt ⟨2, 4⟩), ⟨2, 2⟩⟩ := by
  cbv

theorem place_of_readSource_quotedInFormat :
    (∃ front rest, "\n#\"😀#\x7b 'y \x7d\"".toList = front ++ rest ∧ ⟨2, 9⟩ = Position.behind front ∧
      (Term.symbol ⟨2, 9⟩ "y" : Code).BeginsWith rest) ∧
    ∃ front rest, "\n (a".toList = front ++ rest ∧ ⟨2, 2⟩ = Position.behind front := by
  have hnode : Term.symbol ⟨2, 9⟩ "y" ∈ quotedInFormat.nodes := by
    simp [quotedInFormat, Term.nodes, Part.nodesAll]
  exact ⟨(place_of_readSource _).1 _ readSource_quotedInFormat _ (List.mem_singleton_self _) _ hnode,
    (place_of_readSource (α := Value) _).2 _ readSource_openList⟩

end Reader

end Lisplet
