import Lisplet.Proofs.Reading.Steps
/-!
# The grammar of forms

A derivation of a form is a tree with a constructor for each production, and it is made of the tokens it derives:

    form = atom | '(' form* ')' | '[' form* ']' | mark form | '{' '}' | '{' form '}'
         | '{' form form form (form form)* '}' | START (STRING | CODE)* END

A tree says which tokens it derives (`Tree.tokens`) and which term they are (`Tree.term`), and it is valid when its
tokens are of the kinds the productions ask for, all operators of an infix group are equal, and the text of an expression
in a format string is lexed to the tokens of one form, which is derived as well.

Main statement: a valid tree is determined by what it derives, whatever follows (`Tree.Valid.determined`), so a row of
tokens has at most one derivation (`unique_trees`).
-/
namespace Lisplet.Reader

mutual

/-- A derivation of a form. -/
inductive Tree where
  | atom (tok : Token)
  | list (bracket : Bracket) (opening : Token) (elements : List Tree) (closing : Token)
  | marked (marker : Marker) (mark : Token) (body : Tree)
  | empty (opening closing : Token)
  | sole (opening : Token) (body : Tree) (closing : Token)
  | chain (opening : Token) (first operator second : Tree) (links : List Link) (closing : Token)
  | format (opening : Token) (pieces : List Piece) (closing : Token)

/-- One more operator of an infix group and the operand behind it. -/
inductive Link where
  | mk (operator operand : Tree)

/-- A piece of a format string: text, or an expression with the derivation of its own text. -/
inductive Piece where
  | text (tok : Token)
  | code (tok : Token) (body : Tree)

end

/-! ## What a tree derives -/

/-- The token that a piece of a format string is. -/
def Piece.token : Piece → Token
  | .text tok => tok
  | .code tok _ => tok

mutual

/-- The tokens that a tree derives. -/
def Tree.tokens : Tree → List Token
  | .atom tok => [tok]
  | .list _ opening ts closing => opening :: (Tree.tokensAll ts ++ [closing])
  | .marked _ mark t => mark :: Tree.tokens t
  | .empty opening closing => [opening, closing]
  | .sole opening t closing => opening :: (Tree.tokens t ++ [closing])
  | .chain opening first op second links closing =>
    opening :: (Tree.tokens first ++ (Tree.tokens op ++ (Tree.tokens second ++ (Link.tokensAll links ++ [closing]))))
  | .format opening ps closing => opening :: (ps.map Piece.token ++ [closing])
termination_by structural t => t

/-- The tokens that a row of trees derives. -/
def Tree.tokensAll : List Tree → List Token
  | [] => []
  | t :: ts => Tree.tokens t ++ Tree.tokensAll ts
termination_by structural ts => ts

/-- The tokens of further operators and operands. -/
def Link.tokensAll : List Link → List Token
  | [] => []
  | .mk op t :: links => Tree.tokens op ++ (Tree.tokens t ++ Link.tokensAll links)
termination_by structural links => links

end

/-- Where a tree begins. -/
def Tree.start : Tree → Position
  | .atom tok => tok.position
  | .list _ opening _ _ => opening.position
  | .marked _ mark _ => mark.position
  | .empty opening _ => opening.position
  | .sole opening _ _ => opening.position
  | .chain opening _ _ _ _ _ => opening.position
  | .format opening _ _ => opening.position

variable {α : Type}

/-- The kinds of token that are a form by themselves. -/
def isAtom : Token.Kind → Bool
  | .number | .string | .boolean | .nil | .symbol => true
  | _ => false

/-- The term of a token that is a form by itself. -/
def atomTerm (tok : Token) : Term α :=
  match tok.kind with
  | .number => .number tok.position (Number.ofText tok.text)
  | .string => .string tok.position tok.text
  | .boolean => .boolean tok.position (tok.text == "true" || tok.text == "#t")
  | .nil => .nil tok.position
  | _ => .symbol tok.position tok.text

mutual

/-- The term that the tokens of a tree are. -/
def Tree.term : Tree → Term α
  | .atom tok => atomTerm tok
  | .list _ opening ts _ => .list opening.position (Tree.terms ts)
  | .marked marker mark t => .marked mark.position marker (Tree.term t)
  | .empty opening _ => .list opening.position []
  | .sole _ t _ => Tree.term t
  | .chain opening first op second links _ =>
    .list opening.position (Tree.term op :: Tree.term first :: Tree.term second :: Link.operands links)
  | .format opening ps _ => .format opening.position (Piece.parts ps)
termination_by structural t => t

/-- The terms of a row of trees. -/
def Tree.terms : List Tree → List (Term α)
  | [] => []
  | t :: ts => Tree.term t :: Tree.terms ts
termination_by structural ts => ts

/-- The terms of further operands. -/
def Link.operands : List Link → List (Term α)
  | [] => []
  | .mk _ t :: links => Tree.term t :: Link.operands links
termination_by structural links => links

/-- The parts of a format string. -/
def Piece.parts : List Piece → List (Part α)
  | [] => []
  | .text tok :: ps => .text tok.text :: Piece.parts ps
  | .code _ t :: ps => .code (Tree.term t) :: Piece.parts ps
termination_by structural ps => ps

end

/-! ## Valid trees -/

/-- The text of a token is lexed to the tokens of a tree and an end mark. -/
def Embeds (tok : Token) (body : Tree) : Prop :=
  ∃ last : Token, last.kind = .eof ∧ (Lexer.lexAt tok.position tok.text).complete = .ok (body.tokens ++ [last])

/-- A tree in which every node is a production. -/
inductive Tree.Valid (α : Type) [Identity α] : Tree → Prop
  | atom {tok : Token} : isAtom tok.kind → Valid α (.atom tok)
  | list {bracket : Bracket} {opening closing : Token} {elements : List Tree} : bracket ≠ .curly →
      opening.kind = .opening bracket → closing.kind = .closing bracket → (∀ t ∈ elements, Valid α t) →
      Valid α (.list bracket opening elements closing)
  | marked {marker : Marker} {mark : Token} {body : Tree} : mark.kind = .marker marker → Valid α body →
      Valid α (.marked marker mark body)
  | empty {opening closing : Token} : opening.kind = .opening .curly → closing.kind = .closing .curly →
      Valid α (.empty opening closing)
  | sole {opening closing : Token} {body : Tree} : opening.kind = .opening .curly → closing.kind = .closing .curly →
      Valid α body → Valid α (.sole opening body closing)
  | chain {opening closing : Token} {first operator second : Tree} {links : List Link} :
      opening.kind = .opening .curly → closing.kind = .closing .curly →
      Valid α first → Valid α operator → Valid α second →
      (∀ op t, Link.mk op t ∈ links → Valid α op) → (∀ op t, Link.mk op t ∈ links → Valid α t) →
      (∀ op t, Link.mk op t ∈ links → (operator.term : Term α).same op.term) →
      Valid α (.chain opening first operator second links closing)
  | format {opening closing : Token} {pieces : List Piece} :
      opening.kind = .formatStart → closing.kind = .formatEnd →
      (∀ tok, Piece.text tok ∈ pieces → tok.kind = .string) →
      (∀ tok body, Piece.code tok body ∈ pieces → tok.kind = .formatCode ∧ Embeds tok body) →
      (∀ tok body, Piece.code tok body ∈ pieces → Valid α body) →
      Valid α (.format opening pieces closing)

/-- Pieces of a format string of the kinds they should be of, the derivations of their expressions being as asked for. -/
structure Piece.Fit (P : Tree → Prop) (pieces : List Piece) : Prop where
  text : ∀ tok, Piece.text tok ∈ pieces → tok.kind = .string
  code : ∀ tok body, Piece.code tok body ∈ pieces → tok.kind = .formatCode ∧ Embeds tok body
  body : ∀ tok body, Piece.code tok body ∈ pieces → P body

/-- The pieces behind the first one fit on their own. -/
theorem Piece.Fit.tail {P : Tree → Prop} {p : Piece} {ps : List Piece} (h : Fit P (p :: ps)) : Fit P ps :=
  ⟨fun tok hm => h.text tok (List.mem_cons_of_mem _ hm), fun tok body hm => h.code tok body (List.mem_cons_of_mem _ hm),
    fun tok body hm => h.body tok body (List.mem_cons_of_mem _ hm)⟩

theorem Piece.Fit.text_snoc {P : Tree → Prop} {ps : List Piece} {tok : Token} (h : Fit P ps) (hk : tok.kind = .string) :
    Fit P (ps ++ [.text tok]) := by
  refine ⟨fun tok' hm => ?_, fun tok' body hm => h.code tok' body (by simpa using hm),
    fun tok' body hm => h.body tok' body (by simpa using hm)⟩
  rcases List.mem_append.1 hm with hm | hm
  · exact h.text tok' hm
  · obtain rfl := Piece.text.inj (List.mem_singleton.1 hm)
    exact hk

theorem Piece.Fit.code_snoc {P : Tree → Prop} {ps : List Piece} {tok : Token} {body : Tree} (h : Fit P ps)
    (hk : tok.kind = .formatCode) (he : Embeds tok body) (hb : P body) : Fit P (ps ++ [.code tok body]) := by
  have hnew {tok' : Token} {body' : Tree} (hm : Piece.code tok' body' ∈ ps ++ [.code tok body]) :
      Piece.code tok' body' ∈ ps ∨ tok = tok' ∧ body = body' := by
    rcases List.mem_append.1 hm with hm | hm
    · exact .inl hm
    · obtain ⟨rfl, rfl⟩ := Piece.code.inj (List.mem_singleton.1 hm)
      exact .inr ⟨rfl, rfl⟩
  refine ⟨fun tok' hm => h.text tok' (by simpa using hm), fun tok' body' hm => ?_, fun tok' body' hm => ?_⟩
  · rcases hnew hm with hm | ⟨rfl, rfl⟩
    · exact h.code tok' body' hm
    · exact ⟨hk, he⟩
  · rcases hnew hm with hm | ⟨rfl, rfl⟩
    · exact h.body tok' body' hm
    · exact hb

theorem Piece.parts_append (ps qs : List Piece) :
    (Piece.parts (ps ++ qs) : List (Part α)) = Piece.parts ps ++ Piece.parts qs := by
  induction ps with
  | nil => rfl
  | cons p ps ih => cases p <;> simp [Piece.parts, ih]

/-! ## Rows -/

theorem Tree.tokensAll_append (ts us : List Tree) :
    Tree.tokensAll (ts ++ us) = Tree.tokensAll ts ++ Tree.tokensAll us := by
  induction ts with
  | nil => rfl
  | cons t ts ih => simp [Tree.tokensAll, ih]

/-- The tokens of a tree are among those of the row that it stands in. -/
theorem Tree.tokens_subset {t : Tree} {ts : List Tree} (h : t ∈ ts) : t.tokens ⊆ Tree.tokensAll ts := by
  induction ts with
  | nil => cases h
  | cons u ts ih =>
    rcases List.mem_cons.1 h with rfl | h
    · exact List.subset_append_left _ _
    · exact List.Subset.trans (ih h) (List.subset_append_right _ _)

theorem Tree.terms_append (ts us : List Tree) :
    (Tree.terms (ts ++ us) : List (Term α)) = Tree.terms ts ++ Tree.terms us := by
  induction ts with
  | nil => rfl
  | cons t ts ih => simp [Tree.terms, ih]

theorem Tree.reverse_terms_snoc (ts : List Tree) (t : Tree) :
    (Tree.terms (ts ++ [t])).reverse = (t.term : Term α) :: (Tree.terms ts).reverse := by
  simp [Tree.terms_append, Tree.terms]

/-- The trees of further operators and operands, in order. -/
def Link.trees : List Link → List Tree
  | [] => []
  | .mk op t :: links => op :: t :: Link.trees links

/-- The terms of further operators. -/
def Link.operators : List Link → List (Term α)
  | [] => []
  | .mk op _ :: links => op.term :: Link.operators links

theorem Link.operands_snoc (links : List Link) (op t : Tree) :
    (Link.operands (links ++ [.mk op t]) : List (Term α)) = Link.operands links ++ [t.term] := by
  induction links with
  | nil => rfl
  | cons link links ih =>
    cases link
    simp [Link.operands, ih]

theorem Link.operators_snoc (links : List Link) (op t : Tree) :
    (Link.operators (links ++ [.mk op t]) : List (Term α)) = Link.operators links ++ [op.term] := by
  induction links with
  | nil => rfl
  | cons link links ih =>
    cases link
    simp [Link.operators, ih]

theorem Link.tokensAll_snoc (links : List Link) (op t : Tree) :
    Link.tokensAll (links ++ [.mk op t]) = Link.tokensAll links ++ (op.tokens ++ t.tokens) := by
  induction links with
  | nil => simp [Link.tokensAll]
  | cons link links ih =>
    cases link
    simp [Link.tokensAll, ih]

/-- A chain has as many operators as further operands. -/
theorem Link.length_operators (links : List Link) :
    (Link.operators links : List (Term α)).length = (Link.operands links : List (Term α)).length := by
  induction links with
  | nil => rfl
  | cons link links ih =>
    cases link
    simp [Link.operators, Link.operands, ih]

theorem Link.tokensAll_trees (links : List Link) : Tree.tokensAll (Link.trees links) = Link.tokensAll links := by
  induction links with
  | nil => rfl
  | cons link links ih =>
    cases link
    simp [Link.trees, Link.tokensAll, Tree.tokensAll, ih]

/-- Operators and operands as links again. -/
def Link.ofTrees : List Tree → List Link
  | op :: t :: ts => .mk op t :: Link.ofTrees ts
  | _ => []

/-- A chain can be told from the row of its trees. -/
theorem Link.ofTrees_trees (links : List Link) : Link.ofTrees (Link.trees links) = links := by
  induction links with
  | nil => rfl
  | cons link links ih =>
    cases link
    simp [Link.trees, Link.ofTrees, ih]

theorem Link.forall_mem_trees {P : Tree → Prop} {links : List Link} (hop : ∀ op t, Link.mk op t ∈ links → P op)
    (ht : ∀ op t, Link.mk op t ∈ links → P t) : ∀ t ∈ Link.trees links, P t := by
  induction links with
  | nil => exact fun t hm => absurd hm List.not_mem_nil
  | cons link links ih =>
    cases link with
    | mk op t =>
      have hrest := ih (fun op t hm => hop op t (List.mem_cons_of_mem _ hm))
        fun op t hm => ht op t (List.mem_cons_of_mem _ hm)
      refine List.forall_mem_cons.2 ⟨hop op t List.mem_cons_self, ?_⟩
      exact List.forall_mem_cons.2 ⟨ht op t List.mem_cons_self, hrest⟩

/-- The forms between the braces of an infix group. -/
def Tree.members : Tree → List Tree
  | .sole _ t _ => [t]
  | .chain _ first op second links _ => first :: op :: second :: Link.trees links
  | _ => []

/-- The infix group of the forms between two braces. -/
def Tree.group (opening : Token) : List Tree → Token → Tree
  | first :: op :: second :: ts, closing => .chain opening first op second (Link.ofTrees ts) closing
  | [t], closing => .sole opening t closing
  | _, closing => .empty opening closing

variable [Identity α]

/-! ## The first token decides -/

theorem begins_of_isAtom {kind : Token.Kind} (hk : isAtom kind) : begins kind := by
  cases kind <;> first | rfl | cases hk

namespace Tree.Valid

/-- A valid tree derives at least one token, and the first one is of a kind that can begin a form. -/
theorem head {t : Tree} (h : t.Valid α) : ∃ tok rest, t.tokens = tok :: rest ∧ begins tok.kind := by
  cases h with
  | atom hk => exact ⟨_, [], rfl, begins_of_isAtom hk⟩
  | list _ ho _ _ | empty ho _ | sole ho _ _ | chain ho _ _ _ _ _ _ _ | format ho _ _ _ _ | marked ho _ =>
    exact ⟨_, _, rfl, by rw [ho]; rfl⟩

variable {t : Tree} {tok : Token} {rest more : List Token}

theorem of_atom (h : t.Valid α) (he : t.tokens ++ rest = tok :: more) (hk : isAtom tok.kind) :
    t = .atom tok ∧ rest = more := by
  cases h <;> simp only [Tree.tokens, List.cons_append, List.cons.injEq] at he <;> obtain ⟨rfl, hrest⟩ := he
  case atom => exact ⟨rfl, hrest⟩
  all_goals simp_all [isAtom]

/-- A tree that begins with an opening bracket is a list with it. -/
theorem of_list {bracket : Bracket} (h : t.Valid α) (he : t.tokens ++ rest = tok :: more)
    (hk : tok.kind = .opening bracket) (hb : bracket ≠ .curly) : ∃ elements closing,
      t = .list bracket tok elements closing ∧ closing.kind = .closing bracket ∧ (∀ t ∈ elements, t.Valid α) ∧
        Tree.tokensAll elements ++ closing :: rest = more := by
  cases h <;> simp only [Tree.tokens, List.cons_append, List.cons.injEq] at he <;> obtain ⟨rfl, hrest⟩ := he
  case list hne ho hc hes =>
    obtain rfl : _ = bracket := by simpa [ho] using hk
    exact ⟨_, _, rfl, hc, hes, by simpa using hrest⟩
  all_goals simp_all [isAtom]

theorem of_marked {marker : Marker} (h : t.Valid α) (he : t.tokens ++ rest = tok :: more)
    (hk : tok.kind = .marker marker) : ∃ body, t = .marked marker tok body ∧ body.Valid α ∧ body.tokens ++ rest = more := by
  cases h <;> simp only [Tree.tokens, List.cons_append, List.cons.injEq] at he <;> obtain ⟨rfl, hrest⟩ := he
  case marked hm hbody =>
    obtain rfl : _ = marker := by simpa [hm] using hk
    exact ⟨_, rfl, hbody, hrest⟩
  all_goals simp_all [isAtom]

/-- A tree that begins with a curly bracket is a group, whatever is in it. -/
theorem of_group (h : t.Valid α) (he : t.tokens ++ rest = tok :: more) (hk : tok.kind = .opening .curly) :
    ∃ closing, closing.kind = .closing .curly ∧ (∀ m ∈ t.members, m.Valid α) ∧
      Tree.tokensAll t.members ++ closing :: rest = more ∧ t = .group tok t.members closing := by
  cases h <;> simp only [Tree.tokens, List.cons_append, List.cons.injEq] at he <;> obtain ⟨rfl, hrest⟩ := he
  case empty ho hc => exact ⟨_, hc, fun m hm => absurd hm List.not_mem_nil, hrest, rfl⟩
  case sole ho hc hbody =>
    exact ⟨_, hc, List.forall_mem_singleton.2 hbody, by simpa [Tree.members, Tree.tokensAll] using hrest, rfl⟩
  case chain ho hc hfirst hop hsecond hops hhands _ =>
    refine ⟨_, hc, ?_, by simpa [Tree.members, Tree.tokensAll, Link.tokensAll_trees] using hrest, ?_⟩
    · simpa [Tree.members] using ⟨hfirst, hop, hsecond, Link.forall_mem_trees hops hhands⟩
    · simp [Tree.members, Tree.group, Link.ofTrees_trees]
  all_goals simp_all [isAtom]

theorem of_format (h : t.Valid α) (he : t.tokens ++ rest = tok :: more) (hk : tok.kind = .formatStart) :
    ∃ pieces closing, t = .format tok pieces closing ∧ closing.kind = .formatEnd ∧
      Piece.Fit (Valid α) pieces ∧ pieces.map Piece.token ++ closing :: rest = more := by
  cases h <;> simp only [Tree.tokens, List.cons_append, List.cons.injEq] at he <;> obtain ⟨rfl, hrest⟩ := he
  case format ho hc htexts hcodes hbodies => exact ⟨_, _, rfl, hc, ⟨htexts, hcodes, hbodies⟩, by simpa using hrest⟩
  all_goals simp_all [isAtom]

end Tree.Valid

/-! ## At most one derivation -/

/-- A tree that any tokens tell from all other valid trees, whatever follows. -/
def Tree.Determined (α : Type) [Identity α] (t : Tree) : Prop :=
  ∀ (t' : Tree) (rest rest' : List Token), t'.Valid α → t.tokens ++ rest = t'.tokens ++ rest' → t = t' ∧ rest = rest'

/-- A row of determined trees in front of a token that begins no form is determined. -/
theorem determined_row {ts ts' : List Tree} {closing closing' : Token} {rest rest' : List Token}
    (hts : ∀ t ∈ ts, t.Valid α ∧ t.Determined α) (hts' : ∀ t ∈ ts', t.Valid α) (hc : begins closing.kind = false)
    (hc' : begins closing'.kind = false)
    (he : Tree.tokensAll ts ++ closing :: rest = Tree.tokensAll ts' ++ closing' :: rest') :
    ts = ts' ∧ closing = closing' ∧ rest = rest' := by
  induction ts generalizing ts' with
  | nil =>
    cases ts' with
    | nil =>
      obtain ⟨rfl, rfl⟩ := List.cons.inj he
      exact ⟨rfl, rfl, rfl⟩
    | cons t' ts' =>
      -- The other row would go on with a form, whose first token the closing one is not.
      obtain ⟨tok, more, htok, hbegins⟩ := (hts' t' List.mem_cons_self).head
      obtain ⟨rfl, -⟩ : closing = tok ∧ _ := by simpa [Tree.tokensAll, htok] using he
      rw [hc] at hbegins
      cases hbegins
  | cons t ts ih =>
    obtain ⟨⟨hvalid, hdetermined⟩, hts⟩ := List.forall_mem_cons.1 hts
    cases ts' with
    | nil =>
      obtain ⟨tok, more, htok, hbegins⟩ := hvalid.head
      obtain ⟨rfl, -⟩ : tok = closing' ∧ _ := by simpa [Tree.tokensAll, htok] using he
      rw [hc'] at hbegins
      cases hbegins
    | cons t' ts' =>
      obtain ⟨ht', htail'⟩ := List.forall_mem_cons.1 hts'
      simp only [Tree.tokensAll, List.append_assoc] at he
      obtain ⟨rfl, hmore⟩ := hdetermined t' _ _ ht' he
      obtain ⟨rfl, hrest⟩ := ih hts htail' hmore
      exact ⟨rfl, hrest⟩

theorem kind_of_fit {P : Tree → Prop} {p : Piece} {ps : List Piece} (h : Piece.Fit P (p :: ps)) :
    p.token.kind ≠ .formatEnd := by
  cases p with
  | text tok => simp [Piece.token, h.text tok List.mem_cons_self]
  | code tok body => simp [Piece.token, (h.code tok body List.mem_cons_self).1]

/-- Of two pieces that are the same token, both are text, or both are the same expression. -/
theorem determined_piece {p p' : Piece} {ps ps' : List Piece} (h : Piece.Fit (Tree.Determined α) (p :: ps))
    (h' : Piece.Fit (Tree.Valid α) (p' :: ps')) (he : p.token = p'.token) : p = p' := by
  cases p with
  | text tok =>
    have hk := h.text tok List.mem_cons_self
    cases p' with
    | text tok' => exact congrArg Piece.text he
    | code tok' body' =>
      have hk' := (h'.code tok' body' List.mem_cons_self).1
      obtain rfl : tok = tok' := he
      rw [hk] at hk'
      cases hk'
  | code tok body =>
    obtain ⟨hk, last, hlast, hlex⟩ := h.code tok body List.mem_cons_self
    cases p' with
    | text tok' =>
      have hk' := h'.text tok' List.mem_cons_self
      obtain rfl : tok = tok' := he
      rw [hk] at hk'
      cases hk'
    | code tok' body' =>
      obtain ⟨-, last', -, hlex'⟩ := h'.code tok' body' List.mem_cons_self
      obtain rfl : tok = tok' := he
      -- The text of the token is lexed in one way, and its tokens determine the derivation.
      rw [hlex] at hlex'
      obtain ⟨rfl, -⟩ := h.body tok body List.mem_cons_self body' _ _ (h'.body tok body' List.mem_cons_self)
        (Except.ok.inj hlex')
      rfl

theorem determined_pieces {ps ps' : List Piece} {closing closing' : Token} {rest rest' : List Token}
    (h : Piece.Fit (Tree.Determined α) ps) (h' : Piece.Fit (Tree.Valid α) ps') (hc : closing.kind = .formatEnd)
    (hc' : closing'.kind = .formatEnd)
    (he : ps.map Piece.token ++ closing :: rest = ps'.map Piece.token ++ closing' :: rest') :
    ps = ps' ∧ closing = closing' ∧ rest = rest' := by
  induction ps generalizing ps' with
  | nil =>
    cases ps' with
    | nil =>
      obtain ⟨rfl, rfl⟩ := List.cons.inj he
      exact ⟨rfl, rfl, rfl⟩
    | cons p' ps' =>
      obtain ⟨rfl, -⟩ := List.cons.inj he
      exact absurd hc (kind_of_fit h')
  | cons p ps ih =>
    cases ps' with
    | nil =>
      obtain ⟨rfl, -⟩ := List.cons.inj he
      exact absurd hc' (kind_of_fit h)
    | cons p' ps' =>
      obtain ⟨hp, hmore⟩ := List.cons.inj he
      obtain rfl := determined_piece h h' hp
      obtain ⟨rfl, hrest⟩ := ih h.tail h'.tail hmore
      exact ⟨rfl, hrest⟩

/-- No form begins with a closing bracket. -/
theorem begins_closing {tok : Token} {b : Bracket} (hk : tok.kind = .closing b) : begins tok.kind = false := by
  rw [hk]
  rfl

/-- The members of an infix group are a row between two braces, and the group is made of them. -/
theorem determined_group {t : Tree} {opening closing : Token} (ho : opening.kind = .opening .curly)
    (hc : closing.kind = .closing .curly) (hmembers : ∀ m ∈ t.members, m.Valid α ∧ m.Determined α)
    (ht : t = .group opening t.members closing) (htokens : t.tokens = opening :: (Tree.tokensAll t.members ++ [closing])) :
    t.Determined α := by
  intro t' rest rest' h' he
  rw [htokens, List.cons_append, List.append_assoc] at he
  obtain ⟨closing', hc', hmembers', hmore, ht'⟩ := h'.of_group he.symm ho
  obtain ⟨hrow, rfl, rfl⟩ := determined_row hmembers hmembers' (begins_closing hc) (begins_closing hc') hmore.symm
  exact ⟨by rw [ht, ht', hrow], rfl⟩

/-- A valid tree is the only one that derives its tokens, and it ends where they end. -/
theorem Tree.Valid.determined {t : Tree} (h : t.Valid α) : t.Determined α := by
  induction h with
  | atom hk =>
    intro t' rest rest' h' he
    obtain ⟨rfl, rfl⟩ := h'.of_atom he.symm hk
    exact ⟨rfl, rfl⟩
  | @list bracket opening closing elements hb ho hc hes ih =>
    intro t' rest rest' h' he
    rw [Tree.tokens, List.cons_append, List.append_assoc] at he
    obtain ⟨elements', closing', rfl, hc', hes', hmore⟩ := h'.of_list he.symm ho hb
    obtain ⟨rfl, rfl, rfl⟩ := determined_row (fun t hm => ⟨hes t hm, ih t hm⟩) hes' (begins_closing hc)
      (begins_closing hc') hmore.symm
    exact ⟨rfl, rfl⟩
  | marked hm hbody ih =>
    intro t' rest rest' h' he
    obtain ⟨body', rfl, hbody', hmore⟩ := h'.of_marked he.symm hm
    obtain ⟨rfl, rfl⟩ := ih body' _ _ hbody' hmore.symm
    exact ⟨rfl, rfl⟩
  -- The three kinds of group are told apart behind their members, so these are determined first.
  | empty ho hc => exact determined_group ho hc (fun m hm => absurd hm List.not_mem_nil) rfl rfl
  | sole ho hc hbody ih =>
    refine determined_group ho hc (List.forall_mem_singleton.2 ⟨hbody, ih⟩) rfl ?_
    simp [Tree.tokens, Tree.members, Tree.tokensAll]
  | @chain opening closing first op second links ho hc hfirst hop hsecond hops hhands hsame ihfirst ihop ihsecond ihops
      ihhands =>
    have hlinks := Link.forall_mem_trees (P := fun m => m.Valid α ∧ m.Determined α)
      (fun op t hm => ⟨hops op t hm, ihops op t hm⟩) fun op t hm => ⟨hhands op t hm, ihhands op t hm⟩
    refine determined_group ho hc ?_ ?_ ?_
    · simpa [Tree.members] using ⟨⟨hfirst, ihfirst⟩, ⟨hop, ihop⟩, ⟨hsecond, ihsecond⟩, hlinks⟩
    · simp [Tree.members, Tree.group, Link.ofTrees_trees]
    · simp [Tree.tokens, Tree.members, Tree.tokensAll, Link.tokensAll_trees]
  | @format opening closing pieces ho hc htexts hcodes hbodies ih =>
    intro t' rest rest' h' he
    rw [Tree.tokens, List.cons_append, List.append_assoc] at he
    obtain ⟨pieces', closing', rfl, hc', hfit', hmore⟩ := h'.of_format he.symm ho
    obtain ⟨rfl, rfl, rfl⟩ := determined_pieces ⟨htexts, hcodes, ih⟩ hfit' hc hc' hmore.symm
    exact ⟨rfl, rfl⟩

/-- A row of tokens has at most one derivation. -/
theorem unique_trees {ts ts' : List Tree} (hts : ∀ t ∈ ts, t.Valid α) (hts' : ∀ t ∈ ts', t.Valid α)
    (he : Tree.tokensAll ts = Tree.tokensAll ts') : ts = ts' := by
  have hend : begins (Token.eofAt .start).kind = false := rfl
  exact (determined_row (fun t hm => ⟨hts t hm, (hts t hm).determined⟩) hts' hend hend (congrArg (· ++ [_]) he)).1

end Lisplet.Reader
