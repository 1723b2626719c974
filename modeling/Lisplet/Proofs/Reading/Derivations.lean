import Lisplet.Proofs.Reading.Grammar
import Lisplet.Proofs.Reading.Groups
/-!
# The reader accepts its grammar

The tokens of a valid tree take the reader from a state outside format strings to the state in which the term of the tree
is delivered (`Delivered`), and none but the last one can stop it on the way (`Concludes`): one lemma for each production, and an
induction over the derivation (`Tree.Valid.concludes`).

An expression in a format string is read with an allowance for the expressions inside it. The allowance is the length of
its text, and that is enough, since an expression is shorter than the text it stands in (`Lexer.length_lt_of_lexes`).

Main statement: a row of derivations is read as the row of their terms (`read_of_valid`).
-/
namespace Lisplet

namespace Lexer

/-! ## Expressions are shorter than the text they stand in -/

theorem length_lt_of_pieceTokens {ps : List Format.Piece} {p : Position} {tok : Token} (h : tok ∈ pieceTokens p ps)
    (hk : tok.kind = .formatCode) : tok.text.length < (ps.flatMap Format.Piece.written).length := by
  induction ps generalizing p with
  | nil => cases h
  | cons piece ps ih =>
    rw [List.flatMap_cons, List.length_append]
    rcases List.mem_cons.1 h with rfl | h
    · cases piece with
      | text raw value => cases hk
      | code source =>
        simp only [Format.Piece.written, Format.Piece.lead, Format.Piece.body, Format.Piece.tail, Format.Piece.content,
          String.length_ofList, List.length_append, List.length_cons]
        omega
    · have := ih h
      omega

/-- An expression is shorter than the text that it stands in, so that reading it recursively comes to an end. -/
theorem length_lt_of_chunk {front rest : List Char} {made : Position → List Token} (h : Chunk front rest made)
    {p : Position} {tok : Token} (hm : tok ∈ made p) (hk : tok.kind = .formatCode) : tok.text.length < front.length := by
  cases h with
  | separator | comment => cases hm
  | string =>
    obtain rfl := List.mem_singleton.1 hm
    cases hk
  | format =>
    rcases List.mem_cons.1 hm with rfl | hm
    · cases hk
    rcases List.mem_append.1 hm with hm | hm
    · have := length_lt_of_pieceTokens hm hk
      simp only [List.length_cons, List.length_append]
      omega
    · obtain rfl := List.mem_singleton.1 hm
      cases hk
  | single hs =>
    obtain rfl := List.mem_singleton.1 hm
    exact absurd hk (singleKind?_isSingle hs p).2.1
  | word hne hw =>
    obtain rfl := List.mem_singleton.1 hm
    exact absurd hk (wordKind_isSingle hne hw p).2.1

theorem length_lt_of_lexes {cs : List Char} {made : Position → List Token} (h : Lexes cs made) {p : Position}
    {tok : Token} (hm : tok ∈ made p) (hk : tok.kind = .formatCode) : tok.text.length < cs.length := by
  induction h generalizing p with
  | nil => cases hm
  | chunk hc _ ih =>
    rw [List.length_append]
    rcases List.mem_append.1 hm with hm | hm
    · have := length_lt_of_chunk hc hm hk
      omega
    · have := ih hm
      omega

end Lexer

namespace Reader

variable {α : Type} [Identity α] {e : Token → Except SyntaxError (Term α)}

/-! ## One production after the other -/

theorem steps_next {tok : Token} {s m : State α} (h : step e tok s = .next m) (rest : List Token) :
    steps e s (tok :: rest) = steps e m rest := by
  rw [steps, h]

theorem steps_delivery {tok : Token} {s : State α} {d : Except SyntaxError (State α)} (h : step e tok s = .ofDelivery d) :
    steps e s [tok] = d.toOption := by
  rw [steps, h]
  cases d <;> rfl

/-- A tree whose tokens deliver its term, wherever a form can stand. -/
def Delivered (e : Token → Except SyntaxError (Term α)) (t : Tree) : Prop :=
  ∀ s : State α, s.inFormat = false → steps e s t.tokens = (deliver t.start t.term s.forms s.stack).toOption

/-- An atom is delivered as it stands. -/
theorem begin_of_isAtom {tok : Token} (hk : isAtom tok.kind) (s : State α) :
    begin tok s = .ofDelivery (deliver tok.position (atomTerm tok) s.forms s.stack) := by
  unfold begin atomTerm
  cases h : tok.kind <;> simp [h, isAtom] at hk ⊢

/-- A tree whose last token delivers its term, and whose other tokens do not stop the reading. -/
def Concludes (e : Token → Except SyntaxError (Term α)) (t : Tree) : Prop :=
  ∃ front last, t.tokens = front ++ [last] ∧ ∀ s : State α, s.inFormat = false →
    ∃ m, steps e s front = some m ∧ step e last m = .ofDelivery (deliver t.start t.term s.forms s.stack)

theorem Concludes.delivered {t : Tree} (h : Concludes e t) : Delivered e t := by
  obtain ⟨front, last, htokens, hconcludes⟩ := h
  intro s hs
  obtain ⟨m, hfront, hlast⟩ := hconcludes s hs
  rw [htokens, steps_append, hfront, Option.bind_some, steps_delivery hlast]

theorem concludes_atom {tok : Token} (hk : isAtom tok.kind) : Concludes e (.atom tok) :=
  ⟨[], tok, rfl, fun s hs => ⟨s, rfl, (step_begin hs (begins_of_isAtom hk)).trans (begin_of_isAtom hk s)⟩⟩

/-- Trees in a row are delivered one behind the other to a form that takes any number of them. -/
theorem steps_row {ts : List Tree} (hts : ∀ t ∈ ts, Delivered e t) {k : List (Term α) → State α}
    (hout : ∀ xs, (k xs).inFormat = false)
    (hk : ∀ xs start t, deliver start t (k xs).forms (k xs).stack = .ok (k (t :: xs))) (xs : List (Term α)) :
    steps e (k xs) (Tree.tokensAll ts) = some (k ((Tree.terms ts).reverse ++ xs)) := by
  induction ts generalizing xs with
  | nil => rfl
  | cons t ts ih =>
    obtain ⟨ht, hts⟩ := List.forall_mem_cons.1 hts
    rw [Tree.tokensAll, steps_append, ht _ (hout xs), hk]
    simpa [Except.toOption, Tree.terms] using ih hts (t.term :: xs)

theorem concludes_list {bracket : Bracket} {opening closing : Token} {ts : List Tree} (hb : bracket ≠ .curly)
    (ho : opening.kind = .opening bracket) (hc : closing.kind = .closing bracket) (hts : ∀ t ∈ ts, Delivered e t) :
    Concludes e (.list bracket opening ts closing) := by
  refine ⟨opening :: Tree.tokensAll ts, closing, rfl, fun s hs => ?_⟩
  have hopen : step e opening s = .next ⟨.list bracket opening.position [] :: s.stack, s.forms⟩ := by
    rw [step_begin hs (by rw [ho]; rfl), begin, ho]
    cases bracket with
    | curly => exact absurd rfl hb
    | _ => rfl
  have hrow := steps_row hts (k := fun xs => ⟨.list bracket opening.position xs :: s.stack, s.forms⟩)
    (fun _ => rfl) (fun _ _ _ => rfl) []
  exact ⟨_, (steps_next hopen _).trans hrow, by simp [step, hc, Tree.term, Tree.start]⟩

/-- A quote mark waits on the stack for the form behind it. -/
theorem concludes_marked {marker : Marker} {mark : Token} {body : Tree} (hm : mark.kind = .marker marker)
    (hbody : Concludes e body) : Concludes e (.marked marker mark body) := by
  obtain ⟨front, last, htokens, hconcludes⟩ := hbody
  refine ⟨mark :: front, last, by rw [Tree.tokens, htokens, List.cons_append], fun s hs => ?_⟩
  have hopen : step e mark s = .next ⟨.marked mark.position marker mark.text :: s.stack, s.forms⟩ := by
    rw [step_begin hs (by rw [hm]; rfl), begin, hm]
  obtain ⟨m, hfront, hlast⟩ := hconcludes ⟨.marked mark.position marker mark.text :: s.stack, s.forms⟩ rfl
  exact ⟨m, (steps_next hopen _).trans hfront, hlast⟩

/-! ## Infix groups -/

theorem step_openGroup {opening : Token} {s : State α} (hs : s.inFormat = false) (ho : opening.kind = .opening .curly) :
    step e opening s = .next ⟨.group opening.position [] [] :: s.stack, s.forms⟩ := by
  rw [step_begin hs (by rw [ho]; rfl), begin, ho]

theorem step_closeGroup {closing : Token} {pos : Position} {operands operators : List (Term α)} {t : Term α}
    {stack : List (Pending α)} {forms : List (Term α)} (hc : closing.kind = .closing .curly)
    (ht : closeGroup pos operands operators = some t) :
    step e closing ⟨.group pos operands operators :: stack, forms⟩ = .ofDelivery (deliver pos t forms stack) := by
  simp [step, hc, ht]

/-- A tree in an open infix group is added to it. -/
theorem Delivered.toGroup {t : Tree} (ht : Delivered e t) {pos : Position} {operands operators : List (Term α)}
    {stack : List (Pending α)} {forms : List (Term α)} {group : Pending α}
    (hadd : addToGroup t.start t.term pos operands operators = .ok group) :
    steps e ⟨.group pos operands operators :: stack, forms⟩ t.tokens = some ⟨group :: stack, forms⟩ := by
  rw [ht _ rfl, deliver, hadd]
  rfl

/-- An operand is due when there are as many operands as operators. -/
theorem addToGroup_operand (start pos : Position) (t : Term α) {operands operators : List (Term α)}
    (hlen : operands.length = operators.length) :
    addToGroup start t pos operands operators = .ok (.group pos (t :: operands) operators) :=
  if_pos hlen

theorem addToGroup_operator (start pos : Position) {t first : Term α} {operands operators : List (Term α)}
    (hlen : operands.length ≠ operators.length) (hfirst : operators.getLast? = some first) (hsame : first.same t) :
    addToGroup start t pos operands operators = .ok (.group pos operands (t :: operators)) := by
  rw [addToGroup, if_neg hlen, hfirst]
  exact if_pos hsame

/-- A chain of operators and operands is taken up pair by pair. -/
theorem steps_links {links : List Link} (hd : ∀ t ∈ Link.trees links, Delivered e t) {first : Term α}
    (hsame : ∀ op t, Link.mk op t ∈ links → first.same op.term) {pos : Position} {operands operators : List (Term α)}
    (hlen : operands.length = operators.length + 1) (hfirst : operators.getLast? = some first)
    {stack : List (Pending α)} {forms : List (Term α)} :
    steps e ⟨.group pos operands operators :: stack, forms⟩ (Link.tokensAll links) =
      some ⟨.group pos ((Link.operands links).reverse ++ operands) ((Link.operators links).reverse ++ operators) :: stack,
        forms⟩ := by
  induction links generalizing operands operators with
  | nil => rfl
  | cons link links ih =>
    cases link with
    | mk op t =>
      obtain ⟨hop, ht, hrest⟩ : Delivered e op ∧ Delivered e t ∧ _ := by simpa [Link.trees] using hd
      have hne : operands.length ≠ operators.length := by omega
      have hoperator := addToGroup_operator op.start pos hne hfirst (hsame op t List.mem_cons_self)
      have hoperand := addToGroup_operand t.start pos t.term (show operands.length = (op.term :: operators).length from hlen)
      have hlast : (op.term :: operators).getLast? = some first := by simp [List.getLast?_cons, hfirst]
      have hmore := ih hrest (fun op t hm => hsame op t (List.mem_cons_of_mem _ hm))
        (show (t.term :: operands).length = (op.term :: operators).length + 1 by simp [hlen]) hlast
      rw [Link.tokensAll, steps_append, hop.toGroup hoperator, Option.bind_some, steps_append, ht.toGroup hoperand,
        Option.bind_some, hmore]
      simp [Link.operands, Link.operators]

theorem concludes_empty {opening closing : Token} (ho : opening.kind = .opening .curly)
    (hc : closing.kind = .closing .curly) : Concludes e (.empty opening closing) :=
  ⟨[opening], closing, rfl, fun _ hs => ⟨_, steps_next (step_openGroup hs ho) [], step_closeGroup hc rfl⟩⟩

theorem concludes_sole {opening closing : Token} {body : Tree} (ho : opening.kind = .opening .curly)
    (hc : closing.kind = .closing .curly) (hbody : Delivered e body) : Concludes e (.sole opening body closing) := by
  refine ⟨opening :: body.tokens, closing, rfl, fun s hs => ?_⟩
  have hoperand : addToGroup body.start body.term opening.position [] [] = .ok (.group _ [(body.term : Term α)] []) := rfl
  exact ⟨_, (steps_next (step_openGroup hs ho) _).trans (hbody.toGroup hoperand), step_closeGroup hc rfl⟩

/-- The first operands of an infix group, with the operator between them and further ones. -/
theorem steps_chain {opening : Token} {first op second : Tree} {links : List Link}
    (ho : opening.kind = .opening .curly) (hfirst : Delivered e first) (hop : Delivered e op) (hsecond : Delivered e second)
    (hlinks : ∀ t ∈ Link.trees links, Delivered e t)
    (hsame : ∀ op' t, Link.mk op' t ∈ links → (op.term : Term α).same op'.term) {s : State α} (hs : s.inFormat = false) :
    steps e s (opening :: (first.tokens ++ (op.tokens ++ (second.tokens ++ Link.tokensAll links)))) =
      some ⟨.group opening.position ((Link.operands links).reverse ++ [second.term, first.term])
        ((Link.operators links).reverse ++ [op.term]) :: s.stack, s.forms⟩ := by
  let pos := opening.position
  have hone : addToGroup first.start first.term pos [] [] = .ok (.group pos [(first.term : Term α)] []) := rfl
  have htwo : addToGroup op.start op.term pos [first.term] [] =
      .ok (.group pos [(first.term : Term α)] [op.term]) := rfl
  have hthree : addToGroup second.start second.term pos [first.term] [op.term] =
      .ok (.group pos [(second.term : Term α), first.term] [op.term]) := rfl
  rw [steps_next (step_openGroup hs ho), steps_append, hfirst.toGroup hone, Option.bind_some, steps_append,
    hop.toGroup htwo, Option.bind_some, steps_append, hsecond.toGroup hthree, Option.bind_some]
  exact steps_links hlinks hsame rfl rfl

theorem concludes_chain {opening closing : Token} {first op second : Tree} {links : List Link}
    (ho : opening.kind = .opening .curly) (hc : closing.kind = .closing .curly) (hfirst : Delivered e first)
    (hop : Delivered e op) (hsecond : Delivered e second) (hlinks : ∀ t ∈ Link.trees links, Delivered e t)
    (hsame : ∀ op' t, Link.mk op' t ∈ links → (op.term : Term α).same op'.term) :
    Concludes e (.chain opening first op second links closing) := by
  have htokens : (Tree.chain opening first op second links closing).tokens =
      opening :: (first.tokens ++ (op.tokens ++ (second.tokens ++ Link.tokensAll links))) ++ [closing] := by
    simp [Tree.tokens]
  have hclose : closeGroup opening.position ((Link.operands links).reverse ++ [second.term, first.term])
      ((Link.operators links).reverse ++ [(op.term : Term α)]) =
        some (.list opening.position (op.term :: first.term :: second.term :: Link.operands links)) := by
    simp [closeGroup, Link.length_operators]
  exact ⟨_, closing, htokens, fun s hs =>
    ⟨_, steps_chain ho hfirst hop hsecond hlinks hsame hs, step_closeGroup hc hclose⟩⟩

/-! ## Format strings -/

theorem steps_pieces {ps : List Piece} (hfit : Piece.Fit (Tree.Valid α) ps)
    (he : ∀ tok body, Piece.code tok body ∈ ps → e tok = .ok body.term) {pos : Position} {parts : List (Part α)}
    {stack : List (Pending α)} {forms : List (Term α)} :
    steps e ⟨.format pos parts :: stack, forms⟩ (ps.map Piece.token) =
      some ⟨.format pos ((Piece.parts ps).reverse ++ parts) :: stack, forms⟩ := by
  induction ps generalizing parts with
  | nil => rfl
  | cons p ps ih =>
    have hcodes : ∀ tok body, Piece.code tok body ∈ ps → e tok = .ok body.term :=
      fun tok body hm => he tok body (List.mem_cons_of_mem _ hm)
    cases p with
    | text tok =>
      have hk := hfit.text tok List.mem_cons_self
      have hstep : step e tok ⟨.format pos parts :: stack, forms⟩ =
          .next ⟨.format pos (.text tok.text :: parts) :: stack, forms⟩ := by
        simp [step, stepFormat, hk]
      rw [List.map_cons, Piece.token, steps_next hstep, ih hfit.tail hcodes]
      simp [Piece.parts]
    | code tok body =>
      have hk := (hfit.code tok body List.mem_cons_self).1
      have hstep : step e tok ⟨.format pos parts :: stack, forms⟩ =
          .next ⟨.format pos (.code body.term :: parts) :: stack, forms⟩ := by
        simp [step, stepFormat, hk, he tok body List.mem_cons_self]
      rw [List.map_cons, Piece.token, steps_next hstep, ih hfit.tail hcodes]
      simp [Piece.parts]

theorem concludes_format {opening closing : Token} {ps : List Piece} (ho : opening.kind = .formatStart)
    (hc : closing.kind = .formatEnd) (hfit : Piece.Fit (Tree.Valid α) ps)
    (he : ∀ tok body, Piece.code tok body ∈ ps → e tok = .ok body.term) : Concludes e (.format opening ps closing) := by
  refine ⟨opening :: ps.map Piece.token, closing, rfl, fun s hs => ?_⟩
  have hopen : step e opening s = .next ⟨.format opening.position [] :: s.stack, s.forms⟩ := by
    rw [step_begin hs (by rw [ho]; rfl), begin, ho]
  exact ⟨_, (steps_next hopen _).trans (steps_pieces hfit he), by simp [step, stepFormat, hc, Tree.term, Tree.start]⟩

/-! ## Every derivation is read -/

/-- The expressions among some tokens are read if they have a derivation. -/
def ReadsCode (e : Token → Except SyntaxError (Term α)) (tokens : List Token) : Prop :=
  ∀ tok ∈ tokens, tok.kind = .formatCode → ∀ body : Tree, body.Valid α → Embeds tok body → e tok = .ok body.term

/-- A reader of expressions that reads those of some tokens reads those of fewer. -/
theorem ReadsCode.mono {tokens more : List Token} (h : ReadsCode e more) (hs : tokens ⊆ more) : ReadsCode e tokens :=
  fun tok hm => h tok (hs hm)

theorem Tree.Valid.concludes {t : Tree} (h : t.Valid α) (he : ReadsCode e t.tokens) : Concludes e t := by
  induction h with
  | atom hk => exact concludes_atom hk
  | list hb ho hc _ ih =>
    refine concludes_list hb ho hc fun t hm => (ih t hm (he.mono ?_)).delivered
    exact List.Subset.trans (Tree.tokens_subset hm) (by simp [Tree.tokens])
  | marked hm _ ih => exact concludes_marked hm (ih (he.mono (by simp [Tree.tokens])))
  | empty ho hc => exact concludes_empty ho hc
  | sole ho hc _ ih => exact concludes_sole ho hc (ih (he.mono (by simp [Tree.tokens]))).delivered
  | @chain opening closing first op second links ho hc _ _ _ _ _ hsame ihfirst ihop ihsecond ihops ihhands =>
    have hpart {row : List Token} (hrow : ∀ tok ∈ row, tok ∈ first.tokens ∨ tok ∈ op.tokens ∨ tok ∈ second.tokens ∨
        tok ∈ Link.tokensAll links) : ReadsCode e row := by
      refine he.mono fun tok hm => ?_
      rcases hrow tok hm with h | h | h | h <;> simp [Tree.tokens, h]
    have hlinks := Link.forall_mem_trees (P := fun t => ReadsCode e t.tokens → Concludes e t) ihops ihhands
    refine concludes_chain ho hc (ihfirst (hpart fun _ h => .inl h)).delivered (ihop (hpart fun _ h => .inr (.inl h))).delivered
      (ihsecond (hpart fun _ h => .inr (.inr (.inl h)))).delivered
      (fun t hm => (hlinks t hm (hpart fun tok h => ?_)).delivered) hsame
    rw [← Link.tokensAll_trees]
    exact .inr (.inr (.inr (Tree.tokens_subset hm h)))
  | @format opening closing ps ho hc htexts hcodes hbodies _ =>
    refine concludes_format ho hc ⟨htexts, hcodes, hbodies⟩ fun tok body hm => ?_
    have hin : tok ∈ (Tree.format opening ps closing).tokens :=
      List.mem_cons_of_mem _ (List.mem_append_left _ (List.mem_map_of_mem hm))
    exact he tok hin (hcodes tok body hm).1 body (hbodies tok body hm) (hcodes tok body hm).2

theorem Tree.Valid.delivered {t : Tree} (h : t.Valid α) (he : ReadsCode e t.tokens) : Delivered e t :=
  (h.concludes he).delivered

/-- A row of derivations is read as the row of their terms. -/
theorem steps_trees {ts : List Tree} (hts : ∀ t ∈ ts, t.Valid α) (he : ReadsCode e (Tree.tokensAll ts)) :
    steps e .empty (Tree.tokensAll ts) = some ⟨[], (Tree.terms ts).reverse⟩ := by
  have hdelivered : ∀ t ∈ ts, Delivered e t := fun t hm => (hts t hm).delivered (he.mono (Tree.tokens_subset hm))
  have hrow := steps_row hdelivered (k := fun xs => ⟨[], xs⟩) (fun _ => rfl) (fun _ _ _ => rfl) []
  rw [List.append_nil] at hrow
  exact hrow

/-! ## Expressions in format strings -/

theorem embeds_iff {tok : Token} {body : Tree} :
    Embeds tok body ↔ ∃ made, Lexer.Lexes tok.text.toList made ∧ body.tokens = made tok.position := by
  constructor
  · rintro ⟨last, -, hlex⟩
    obtain ⟨made, hl, he⟩ := Lexer.lexAt_complete.1 hlex
    exact ⟨made, hl, (List.append_inj' he rfl).1⟩
  · rintro ⟨made, hl, he⟩
    exact ⟨_, rfl, Lexer.lexAt_complete.2 ⟨made, hl, by rw [he]⟩⟩

/-- An expression is read as its derivation says when its text is no longer than the allowance. -/
theorem embedAt_of_valid (n : Nat) {tok : Token} {body : Tree} (hb : body.Valid α) (he : Embeds tok body)
    (hn : tok.text.length ≤ n) : embedAt n tok = .ok (body.term : Term α) := by
  induction n generalizing tok body with
  | zero =>
    -- An empty text has no tokens, but a derivation does.
    obtain ⟨made, hl, htokens⟩ := embeds_iff.1 he
    obtain ⟨first, rest, hfirst, -⟩ := hb.head
    have hempty : tok.text.toList = [] := by simpa [String.length] using hn
    have hlex := Lexer.tokensFrom_of_lexes hl tok.position
    rw [hempty, Lexer.tokensFrom_nil, ← htokens, hfirst] at hlex
    simp at hlex
  | succ n ih =>
    obtain ⟨made, hl, htokens⟩ := embeds_iff.1 he
    have hends : ∀ tok' ∈ body.tokens, tok'.kind ≠ .eof := by
      rw [htokens]
      exact Lexer.kind_ne_eof_of_grouped (Lexer.grouped_of_lexes hl _)
    have hcode : ReadsCode (embedAt n : Token → Except SyntaxError (Term α)) (Tree.tokensAll [body]) := by
      intro tok' hm hk body' hb' he'
      refine ih hb' he' ?_
      have hin : tok' ∈ made tok.position := by simpa [Tree.tokensAll, htokens] using hm
      have hshorter : tok'.text.length < tok.text.length := Lexer.length_lt_of_lexes hl hin hk
      omega
    obtain ⟨last, hlast, hlex⟩ := he
    have hsteps := steps_trees (List.forall_mem_singleton.2 hb) hcode
    have hread : (readWith (embedAt n) (body.tokens ++ [last])).complete = .ok [(body.term : Term α)] :=
      (readWith_eq_ok_of_last hends hlast).2 (by simpa [Tree.tokensAll, Tree.terms] using hsteps)
    rw [embedAt, hlex]
    show (readWith (embedAt n) (body.tokens ++ [last])).complete >>= _ = _
    rw [hread]
    rfl

theorem embed_of_valid {tok : Token} {body : Tree} (hb : body.Valid α) (he : Embeds tok body) :
    embed tok = .ok (body.term : Term α) :=
  embedAt_of_valid _ hb he (Nat.le_refl _)

/-- A row of derivations without an end mark inside is read as the row of their terms. -/
theorem read_of_valid {ts : List Tree} (hts : ∀ t ∈ ts, t.Valid α)
    (hk : ∀ tok ∈ Tree.tokensAll ts, tok.kind ≠ .eof) {last : Token} (hlast : last.kind = .eof) :
    (read (Tree.tokensAll ts ++ [last])).complete = .ok (Tree.terms ts : List (Term α)) :=
  (readWith_eq_ok_of_last hk hlast).2 (steps_trees hts fun _ _ _ _ hb he => embed_of_valid hb he)

end Reader

end Lisplet
