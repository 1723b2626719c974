import Lisplet.Proofs.Likeness.Looking
/-!
# Macros on alike operands

Matching and substitution commute with seeing where nothing is spelled out (`matchTerm_seen`, `substitute_seen`), so that a
rule expands alike operands alike if it does not look at spelled out shorthands (`alike_expandRule`). Filling alike templates
that have nothing spelled out in them is alike when evaluation is (`alike_fill`).
-/
namespace Lisplet

variable {w : View} {c : Comparison} {r r' : Recursion}

/-- Two recursions whose operations are alike on alike terms and values. -/
structure Recursion.Respects (r : Recursion) (c : Comparison) (r' : Recursion) : Prop where
  evaluate : ∀ {t t'} scope, t.seen c.left = t'.seen c.right →
    Alike c (Value.seen c.left) (Value.seen c.right) (r.evaluate t scope) (r'.evaluate t' scope)
  apply : ∀ {f f' args args'}, f.seen c.left = f'.seen c.right →
    args.map (Value.seen c.left) = args'.map (Value.seen c.right) →
    Alike c (Value.seen c.left) (Value.seen c.right) (r.apply f args) (r'.apply f' args')

/-- Terms that are seen as the same have places that are. -/
theorem Term.place_eq_of_seen {v w : View} {t t' : Code} (h : t.seen v = t'.seen w) :
    v.place t.position = w.place t'.position := by
  rw [← position_seen, h, position_seen]

/-- A value that is seen as the same as another becomes a term that is, wherever both are put. -/
theorem Value.toTerm_of_seen {a b : Value} (h : a.seen c.left = b.seen c.right) {p q : Position}
    (hp : c.left.place p = c.right.place q) : (a.toTerm p).seen c.left = (b.toTerm q).seen c.right := by
  rw [toTerm_seen, toTerm_seen, h, hp]

theorem Term.symbol?_of_seen {v w : View} {t t' : Code} (h : t.seen v = t'.seen w) : t.symbol? = t'.symbol? := by
  rw [← symbol?_seen (w := v), h, symbol?_seen]

theorem Term.isSymbol_of_seen {v w : View} (name : String) {t t' : Code} (h : t.seen v = t'.seen w) :
    t.isSymbol name = t'.isSymbol name := by
  rw [← isSymbol_seen (w := v), h, isSymbol_seen]

theorem Term.toValue_of_seen {v w : View} {t t' : Code} (h : t.seen v = t'.seen w) :
    t.toValue.seen v = t'.toValue.seen w := by
  rw [← toValue_seen, h, toValue_seen]

/-! ## Holes of what is seen -/

theorem Term.isHole_pair (pos : Position) (head t : Code) :
    isHole (.list pos [head, t]) = (head.symbol? == some "unquote") := by
  cases head <;> rfl

theorem Term.isHole_list_seen (p q : Position) (ts : List Code) :
    isHole (.list p (ts.map (Term.seen w))) = isHole (.list q ts) := by
  rcases ts with _ | ⟨head, _ | ⟨t, _ | ⟨_, _⟩⟩⟩
  · rfl
  · simp [isHole]
  · rw [List.map_cons, List.map_cons, List.map_nil, isHole_pair, isHole_pair, symbol?_seen]
  · simp [isHole]

namespace Expansion

/-! ## Rules -/

theorem mismatch_seen [w.Short] (pattern term : Code) :
    mismatch (pattern.seen w) (term.seen w) = (mismatch pattern term).seen w := by
  simp [mismatch, Fault.seen, Fault.signature]

theorem matchVariable_seen [w.Short] (pattern : Code) (name : String) (term : Code) (found : Bindings Code) :
    matchVariable (pattern.seen w) name (term.seen w) (found.through (Term.seen w)) =
      seenResult w (Bindings.through (Term.seen w)) (matchVariable pattern name term found) := by
  unfold matchVariable
  rw [Bindings.value?_through, ← Bindings.through_put, mismatch_seen]
  cases found.value? name with
  | none => rfl
  | some earlier =>
    rw [Option.map_some]
    simp only [Term.same_seen]
    split <;> rfl

/-- A pattern that is neither a symbol nor a list matches an equal term. -/
theorem matchAtom_seen [w.Short] (name : String) (pattern term : Code) (found : Bindings Code)
    (h : matchTerm name pattern term found =
      if pattern.same term then .ok found else .error (mismatch pattern term))
    (hs : matchTerm name (pattern.seen w) (term.seen w) (found.through (Term.seen w)) =
      if (pattern.seen w).same (term.seen w) then .ok (found.through (Term.seen w))
      else .error (mismatch (pattern.seen w) (term.seen w))) :
    matchTerm name (pattern.seen w) (term.seen w) (found.through (Term.seen w)) =
      seenResult w (Bindings.through (Term.seen w)) (matchTerm name pattern term found) := by
  rw [h, hs, Term.same_seen, mismatch_seen]
  split <;> rfl

mutual

theorem matchTerm_seen [w.Short] (name : String) : (pattern term : Code) → (found : Bindings Code) →
    matchTerm name (pattern.seen w) (term.seen w) (found.through (Term.seen w)) =
      seenResult w (Bindings.through (Term.seen w)) (matchTerm name pattern term found)
  | .symbol pos x, term, found => by
    have hs := Term.same_seen (w := w) (.symbol pos x) term
    have hm := mismatch_seen (w := w) (.symbol pos x) term
    have hv := matchVariable_seen (w := w) (.symbol pos x) x term found
    rw [Term.seen] at hs hm hv ⊢
    rw [matchTerm, matchTerm, hs, hm, hv]
    split
    · split <;> rfl
    · rfl
  | .list pos ps, term, found => by
    have hm := mismatch_seen (w := w) (.list pos ps) term
    rw [Term.seen] at hm ⊢
    cases term with
    | list pos' ts =>
      have hall := matchAll_seen name ps ts found
      rw [Term.seen] at hm ⊢
      simp only [matchTerm, hm, hall]
      rw [Term.seenAll_eq_map, Term.seenAll_eq_map, List.length_map, List.length_map]
      split <;> rfl
    | nil _ | marked _ _ _ | format _ _ => simpa [matchTerm] using hm
    | _ => exact congrArg Except.error hm
  | .number pos x, term, found => matchAtom_seen name _ term found rfl rfl
  | .string pos s, term, found => matchAtom_seen name _ term found rfl rfl
  | .boolean pos b, term, found => matchAtom_seen name _ term found rfl rfl
  | .nil pos, term, found => matchAtom_seen name _ term found rfl (by rw [Term.seen, w.nil_short]; rfl)
  | .marked pos m t, term, found => matchAtom_seen name _ term found rfl (by rw [Term.seen, w.marked_short]; rfl)
  | .format pos ps, term, found => matchAtom_seen name _ term found rfl (by rw [Term.seen, w.format_short]; rfl)
  | .embedded pos v, term, found => matchAtom_seen name _ term found rfl rfl

theorem matchAll_seen [w.Short] (name : String) : (patterns terms : List Code) → (found : Bindings Code) →
    matchAll name (Term.seenAll w patterns) (Term.seenAll w terms) (found.through (Term.seen w)) =
      seenResult w (Bindings.through (Term.seen w)) (matchAll name patterns terms found)
  | [], terms, found => rfl
  | p :: ps, [], found => rfl
  | p :: ps, t :: ts, found => by
    rw [Term.seenAll, Term.seenAll, matchAll, matchAll, matchTerm_seen name p t found]
    cases matchTerm name p t found with
    | error f => rfl
    | ok found' => exact matchAll_seen name ps ts found'

end

mutual

theorem substitute_seen [w.Short] (found : Bindings Code) :
    (t : Code) → substitute (found.through (Term.seen w)) (t.seen w) = (substitute found t).seen w
  | .symbol pos name => by
    rw [Term.seen, substitute, substitute, Bindings.value?_through]
    cases found.value? name <;> rfl
  | .list pos ts => by
    rw [Term.seen, substitute, substitute, Term.seen, substituteAll_seen found ts]
  | .marked pos m t => by
    rw [Term.seen, w.marked_short, substitute, substitute, Term.seen, w.marked_short, substitute_seen found t]
  | .format pos ps => by
    rw [Term.seen, w.format_short, substitute, substitute, Term.seen, w.format_short, substituteParts_seen found ps]
  | .nil pos => by simp [substitute]
  | .number _ _ | .string _ _ | .boolean _ _ | .embedded _ _ => rfl

theorem substituteAll_seen [w.Short] (found : Bindings Code) : (ts : List Code) →
    substituteAll (found.through (Term.seen w)) (Term.seenAll w ts) = Term.seenAll w (substituteAll found ts)
  | [] => rfl
  | t :: ts => by
    rw [Term.seenAll, substituteAll, substituteAll, Term.seenAll, substitute_seen found t, substituteAll_seen found ts]

theorem substituteParts_seen [w.Short] (found : Bindings Code) : (ps : List (Part Value)) →
    substituteParts (found.through (Term.seen w)) (Part.seenAll w ps) = Part.seenAll w (substituteParts found ps)
  | [] => rfl
  | .text s :: ps => by
    rw [Part.seenAll, Part.seen, substituteParts, substituteParts, Part.seenAll, Part.seen,
      substituteParts_seen found ps]
  | .code t :: ps => by
    rw [Part.seenAll, Part.seen, substituteParts, substituteParts, Part.seenAll, Part.seen, substitute_seen found t,
      substituteParts_seen found ps]

end

theorem expandRule_seen [w.Short] (name : String) (pattern : List Code) (template : Code) (operands : List Code) :
    expandRule name (pattern.map (Term.seen w)) (template.seen w) (operands.map (Term.seen w)) =
      seenResult w (Term.seen w) (expandRule name pattern template operands) := by
  have h : matchAll name (Term.seenAll w pattern) (Term.seenAll w operands) [] =
      seenResult w (Bindings.through (Term.seen w)) (matchAll name pattern operands []) :=
    matchAll_seen name pattern operands []
  rw [Term.seenAll_eq_map, Term.seenAll_eq_map] at h
  rw [expandRule, expandRule, List.length_map, List.length_map, h]
  split
  · cases matchAll name pattern operands [] with
    | error f => rfl
    | ok found => exact congrArg Except.ok (substitute_seen found template)
  · rfl

/-- Alike calls of alike rules have alike expansions, if the rule does not look at spelled out shorthands. -/
theorem alike_expandRule (name : String) {pattern pattern' : List Code} {template template' : Code}
    {operands operands' : List Code} (hp : pattern.map (Term.seen c.left) = pattern'.map (Term.seen c.right))
    (ht : template.seen c.left = template'.seen c.right)
    (ho : operands.map (Term.seen c.left) = operands'.map (Term.seen c.right))
    (hlook : c.right.OverlooksRule name pattern' template' operands') :
    c.Results (Term.seen c.left) (Term.seen c.right) (expandRule name pattern template operands)
      (expandRule name pattern' template' operands') := by
  have hleft := expandRule_seen (w := c.left) name pattern template operands
  rw [hp, ht, ho] at hleft
  cases hd : c.detailed with
  | true =>
    have := c.exact hd
    exact .of_seen (hleft.symm.trans (expandRule_seen name pattern' template' operands'))
  | false =>
    rw [View.OverlooksRule, hleft] at hlook
    generalize expandRule name pattern template operands = x at hlook
    generalize expandRule name pattern' template' operands' = x' at hlook
    rcases x with f | u <;> rcases x' with f' | u'
    · have hf : { (f.seen c.left).seen c.right with detail := none } = { f'.seen c.right with detail := none } :=
        Except.error.inj hlook
      rw [Fault.seen_of_seen fun p => (c.place_eq p).symm] at hf
      exact .error (c.told_eq (fun h => by rw [hd] at h; cases h) hf)
    · cases hlook
    · cases hlook
    · have hu : (u.seen c.left).seen c.right = u'.seen c.right := Except.ok.inj hlook
      rw [Term.seen_of_seen fun p => (c.place_eq p).symm] at hu
      exact .ok hu

/-! ## Templates -/

section Templates

variable (h : r.Respects c r') {args args' : Bindings Code} (scope : Scope)
  (hargs : args.through (Term.seen c.left) = args'.through (Term.seen c.right))
include h hargs

theorem alike_fillHole {t t' : Code} (ht : t.seen c.left = t'.seen c.right) {p q : Position}
    (hp : c.left.place p = c.right.place q) :
    Alike c (Term.seen c.left) (Term.seen c.right) (fillHole r args scope p t) (fillHole r' args' scope q t') := by
  have hv : (t.symbol?.bind args.value?).map (Term.seen c.left) = (t'.symbol?.bind args'.value?).map (Term.seen c.right) := by
    rw [Term.symbol?_of_seen ht]
    cases t'.symbol? with
    | none => rfl
    | some name =>
      show (args.value? name).map _ = (args'.value? name).map _
      rw [← Bindings.value?_through, hargs, Bindings.value?_through]
  unfold fillHole
  revert hv
  -- The hole is filled with an operand on both sides or on neither.
  cases t.symbol?.bind args.value? with
  | some operand =>
    cases t'.symbol?.bind args'.value? with
    | some operand' => exact fun hv => .pure (Option.some.inj hv)
    | none => simp
  | none =>
    cases t'.symbol?.bind args'.value? with
    | some operand' => simp
    | none => exact fun _ => .bind (h.evaluate scope ht) fun v v' hv => .pure (Value.toTerm_of_seen hv hp)

/-- Templates are filled alike, hole by hole, if nothing in the second one is spelled out. -/
theorem alike_fill (d : Nat) {t t' : Code} (ht : t.seen c.left = t'.seen c.right)
    (hplain : ∀ u ∈ t'.nodes, ¬ c.right.Spells u) :
    Alike c (Term.seen c.left) (Term.seen c.right) (fill r args scope d t) (fill r' args' scope d t') := by
  refine (fill.mutual_induct
    (fun d t' => ∀ t : Code, t.seen c.left = t'.seen c.right → (∀ u ∈ t'.nodes, ¬ c.right.Spells u) →
      Alike c (Term.seen c.left) (Term.seen c.right) (fill r args scope d t) (fill r' args' scope d t'))
    (fun d ps' => ∀ ps : List (Part Value), List.Forall₂ (fun a b => Part.seen c.left a = Part.seen c.right b) ps ps' →
      (∀ u ∈ Part.nodesAll ps', ¬ c.right.Spells u) →
      Alike c (List.map (Part.seen c.left)) (List.map (Part.seen c.right)) (fillParts r args scope d ps)
        (fillParts r' args' scope d ps'))
    (fun d ts' => ∀ ts : List Code, Term.LikeAll c.left c.right ts ts' →
      (∀ u ∈ Term.nodesAll ts', ¬ c.right.Spells u) →
      Alike c (List.map (Term.seen c.left)) (List.map (Term.seen c.right)) (fillAll r args scope d ts)
        (fillAll r' args' scope d ts'))
    ?unquoted ?unquotedInside ?quasiquoted ?quoted ?row ?format ?atom ?nil ?cons ?noParts ?text ?code).1 d t' t ht hplain
  case unquoted =>
    intro pos t' t ht hplain
    have hp := Term.place_eq_of_seen ht
    cases Term.like_of_seen ht with
    | marked m hq hu =>
      rw [fill, fill]
      exact alike_fillHole h scope hargs hu hp
    | markedSpelled m hq hu => exact absurd hq (hplain _ List.mem_cons_self)
  case unquotedInside | quasiquoted | quoted =>
    intro d pos t' ih t ht hplain
    have hp := Term.place_eq_of_seen ht
    cases Term.like_of_seen ht with
    | marked m hq hu =>
      rw [fill, fill]
      refine .bind (ih _ hu fun u hu => hplain u (List.mem_cons_of_mem _ hu)) fun u u' hu => .pure ?_
      rw [Term.seen, Term.seen, View.marked_short, View.marked_unspelled _ _ _ _ hq, hu]
      exact congrArg (Term.marked · _ _) hp
    | markedSpelled m hq hu => exact absurd hq (hplain _ List.mem_cons_self)
  case row =>
    intro d pos ts' ih t ht hplain
    have hp := Term.place_eq_of_seen ht
    cases Term.like_of_seen ht with
    | list hts =>
      rw [fill, fill]
      refine .bind (ih _ hts fun u hu => hplain u (List.mem_cons_of_mem _ hu)) fun us us' hus => .pure ?_
      rw [Term.seen, Term.seen, Term.seenAll_eq_map, Term.seenAll_eq_map, hus]
      exact congrArg (Term.list · _) hp
  case format =>
    intro d pos ps' ih t ht hplain
    have hp := Term.place_eq_of_seen ht
    cases Term.like_of_seen ht with
    | format hq hps =>
      rw [fill, fill]
      refine .bind (ih _ hps fun u hu => hplain u (List.mem_cons_of_mem _ hu)) fun us us' hus => .pure ?_
      rw [Term.seen, Term.seen, View.format_short, View.format_unspelled _ _ _ hq, Part.seenAll_eq_map, Part.seenAll_eq_map,
        hus]
      exact congrArg (Term.format · _) hp
    | formatSpelled hq _ => exact absurd hq (hplain _ List.mem_cons_self)
  case atom =>
    intro d t' h₁ h₂ h₃ h₄ h₅ h₆ t ht hplain
    -- What is alike to an atom is an atom.
    have hfill : fill r args scope d t = pure t := by
      cases Term.like_of_seen ht with
      | list _ => exact absurd rfl (h₅ _ _)
      | format _ _ => exact absurd rfl (h₆ _ _)
      | formatSpelled _ _ => exact absurd rfl (h₆ _ _)
      | nilSpelled hq => exact absurd hq (hplain _ List.mem_cons_self)
      | markedSpelled m hq _ => exact absurd hq (hplain _ List.mem_cons_self)
      | @marked p q m t u _ _ =>
        cases m with
        | quote => exact absurd rfl (h₄ q u)
        | quasiquote => exact absurd rfl (h₃ q u)
        | unquote =>
          cases d with
          | zero => exact absurd rfl (h₁ q u rfl)
          | succ d => exact absurd rfl (h₂ d q u rfl)
      | _ => cases d <;> rfl
    rw [hfill, fill]
    · exact .pure ht
    all_goals assumption
  case nil =>
    intro d ts hts hplain
    cases hts with
    | nil => exact .pure rfl
  case cons =>
    intro d t' ts' iht ihts ts hts hplain
    rw [Term.nodesAll, List.forall_mem_append] at hplain
    cases hts with
    | cons ht hts =>
      rw [fillAll, fillAll]
      refine .bind (iht _ ht hplain.1) fun u u' hu => .bind (ihts _ hts hplain.2) fun us us' hus => .pure ?_
      rw [List.map_cons, List.map_cons, hu, hus]
  case noParts =>
    intro d ps hps hplain
    cases hps with
    | nil => exact .pure rfl
  case text =>
    intro d text ps' ih ps hps hplain
    cases hps with
    | @cons p _ ps _ hp hps =>
      cases p with
      | code t => cases hp
      | text text' =>
        cases hp
        rw [fillParts, fillParts]
        refine .bind (ih _ hps hplain) fun us us' hus => .pure ?_
        rw [List.map_cons, List.map_cons, hus]
        rfl
  case code =>
    intro d t' ps' iht ihps ps hps hplain
    rw [Part.nodesAll, List.forall_mem_append] at hplain
    cases hps with
    | @cons p _ ps _ hp hps =>
      cases p with
      | text text => cases hp
      | code t =>
        rw [fillParts, fillParts]
        refine .bind (iht _ (Part.code.inj hp) hplain.1) fun u u' hu => .bind (ihps _ hps hplain.2) fun us us' hus => .pure ?_
        rw [List.map_cons, List.map_cons, Part.seen, Part.seen, hu, hus]

end Templates

end Expansion

end Lisplet
