import Lisplet.Proofs.Likeness.Macros
/-!
# Expanding calls whose macros are spelled out

A macro whose template is a quasiquote fills it with the operands of a call. If the quasiquote is seen spelled out, then the
other side evaluates the template in a scope in which the parameters are bound to the data of the operands, and takes what
comes of it for code. This is the same where the template is filled with what its holes evaluate to, and what is filled in
comes back from data (`compares_quasiquote_fill`). Evaluating takes more steps than filling, so a recursion that does it has
to be ahead (`Recursion.Ahead`).

Main statement: alike calls of alike macros expand alike, if expanding does not look at spelled out shorthands
(`compares_expand`).
-/
namespace Lisplet

variable {w : View} {c : Comparison} {r r' : Recursion}

/-! ## Holes -/

theorem Term.holeFree_list {pos : Position} {ts : List Code} :
    HoleFree (.list pos ts) ↔ isHole (.list pos ts) = false ∧ ∀ u ∈ nodesAll ts, u.isHole = false :=
  List.forall_mem_cons

theorem View.holeFree_marked (w : View) {pos : Position} {m : Marker} {t : Code} :
    (w.marked pos m t).HoleFree ↔ Term.HoleFree (.marked pos m t) := by
  cases hq : w.spells pos with
  | true =>
    rw [marked_spelled _ _ _ _ hq]
    cases m <;> simp [Term.HoleFree, Term.nodes, Term.nodesAll, Term.isHole, Marker.word]
  | false =>
    rw [marked_unspelled _ _ _ _ hq]
    cases m <;> simp [Term.HoleFree, Term.nodes, Term.isHole]

theorem Part.nodesAll_operands (pos : Position) (ps : List (Part Value)) :
    (∀ u ∈ Term.nodesAll (ps.map (Part.operand pos)), u.isHole = false) ↔ ∀ u ∈ Part.nodesAll ps, u.isHole = false := by
  induction ps with
  | nil => simp [Term.nodesAll, Part.nodesAll]
  | cons p ps ih =>
    cases p with
    | text s => simpa [operand, Term.nodesAll, Part.nodesAll, Term.nodes, Term.isHole] using ih
    | code t =>
      rw [List.map_cons, Term.nodesAll, Part.nodesAll, List.forall_mem_append, List.forall_mem_append, ih]
      rfl

theorem View.holeFree_format (w : View) {pos : Position} {ps : List (Part Value)} :
    (w.format pos ps).HoleFree ↔ ∀ u ∈ Part.nodesAll ps, u.isHole = false := by
  cases hq : w.spells pos with
  | true =>
    rw [format_spelled _ _ _ hq, Term.holeFree_list, Term.nodesAll, List.forall_mem_append, Part.nodesAll_operands,
      Term.isHole_headed (by decide)]
    simp [Term.nodes, Term.isHole]
  | false =>
    rw [format_unspelled _ _ _ hq]
    simp [Term.HoleFree, Term.nodes, Term.isHole]

mutual

/-- What is seen of a term has no holes if the term has none. -/
theorem Term.holeFree_seen : (t : Code) → ((t.seen w).HoleFree ↔ t.HoleFree)
  | .list pos ts => by
    have ih := Term.holeFree_seenAll ts
    rw [Term.seen, Term.holeFree_list, Term.holeFree_list, ih, Term.seenAll_eq_map, Term.isHole_list_seen _ pos]
  | .marked pos m t => by
    have ih := Term.holeFree_seen t
    rw [Term.seen, w.holeFree_marked]
    simp only [Term.HoleFree, Term.nodes, List.forall_mem_cons] at ih ⊢
    rw [ih]
    cases m <;> simp [Term.isHole]
  | .format pos ps => by
    have ih := Part.holeFree_seenAll ps
    rw [Term.seen, w.holeFree_format, ih]
    simp [Term.HoleFree, Term.nodes, Term.isHole]
  | .nil pos => by cases hq : w.spells pos <;> simp [View.nil, hq, Term.HoleFree, Term.nodes, Term.nodesAll, Term.isHole]
  | .number _ _ | .string _ _ | .symbol _ _ | .boolean _ _ | .embedded _ _ => by simp [Term.HoleFree, Term.nodes, Term.isHole]

theorem Term.holeFree_seenAll : (ts : List Code) →
    ((∀ u ∈ Term.nodesAll (Term.seenAll w ts), u.isHole = false) ↔ ∀ u ∈ Term.nodesAll ts, u.isHole = false)
  | [] => Iff.rfl
  | t :: ts => by
    have ih := Term.holeFree_seen t
    rw [Term.seenAll, Term.nodesAll, Term.nodesAll, List.forall_mem_append, List.forall_mem_append, Term.holeFree_seenAll ts]
    exact and_congr_left fun _ => ih

theorem Part.holeFree_seenAll : (ps : List (Part Value)) →
    ((∀ u ∈ Part.nodesAll (Part.seenAll w ps), u.isHole = false) ↔ ∀ u ∈ Part.nodesAll ps, u.isHole = false)
  | [] => Iff.rfl
  | .text s :: ps => Part.holeFree_seenAll ps
  | .code t :: ps => by
    have ih := Term.holeFree_seen t
    rw [Part.seenAll, Part.seen, Part.nodesAll, Part.nodesAll, List.forall_mem_append, List.forall_mem_append,
      Part.holeFree_seenAll ps]
    exact and_congr_left fun _ => ih

end

theorem Term.HoleFree.of_seen {v w : View} {t t' : Code} (h : t'.HoleFree) (ht : t.seen v = t'.seen w) : t.HoleFree := by
  rwa [← Term.holeFree_seen (w := v), ht, Term.holeFree_seen]

/-! ## Data that comes back -/

mutual

/-- A term that comes back from data is seen as it was. -/
theorem Term.seen_toTerm_of_returns (hplaces : ∀ q q', w.place q = w.place q') (p : Position) :
    (t : Code) → w.Returns t → (t.toValue.toTerm p).seen w = t.seen w
  | .list q ts, h => by
    have ih := Term.seen_toTerms_of_returns hplaces p ts fun u hu => h u (List.mem_cons_of_mem _ hu)
    rw [Term.toValue, Value.toTerm, Term.seen, Term.seen, Term.seenAll_eq_map, Term.seenAll_eq_map, ih, hplaces p q]
  | .marked q m t, h => by
    have ih := Term.seen_toTerm_of_returns hplaces p t fun u hu => h u (List.mem_cons_of_mem _ hu)
    rw [Term.seen, View.marked_spelled _ _ _ _ ((h _ List.mem_cons_self).1 rfl), ← ih]
    simp [Term.toValue, Value.toTerm, Value.toTerms, hplaces p q]
  | .format q ps, h => by
    have ih := Part.seen_toTerms_of_returns hplaces p q ps fun u hu => h u (List.mem_cons_of_mem _ hu)
    rw [Term.seen, View.format_spelled _ _ _ ((h _ List.mem_cons_self).1 rfl), Part.seenAll_eq_map, ← ih]
    simp [Term.toValue, Value.toTerm, Value.toTerms, hplaces p q]
  | .nil q, h => by
    rw [Term.seen, View.nil_spelled _ _ ((h _ List.mem_cons_self).1 rfl)]
    simp [Term.toValue, Value.nil, Value.toTerm, Value.toTerms, hplaces p q]
  | .embedded q v, h => by
    have hv := (h _ List.mem_cons_self).2 q v rfl
    cases v with
    | _ => simp_all [Term.toValue, Value.toTerm, hplaces p q]
  | .number q _, _ | .string q _, _ | .symbol q _, _ | .boolean q _, _ => by
    simp [Term.toValue, Value.toTerm, hplaces p q]

theorem Term.seen_toTerms_of_returns (hplaces : ∀ q q', w.place q = w.place q') (p : Position) :
    (ts : List Code) → (∀ u ∈ Term.nodesAll ts, w.Regains u) →
    (Value.toTerms p (Term.toValues ts)).map (Term.seen w) = ts.map (Term.seen w)
  | [], _ => rfl
  | t :: ts, h => by
    rw [Term.nodesAll, List.forall_mem_append] at h
    rw [Term.toValues, Value.toTerms, List.map_cons, List.map_cons, Term.seen_toTerm_of_returns hplaces p t h.1,
      Term.seen_toTerms_of_returns hplaces p ts h.2]

theorem Part.seen_toTerms_of_returns (hplaces : ∀ q q', w.place q = w.place q') (p q : Position) :
    (ps : List (Part Value)) → (∀ u ∈ Part.nodesAll ps, w.Regains u) →
    (Value.toTerms p (Term.partValues ps)).map (Term.seen w) = (ps.map (Part.seen w)).map (Part.operand (w.place q))
  | [], _ => rfl
  | .text s :: ps, h => by
    rw [Term.partValues, Value.toTerms, List.map_cons, List.map_cons, List.map_cons,
      Part.seen_toTerms_of_returns hplaces p q ps h]
    simp [Value.toTerm, Part.operand, hplaces p q]
  | .code t :: ps, h => by
    rw [Part.nodesAll, List.forall_mem_append] at h
    rw [Term.partValues, Value.toTerms, List.map_cons, List.map_cons, List.map_cons,
      Part.seen_toTerms_of_returns hplaces p q ps h.2, Term.seen_toTerm_of_returns hplaces p t h.1]
    rfl

end

/-! ## Recursions that are ahead -/

/-- A recursion that evaluates a term by one step, or stops early. -/
def Recursion.Steps (r : Recursion) (c : Comparison) : Prop :=
  ∀ t scope s, (∃ r₀, r.evaluate t scope s = Direct.evaluateTerm r₀ t scope s) ∨
    ∃ e m, r.evaluate t scope s = .error e m ∧ c.early e

/-- A recursion that respects another one and goes on to do so when it has taken a number of further steps, unless it stops
before. The long spelling of a shorthand may take more steps than the shorthand. -/
def Recursion.Ahead (c : Comparison) (r' : Recursion) : Nat → Recursion → Prop
  | 0, r => r.Respects c r'
  | k + 1, r => r.Respects c r' ∧
    ((∀ t scope s, ∃ e m, r.evaluate t scope s = .error e m ∧ c.early e) ∨
      ∃ r₀, r.evaluate = Direct.evaluateTerm r₀ ∧ Ahead c r' k r₀)

namespace Recursion.Ahead

theorem respects {k : Nat} (h : Recursion.Ahead c r' k r) : r.Respects c r' := by
  cases k with
  | zero => exact h
  | succ k => exact h.1

theorem steps {k : Nat} (h : Recursion.Ahead c r' (k + 1) r) : r.Steps c := by
  intro t scope s
  rcases h.2 with hstops | ⟨r₀, hr, -⟩
  · exact .inr (hstops t scope s)
  · exact .inl ⟨r₀, by rw [hr]⟩

end Recursion.Ahead

namespace Expansion

/-! ## Templates that are evaluated -/

mutual

/-- A term without holes is filled with nothing. -/
theorem fill_holeFree (r : Recursion) (args : Bindings Code) (scope : Scope) :
    (t : Code) → t.HoleFree → (d : Nat) → fill r args scope d t = pure t
  | .list pos ts, h, d => by
    rw [fill, fillAll_holeFree r args scope ts (fun u hu => h u (List.mem_cons_of_mem _ hu)) d]
    rfl
  | .marked pos .unquote t, h, d => absurd (h _ List.mem_cons_self) (by simp [Term.isHole])
  | .marked pos .quote t, h, d | .marked pos .quasiquote t, h, d => by
    have hinner := fill_holeFree r args scope t fun u hu => h u (List.mem_cons_of_mem _ hu)
    simp [fill, hinner]
  | .format pos ps, h, d => by
    rw [fill, fillParts_holeFree r args scope ps (fun u hu => h u (List.mem_cons_of_mem _ hu)) d]
    rfl
  | .nil _, _, _ | .number _ _, _, _ | .string _ _, _, _ | .symbol _ _, _, _ | .boolean _ _, _, _
  | .embedded _ _, _, _ => by simp [fill]

theorem fillAll_holeFree (r : Recursion) (args : Bindings Code) (scope : Scope) :
    (ts : List Code) → (∀ u ∈ Term.nodesAll ts, u.isHole = false) → (d : Nat) → fillAll r args scope d ts = pure ts
  | [], _, _ => by simp [fillAll]
  | t :: ts, h, d => by
    rw [Term.nodesAll, List.forall_mem_append] at h
    rw [fillAll, fill_holeFree r args scope t h.1 d, fillAll_holeFree r args scope ts h.2 d]
    rfl

theorem fillParts_holeFree (r : Recursion) (args : Bindings Code) (scope : Scope) :
    (ps : List (Part Value)) → (∀ u ∈ Part.nodesAll ps, u.isHole = false) → (d : Nat) →
    fillParts r args scope d ps = pure ps
  | [], _, _ => by simp [fillParts]
  | .text s :: ps, h, d => by
    rw [fillParts, fillParts_holeFree r args scope ps h d]
    rfl
  | .code t :: ps, h, d => by
    rw [Part.nodesAll, List.forall_mem_append] at h
    rw [fillParts, fill_holeFree r args scope t h.1 d, fillParts_holeFree r args scope ps h.2 d]
    rfl

end

section Evaluated

variable {args' : Bindings Code} {scope : Scope}

/-- What it takes for the long spelling of a template to evaluate to what the template is filled with: a recursion that
respects the other one and evaluates by steps, and operands that come back from data. -/
structure Evaluates (c : Comparison) (r : Recursion) (args' : Bindings Code) (r' : Recursion) : Prop where
  placeless : ∀ q q', c.right.place q = c.right.place q'
  respects : r.Respects c r'
  steps : r.Steps c
  returns : ∀ name operand, args'.value? name = some operand → c.right.Returns operand

/-- A hole that a parameter stands in is filled with the operand, and evaluates to the data of the operand. -/
theorem compares_parameter (h : Evaluates c r args' r') {s s' : Store} (hs : s.seen c.left = s'.seen c.right)
    {p : Position} {name : String} {operand : Code}
    (hoperand : args'.value? name = some operand) (hlookup : s'.frames.lookup? scope name = some operand.toValue) :
    Compares c (fun v => (Value.toTerm .nowhere v).seen c.left) (Term.seen c.right)
      (r.evaluate (.symbol p name) scope s) ((pure operand : Eval Code) s') := by
  rcases h.steps (.symbol p name) scope s with ⟨r₀, hv⟩ | ⟨e, m, he, hearly⟩
  · have hfound := Alike.lookup?_seen hs scope name
    rw [hlookup] at hfound
    obtain ⟨v, hv', hseen⟩ := Option.map_eq_some_iff.1 hfound
    rw [hv.trans (Eval.lookup_of_some hv' p)]
    refine .ok ?_ hs
    show (Value.toTerm .nowhere v).seen c.left = operand.seen c.right
    rw [Value.toTerm_of_seen hseen (q := .nowhere) (c.place_eq _),
      Term.seen_toTerm_of_returns h.placeless _ _ (h.returns name operand hoperand)]
  · rw [he]
    exact .early hearly

theorem compares_fillHole (h : Evaluates c r args' r') {t t' : Code} (ht : t.seen c.left = t'.seen c.right)
    (q : Position) {s s' : Store} (hs : s.seen c.left = s'.seen c.right) (hbinds : s'.Binds args' scope) :
    Compares c (fun v => (Value.toTerm .nowhere v).seen c.left) (Term.seen c.right) (r.evaluate t scope s)
      (fillHole r' args' scope q t' s') := by
  unfold fillHole
  cases hoperand : t'.symbol?.bind args'.value? with
  | some operand =>
    obtain ⟨name, hname, hvalue⟩ := Option.bind_eq_some_iff.1 hoperand
    obtain ⟨p, rfl⟩ : ∃ p, t = .symbol p name := by
      rw [← Term.symbol?_of_seen ht] at hname
      cases t <;> cases hname
      exact ⟨_, rfl⟩
    refine compares_parameter h hs hvalue ?_
    rw [Frames.lookup?, Scope.chain, List.findSome?_cons, hbinds name operand hvalue]
  | none =>
    rw [← bind_pure (r.evaluate t scope)]
    exact (h.respects.evaluate scope ht s s' hs).bind fun v v' m m' _ hv hm =>
      .ok (Value.toTerm_of_seen hv (by rw [c.place_eq, h.placeless])) hm

/-- What is the same as a term without holes evaluates as a template to what the term is filled with, itself. -/
theorem compares_holeFree (hplaces : ∀ q q', c.right.place q = c.right.place q') {t t' : Code}
    (ht : t.seen c.left = t'.seen c.right) (hfree : t'.HoleFree)
    (hreturns : c.right.Returns t') {s s' : Store} (hs : s.seen c.left = s'.seen c.right) :
    Compares c (fun v => (Value.toTerm .nowhere v).seen c.left) (Term.seen c.right) (r.quasiquote scope 0 t s)
      (fill r' args' scope 0 t' s') := by
  rw [quasiquote_holeFree r scope t (hfree.of_seen ht), fill_holeFree r' args' scope t' hfree]
  refine .ok ?_ hs
  show (Value.toTerm .nowhere t.toValue).seen c.left = t'.seen c.right
  rw [Value.toTerm_of_seen (Term.toValue_of_seen ht) (q := .nowhere) (c.place_eq _),
    Term.seen_toTerm_of_returns hplaces _ _ hreturns]

mutual

/-- A template whose long spelling is evaluated is filled with what its holes evaluate to. -/
theorem compares_quasiquote_fill (h : Evaluates c r args' r') :
    (t' t : Code) → t.seen c.left = t'.seen c.right → c.right.Returns t' →
    (s s' : Store) → s.seen c.left = s'.seen c.right → Fillable r' args' scope s' t' →
    Compares c (fun v => (Value.toTerm .nowhere v).seen c.left) (Term.seen c.right) (r.quasiquote scope 0 t s)
      (fill r' args' scope 0 t' s')
  | .marked q .unquote u', t, ht, hreturns, s, s', hs, hfill => by
    have hspelled := (hreturns _ List.mem_cons_self).1 rfl
    cases Term.like_of_seen ht with
    | marked _ hq _ => exact absurd hspelled (Bool.eq_false_iff.1 hq)
    | markedSpelled _ _ hu => exact compares_fillHole h hu q hs hfill
  | .marked q .quasiquote u', t, ht, hreturns, s, s', hs, hfill => by
    refine compares_holeFree h.placeless ht ?_ hreturns hs
    exact List.forall_mem_cons.2 ⟨rfl, hfill⟩
  | .marked q .quote u', t, ht, hreturns, s, s', hs, hfill => by
    have hspelled := (hreturns _ List.mem_cons_self).1 rfl
    cases Term.like_of_seen ht with
    | marked _ hq _ => exact absurd hspelled (Bool.eq_false_iff.1 hq)
    | @markedSpelled p p' _ m u _ _ hu =>
      have ih := compares_quasiquote_fill h u' u hu (fun v hv => hreturns v (List.mem_cons_of_mem _ hv)) s s' hs hfill
      rw [quasiquote_quoted, fill]
      refine ih.bind fun v u'' m m' _ hv hm => .ok ?_ hm
      rw [Term.seen, View.marked_spelled _ _ _ _ hspelled, ← hv]
      simp [Recursion.markedValue, Value.toTerm, Value.toTerms, c.place_eq, h.placeless .nowhere q]
  | .list q ts', t, ht, hreturns, s, s', hs, hfill => by
    cases Term.like_of_seen ht with
    | @list p _ ts _ hts =>
      have ih := compares_quasiquoteAll_fill h ts' ts hts (fun v hv => hreturns v (List.mem_cons_of_mem _ hv)) s s' hs hfill.2
      have hhole : Term.isHole (.list p ts) = false := by
        rw [← Term.isHole_list_seen (w := c.left) p, map_eq_of_forall₂ hts, Term.isHole_list_seen p q]
        exact hfill.1
      rw [quasiquote_list r scope hhole, fill]
      refine ih.bind fun vs us m m' _ hvs hm => .ok ?_ hm
      simp [Value.toTerm, c.place_eq, h.placeless .nowhere q, hvs]
  | .format q ps', t, ht, hreturns, s, s', hs, hfill => by
    have hspelled := (hreturns _ List.mem_cons_self).1 rfl
    cases Term.like_of_seen ht with
    | format hq _ => exact absurd hspelled (Bool.eq_false_iff.1 hq)
    | @formatSpelled p p' _ ts _ _ hts =>
      have ih := compares_quasiquoteAll_fillParts h q ps' ts hts (fun v hv => hreturns v (List.mem_cons_of_mem _ hv)) s s' hs hfill
      rw [quasiquote_headed r scope (by decide), fill]
      refine ih.bind fun vs us m m' _ hvs hm => .ok ?_ hm
      rw [Term.seen, View.format_spelled _ _ _ hspelled, Part.seenAll_eq_map, List.map_map]
      simp [Value.toTerm, Value.toTerms, c.place_eq, h.placeless .nowhere q, hvs, Function.comp_def]
  | .nil _, t, ht, hreturns, s, s', hs, _ | .number _ _, t, ht, hreturns, s, s', hs, _
  | .string _ _, t, ht, hreturns, s, s', hs, _ | .symbol _ _, t, ht, hreturns, s, s', hs, _
  | .boolean _ _, t, ht, hreturns, s, s', hs, _ | .embedded _ _, t, ht, hreturns, s, s', hs, _ =>
    compares_holeFree h.placeless ht (by simp [Term.HoleFree, Term.nodes, Term.isHole]) hreturns hs

theorem compares_quasiquoteAll_fill (h : Evaluates c r args' r') :
    (ts' ts : List Code) → Term.LikeAll c.left c.right ts ts' →
    (∀ u ∈ Term.nodesAll ts', c.right.Regains u) → (s s' : Store) → s.seen c.left = s'.seen c.right →
    FillableAll r' args' scope s' ts' →
    Compares c (fun vs => (Value.toTerms .nowhere vs).map (Term.seen c.left)) (List.map (Term.seen c.right))
      (r.quasiquoteAll scope 0 ts s) (fillAll r' args' scope 0 ts' s')
  | [], _, .nil, _, s, s', hs, _ => .ok rfl hs
  | t' :: ts', t :: ts, .cons ht hts, hreturns, s, s', hs, hfill => by
    rw [Term.nodesAll, List.forall_mem_append] at hreturns
    have ih := compares_quasiquote_fill h t' t ht hreturns.1 s s' hs hfill.1
    rw [Recursion.quasiquoteAll, fillAll]
    refine ih.bind fun v u m m' hu hv hm => ?_
    have ihs := compares_quasiquoteAll_fill h ts' ts hts hreturns.2 m m' hm (hfill.2 u m' hu)
    refine ihs.bind fun vs us m m' _ hvs hm => .ok ?_ hm
    rw [Value.toTerms, List.map_cons, List.map_cons, hv, hvs]

theorem compares_quasiquoteAll_fillParts (h : Evaluates c r args' r') (q : Position) :
    (ps' : List (Part Value)) → (ts : List Code) →
    List.Forall₂ (fun t b => t.seen c.left = (Part.seen c.right b).operand (c.right.place q)) ts ps' →
    (∀ u ∈ Part.nodesAll ps', c.right.Regains u) → (s s' : Store) → s.seen c.left = s'.seen c.right →
    FillableParts r' args' scope s' ps' →
    Compares c (fun vs => (Value.toTerms .nowhere vs).map (Term.seen c.left))
      (List.map fun b => (Part.seen c.right b).operand (c.right.place q))
      (r.quasiquoteAll scope 0 ts s) (fillParts r' args' scope 0 ps' s')
  | [], _, .nil, _, s, s', hs, _ => .ok rfl hs
  | .text text :: ps', t :: ts, .cons ht hts, hreturns, s, s', hs, hfill => by
    have ih := compares_quasiquoteAll_fillParts h q ps' ts hts hreturns s s' hs hfill
    obtain ⟨p, rfl⟩ : ∃ p, t = .string p text := by
      cases t <;> simp [Part.operand] at ht
      exact ⟨_, by rw [ht.2]⟩
    have hrow : r.quasiquoteAll scope 0 (.string p text :: ts) =
        (do return .string .made text :: (← r.quasiquoteAll scope 0 ts)) := by
      simp [Recursion.quasiquoteAll, Recursion.quasiquote, Term.toValue]
    rw [hrow, fillParts]
    refine ih.bind fun vs us m m' _ hvs hm => .ok ?_ hm
    rw [Value.toTerms, List.map_cons, List.map_cons, hvs]
    simp [Value.toTerm, Part.operand, c.place_eq, h.placeless .nowhere q]
  | .code t' :: ps', t :: ts, .cons ht hts, hreturns, s, s', hs, hfill => by
    rw [Part.nodesAll, List.forall_mem_append] at hreturns
    have ih := compares_quasiquote_fill h t' t ht hreturns.1 s s' hs hfill.1
    rw [Recursion.quasiquoteAll, fillParts]
    refine ih.bind fun v u m m' hu hv hm => ?_
    have ihs := compares_quasiquoteAll_fillParts h q ps' ts hts hreturns.2 m m' hm (hfill.2 u m' hu)
    refine ihs.bind fun vs us m m' _ hvs hm => .ok ?_ hm
    rw [Value.toTerms, List.map_cons, List.map_cons, hv, hvs]
    rfl

end

end Evaluated

/-! ## Calls -/

theorem alike_bindOperands (scope : Scope) {pairs pairs' : List (String × Code)}
    (h : Bindings.through (Term.seen c.left) pairs = Bindings.through (Term.seen c.right) pairs') :
    Alike c id id (bindOperands scope pairs) (bindOperands scope pairs') := by
  induction pairs generalizing pairs' with
  | nil =>
    obtain rfl : pairs' = [] := List.map_eq_nil_iff.1 h.symm
    exact .pure rfl
  | cons pair pairs ih =>
    obtain ⟨⟨param', operand'⟩, rest', rfl, hpair, hrest⟩ := List.map_eq_cons_iff.1 h.symm
    obtain ⟨param, operand⟩ := pair
    obtain ⟨rfl, ho⟩ := Prod.mk.inj hpair
    exact .bindId (.define scope param' (Term.toValue_of_seen ho.symm)) fun _ => ih hrest.symm

theorem through_operandsByName (pairs : List (String × Code)) :
    (operandsByName pairs).through (Term.seen w) = operandsByName (Bindings.through (Term.seen w) pairs) := by
  have h : ∀ args : Bindings Code, Bindings.through (Term.seen w) (pairs.foldl (fun args pair => args.put pair.1 pair.2) args) =
      (Bindings.through (Term.seen w) pairs).foldl (fun args pair => args.put pair.1 pair.2)
        (args.through (Term.seen w)) := by
    induction pairs with
    | nil => exact fun _ => rfl
    | cons pair pairs ih =>
      intro args
      rw [List.foldl_cons, ih, Bindings.through_put]
      rfl
  exact h []

/-- The long spelling of a quasiquoted body is evaluated, with one more step, to what the body is filled with. -/
theorem compares_spelledTemplate (h : Recursion.Ahead c r' 2 r) (hplaces : ∀ q q', c.right.place q = c.right.place q')
    {t t' : Code} (ht : t.seen c.left = t'.seen c.right) (hreturns : c.right.Returns t') {args' : Bindings Code}
    (hargs : ∀ name operand, args'.value? name = some operand → c.right.Returns operand) {p p' q : Position} {inner : Scope}
    {s s' : Store} (hs : s.seen c.left = s'.seen c.right) (hfill : Fillable r' args' inner s' t') :
    Compares c (Term.seen c.left) (Term.seen c.right)
      ((do return (← r.evaluate (.list p [.symbol p' Marker.quasiquote.word, t]) inner).toTerm q : Eval Code) s)
      (fill r' args' inner 0 t' s') := by
  rcases h.2 with hstops | ⟨r₀, hr, h₀⟩
  · obtain ⟨e, m, he, hearly⟩ := hstops (.list p [.symbol p' Marker.quasiquote.word, t]) inner s
    rw [EStateM.bind_of_error he]
    exact .early hearly
  · have hquasiquote : r.evaluate (.list p [.symbol p' Marker.quasiquote.word, t]) inner = r₀.quasiquote inner 0 t := by
      rw [hr]
      rfl
    have hfilled := compares_quasiquote_fill ⟨hplaces, h₀.respects, h₀.steps, hargs⟩ t' t ht hreturns s s' hs hfill
    rw [hquasiquote, ← bind_pure (fill r' args' inner 0 t')]
    refine hfilled.bind fun v u m m' _ hv hm => .ok ?_ hm
    rw [← hv, Value.toTerm_seen, Value.toTerm_seen, c.place_eq, c.place_eq, hplaces]

/-- Alike calls of alike template macros have alike expansions, if the macro does not look at spelled out shorthands. -/
theorem compares_expandTemplate (h : r.Respects c r') (hahead : ∀ p, c.right.spells p = true → Recursion.Ahead c r' 2 r)
    (params : List String) {body body' : Code} (hbody : body.seen c.left = body'.seen c.right) (scope : Scope)
    {operands operands' : List Code} (ho : operands.map (Term.seen c.left) = operands'.map (Term.seen c.right))
    {s s' : Store} (hs : s.seen c.left = s'.seen c.right)
    (hlook : c.right.OverlooksTemplate r' params body' scope operands' s') :
    Compares c (Term.seen c.left) (Term.seen c.right) (expandTemplate r params body scope operands s)
      (expandTemplate r' params body' scope operands' s') := by
  have hlength : operands.length = operands'.length := by simpa using congrArg List.length ho
  have hpairs : Bindings.through (Term.seen c.left) (params.zip operands) =
      Bindings.through (Term.seen c.right) (params.zip operands') := by rw [Bindings.through_zip, Bindings.through_zip, ho]
  have hargs : (operandsByName (params.zip operands)).through (Term.seen c.left) =
      (operandsByName (params.zip operands')).through (Term.seen c.right) := by
    rw [through_operandsByName, through_operandsByName, hpairs]
  -- Both sides bind the operands, and only then look at the body: it is filled, evaluated spelled out, or just evaluated.
  unfold expandTemplate
  rw [hlength]
  split
  · refine (Alike.childScope scope s s' hs).bind fun inner inner' m m' hinner heq hm => ?_
    obtain rfl : inner = inner' := heq
    refine (alike_bindOperands inner hpairs m m' hm).bind fun _ _ k k' hbound _ hk => ?_
    have hevaluated : Alike c (Term.seen c.left) (Term.seen c.right)
        (do return (← r.evaluate body inner).toTerm body.position)
        (do return (← r'.evaluate body' inner).toTerm body'.position) :=
      .bind (h.evaluate inner hbody) fun v v' hv => .pure (Value.toTerm_of_seen hv (Term.place_eq_of_seen hbody))
    cases Term.like_of_seen hbody with
    | marked mark hq ht =>
      cases mark with
      | quasiquote => exact alike_fill h inner hargs 0 ht (hlook.2 hq) k k' hk
      | _ => exact hevaluated k k' hk
    | markedSpelled mark hq ht =>
      cases mark with
      | quasiquote =>
        obtain ⟨hreturns, hoperands, hfill⟩ := hlook.1 hq
        refine compares_spelledTemplate (hahead _ hq) (c.placeless hq) ht hreturns (fun name operand hoperand => ?_) hk
          (hfill inner m' k' hinner hbound)
        exact hoperands operand (List.of_mem_zip (mem_of_value?_operandsByName hoperand)).2
      | _ => exact hevaluated k k' hk
    | _ => exact hevaluated k k' hk
  · exact .error rfl hs

/-- Alike calls of alike macros have alike expansions, if the macro does not look at spelled out shorthands. -/
theorem compares_expand (h : r.Respects c r') (hahead : ∀ p, c.right.spells p = true → Recursion.Ahead c r' 2 r) (name : String)
    {t t' : Transformer Value} (ht : t.seen c.left = t'.seen c.right) {operands operands' : List Code}
    (ho : operands.map (Term.seen c.left) = operands'.map (Term.seen c.right)) {s s' : Store}
    (hs : s.seen c.left = s'.seen c.right) (hlook : c.right.OverlooksMacro r' name t' operands' s') :
    Compares c (Term.seen c.left) (Term.seen c.right) (expand r name t operands s) (expand r' name t' operands' s') := by
  cases t with
  | template params body scope =>
    cases t' with
    | template params' body' scope' =>
      simp only [Transformer.seen, Transformer.template.injEq] at ht
      obtain ⟨rfl, hbody, rfl⟩ := ht
      exact compares_expandTemplate h hahead params hbody scope ho hs hlook
    | rule pattern' template' => simp at ht
  | rule pattern template =>
    cases t' with
    | template params' body' scope' => simp at ht
    | rule pattern' template' =>
      simp only [Transformer.seen, Transformer.rule.injEq, Term.seenAll_eq_map] at ht
      exact Alike.ofExcept (alike_expandRule name ht.1 ht.2 ho hlook) s s' hs

end Expansion

end Lisplet
