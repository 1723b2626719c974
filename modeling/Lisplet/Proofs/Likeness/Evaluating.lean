import Lisplet.Proofs.Evaluation.Direct
import Lisplet.Proofs.Likeness.Operations
/-!
# Evaluation of alike terms

Each form of the language is alike on alike operands if it does not look at spelled out shorthands, when what it calls back
is. So one step of evaluation is (`compares_evaluateTerm`). In one view, in which nothing is spelled out, evaluation is alike
for every number of steps allowed (`respects_evaluate`): terms that are equal up to places, in stores that are, have the same
outcome up to places, and neither places nor the trace make a difference to anything else.
-/
namespace Lisplet

variable {w : View} {c : Comparison} {r r' : Recursion}

/-! ## Faults -/

/-- The text of a term is a detail, and is the same where details count. -/
theorem Term.source_of_seen (hd : c.detailed = true) {t t' : Code} (h : t.seen c.left = t'.seen c.right) :
    t.source = t'.source := by
  have := c.exact hd
  rw [← source_seen (w := c.left), h, source_seen]

/-- A fault that reports a term says how it is written in its detail, which counts only if nothing is spelled out. -/
theorem Comparison.told_wrongTerm (code : ErrorCode) {t t' : Code} (h : t.seen c.left = t'.seen c.right) :
    c.told ((Fault.wrongTerm code t).seen c.left) = c.told ((Fault.wrongTerm code t').seen c.right) := by
  refine c.told_eq (fun hd => ?_) ?_
  · rw [Fault.wrongTerm, Fault.wrongTerm, Term.source_of_seen hd h]
    rfl
  · simp [Fault.wrongTerm, Fault.seen, Term.place_eq_of_seen h]

theorem Comparison.told_signature (expected : String) {t t' : Code} (h : t.seen c.left = t'.seen c.right) :
    c.told ((Fault.signature expected t.source).seen c.left) = c.told ((Fault.signature expected t'.source).seen c.right) := by
  refine c.told_eq (fun hd => ?_) rfl
  rw [Term.source_of_seen hd h]
  rfl

theorem Fault.notCallable_of_seen {v w : View} {a b : Value} (h : a.seen v = b.seen w) {p q : Option Position}
    (hp : p.map v.place = q.map w.place) : (Fault.notCallable a p).seen v = (Fault.notCallable b q).seen w := by
  simp [Fault.notCallable, Fault.seen, hp, Value.eq_of_seen Value.repr (fun _ _ => Value.repr_seen _) h]

/-- The error value that is made of a fault is seen as the fault is. -/
theorem Fault.toValue_seen (f : Fault) (stamp : Stamp) : (f.seen w).toValue stamp = (f.toValue stamp).seen w := by
  simp [Fault.toValue, Fault.seen]

/-! ## Shapes of operands -/

section Shapes

variable {ts ts' : List Code} (hts : Term.LikeAll c.left c.right ts ts')
include hts

theorem Term.isEmpty_of_likeAll : ts.isEmpty = ts'.isEmpty := by cases hts <;> rfl

namespace Recursion

/-- Parameters are symbols, or the first that is none is reported at its place. -/
theorem results_paramNames : c.Results id id (paramNames ts) (paramNames ts') := by
  induction hts with
  | nil => exact .ok rfl
  | cons ht _ ih =>
    have hp := Term.place_eq_of_seen ht
    cases Term.like_of_seen ht with
    | symbol name =>
      rw [paramNames, paramNames]
      split
      · exact .error (congrArg c.told (by simpa [Fault.reservedAt, Fault.seen, Term.position] using hp))
      · exact .bind ih fun names names' hnames => .ok (congrArg (name :: ·) hnames)
    | _ => exact .error (c.told_wrongTerm .paramNotSymbol ht)

theorem results_macroParams : c.Results id id (macroParams ts) (macroParams ts') := by
  induction hts with
  | nil => exact .ok rfl
  | cons ht _ ih =>
    cases Term.like_of_seen ht with
    | symbol name => exact .bind ih fun names names' hnames => .ok (congrArg (name :: ·) hnames)
    | _ => exact .error (c.told_wrongTerm .paramNotSymbol ht)

omit hts in
theorem single_of_length {ts : List Code} (h : ts.length ≠ 1) : single ts = .error (.arity "1" ts.length) := by
  unfold single
  split <;> simp_all

/-- The number of operands is the same on both sides. -/
theorem results_single : c.Results (Term.seen c.left) (Term.seen c.right) (single ts) (single ts') := by
  have hlength := hts.length_eq
  rcases hts with _ | ⟨ht, _ | ⟨_, _⟩⟩
  · exact .error rfl
  · exact .ok ht
  · simp only [single, hlength]
    exact .error rfl

omit hts in
/-- Binding lists are alike, or both are none. -/
theorem bindingList?_of_seen {t t' : Code} (ht : t.seen c.left = t'.seen c.right)
    (hlook : bindingList? t' = none → ¬ c.right.Spells t') :
    (bindingList? t = none ∧ bindingList? t' = none) ∨
      ∃ elements elements', bindingList? t = some elements ∧ bindingList? t' = some elements' ∧
        Term.LikeAll c.left c.right elements elements' := by
  cases Term.like_of_seen ht with
  | list helements => exact .inr ⟨_, _, rfl, rfl, helements⟩
  | nil _ => exact .inr ⟨_, _, rfl, rfl, .nil⟩
  | nilSpelled _ => exact .inr ⟨_, _, rfl, rfl, .nil⟩
  | markedSpelled _ hq _ | formatSpelled hq _ => exact absurd hq (hlook rfl)
  | _ => exact .inl ⟨rfl, rfl⟩

/-- Bindings are taken apart alike, if none of them is a shorthand that is spelled out. -/
theorem results_bindingPairs (hlook : ∀ u ∈ ts', ¬ c.right.Spells u) :
    c.Results (Bindings.through (Term.seen c.left)) (Bindings.through (Term.seen c.right)) (bindingPairs ts)
      (bindingPairs ts') := by
  induction hts with
  | nil => exact .ok rfl
  | cons ht _ ih =>
    have hp := Term.place_eq_of_seen ht
    obtain ⟨hfirst, hrest⟩ := List.forall_mem_cons.1 hlook
    have hshape (code : ErrorCode) {p q : Position} (h : c.left.place p = c.right.place q) :
        c.told ((Fault.shape code (some p)).seen c.left) = c.told ((Fault.shape code (some q)).seen c.right) :=
      congrArg c.told (by simpa [Fault.shape, Fault.seen] using h)
    cases Term.like_of_seen ht with
    | list helements =>
      rcases helements with _ | ⟨hname, _ | ⟨hterm, _ | ⟨_, _⟩⟩⟩
      · exact .error (hshape _ hp)
      · cases Term.like_of_seen hname <;> exact .error (hshape _ hp)
      · cases Term.like_of_seen hname with
        | symbol name =>
          refine .bind (ih hrest) fun pairs pairs' hpairs => .ok ?_
          simpa [Bindings.through, hterm] using hpairs
        | _ => exact .error (c.told_wrongTerm .bindingNotSymbol hname)
      · cases Term.like_of_seen hname <;> exact .error (hshape _ hp)
    | nilSpelled hq | markedSpelled _ hq _ | formatSpelled hq _ => exact absurd hq hfirst
    | _ => exact .error (hshape _ hp)

/-- The parts of a macro's definition as they are seen. -/
def seenSignature (w : View) : String × List Code × Code → String × List Code × Code
  | (name, params, body) => (name, params.map (Term.seen w), body.seen w)

omit hts in
theorem macroSignature_of_length {ts : List Code} (h : ts.length ≠ 2) :
    macroSignature ts = .error (.shape .defineShape none) := by
  unfold macroSignature
  split <;> simp_all

/-- The call pattern of a macro is taken apart alike, unless it is a shorthand that is spelled out. -/
theorem results_macroSignature (hlook : ∀ t body, ts' = [t, body] → ¬ c.right.Spells t) :
    c.Results (seenSignature c.left) (seenSignature c.right) (macroSignature ts) (macroSignature ts') := by
  by_cases hlength : ts'.length = 2
  · obtain ⟨t', body', rfl⟩ := List.length_eq_two.1 hlength
    rcases hts with _ | ⟨ht, _ | ⟨hbody, ⟨⟩⟩⟩
    have hp := Term.place_eq_of_seen ht
    have hshape : c.told ((Fault.shape .defineShape (some _)).seen c.left) =
        c.told ((Fault.shape .defineShape (some _)).seen c.right) :=
      congrArg c.told (by simpa [Fault.shape, Fault.seen] using hp)
    cases Term.like_of_seen ht with
    | list hpattern =>
      rcases hpattern with _ | ⟨hhead, hparams⟩
      · exact .error hshape
      · cases Term.like_of_seen hhead with
        | symbol name => exact .ok (by rw [seenSignature, seenSignature, map_eq_of_forall₂ hparams, hbody])
        | _ => exact .error (c.told_wrongTerm .defineTargetNotSymbol hhead)
    | nilSpelled hq | markedSpelled _ hq _ | formatSpelled hq _ => exact absurd hq (hlook _ _ rfl)
    | _ => exact .error hshape
  · rw [macroSignature_of_length hlength, macroSignature_of_length (hts.length_eq ▸ hlength)]
    exact .error rfl

end Recursion

end Shapes

/-! ## Definitions -/

/-- Closures are alike if their parameters are the same and their bodies are seen as the same. -/
theorem alike_makeClosure (name : Option String) {params params' body body' : List Code}
    (hp : Term.LikeAll c.left c.right params params') (hb : Term.LikeAll c.left c.right body body') (scope : Scope) :
    Alike c (Value.seen c.left) (Value.seen c.right) (Recursion.makeClosure name params body scope)
      (Recursion.makeClosure name params' body' scope) := by
  refine .bindId (.ofExcept (Recursion.results_paramNames hp)) fun names => .bindId .freshStamp fun stamp => .pure ?_
  simp [map_eq_of_forall₂ hb]

/-- A parameter list is a list on both sides, unless it is a shorthand that is spelled out. -/
theorem alike_lambdaForm (scope : Scope) {operands operands' : List Code}
    (ho : Term.LikeAll c.left c.right operands operands') (hlook : ∀ t ∈ operands'.head?, ¬ c.right.Spells t) :
    Alike c (Value.seen c.left) (Value.seen c.right) (Direct.lambdaForm scope operands) (Direct.lambdaForm scope operands') := by
  rcases ho with _ | ⟨ht, hbody⟩
  · exact .fault rfl
  · cases Term.like_of_seen ht with
    | list hparams =>
      rw [Direct.lambdaForm, Direct.lambdaForm, Term.isEmpty_of_likeAll hbody]
      exact .ite (.fault rfl) (alike_makeClosure none hparams hbody scope)
    | nilSpelled hq | markedSpelled _ hq _ | formatSpelled hq _ => exact absurd hq (hlook _ rfl)
    | _ => exact .fault rfl

theorem alike_named (name : String) {v v' : Value} (h : v.seen c.left = v'.seen c.right) :
    Alike c (Value.seen c.left) (Value.seen c.right) (Recursion.named name v) (Recursion.named name v') := by
  cases Value.like_of_seen h with
  | @closure stamp k k' hk =>
    obtain ⟨own, params, body, scope⟩ := k
    obtain ⟨own', params', body', scope'⟩ := k'
    simp only [Closure.seen, Closure.mk.injEq] at hk
    obtain ⟨rfl, rfl, hb, rfl⟩ := hk
    cases own with
    | none =>
      refine .bindId .freshStamp fun stamp => .pure ?_
      rw [Value.seen, Value.seen, Closure.seen, Closure.seen, hb]
    | some own => exact .pure h
  | _ => exact .pure h

section Forms

variable (scope : Scope)

theorem alike_shape {α β γ : Type} {g : α → γ} {g' : β → γ} (code : ErrorCode) {p q : Position}
    (h : c.left.place p = c.right.place q) :
    Alike c g g' (Eval.fault (.shape code (some p)) : Eval α) (Eval.fault (.shape code (some q)) : Eval β) :=
  .fault (by simpa [Fault.shape, Fault.seen] using h)

theorem alike_strayUnquote {α β γ : Type} {g : α → γ} {g' : β → γ} {p q : Position} (hp : c.left.place p = c.right.place q) :
    Alike c g g' (Eval.fault (.strayUnquote p) : Eval α) (Eval.fault (.strayUnquote q) : Eval β) :=
  .fault (by simpa [Fault.strayUnquote, Fault.seen] using hp)

theorem alike_arity {α β γ : Type} {g : α → γ} {g' : β → γ} (expected : String) {n m : Nat} (h : n = m) :
    Alike c g g' (Eval.fault (.arity expected n) : Eval α) (Eval.fault (.arity expected m) : Eval β) := by
  rw [h]
  exact .fault rfl

theorem alike_defineProcedure {p q : Position} (hp : c.left.place p = c.right.place q)
    {pattern pattern' body body' : List Code} (ht : Term.LikeAll c.left c.right pattern pattern')
    (hb : Term.LikeAll c.left c.right body body') :
    Alike c (Value.seen c.left) (Value.seen c.right) (Direct.defineProcedure scope p pattern body)
      (Direct.defineProcedure scope q pattern' body') := by
  rcases ht with _ | ⟨hhead, hparams⟩
  · exact alike_shape _ hp
  · simp only [Direct.defineProcedure, Term.isEmpty_of_likeAll hb]
    refine .ite (alike_shape _ hp) ?_
    cases Term.like_of_seen hhead with
    | symbol name =>
      refine .bind (alike_makeClosure (some name) hparams hb scope) fun v v' hv => ?_
      refine .bindId (.define scope name hv) fun _ => .bindId (.trace fun _ => ?_) fun _ => .pure rfl
      rw [hparams.length_eq]
    | _ => exact .told (c.told_wrongTerm .defineTargetNotSymbol hhead)

theorem alike_defineBuiltins (bs : List Builtin) :
    Alike c id id (Recursion.defineBuiltins scope bs) (Recursion.defineBuiltins scope bs) := by
  induction bs with
  | nil => exact .pure rfl
  | cons b bs ih => exact .bindId (.define scope b.name rfl) fun _ => ih

theorem alike_registerStruct (name : String) (fields : List String) :
    Alike c id id (Recursion.registerStruct name fields) (Recursion.registerStruct name fields) := by
  intro s s' hs
  have hr : s.registry = s'.registry := Store.eq_of_seen Store.registry hs fun _ _ => rfl
  unfold Recursion.registerStruct
  rw [hr]
  cases s'.registry.register name fields with
  | none => exact .error rfl hs
  | some found => exact .ok rfl (congrArg (fun t : Store => { t with registry := found.2 }) hs)

theorem mapM_symbol?_of_likeAll {ts ts' : List Code} (hts : Term.LikeAll c.left c.right ts ts') :
    ts.mapM Term.symbol? = ts'.mapM Term.symbol? := by
  induction hts with
  | nil => rfl
  | cons ht _ ih => rw [List.mapM_cons, List.mapM_cons, Term.symbol?_of_seen ht, ih]

/-- The fields of a struct are symbols, which are the same in every view. -/
theorem alike_structForm {operands operands' : List Code} (ho : Term.LikeAll c.left c.right operands operands')
    (hlook : ∀ p name t, operands' = [.symbol p name, t] → ¬ c.right.Spells t) :
    Alike c (Value.seen c.left) (Value.seen c.right) (Direct.structForm scope operands) (Direct.structForm scope operands') := by
  rcases ho with _ | ⟨ht, _ | ⟨hu, _ | ⟨_, _⟩⟩⟩
  · exact .fault rfl
  · cases Term.like_of_seen ht <;> exact .fault rfl
  · cases Term.like_of_seen ht with
    | symbol name =>
      cases Term.like_of_seen hu with
      | list helements =>
        simp only [Direct.structForm, mapM_symbol?_of_likeAll helements]
        split
        · exact .fault rfl
        · refine .bindId (alike_registerStruct name _) fun type => ?_
          refine .bindId (.define scope name rfl) fun _ => .bindId (alike_defineBuiltins scope _) fun _ => ?_
          exact .bindId (.trace fun _ => rfl) fun _ => .pure rfl
      | nilSpelled hq | markedSpelled _ hq _ | formatSpelled hq _ => exact absurd hq (hlook _ _ _ rfl)
      | _ => exact .fault rfl
    | _ => exact .fault rfl
  · cases Term.like_of_seen ht with
    | symbol name => cases Term.like_of_seen hu <;> exact .fault rfl
    | _ => exact .fault rfl

theorem alike_templateForm {operands operands' : List Code} (ho : Term.LikeAll c.left c.right operands operands')
    (hlook : ∀ t body, operands' = [t, body] → ¬ c.right.Spells t) :
    Alike c (Value.seen c.left) (Value.seen c.right) (Direct.templateForm scope operands)
      (Direct.templateForm scope operands') := by
  refine .bind (.ofExcept (Recursion.results_macroSignature ho hlook)) fun x x' hx => ?_
  obtain ⟨name, params, body⟩ := x
  obtain ⟨name', params', body'⟩ := x'
  simp only [Recursion.seenSignature, Prod.mk.injEq] at hx
  obtain ⟨rfl, hp, hb⟩ := hx
  refine .bindId (.ofExcept (Recursion.results_macroParams (Term.likeAll_of_map hp))) fun names => .bindId .freshStamp
    fun stamp => .bindId (.define scope name ?_) fun _ => .bindId (.trace fun _ => rfl) fun _ => .pure rfl
  rw [Value.seen, Value.seen, Transformer.seen, Transformer.seen, hb]

theorem alike_ruleForm {operands operands' : List Code} (ho : Term.LikeAll c.left c.right operands operands')
    (hlook : ∀ t body, operands' = [t, body] → ¬ c.right.Spells t) :
    Alike c (Value.seen c.left) (Value.seen c.right) (Direct.ruleForm scope operands) (Direct.ruleForm scope operands') := by
  refine .bind (.ofExcept (Recursion.results_macroSignature ho hlook)) fun x x' hx => ?_
  obtain ⟨name, params, body⟩ := x
  obtain ⟨name', params', body'⟩ := x'
  simp only [Recursion.seenSignature, Prod.mk.injEq] at hx
  obtain ⟨rfl, hp, hb⟩ := hx
  refine .bindId .freshStamp fun stamp => .bindId (.define scope name ?_) fun _ => .bindId (.trace fun _ => rfl) fun _ =>
    .pure rfl
  simp [hp, hb]

variable (h : r.Respects c r')
include h

/-- A target is a symbol or a list on both sides, unless it is a shorthand that is spelled out. -/
theorem alike_defineForm {operands operands' : List Code} (ho : Term.LikeAll c.left c.right operands operands')
    (hlook : ∀ t ∈ operands'.head?, ¬ c.right.Spells t) :
    Alike c (Value.seen c.left) (Value.seen c.right) (Direct.defineForm r scope operands)
      (Direct.defineForm r' scope operands') := by
  rcases ho with _ | ⟨ht, hrest⟩
  · exact .fault rfl
  · have hp := Term.place_eq_of_seen ht
    cases Term.like_of_seen ht with
    | list hpattern => exact alike_defineProcedure scope hp hpattern hrest
    | symbol name =>
      rcases hrest with _ | ⟨hterm, _ | ⟨_, _⟩⟩
      · exact alike_shape _ hp
      · refine .bind (h.evaluate scope hterm) fun u u' hu => .bind (alike_named name hu) fun v v' hv => ?_
        exact .bindId (.define scope name hv) fun _ => .bindId (.trace fun _ => rfl) fun _ => .pure rfl
      · exact alike_shape _ hp
    | nilSpelled hq | markedSpelled _ hq _ | formatSpelled hq _ => exact absurd hq (hlook _ rfl)
    | _ => exact .told (c.told_wrongTerm .defineTargetNotSymbol ht)

theorem alike_assignForm {operands operands' : List Code} (ho : Term.LikeAll c.left c.right operands operands') :
    Alike c (Value.seen c.left) (Value.seen c.right) (Direct.assignForm r scope operands)
      (Direct.assignForm r' scope operands') := by
  have hlength := ho.length_eq
  rcases ho with _ | ⟨ht, _ | ⟨hterm, _ | ⟨_, _⟩⟩⟩
  · exact .fault rfl
  · cases Term.like_of_seen ht <;> exact .fault rfl
  · have hp := Term.place_eq_of_seen ht
    cases Term.like_of_seen ht with
    | symbol name =>
      refine .ite (.fault (by simpa [Fault.reservedAt, Fault.seen, Term.position] using hp)) ?_
      exact .bind (h.evaluate scope hterm) fun v v' hv => .bindId (.assign scope name hv) fun _ => .pure rfl
    | _ => exact .told (c.told_signature "symbol" ht)
  · cases Term.like_of_seen ht <;> exact alike_arity "2" hlength

/-! ## Choices and sequences -/

/-- Clauses are gone through alike as far as no spelled out shorthand is come to. -/
theorem compares_condForm {clauses clauses' : List Code} (hc : Term.LikeAll c.left c.right clauses clauses') {s s' : Store}
    (hs : s.seen c.left = s'.seen c.right) (hlook : c.right.OverlooksClauses r' scope s' clauses') :
    Compares c (Value.seen c.left) (Value.seen c.right) (Direct.condForm r scope clauses s)
      (Direct.condForm r' scope clauses' s') := by
  induction hc generalizing s s' with
  | nil => exact .ok rfl hs
  | cons ht _ ih =>
    have hp := Term.place_eq_of_seen ht
    cases Term.like_of_seen ht with
    | list helements =>
      have hlength := helements.length_eq
      rcases helements with _ | ⟨hcondition, _ | ⟨hconsequent, _ | ⟨_, _⟩⟩⟩
      · exact Alike.fault (by simpa [Fault.seen, Term.position] using hp) s s' hs
      · exact Alike.fault (by simpa [Fault.seen, Term.position] using hp) s s' hs
      · simp only [Direct.condForm, Term.isSymbol_of_seen "else" hcondition]
        split
        · exact h.evaluate scope hconsequent s s' hs
        · next helse =>
          refine (h.evaluate scope hcondition s s' hs).bind fun v v' m m' hv' hv hm => ?_
          -- Conditions that are seen as the same take the same way.
          cases Value.like_of_seen hv with
          | boolean b =>
            cases b with
            | true => exact h.evaluate scope hconsequent m m' hm
            | false => exact ih hm (hlook (Bool.eq_false_iff.2 helse) m' hv')
          | _ =>
            exact Alike.fault (by simpa [Fault.seen, Value.typeName] using Term.place_eq_of_seen hcondition) m m' hm
      · rw [Direct.condForm, Direct.condForm, hlength]
        · exact Alike.fault (by simpa [Fault.seen, Term.position] using hp) s s' hs
        all_goals simp
    | nilSpelled hq | markedSpelled _ hq _ | formatSpelled hq _ => exact absurd hq hlook
    | _ => exact alike_shape _ hp s s' hs

theorem alike_branchForm {operands operands' : List Code} (ho : Term.LikeAll c.left c.right operands operands') :
    Alike c (Value.seen c.left) (Value.seen c.right) (Direct.branchForm r scope operands)
      (Direct.branchForm r' scope operands') := by
  have hlength := ho.length_eq
  rcases ho with _ | ⟨hcondition, _ | ⟨hconsequent, _ | ⟨halternative, _ | ⟨_, _⟩⟩⟩⟩
  · exact .fault rfl
  · exact .fault rfl
  · exact .fault rfl
  · refine .bind (h.evaluate scope hcondition) fun v v' hv => ?_
    cases Value.like_of_seen hv with
    | boolean b =>
      cases b with
      | true => exact h.evaluate scope hconsequent
      | false => exact h.evaluate scope halternative
    | _ => exact .fault rfl
  · exact alike_arity "3" hlength

theorem alike_evaluateBody {body body' : List Code} (hb : Term.LikeAll c.left c.right body body') :
    Alike c (Value.seen c.left) (Value.seen c.right) (Direct.evaluateBody r scope body) (Direct.evaluateBody r' scope body') :=
  .bind (alike_evaluateLeading h scope hb) fun _ _ ht => h.evaluate scope ht

/-- The bindings of a `let` are made in a scope of its own on both sides. -/
theorem alike_letForm {operands operands' : List Code} (ho : Term.LikeAll c.left c.right operands operands')
    (hlook : ∀ t ∈ operands'.head?, (Recursion.bindingList? t = none → ¬ c.right.Spells t) ∧
      ∀ elements ∈ Recursion.bindingList? t, ∀ u ∈ elements, ¬ c.right.Spells u) :
    Alike c (Value.seen c.left) (Value.seen c.right) (Direct.letForm r scope operands)
      (Direct.letForm r' scope operands') := by
  rcases ho with _ | ⟨ht, hbody⟩
  · exact .fault rfl
  · obtain ⟨hnone, hsome⟩ := hlook _ rfl
    have hp := Term.place_eq_of_seen ht
    rw [Direct.letForm, Direct.letForm]
    rcases Recursion.bindingList?_of_seen ht hnone with ⟨hl, hl'⟩ | ⟨elements, elements', hl, hl', helements⟩
    · rw [hl, hl']
      exact .fault rfl
    · rw [hl, hl', Term.isEmpty_of_likeAll hbody]
      refine .bind (.ofExcept (Recursion.results_bindingPairs helements (hsome _ hl'))) fun pairs pairs' hpairs => ?_
      refine .ite (alike_shape _ hp) (.bindId (.childScope scope) fun inner => ?_)
      exact .bindId (alike_bindInTurn h inner hpairs) fun _ => alike_evaluateBody inner h hbody

theorem alike_beginForm {body body' : List Code} (hb : Term.LikeAll c.left c.right body body') :
    Alike c (Value.seen c.left) (Value.seen c.right) (Direct.beginForm r scope body) (Direct.beginForm r' scope body') := by
  unfold Direct.beginForm
  rw [Term.isEmpty_of_likeAll hb]
  exact .ite (.pure rfl) (alike_evaluateBody scope h hb)

/-- A quoted term is data, in either spelling; a template is filled at depth zero. -/
theorem alike_markedForm {p q : Position} (hp : c.left.place p = c.right.place q) {operands operands' : List Code}
    (ho : Term.LikeAll c.left c.right operands operands') (m : Marker)
    (hlook : m = .quasiquote → ∀ t, operands' = [t] → c.right.Plain 0 t) :
    Alike c (Value.seen c.left) (Value.seen c.right) (Direct.markedForm r scope p operands m)
      (Direct.markedForm r' scope q operands' m) := by
  cases m with
  | quote => exact .bind (.ofExcept (Recursion.results_single ho)) fun t t' ht => .pure (Term.toValue_of_seen ht)
  | quasiquote =>
    by_cases hlength : operands'.length = 1
    · obtain ⟨t', rfl⟩ := List.length_eq_one_iff.1 hlength
      rcases ho with _ | ⟨ht, ⟨⟩⟩
      exact alike_quasiquote h scope 0 ht (hlook rfl _ rfl)
    · rw [Direct.markedForm, Direct.markedForm, Recursion.single_of_length hlength,
        Recursion.single_of_length (ho.length_eq ▸ hlength), ho.length_eq]
      exact .fault rfl
  | unquote => exact alike_strayUnquote hp

/-! ## Faults and files -/

/-- The error value that a handler gets has no detail of the fault in it. -/
theorem alike_attemptForm {operands operands' : List Code} (ho : Term.LikeAll c.left c.right operands operands') :
    Alike c (Value.seen c.left) (Value.seen c.right) (Direct.attemptForm r scope operands)
      (Direct.attemptForm r' scope operands') := by
  have hlength := ho.length_eq
  rcases ho with _ | ⟨hbody, _ | ⟨hhandler, _ | ⟨_, _⟩⟩⟩
  · exact .fault rfl
  · exact .fault rfl
  · refine .bind (h.evaluate scope hhandler) fun f f' hf => ?_
    rw [Value.eq_of_seen Value.isProcedure (fun _ _ => Value.isProcedure_seen _) hf]
    refine .ite (.catching (h.evaluate scope hbody) fun e e' he => ?_) (.fault ?_)
    · have hm : e.message = e'.message := by
        have hmessage := congrArg Fault.message he
        exact hmessage
      refine .bindId (.trace fun _ => by rw [hm]) fun _ => .bindId .freshStamp fun stamp => h.apply hf ?_
      have hv := congrArg (Fault.toValue · stamp) he
      rw [List.map_singleton, List.map_singleton, ← Fault.toValue_seen, ← Fault.toValue_seen]
      exact congrArg (fun v => [v]) hv
    · exact Fault.notCallable_of_seen hf (congrArg some (Term.place_eq_of_seen hhandler))
  · exact alike_arity "2" hlength

theorem alike_evaluateSource (source : String) :
    Alike c (Value.seen c.left) (Value.seen c.right) (r.evaluateSource scope source) (r'.evaluateSource scope source) :=
  .bind (.ofExcept (.refl (c.unladen_readForms source) fun _ hts => hts)) fun _ _ hts =>
    alike_evaluateForms h scope (Term.likeAll_of_map hts)

omit scope in
theorem alike_importFile (file : String) : Alike c id id (r.importFile file) (r'.importFile file) := by
  refine .bind .get fun s s' hs => ?_
  have hd : s.directory = s'.directory := Store.eq_of_seen Store.directory hs fun _ _ => rfl
  have hi : s.importing = s'.importing := Store.eq_of_seen Store.importing hs fun _ _ => rfl
  rw [hd, hi]
  refine .ite (.trace fun _ => rfl) (.bindId (.readFile _) fun text => .bindId (.trace fun _ => rfl) fun _ => ?_)
  exact .bind (.withImport _ (alike_evaluateSource .global h text)) fun _ _ _ => .pure rfl

theorem alike_importForm {operands operands' : List Code} (ho : Term.LikeAll c.left c.right operands operands') :
    Alike c (Value.seen c.left) (Value.seen c.right) (Direct.importForm r scope operands)
      (Direct.importForm r' scope operands') := by
  refine .bind (.ofExcept (Recursion.results_single ho)) fun t t' ht => .bind (h.evaluate scope ht) fun v v' hv => ?_
  exact .bindId (alike_argument (fun _ _ => Value.asString_seen _) hv (Value.unladen_asString _)) fun file =>
    .bindId (alike_importFile h file) fun _ => .pure rfl

/-- Every special form ends alike on both sides if it does not look at what is spelled out. -/
theorem compares_specialForm {p q : Position} (hp : c.left.place p = c.right.place q) {operands operands' : List Code}
    (ho : Term.LikeAll c.left c.right operands operands') (keyword : Keyword) {s s' : Store}
    (hs : s.seen c.left = s'.seen c.right) (hlook : c.right.OverlooksForm r' scope s' operands' keyword) :
    Compares c (Value.seen c.left) (Value.seen c.right) (Direct.specialForm r scope p operands keyword s)
      (Direct.specialForm r' scope q operands' keyword s') := by
  cases keyword with
  | define => exact alike_defineForm scope h ho hlook s s' hs
  | lambda => exact alike_lambdaForm scope ho hlook s s' hs
  | cond => exact compares_condForm scope h ho hs hlook
  | branch => exact alike_branchForm scope h ho s s' hs
  | letIn => exact alike_letForm scope h ho hlook s s' hs
  | begin => exact alike_beginForm scope h ho s s' hs
  | marked m => exact alike_markedForm scope h hp ho m (fun hm => by subst hm; exact hlook) s s' hs
  | defineStruct => exact alike_structForm scope ho hlook s s' hs
  | defineTemplate => exact alike_templateForm scope ho hlook s s' hs
  | defineRule => exact alike_ruleForm scope ho hlook s s' hs
  | assign => exact alike_assignForm scope h ho s s' hs
  | attempt => exact alike_attemptForm scope h ho s s' hs
  | load => exact alike_importForm scope h ho s s' hs

/-! ## Calls -/

omit h in
theorem alike_bindParams {pairs pairs' : List (String × Value)}
    (hpairs : Bindings.through (Value.seen c.left) pairs = Bindings.through (Value.seen c.right) pairs') :
    Alike c id id (Recursion.bindParams scope pairs) (Recursion.bindParams scope pairs') := by
  induction pairs generalizing pairs' with
  | nil =>
    obtain rfl : pairs' = [] := List.map_eq_nil_iff.1 hpairs.symm
    exact .pure rfl
  | cons pair pairs ih =>
    obtain ⟨⟨name', v'⟩, rest', rfl, hpair, hrest⟩ := List.map_eq_cons_iff.1 hpairs.symm
    obtain ⟨name, v⟩ := pair
    obtain ⟨rfl, hv⟩ := Prod.mk.inj hpair
    exact .bindId (.define scope name' hv.symm) fun _ => ih hrest.symm

variable (hahead : ∀ p, c.right.spells p = true → Recursion.Ahead c r' 2 r)
include hahead

/-- Alike calls are alike, if calling does not look at spelled out shorthands. -/
theorem compares_call {pos pos' : Option Position} (hp : pos.map c.left.place = pos'.map c.right.place) {f f' : Value}
    (hf : f.seen c.left = f'.seen c.right) {args args' : List Value}
    (ha : args.map (Value.seen c.left) = args'.map (Value.seen c.right)) {s s' : Store}
    (hs : s.seen c.left = s'.seen c.right) (hlook : c.right.OverlooksCall r' f' args' scope s') :
    Compares c (Value.seen c.left) (Value.seen c.right) (Direct.call r scope pos f args s)
      (Direct.call r' scope pos' f' args' s') := by
  have hlength : args.length = args'.length := by simpa using congrArg List.length ha
  cases Value.like_of_seen hf with
  | builtin b => exact compares_builtin h hahead b ha scope hs hlook
  | @closure stamp k k' hk =>
    obtain ⟨name, params, body, own⟩ := k
    obtain ⟨name', params', body', own'⟩ := k'
    simp only [Closure.seen, Closure.mk.injEq, Term.seenAll_eq_map] at hk
    obtain ⟨rfl, rfl, hb, rfl⟩ := hk
    have hpairs : Bindings.through (Value.seen c.left) (params.zip args) =
        Bindings.through (Value.seen c.right) (params.zip args') := by
      rw [Bindings.through_zip, Bindings.through_zip, ha]
    simp only [Direct.call, Direct.callClosure, hlength]
    refine Alike.ite (.bindId (.childScope own) fun inner => .bindId (alike_bindParams inner hpairs) fun _ => ?_)
      (.fault rfl) s s' hs
    exact alike_evaluateBody inner h (Term.likeAll_of_map hb)
  | _ => exact Alike.fault (Fault.notCallable_of_seen hf hp) s s' hs

/-! ## One step -/

omit h hahead in
theorem Recursion.expander?_apply (head : Code) (s : Store) :
    Recursion.expander? scope head s = .ok (s.expander? scope head) s := by
  unfold Recursion.expander? Store.expander?
  cases head.symbol? with
  | none => rfl
  | some name =>
    refine (EStateM.bind_of_ok (rfl : Eval.lookup? scope name s = .ok (s.frames.lookup? scope name) s) _).trans ?_
    rw [Option.bind_some]
    cases s.frames.lookup? scope name with
    | none => rfl
    | some v => cases v <;> rfl

omit h hahead in
/-- Heads that are seen as the same are bound to macros that are, or both to none. -/
theorem Store.expander?_of_seen {v w : View} {s s' : Store} (hs : s.seen v = s'.seen w) {head head' : Code}
    (hh : head.seen v = head'.seen w) :
    (s.expander? scope head).map (fun (name, t) => (name, t.seen v)) =
      (s'.expander? scope head').map fun (name, t) => (name, t.seen w) := by
  have hv : (head.symbol?.bind (s.frames.lookup? scope)).map (Value.seen v) =
      (head'.symbol?.bind (s'.frames.lookup? scope)).map (Value.seen w) := by
    rw [Term.symbol?_of_seen hh]
    cases head'.symbol? with
    | none => rfl
    | some name => exact Alike.lookup?_seen hs scope name
  unfold Store.expander?
  revert hv
  cases head.symbol?.bind (s.frames.lookup? scope) with
  | none =>
    cases head'.symbol?.bind (s'.frames.lookup? scope) with
    | none => exact fun _ => rfl
    | some v' => simp
  | some v =>
    cases head'.symbol?.bind (s'.frames.lookup? scope) with
    | none => simp
    | some v' =>
      intro hv
      cases Value.like_of_seen (Option.some.inj hv) with
      | expander stamp own ht => simp [ht]
      | _ => rfl

/-- A list that is a call or a macro call on both sides. -/
theorem compares_callForm {head head' : Code} (hh : head.seen c.left = head'.seen c.right) {operands operands' : List Code}
    (ho : Term.LikeAll c.left c.right operands operands') {p q : Position} (hkeyword : head'.symbol?.bind Keyword.ofName? = none)
    {s s' : Store} (hs : s.seen c.left = s'.seen c.right)
    (hlook : c.right.Overlooks r' scope (.list q (head' :: operands')) s') :
    Compares c (Value.seen c.left) (Value.seen c.right) (Direct.evaluateTerm r (.list p (head :: operands)) scope s)
      (Direct.evaluateTerm r' (.list q (head' :: operands')) scope s') := by
  have hmacro := Store.expander?_of_seen scope hs hh
  simp only [View.Overlooks, hkeyword] at hlook
  simp only [Direct.evaluateTerm, Term.symbol?_of_seen hh, hkeyword]
  rw [EStateM.bind_of_ok (Recursion.expander?_apply scope head s),
    EStateM.bind_of_ok (Recursion.expander?_apply scope head' s')]
  -- The head is a macro on both sides or on neither.
  cases hfound : s.expander? scope head with
  | none =>
    cases hfound' : s'.expander? scope head' with
    | none =>
      rw [hfound'] at hlook
      refine (h.evaluate scope hh s s' hs).bind fun f f' m m' hf' hf hm => ?_
      refine (alike_evaluateAll h scope ho m m' hm).bind fun args args' k k' ha' ha hk => ?_
      refine compares_call scope h hahead ?_ hf ha hk (hlook f' m' args' k' hf' ha')
      exact congrArg some (Term.place_eq_of_seen hh)
    | some found' => simp [hfound, hfound'] at hmacro
  | some found =>
    cases hfound' : s'.expander? scope head' with
    | none => simp [hfound, hfound'] at hmacro
    | some found' =>
      obtain ⟨name, t⟩ := found
      obtain ⟨name', t'⟩ := found'
      rw [hfound, hfound'] at hmacro
      rw [hfound'] at hlook
      obtain ⟨rfl, ht⟩ := Prod.mk.inj (Option.some.inj hmacro)
      refine (Expansion.compares_expand h hahead name ht (map_eq_of_forall₂ ho) hs hlook).bind fun u u' m m' _ hu hm => ?_
      exact Alike.bindId (.trace fun hd => by rw [Term.source_of_seen hd hu]) (fun _ => h.evaluate scope hu) m m' hm

/-- The long spelling of a format string is a call of the procedure that joins its parts. -/
theorem compares_formatSpelled {p p' q : Position} (hq : c.right.spells q = true) {ts : List Code} {ps : List (Part Value)}
    (hts : List.Forall₂ (fun t b => t.seen c.left = (Part.seen c.right b).operand (c.right.place q)) ts ps) {s s' : Store}
    (hs : s.seen c.left = s'.seen c.right)
    (hlook : s'.frames.lookup? scope "string-concat" = some (.builtin .concatenation)) :
    Compares c (Value.seen c.left) (Value.seen c.right)
      (Direct.evaluateTerm r (.list p (.symbol p' "string-concat" :: ts)) scope s)
      (Direct.evaluateTerm r' (.format q ps) scope s') := by
  have hfound : s.frames.lookup? scope "string-concat" = some (.builtin .concatenation) := by
    have hv := Alike.lookup?_seen hs scope "string-concat"
    rw [hlook] at hv
    obtain ⟨v, hv', hseen⟩ := Option.map_eq_some_iff.1 hv
    cases Value.like_of_seen hseen
    exact hv'
  have hplain : s.expander? scope (.symbol p' "string-concat") = none := by
    simp [Store.expander?, Term.symbol?, hfound]
  have hkeyword : (Term.symbol? (.symbol p' "string-concat" : Code)).bind Keyword.ofName? = none := rfl
  simp only [Direct.evaluateTerm, hkeyword]
  rw [EStateM.bind_of_ok (Recursion.expander?_apply scope _ s), hplain]
  -- The long spelling looks its operator up in a step of its own, which may be one too many.
  rcases (hahead q hq).steps (.symbol p' "string-concat") scope s with ⟨r₀, hv⟩ | ⟨e, m, he, hearly⟩
  · have hconcatenation := hv.trans (Eval.lookup_of_some hfound p')
    rw [Recursion.evaluateAtom]
    show Compares c _ _ ((r.evaluate _ scope >>= _) s) _
    rw [EStateM.bind_of_ok hconcatenation]
    refine (alike_evaluateAll_formatParts h scope (hahead q hq).steps q hts s s' hs).bind fun vs texts m m' _ hvs hm => ?_
    obtain rfl : vs.map Value.display = texts := hvs
    exact .ok rfl hm
  · show Compares c _ _ ((r.evaluate _ scope >>= _) s) _
    rw [EStateM.bind_of_error he]
    exact .early hearly

/-- One step of evaluation is alike on alike terms, if it does not look at spelled out shorthands. -/
theorem compares_evaluateTerm {t t' : Code} (ht : t.seen c.left = t'.seen c.right) {s s' : Store}
    (hs : s.seen c.left = s'.seen c.right) (hlook : c.right.Overlooks r' scope t' s') :
    Compares c (Value.seen c.left) (Value.seen c.right) (Direct.evaluateTerm r t scope s)
      (Direct.evaluateTerm r' t' scope s') := by
  have hp := Term.place_eq_of_seen ht
  cases Term.like_of_seen ht with
  | symbol name => exact Alike.lookup scope name hp s s' hs
  | list helements =>
    rcases helements with _ | ⟨hh, ho⟩
    · exact alike_shape _ hp s s' hs
    · next head head' operands operands' =>
      cases hkeyword : head'.symbol?.bind Keyword.ofName? with
      | none => exact compares_callForm scope h hahead hh ho hkeyword hs hlook
      | some keyword =>
        simp only [View.Overlooks, hkeyword] at hlook
        simp only [Direct.evaluateTerm, Term.symbol?_of_seen hh, hkeyword]
        exact compares_specialForm scope h hp ho keyword hs hlook
  | marked m hq hu =>
    cases m with
    | quote => exact .ok (Term.toValue_of_seen hu) hs
    | quasiquote => exact alike_quasiquote h scope 0 hu hlook s s' hs
    | unquote => exact alike_strayUnquote hp s s' hs
  | markedSpelled m hq hu =>
    cases m with
    | quote => exact .ok (Term.toValue_of_seen hu) hs
    | quasiquote => exact alike_quasiquote h scope 0 hu hlook s s' hs
    | unquote => exact alike_strayUnquote hp s s' hs
  | format hq hps =>
    simp only [Direct.evaluateTerm, Recursion.evaluateAtom]
    refine (alike_formatParts h scope hps s s' hs).bind fun texts texts' m m' _ htexts hm => ?_
    obtain rfl : texts = texts' := htexts
    exact .ok rfl hm
  | formatSpelled hq hts => exact compares_formatSpelled scope h hahead hq hts hs (hlook hq)
  | nilSpelled hq =>
    have hunspelled : c.right.spells _ = false := hlook
    rw [hq] at hunspelled
    cases hunspelled
  | _ => exact .ok (Term.toValue_of_seen ht) hs

end Forms

/-! ## One view -/

section Short

variable [w.Short]

/-- A rule expands what is seen to what the expansion is seen as. -/
theorem View.overlooksRule_of_short (name : String) (pattern : List Code) (template : Code) (operands : List Code) :
    w.OverlooksRule name pattern template operands := by
  rw [View.OverlooksRule, Expansion.expandRule_seen]
  cases Expansion.expandRule name pattern template operands with
  | ok t => exact congrArg Except.ok (Term.seen_seen t)
  | error f => exact congrArg (fun f : Fault => Except.error { f with detail := none }) (Fault.seen_of_seen (fun _ => rfl) f)

theorem View.overlooksTemplate_of_short (r : Recursion) (params : List String) (body : Code) (scope : Scope)
    (operands : List Code) (s : Store) : w.OverlooksTemplate r params body scope operands s := by
  unfold OverlooksTemplate
  split
  · exact ⟨fun h => absurd h (by simp [Short.spells_eq]), fun _ u _ => not_spells u⟩
  · trivial

theorem View.overlooksMacro_of_short (r : Recursion) (name : String) (t : Transformer Value) (operands : List Code) (s : Store) :
    w.OverlooksMacro r name t operands s := by
  cases t with
  | rule pattern template => exact overlooksRule_of_short name pattern template operands
  | template params body scope => exact overlooksTemplate_of_short r params body scope operands s

theorem View.overlooksCall_of_short (r : Recursion) (f : Value) (args : List Value) (caller : Scope) (s : Store) :
    w.OverlooksCall r f args caller s := by
  unfold OverlooksCall
  split
  · intro _
    unfold OverlooksExpansion
    split
    · exact fun _ _ _ _ => overlooksMacro_of_short ..
    · trivial
  · trivial

theorem View.overlooksClauses_of_short (r : Recursion) (scope : Scope) (s : Store) (clauses : List Code) :
    w.OverlooksClauses r scope s clauses := by
  fun_induction View.OverlooksClauses w r scope s clauses with
  | case1 => trivial
  | case2 s pos condition consequent clauses ih => exact fun _ m _ => ih m
  | case3 s t clauses _ => exact not_spells t

theorem View.overlooksForm_of_short (r : Recursion) (scope : Scope) (s : Store) (operands : List Code) (keyword : Keyword) :
    w.OverlooksForm r scope s operands keyword := by
  cases keyword with
  | define | lambda => exact fun t _ => not_spells t
  | cond => exact overlooksClauses_of_short r scope s operands
  | letIn => exact fun t _ => ⟨fun _ => not_spells t, fun _ _ u _ => not_spells u⟩
  | marked m =>
    cases m with
    | quasiquote => exact fun t _ => plain_of_short 0 t
    | _ => trivial
  | defineStruct => exact fun _ _ t _ => not_spells t
  | defineTemplate | defineRule => exact fun t _ _ => not_spells t
  | _ => trivial

/-- Nothing that is spelled out is looked at where nothing is. -/
theorem View.overlooks_of_short (r : Recursion) (scope : Scope) (t : Code) (s : Store) : w.Overlooks r scope t s := by
  unfold Overlooks
  split
  · exact Short.spells_eq _
  · exact plain_of_short _ _
  · exact fun h => absurd h (by simp [Short.spells_eq])
  · split
    · exact overlooksForm_of_short ..
    · split
      · exact overlooksMacro_of_short ..
      · exact fun f m args m' _ _ => overlooksCall_of_short ..
  · trivial

/-- Evaluation respects every view in which nothing is spelled out, whatever number of steps it is allowed. -/
theorem respects_evaluate (w : View) [w.Short] (n : Nat) :
    Recursion.Respects ⟨evaluate n, apply n⟩ (.exactly w) ⟨evaluate n, apply n⟩ := by
  have hnone (p : Position) : ¬ (Comparison.exactly w).right.spells p = true := by
    show ¬ w.spells p = true
    simp [View.Short.spells_eq]
  induction n with
  | zero => exact ⟨fun _ _ => .throw rfl, fun _ _ => .throw rfl⟩
  | succ n ih =>
    constructor
    · intro t t' scope ht s s' hs
      show Compares _ _ _ (evaluate (n + 1) t scope s) (evaluate (n + 1) t' scope s')
      rw [evaluate_succ, evaluate_succ]
      exact compares_evaluateTerm scope ih (fun p hp => absurd hp (hnone p)) ht hs (View.overlooks_of_short (w := w) ..)
    · intro f f' args args' hf ha s s' hs
      show Compares _ _ _ (apply (n + 1) f args s) (apply (n + 1) f' args' s')
      rw [apply_succ, apply_succ]
      exact compares_call .global ih (fun p hp => absurd hp (hnone p)) rfl hf ha hs (View.overlooksCall_of_short (w := w) ..)

end Short

end Lisplet
