import Lisplet.Proofs.Macros.Holes
/-!
# Filling a template and evaluating it

A template macro with a quasiquoted body can be looked at in two ways: its expansion is the template with terms in the holes,
while the value of its body is data with values in the holes. The expander puts the operand of a parameter into a hole as it
is, and turns any other value into a term. Main statement: both ways agree (`expandTemplate_corresponds`). The expansion
denotes the value of the body in the scope in which each parameter is bound to the data of its operand, and the two evaluate
the same terms in the same stores, so that they have the same effects and stop with the same signals.

Data that becomes a term and is read as data again is what it was, except that a number or a string counts as made in the run
(`Value.toValue_toTerm`).
-/
namespace Lisplet

/-! ## Data as code and back -/

mutual

/-- A value whose numbers and strings count as made in the run. -/
def Value.remade : Value → Value
  | .number _ x => .number .made x
  | .string _ s => .string .made s
  | .list items => .list (Value.remadeAll items)
  | v => v
termination_by structural v => v

/-- The values of a row. -/
def Value.remadeAll : List Value → List Value
  | [] => []
  | v :: vs => Value.remade v :: Value.remadeAll vs
termination_by structural vs => vs

end

mutual

/-- Turning a value into a term and back keeps everything but the origin of numbers and strings. -/
theorem Value.toValue_toTerm (pos : Position) : (v : Value) → (v.toTerm pos).toValue = v.remade
  | .list items => by
    rw [Value.toTerm, Term.toValue, Value.remade, Value.toValues_toTerms pos items]
  | .number _ _ | .string _ _ | .symbol _ | .boolean _ | .quaternion _ _ | .closure _ _ | .expander _ _ _
  | .structType _ | .struct _ _ _ | .builtin _ | .error _ _ _ _ => rfl

theorem Value.toValues_toTerms (pos : Position) :
    (vs : List Value) → Term.toValues (Value.toTerms pos vs) = Value.remadeAll vs
  | [] => rfl
  | v :: vs => by
    rw [Value.toTerms, Term.toValues, Value.remadeAll, Value.toValue_toTerm pos v, Value.toValues_toTerms pos vs]

end

mutual

theorem Value.remade_remade : (v : Value) → v.remade.remade = v.remade
  | .list items => by rw [Value.remade, Value.remade, Value.remadeAll_remadeAll items]
  | .number _ _ | .string _ _ | .symbol _ | .boolean _ | .quaternion _ _ | .closure _ _ | .expander _ _ _
  | .structType _ | .struct _ _ _ | .builtin _ | .error _ _ _ _ => rfl

theorem Value.remadeAll_remadeAll : (vs : List Value) → Value.remadeAll (Value.remadeAll vs) = Value.remadeAll vs
  | [] => rfl
  | v :: vs => by
    rw [Value.remadeAll, Value.remadeAll, Value.remade_remade v, Value.remadeAll_remadeAll vs]

end

/-! ## Ends that correspond -/

/-- Ends of two actions in one store: results that are the same through `f` and `g`, or the same signal. -/
inductive Corresponds {α β γ : Type} (f : α → γ) (g : β → γ) :
    EStateM.Result Signal Store α → EStateM.Result Signal Store β → Prop
  | ok {a : α} {b : β} {m : Store} : f a = g b → Corresponds f g (.ok a m) (.ok b m)
  | error {e : Signal} {m : Store} : Corresponds f g (.error e m) (.error e m)

theorem Corresponds.refl {α γ : Type} (f : α → γ) (x : EStateM.Result Signal Store α) : Corresponds f f x x := by
  cases x with
  | ok a m => exact .ok rfl
  | error e m => exact .error

theorem Corresponds.bind {α β γ α' β' γ' : Type} {f : α → γ} {g : β → γ} {f' : α' → γ'} {g' : β' → γ'} {act : Eval α}
    {act' : Eval β} {k : α → Eval α'} {k' : β → Eval β'} {s : Store} (h : Corresponds f g (act s) (act' s))
    (hk : ∀ a b m, f a = g b → act' s = .ok b m → Corresponds f' g' (k a m) (k' b m)) :
    Corresponds f' g' ((act >>= k) s) ((act' >>= k') s) := by
  generalize hact : act s = x at h
  generalize hact' : act' s = y at h
  cases h with
  | ok hab =>
    rw [EStateM.bind_of_ok hact, EStateM.bind_of_ok hact']
    exact hk _ _ _ hab hact'
  | error =>
    rw [EStateM.bind_of_error hact, EStateM.bind_of_error hact']
    exact .error

/-- What goes on in the same way on both sides, without touching the store. -/
theorem Corresponds.map {α β γ α' β' γ' : Type} {f : α → γ} {g : β → γ} {p : α' → γ'} {q : β' → γ'} {act : Eval α}
    {act' : Eval β} {k : α → α'} {k' : β → β'} {s : Store} (h : Corresponds f g (act s) (act' s))
    (hk : ∀ a b, f a = g b → p (k a) = q (k' b)) :
    Corresponds p q ((act >>= fun a => pure (k a)) s) ((act' >>= fun b => pure (k' b)) s) :=
  h.bind fun a b _ hab _ => .ok (hk a b hab)

/-! ## Templates in the short spelling -/

/-- A term that holds no format string and no unquoted term in the long spelling. -/
def Term.Short (t : Code) : Prop :=
  ∀ u ∈ t.nodes, (∀ pos ps, u ≠ .format pos ps) ∧ ∀ pos p v, u ≠ .list pos [.symbol p "unquote", v]

namespace Term.Short

theorem marked {pos : Position} {m : Marker} {t : Code} (h : Term.Short (.marked pos m t)) : t.Short :=
  fun u hu => h u (List.mem_cons_of_mem _ hu)

theorem ne_format {t : Code} (h : t.Short) (pos : Position) (ps : List (Part Value)) : t ≠ .format pos ps := by
  rintro rfl
  exact (h _ List.mem_cons_self).1 pos ps rfl

theorem ne_unquoted {t : Code} (h : t.Short) (pos p : Position) (v : Code) : t ≠ .list pos [.symbol p "unquote", v] := by
  rintro rfl
  exact (h _ List.mem_cons_self).2 pos p v rfl

theorem list {pos : Position} {ts : List Code} (h : Term.Short (.list pos ts)) : ∀ t ∈ ts, t.Short := by
  have hall : ∀ u ∈ nodesAll ts, (∀ pos ps, u ≠ .format pos ps) ∧ ∀ pos p v, u ≠ .list pos [.symbol p "unquote", v] :=
    fun u hu => h u (List.mem_cons_of_mem _ hu)
  clear h
  induction ts with
  | nil => exact fun t ht => absurd ht List.not_mem_nil
  | cons t ts ih =>
    rw [nodesAll, List.forall_mem_append] at hall
    exact List.forall_mem_cons.2 ⟨hall.1, ih hall.2⟩

end Term.Short

/-! ## Filling the holes -/

/-- Each of a row satisfies `P` in the store that is left when what stands before it has been run. -/
inductive InTurn {ι β : Type} (run : ι → Eval β) (P : Store → ι → Prop) : Store → List ι → Prop
  | nil {s : Store} : InTurn run P s []
  | cons {s : Store} {i : ι} {rest : List ι} : P s i → (∀ b s', run i s = .ok b s' → InTurn run P s' rest) →
      InTurn run P s (i :: rest)

theorem InTurn.append {r : Recursion} {scope : Scope} {P : Store → Code → Prop} {s : Store} {ts us : List Code}
    (h : InTurn (r.evaluate · scope) P s (ts ++ us)) :
    InTurn (r.evaluate · scope) P s ts ∧
      ∀ vs m, r.evaluateAll scope ts s = .ok vs m → InTurn (r.evaluate · scope) P m us := by
  induction ts generalizing s with
  | nil =>
    refine ⟨.nil, fun vs m hvs => ?_⟩
    obtain ⟨-, rfl⟩ := EStateM.Result.ok.inj hvs
    exact h
  | cons t ts ih =>
    cases h with
    | cons ht hrest =>
      refine ⟨.cons ht fun v m hv => (ih (hrest v m hv)).1, fun vs m hvs => ?_⟩
      obtain ⟨v, m₁, hv, hvs⟩ := EStateM.bind_eq_ok hvs
      obtain ⟨ws, m₂, hws, hpure⟩ := EStateM.bind_eq_ok hvs
      obtain ⟨-, rfl⟩ := EStateM.Result.ok.inj hpure
      exact (ih (hrest v m₁ hv)).2 ws m₂ hws

/-- A store in which the own frame of a scope binds each parameter to the data of its operand. -/
def Store.Binds (args : Bindings Code) (scope : Scope) (s : Store) : Prop :=
  ∀ name operand, args.value? name = some operand → s.frames.value? scope.own name = some operand.toValue

section Filling

variable {n : Nat} {args : Bindings Code} {scope : Scope}

theorem corresponds_fillHole {s : Store} (hs : s.Binds args scope) (pos : Position) (t : Code) :
    Corresponds (fun e => (Term.toValue e).remade) Value.remade
      (Expansion.fillHole ⟨evaluate (n + 1), apply (n + 1)⟩ args scope pos t s) (evaluate (n + 1) t scope s) := by
  unfold Expansion.fillHole
  cases hoperand : t.symbol?.bind args.value? with
  | some operand =>
    -- A parameter stands in the hole: its operand on one side, on the other the data that it is bound to.
    obtain ⟨name, hname, hvalue⟩ := Option.bind_eq_some_iff.1 hoperand
    obtain ⟨p, rfl⟩ : ∃ p, t = .symbol p name := by
      cases t <;> cases hname
      exact ⟨_, rfl⟩
    have hlookup : s.frames.lookup? scope name = some operand.toValue := by
      rw [Frames.lookup?, Scope.chain, List.findSome?_cons, hs name operand hvalue]
    rw [evaluate_symbol hlookup p]
    exact .ok rfl
  | none =>
    have hterm : ∀ v w : Value, id v = id w → ((v.toTerm pos).toValue).remade = (id w).remade := by
      rintro v w rfl
      exact (congrArg Value.remade (Value.toValue_toTerm pos v)).trans (Value.remade_remade v)
    have h := (Corresponds.refl id (evaluate (n + 1) t scope s)).map (p := fun e => (Term.toValue e).remade) hterm
    simp only [id_eq, bind_pure] at h
    exact h

/-- A template is filled as it is evaluated. -/
theorem corresponds_fill (d : Nat) (t : Code) (ht : t.Short) (s : Store)
    (hs : InTurn (evaluate (n + 1) · scope) (fun m _ => m.Binds args scope) s (t.holes d)) :
    Corresponds (fun e => (Term.toValue e).remade) Value.remade
      (Expansion.fill ⟨evaluate (n + 1), apply (n + 1)⟩ args scope d t s)
      (Recursion.quasiquote ⟨evaluate (n + 1), apply (n + 1)⟩ scope d t s) := by
  refine (Recursion.quasiquote.mutual_induct
    (fun d t => t.Short → ∀ s, InTurn (evaluate (n + 1) · scope) (fun m _ => m.Binds args scope) s (t.holes d) →
      Corresponds (fun e => (Term.toValue e).remade) Value.remade
        (Expansion.fill ⟨evaluate (n + 1), apply (n + 1)⟩ args scope d t s)
        (Recursion.quasiquote ⟨evaluate (n + 1), apply (n + 1)⟩ scope d t s))
    (fun d ts => (∀ t ∈ ts, t.Short) → ∀ s,
      InTurn (evaluate (n + 1) · scope) (fun m _ => m.Binds args scope) s (Term.holesAll d ts) →
      Corresponds (fun es => Value.remadeAll (Term.toValues es)) Value.remadeAll
        (Expansion.fillAll ⟨evaluate (n + 1), apply (n + 1)⟩ args scope d ts s)
        (Recursion.quasiquoteAll ⟨evaluate (n + 1), apply (n + 1)⟩ scope d ts s))
    ?unquoted ?unquotedInside ?quasiquoted ?quoted ?hole ?holeInside ?row ?atom ?nil ?cons).1 d t ht s hs
  case unquoted =>
    intro pos t ht s hs
    rw [Expansion.fill, Recursion.quasiquote]
    cases hs with
    | cons hbinds _ => exact corresponds_fillHole hbinds pos t
  case unquotedInside | quasiquoted | quoted =>
    intro d pos t ih ht s hs
    rw [Term.holes] at hs
    rw [Expansion.fill, Recursion.quasiquote]
    refine (ih ht.marked s hs).map fun e v hev => ?_
    simp [Term.toValue, Recursion.markedValue, Value.remade, Value.remadeAll, hev]
  case hole =>
    intro pos p t ht
    exact absurd rfl (ht.ne_unquoted pos p t)
  case holeInside =>
    intro d pos p t ih ht
    exact absurd rfl (ht.ne_unquoted pos p t)
  case row =>
    intro d pos ts h₁ h₂ ih ht s hs
    have hhole := Term.isHole_list_eq_false pos h₁ h₂
    rw [Term.holes_list hhole] at hs
    rw [Expansion.fill, quasiquote_list _ _ hhole]
    refine (ih ht.list s hs).map fun es vs hes => ?_
    simp [Term.toValue, Value.remade, hes]
  case atom =>
    intro d t h₁ h₂ h₃ h₄ h₅ h₆ h₇ ht s hs
    rw [Expansion.fill, Recursion.quasiquote]
    · exact .ok rfl
    all_goals first | assumption | exact ht.ne_format
  case nil =>
    intro d _ s hs
    exact .ok rfl
  case cons =>
    intro d t ts iht ihts hts s hs
    obtain ⟨ht, hts⟩ := List.forall_mem_cons.1 hts
    obtain ⟨hfirst, hrest⟩ := InTurn.append (r := ⟨evaluate (n + 1), apply (n + 1)⟩) hs
    rw [Expansion.fillAll, Recursion.quasiquoteAll]
    refine (iht ht s hfirst).bind fun e v m hev hv => ?_
    -- The row goes on in the store that is left when the holes of the first template have been evaluated.
    rw [quasiquote_plug] at hv
    obtain ⟨vs, m', hvs, hpure⟩ := EStateM.bind_eq_ok hv
    obtain ⟨-, rfl⟩ := EStateM.Result.ok.inj hpure
    refine (ihts hts m' (hrest vs m' hvs)).map fun es ws hes => ?_
    simp only [Term.toValues, Value.remadeAll, hev, hes]

end Filling

/-! ## Expanding a call -/

/-- The store in which a template is evaluated: a new frame binds each parameter to the data of its operand. -/
def Store.withOperands (s : Store) (params : List String) (operands : List Code) : Store :=
  { s with frames := (params.zip operands).foldl (fun f p => f.put s.frames.size p.1 p.2.toValue) s.frames.grow }

theorem bindOperands_apply (scope : Scope) (pairs : List (String × Code)) (h : ∀ p ∈ pairs, isReserved p.1 = false)
    (s : Store) :
    Expansion.bindOperands scope pairs s =
      .ok () { s with frames := pairs.foldl (fun f p => f.put scope.own p.1 p.2.toValue) s.frames } := by
  induction pairs generalizing s with
  | nil => rfl
  | cons p pairs ih =>
    obtain ⟨param, operand⟩ := p
    obtain ⟨hparam, hpairs⟩ := List.forall_mem_cons.1 h
    have hdefine : Eval.define scope param operand.toValue s =
        .ok () { s with frames := s.frames.put scope.own param operand.toValue } := by
      rw [Eval.define, hparam]
      rfl
    rw [Expansion.bindOperands, EStateM.bind_of_ok hdefine, ih hpairs]
    rfl

/-- Binding parameters one after the other in a frame leaves each with the data of the operand that counts. -/
theorem value?_foldl_put (k : Nat) (pairs : List (String × Code)) (f : Frames Value) (args : Bindings Code)
    (hk : k < f.size) (h : ∀ name, f.value? k name = (args.value? name).map Term.toValue) (name : String) :
    (pairs.foldl (fun f p => f.put k p.1 p.2.toValue) f).value? k name =
      ((pairs.foldl (fun args p => args.put p.1 p.2) args).value? name).map Term.toValue := by
  induction pairs generalizing f args with
  | nil => exact h name
  | cons p pairs ih =>
    refine ih (f.put k p.1 p.2.toValue) (args.put p.1 p.2) (by rwa [Frames.size_put]) fun name => ?_
    rw [Frames.value?_put, Bindings.value?_put, h]
    by_cases hname : name = p.1
    · simp [hname, hk]
    · simp [hname]

theorem mem_of_value?_operandsByName {pairs : List (String × Code)} {name : String} {operand : Code}
    (h : (Expansion.operandsByName pairs).value? name = some operand) : (name, operand) ∈ pairs :=
  (Bindings.mem_or_of_value?_foldl_put h).resolve_right fun h => by cases h

theorem InTurn.mono {ι β : Type} {run : ι → Eval β} {P Q : Store → ι → Prop} (hPQ : ∀ s i, P s i → Q s i) {s : Store}
    {is : List ι} (h : InTurn run P s is) : InTurn run Q s is := by
  induction h with
  | nil => exact .nil
  | cons hi _ ih => exact .cons (hPQ _ _ hi) ih

/-- Expanding a call of a template macro is evaluating its quasiquoted body in the scope in which each parameter is bound to
the data of its operand, provided that no hole is come to with a parameter bound anew. The expansion is a term that denotes
the value of the body, if this has one, and otherwise the expander stops with the same signal; and both leave the same
store. -/
theorem expandTemplate_corresponds (n : Nat) (params : List String) (pos : Position) (template : Code) (scope : Scope)
    (operands : List Code) (s : Store) (hreserved : ∀ param ∈ params, isReserved param = false) (hshort : template.Short)
    (hlength : operands.length = params.length) :
    let inner := s.frames.inside scope
    let start := s.withOperands params operands
    InTurn (evaluate (n + 1) · inner)
        (fun m _ => ∀ param ∈ params, m.frames.value? inner.own param = start.frames.value? inner.own param)
        start (template.holes 0) →
      Corresponds (fun expansion => (Term.toValue expansion).remade) Value.remade
        (Expansion.expandTemplate ⟨evaluate (n + 1), apply (n + 1)⟩ params (.marked pos .quasiquote template) scope operands
          s)
        (evaluate (n + 2) (.marked pos .quasiquote template) inner start) := by
  intro inner start hholes
  have hpairs : ∀ p ∈ params.zip operands, isReserved p.1 = false := fun p hp => hreserved _ (List.of_mem_zip hp).1
  have hfill : Expansion.expandTemplate ⟨evaluate (n + 1), apply (n + 1)⟩ params (.marked pos .quasiquote template) scope
      operands s = Expansion.fill ⟨evaluate (n + 1), apply (n + 1)⟩ (Expansion.operandsByName (params.zip operands)) inner 0
        template start := by
    have hchild : Eval.childScope scope s = .ok inner { s with frames := s.frames.grow } := rfl
    rw [Expansion.expandTemplate, if_pos hlength, EStateM.bind_of_ok hchild,
      EStateM.bind_of_ok (bindOperands_apply inner _ hpairs _)]
    rfl
  have hvalue : evaluate (n + 2) (.marked pos .quasiquote template) inner start =
      Recursion.quasiquote ⟨evaluate (n + 1), apply (n + 1)⟩ inner 0 template start := by
    rw [evaluate_succ]
    rfl
  -- What the new frame binds is what the expander looks up.
  have hbound : ∀ name, start.frames.value? inner.own name =
      ((Expansion.operandsByName (params.zip operands)).value? name).map Term.toValue := by
    refine value?_foldl_put s.frames.size _ s.frames.grow [] (by simp [Frames.grow, Frames.size]) fun name => ?_
    rw [Frames.value?_grow]
    simp [Frames.value?, Frames.bindings, Frames.size, Bindings.value?]
  rw [hfill, hvalue]
  refine corresponds_fill 0 template hshort start (hholes.mono fun m _ hm name operand hoperand => ?_)
  have hmem : name ∈ params := (List.of_mem_zip (mem_of_value?_operandsByName hoperand)).1
  rw [hm name hmem, hbound, hoperand]
  rfl

/-- The template `(list ,xs (quote ,(length xs)))`, the quote in it written as a mark. -/
def lengthTemplate : Code :=
  let word (name : String) : Code := .symbol .start name
  .list .start [word "list", .marked .start .unquote (word "xs"),
    .marked .start .quote (.marked .start .unquote (.list .start [word "length", word "xs"]))]

/-- The operand `(a b)`. -/
def pairOperand : Code := .list .start [.symbol .start "a", .symbol .start "b"]

/-- Expanding a call with one operand, which stands in one hole as it is and has its length taken in the other. -/
theorem expandTemplate_corresponds_lengthTemplate :
    let s := Store.initial (World.closed "/" [] []) {}
    lengthTemplate.Short ∧
      Corresponds (fun expansion => (Term.toValue expansion).remade) Value.remade
        (Expansion.expandTemplate ⟨evaluate 4, apply 4⟩ ["xs"] (.marked .start .quasiquote lengthTemplate) .global
          [pairOperand] s)
        (evaluate 5 (.marked .start .quasiquote lengthTemplate) (s.frames.inside .global)
          (s.withOperands ["xs"] [pairOperand])) := by
  intro s
  have hshort : lengthTemplate.Short := by simp [Term.Short, lengthTemplate, Term.nodes, Term.nodesAll]
  refine ⟨hshort, expandTemplate_corresponds 3 ["xs"] .start lengthTemplate .global [pairOperand] s (by decide) hshort rfl ?_⟩
  refine .cons (fun param _ => rfl) fun v m hv => .cons (fun param _ => ?_) fun _ _ _ => .nil
  have hlookup : (s.withOperands ["xs"] [pairOperand]).frames.lookup? (s.frames.inside .global) "xs" =
      some pairOperand.toValue := rfl
  have hm := (evaluate_symbol hlookup .start).symm.trans hv
  obtain ⟨-, rfl⟩ := EStateM.Result.ok.inj hm
  rfl

end Lisplet
