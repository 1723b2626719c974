import Lisplet.Proofs.Evaluation.Running
import Lisplet.Proofs.Likeness.Expanding
/-!
# Built-in procedures and quotation

With recursions of which one respects the other, alike quasiquoted templates have alike values (`alike_quasiquote`), and calls
of one built-in procedure on alike arguments are alike (`compares_builtin`).
-/
namespace Lisplet

variable {c : Comparison} {r r' : Recursion}

/-- Alike data is alike under the same mark. -/
theorem Alike.markedValue (m : Marker) {act act' : Eval Value}
    (h : Alike c (Value.seen c.left) (Value.seen c.right) act act') :
    Alike c (Value.seen c.left) (Value.seen c.right) (do return Recursion.markedValue m (← act))
      (do return Recursion.markedValue m (← act')) :=
  .bind h fun v v' hv => .pure (by simp [Recursion.markedValue, hv])

/-! ## Rows of terms -/

section Rows

variable (h : r.Respects c r') (scope : Scope)
include h

theorem alike_evaluateAll {ts ts' : List Code} (hts : Term.LikeAll c.left c.right ts ts') :
    Alike c (List.map (Value.seen c.left)) (List.map (Value.seen c.right)) (r.evaluateAll scope ts)
      (r'.evaluateAll scope ts') := by
  induction hts with
  | nil => exact .pure rfl
  | cons ht _ ih =>
    refine .bind (h.evaluate scope ht) fun v v' hv => .bind ih fun vs vs' hvs => .pure ?_
    rw [List.map_cons, List.map_cons, hv, hvs]

theorem alike_evaluateLeading {ts ts' : List Code} (hts : Term.LikeAll c.left c.right ts ts') :
    Alike c (Term.seen c.left) (Term.seen c.right) (r.evaluateLeading scope ts) (r'.evaluateLeading scope ts') := by
  induction hts with
  | nil =>
    refine .pure ?_
    rw [Term.seen, Term.seen, View.nil_short, View.nil_unspelled _ _ c.nowhere, c.place_eq]
  | cons ht hts ih =>
    cases hts with
    | nil => exact .pure ht
    | cons _ _ => exact .bind (h.evaluate scope ht) fun _ _ _ => ih

theorem alike_evaluateForms {ts ts' : List Code} (hts : Term.LikeAll c.left c.right ts ts') :
    Alike c (Value.seen c.left) (Value.seen c.right) (r.evaluateForms scope ts) (r'.evaluateForms scope ts') := by
  induction hts with
  | nil => exact .pure rfl
  | cons ht hts ih =>
    cases hts with
    | nil => exact h.evaluate scope ht
    | cons _ _ => exact .bind (h.evaluate scope ht) fun _ _ _ => ih

theorem alike_formatParts {ps ps' : List (Part Value)}
    (hps : List.Forall₂ (fun a b => Part.seen c.left a = Part.seen c.right b) ps ps') :
    Alike c id id (r.formatParts scope ps) (r'.formatParts scope ps') := by
  induction hps with
  | nil => exact .pure rfl
  | @cons p p' ps ps' hp _ ih =>
    cases p with
    | text s =>
      cases p' with
      | text s' =>
        obtain rfl : s = s' := Part.text.inj hp
        exact .bindId ih fun _ => .pure rfl
      | code t' => cases hp
    | code t =>
      cases p' with
      | text s' => cases hp
      | code t' =>
        refine .bind (h.evaluate scope (Part.code.inj hp)) fun v v' hv => .bindId ih fun _ => .pure ?_
        rw [Value.eq_of_seen Value.display (fun _ _ => Value.display_seen _) hv]

/-- The operands of the long spelling of a format string have the values whose texts are its parts. -/
theorem alike_evaluateAll_formatParts (hsteps : r.Steps c) (q : Position) {ts : List Code} {ps : List (Part Value)}
    (hts : List.Forall₂ (fun t b => t.seen c.left = (Part.seen c.right b).operand (c.right.place q)) ts ps) :
    Alike c (List.map Value.display) id (r.evaluateAll scope ts) (r'.formatParts scope ps) := by
  induction hts with
  | nil => exact .pure rfl
  | @cons t p ts ps ht _ ih =>
    cases p with
    | text s =>
      obtain ⟨pos, rfl⟩ : ∃ pos, t = .string pos s := by
        cases t <;> simp [Part.operand] at ht
        exact ⟨_, by rw [ht.2]⟩
      intro m m' hm
      rw [Recursion.evaluateAll, Recursion.formatParts]
      rcases hsteps (.string pos s) scope m with ⟨r₀, hv⟩ | ⟨e, k, he, hearly⟩
      · rw [EStateM.bind_of_ok (hv.trans rfl : _ = .ok (.string .made s) m)]
        refine (ih m m' hm).bind fun vs texts k k' _ hvs hk => .ok ?_ hk
        rw [List.map_cons, hvs]
        rfl
      · rw [EStateM.bind_of_error he]
        exact .early hearly
    | code t' =>
      refine .bind (h.evaluate scope ht) fun v v' hv => .bind ih fun vs texts hvs => .pure ?_
      rw [List.map_cons, hvs, Value.eq_of_seen Value.display (fun _ _ => Value.display_seen _) hv]
      rfl

theorem alike_bindInTurn {pairs pairs' : List (String × Code)}
    (hpairs : Bindings.through (Term.seen c.left) pairs = Bindings.through (Term.seen c.right) pairs') :
    Alike c id id (r.bindInTurn scope pairs) (r'.bindInTurn scope pairs') := by
  induction pairs generalizing pairs' with
  | nil =>
    obtain rfl : pairs' = [] := List.map_eq_nil_iff.1 hpairs.symm
    exact .pure rfl
  | cons pair pairs ih =>
    obtain ⟨⟨name', t'⟩, rest', rfl, hpair, hrest⟩ := List.map_eq_cons_iff.1 hpairs.symm
    obtain ⟨name, t⟩ := pair
    obtain ⟨rfl, ht⟩ := Prod.mk.inj hpair
    exact .bind (h.evaluate scope ht.symm) fun v v' hv => .bindId (.define scope name' hv) fun _ => ih hrest.symm

/-! ## Quasiquotation -/

omit h in
/-- Templates without holes are their own data. -/
theorem alike_quasiquote_holeFree (d : Nat) {t t' : Code} (ht : t.seen c.left = t'.seen c.right) (hfree : t'.HoleFree) :
    Alike c (Value.seen c.left) (Value.seen c.right) (r.quasiquote scope d t) (r'.quasiquote scope d t') := by
  rw [quasiquote_holeFree r scope t (hfree.of_seen ht), quasiquote_holeFree r' scope t' hfree]
  exact .pure (Term.toValue_of_seen ht)

omit h in
/-- A format string in a template is data as it stands, whatever is in it. -/
theorem alike_quasiquote_format (d : Nat) {t : Code} {q : Position} {ps : List (Part Value)}
    (ht : t.seen c.left = (Term.format q ps).seen c.right) (hplain : c.right.Plain d (.format q ps)) :
    Alike c (Value.seen c.left) (Value.seen c.right) (r.quasiquote scope d t) (r'.quasiquote scope d (.format q ps)) := by
  have htaken (r : Recursion) (p : Position) (ps : List (Part Value)) :
      r.quasiquote scope d (.format p ps) = pure (Term.toValue (.format p ps)) := by cases d <;> rfl
  cases Term.like_of_seen ht with
  | format _ _ =>
    rw [htaken, htaken]
    exact .pure (Term.toValue_of_seen ht)
  | formatSpelled hq _ =>
    rw [View.Plain] at hplain
    exact alike_quasiquote_holeFree scope d ht (hplain hq)

/-- Alike templates have alike values, if there are no holes in what is spelled out of their quasiquotes and format strings. -/
theorem alike_quasiquote (d : Nat) {t t' : Code} (ht : t.seen c.left = t'.seen c.right) (hplain : c.right.Plain d t') :
    Alike c (Value.seen c.left) (Value.seen c.right) (r.quasiquote scope d t) (r'.quasiquote scope d t') := by
  refine (Recursion.quasiquote.mutual_induct
    (fun d t' => ∀ t : Code, t.seen c.left = t'.seen c.right → c.right.Plain d t' →
      Alike c (Value.seen c.left) (Value.seen c.right) (r.quasiquote scope d t) (r'.quasiquote scope d t'))
    (fun d ts' => ∀ ts : List Code, Term.LikeAll c.left c.right ts ts' → c.right.PlainAll d ts' →
      Alike c (List.map (Value.seen c.left)) (List.map (Value.seen c.right)) (r.quasiquoteAll scope d ts)
        (r'.quasiquoteAll scope d ts'))
    ?unquoted ?unquotedInside ?quasiquoted ?quoted ?hole ?holeInside ?row ?atom ?nil ?cons).1 d t' t ht hplain
  -- A mark on one side is either the same mark on the other or its long spelling there.
  case unquoted =>
    intro q t' t ht _
    cases Term.like_of_seen ht with
    | marked _ _ hu => exact h.evaluate scope hu
    | markedSpelled _ _ hu => exact h.evaluate scope hu
  case unquotedInside =>
    intro d q t' ih t ht hplain
    rw [View.Plain] at hplain
    cases Term.like_of_seen ht with
    | marked _ _ hu => exact (ih _ hu hplain).markedValue .unquote
    | markedSpelled _ _ hu => exact (ih _ hu hplain).markedValue .unquote
  case quasiquoted =>
    intro d q t' ih t ht hplain
    rw [View.Plain] at hplain
    cases Term.like_of_seen ht with
    | marked _ _ hu =>
      rw [Recursion.quasiquote, Recursion.quasiquote]
      exact (ih _ hu hplain.2).markedValue .quasiquote
    | markedSpelled _ hq _ =>
      -- The long spelling does not guard what is in it, so there must be nothing to guard.
      exact alike_quasiquote_holeFree scope d ht (List.forall_mem_cons.2 ⟨rfl, hplain.1 hq⟩)
  case quoted =>
    intro d q t' ih t ht hplain
    rw [View.Plain] at hplain
    cases Term.like_of_seen ht with
    | marked _ _ hu =>
      rw [Recursion.quasiquote, Recursion.quasiquote]
      exact (ih _ hu hplain).markedValue .quote
    | markedSpelled _ _ hu =>
      rw [quasiquote_quoted, Recursion.quasiquote]
      exact (ih _ hu hplain).markedValue .quote
  case hole =>
    intro q q' t' t ht _
    cases Term.like_of_seen ht with
    | list hts =>
      rcases hts with _ | ⟨hhead, _ | ⟨hu, ⟨⟩⟩⟩
      cases Term.like_of_seen hhead with
      | symbol name => exact h.evaluate scope hu
  case holeInside =>
    intro d q q' t' ih t ht hplain
    rw [View.Plain] at hplain
    cases Term.like_of_seen ht with
    | list hts =>
      rcases hts with _ | ⟨hhead, _ | ⟨hu, ⟨⟩⟩⟩
      cases Term.like_of_seen hhead with
      | symbol name => exact (ih _ hu hplain).markedValue .unquote
  case row =>
    intro d q ts' h₁ h₂ ih t ht hplain
    have hhole := Term.isHole_list_eq_false q h₁ h₂
    rw [View.Plain] at hplain
    · cases Term.like_of_seen ht with
      | @list p _ ts _ hts =>
        have hhole' : Term.isHole (.list p ts) = false := by
          rw [← Term.isHole_list_seen (w := c.left) p, map_eq_of_forall₂ hts, Term.isHole_list_seen p q, hhole]
        rw [quasiquote_list r scope hhole', quasiquote_list r' scope hhole]
        exact .bind (ih _ hts hplain) fun vs vs' hvs => .pure (by simp [hvs])
    · exact h₁
    · exact h₂
  case atom =>
    intro d t' h₁ h₂ h₃ h₄ h₅ h₆ h₇ t ht hplain
    cases t' with
    | marked q m u =>
      cases m with
      | quote => exact absurd rfl (h₄ q u)
      | quasiquote => exact absurd rfl (h₃ q u)
      | unquote =>
        cases d with
        | zero => exact absurd rfl (h₁ q u rfl)
        | succ d => exact absurd rfl (h₂ d q u rfl)
    | list q us => exact absurd rfl (h₇ q us)
    | format q ps => exact alike_quasiquote_format scope d ht hplain
    | _ => exact alike_quasiquote_holeFree scope d ht (by simp [Term.HoleFree, Term.nodes, Term.isHole])
  case nil =>
    intro d ts hts _
    cases hts
    exact .pure rfl
  case cons =>
    intro d t' ts' iht ihts ts hts hplain
    rw [View.PlainAll] at hplain
    cases hts with
    | cons ht hts =>
      rw [Recursion.quasiquoteAll, Recursion.quasiquoteAll]
      refine .bind (iht _ ht hplain.1) fun u u' hu => .bind (ihts _ hts hplain.2) fun us us' hus => .pure ?_
      rw [List.map_cons, List.map_cons, hu, hus]

end Rows

/-! ## Procedures that only compute -/

section Values

variable {args args' : List Value} (ha : args.map (Value.seen c.left) = args'.map (Value.seen c.right))
include ha

/-- A procedure that gives the same value whatever is seen, and one without parts, gives it on alike arguments. -/
theorem results_of_run {f : List Value → Except Fault Value}
    (hf : ∀ (w : View) (vs : List Value), f (vs.map (Value.seen w)) = f vs)
    (hsimple : Unladen Value.Simple (f args')) :
    c.Results (Value.seen c.left) (Value.seen c.right) (f args) (f args') := by
  have hargs : f args = f args' := by rw [← hf c.left args, ha, hf]
  rw [hargs]
  exact .refl hsimple fun v hv => by rw [hv, hv]

/-- A procedure that gives what is seen of its value on what is seen of its arguments. -/
theorem results_of_seen {f : List Value → Except Fault Value}
    (hf : ∀ (w : View) (vs : List Value), f (vs.map (Value.seen w)) = seenResult w (Value.seen w) (f vs)) :
    c.Results (Value.seen c.left) (Value.seen c.right) (f args) (f args') :=
  .of_seen (by rw [← hf, ha, hf])

theorem results_wrongCount :
    c.Results (Value.seen c.left) (Value.seen c.right) (Builtin.wrongCount args) (Builtin.wrongCount args') :=
  results_of_run ha (fun _ vs => Builtin.wrongCount_seen vs) (.error rfl)

end Values

/-! ## Reading -/

/-- Code that is read from a text is seen as the same. -/
theorem Comparison.unladen_readForms (c : Comparison) (source : String) :
    Unladen (fun ts => ts.map (Term.seen c.left) = ts.map (Term.seen c.right)) (Fault.readForms source) := by
  cases hread : Fault.readForms source with
  | ok ts => exact .ok (c.reads hread)
  | error f =>
    refine .error ?_
    unfold Fault.readForms at hread
    split at hread
    · cases hread
    · obtain rfl := Except.error.inj hread
      rfl

theorem Comparison.unladen_readForm (c : Comparison) (source : String) :
    Unladen (fun t => t.seen c.left = t.seen c.right) (Fault.readForm source) := by
  refine .bind (c.unladen_readForms source) fun ts hts => ?_
  rcases ts with _ | ⟨t, _ | ⟨_, _⟩⟩
  · exact .error rfl
  · exact .ok (List.cons.inj hts).1
  · exact .error rfl

theorem unladen_inspection (op : Inspection) (args : List Value) :
    Unladen (fun v => v.seen c.left = v.seen c.right) (op.run args) := by
  rcases args with _ | ⟨v, _ | ⟨_, _⟩⟩
  · cases op <;> exact .error rfl
  · cases op with
    | typeOf => exact .ok rfl
    | parse =>
      exact .bind (Value.unladen_asString v) fun source _ => .bind (c.unladen_readForm source) fun t ht =>
        .ok (Term.toValue_of_seen ht)
  · cases op <;> exact .error rfl

/-! ## Talking to the world -/

theorem alike_readFileAt (file : String) :
    Alike c (Value.seen c.left) (Value.seen c.right)
      (do return .string .made (← Eval.readFile (Path.resolve (← get).directory file)) : Eval Value)
      (do return .string .made (← Eval.readFile (Path.resolve (← get).directory file))) := by
  refine .bind .get fun s s' hs => ?_
  rw [Store.eq_of_seen Store.directory hs fun _ _ => rfl]
  exact .bindId (.readFile _) fun text => .pure rfl

theorem alike_variable (name : String) :
    Alike c (Value.seen c.left) (Value.seen c.right)
      (do
        match ← Eval.answer (.environment name) ((← get).world.environment name) with
        | some text => return .string .made text
        | none => return .nil : Eval Value)
      (do
        match ← Eval.answer (.environment name) ((← get).world.environment name) with
        | some text => return .string .made text
        | none => return .nil) := by
  refine .bind .get fun s s' hs => ?_
  rw [Store.eq_of_seen Store.world hs fun _ _ => rfl]
  refine .bindId (.answer _ _) fun text => ?_
  cases text with
  | some text => exact .pure rfl
  | none => exact .pure rfl

/-- An argument that is refused with a fault without a value. -/
theorem alike_argument {α : Type} {f : Value → Except Fault α} (hf : ∀ (w : View) (v : Value), f (v.seen w) = f v)
    {v v' : Value} (hv : v.seen c.left = v'.seen c.right) (hplain : Unladen (fun _ => True) (f v')) :
    Alike c id id (Eval.ofExcept (f v)) (Eval.ofExcept (f v')) := by
  rw [Value.eq_of_seen f hf hv]
  exact .ofExcept (.refl hplain fun _ _ => rfl)

theorem alike_host (op : HostOperation) {args args' : List Value}
    (ha : args.map (Value.seen c.left) = args'.map (Value.seen c.right)) :
    Alike c (Value.seen c.left) (Value.seen c.right) (op.run args) (op.run args') := by
  cases op with
  | display =>
    have hd : Value.displayAll args = Value.displayAll args' := by
      rw [← Value.displayAll_seen (w := c.left), ha, Value.displayAll_seen]
    rw [HostOperation.run, HostOperation.run, hd]
    exact .bindId (.write _) fun _ => .pure rfl
  | displayDebug =>
    have hr : args.map Value.repr = args'.map Value.repr := by
      have e (w : View) (vs : List Value) : (vs.map (Value.seen w)).map Value.repr = vs.map Value.repr := by simp
      rw [← e c.left, ha, e]
    rw [HostOperation.run, HostOperation.run, hr]
    exact .bindId (.write _) fun _ => .pure rfl
  | newline => exact .bindId (.write _) fun _ => .pure rfl
  | readLine =>
    refine .bindId .readLine fun line => ?_
    cases line with
    | some line => exact .pure rfl
    | none => exact .pure rfl
  | currentTime => exact .bindId .currentTime fun _ => .pure rfl
  | random => exact .bindId .chance fun _ => .pure rfl
  | printError =>
    rcases forall₂_of_map_eq ha with _ | ⟨hv, _ | ⟨_, _⟩⟩
    · exact .ofExcept (results_wrongCount ha)
    · have hr := Value.eq_of_seen Value.repr (fun _ _ => Value.repr_seen _) hv
      have htype := Value.eq_of_seen Value.typeName (fun _ _ => Value.typeName_seen _) hv
      cases Value.like_of_seen hv with
      | error stamp code description hp =>
        rw [HostOperation.run, HostOperation.run, hr]
        exact .bindId (.writeError _) fun _ => .pure rfl
      | _ => exact .fault (by rw [htype]; rfl)
    · cases Value.like_of_seen hv <;> exact .ofExcept (results_wrongCount ha)
  | readFile =>
    rcases forall₂_of_map_eq ha with _ | ⟨hv, _ | ⟨_, _⟩⟩
    · exact .ofExcept (results_wrongCount ha)
    · exact .bindId (alike_argument (fun _ _ => Value.asString_seen _) hv (Value.unladen_asString _)) fun file =>
        alike_readFileAt file
    · exact .ofExcept (results_wrongCount ha)
  | environment =>
    rcases forall₂_of_map_eq ha with _ | ⟨hv, _ | ⟨_, _⟩⟩
    · exact .ofExcept (results_wrongCount ha)
    · exact .bindId (alike_argument (fun _ _ => Value.asString_seen _) hv (Value.unladen_asString _)) fun name =>
        alike_variable name
    · exact .ofExcept (results_wrongCount ha)

/-! ## Steering the run -/

theorem alike_times {act act' : Eval Value} (h : Alike c (Value.seen c.left) (Value.seen c.right) act act') (n : Nat) :
    Alike c id id (Control.times n act) (Control.times n act') := by
  induction n with
  | zero => exact .pure rfl
  | succ n ih => exact .bind h fun _ _ _ => ih

theorem conforms_of_seen {v w : View} {s s' : Store} (hs : s.seen v = s'.seen w) {a b : Value} (h : a.seen v = b.seen w)
    (name : String) : s.conforms a name = s'.conforms b name := by
  have hp : s.policy = s'.policy := Store.eq_of_seen Store.policy hs fun _ _ => rfl
  have hr : s.registry = s'.registry := Store.eq_of_seen Store.registry hs fun _ _ => rfl
  have htype := Value.eq_of_seen Value.typeName (fun _ _ => Value.typeName_seen _) h
  unfold Store.conforms
  rw [htype, hp, hr]
  cases s'.policy with
  | nominal => rfl
  | structural => cases Value.like_of_seen h <;> rfl

theorem Control.unladen_expectedName (v : Value) : Unladen (fun _ => True) (Control.expectedName v) := by
  cases v with
  | structType type => exact .ok trivial
  | symbol name => exact .ok trivial
  | _ => exact .error rfl

section Control

variable (h : r.Respects c r')
include h

theorem alike_formatPieces (ps : List Format.Piece) :
    Alike c id id (Control.formatPieces r ps) (Control.formatPieces r' ps) := by
  induction ps with
  | nil => exact .pure rfl
  | cons p ps ih =>
    cases p with
    | text raw value => exact .bindId ih fun _ => .pure rfl
    | code source =>
      refine .bind (.ofExcept (.refl (c.unladen_readForm (String.ofList source)) fun _ ht => ht)) fun t t' ht => ?_
      refine .bind (h.evaluate .global ht) fun v v' hv => .bindId ih fun _ => .pure ?_
      rw [Value.eq_of_seen Value.display (fun _ _ => Value.display_seen _) hv]

theorem alike_formatText (template : String) :
    Alike c (Value.seen c.left) (Value.seen c.right) (Control.formatText r template) (Control.formatText r' template) := by
  unfold Control.formatText
  split
  · exact .fault rfl
  · exact .bindId (alike_formatPieces h _) fun _ => .pure rfl

theorem alike_repeatCall {count count' procedure procedure' : Value} (hc : count.seen c.left = count'.seen c.right)
    (hp : procedure.seen c.left = procedure'.seen c.right) :
    Alike c (Value.seen c.left) (Value.seen c.right) (Control.repeatCall r count procedure)
      (Control.repeatCall r' count' procedure') := by
  unfold Control.repeatCall
  rw [Value.eq_of_seen Value.isProcedure (fun _ _ => Value.isProcedure_seen _) hp,
    Value.eq_of_seen Value.typeName (fun _ _ => Value.typeName_seen _) hp]
  refine .bindId (alike_argument (fun _ _ => Value.asNumber_seen _) hc (Value.unladen_asNumber _)) fun x => ?_
  split
  · exact .ite (.bindId (alike_times (h.apply hp rfl) _) fun _ => .pure rfl) (.fault rfl)
  · exact .fault rfl

variable (hahead : ∀ p, c.right.spells p = true → Recursion.Ahead c r' 2 r)
include hahead

/-- Expanding a call that is given as data. -/
theorem compares_expandCall (name : String) {operands operands' : List Value}
    (ho : operands.map (Value.seen c.left) = operands'.map (Value.seen c.right)) {s s' : Store}
    (hs : s.seen c.left = s'.seen c.right)
    (hlook : c.right.OverlooksExpansion r' [.list (.symbol name :: operands')] s') :
    Compares c (Value.seen c.left) (Value.seen c.right) (Control.expandData r (.list (.symbol name :: operands)) s)
      (Control.expandData r' (.list (.symbol name :: operands')) s') := by
  have hc : s.caller = s'.caller := Store.eq_of_seen Store.caller hs fun _ _ => rfl
  have hv := Alike.lookup?_seen hs s'.caller name
  have hterms : (Value.toTerms .nowhere operands).map (Term.seen c.left) =
      (Value.toTerms .nowhere operands').map (Term.seen c.right) := by
    rw [← Term.seenAll_eq_map, ← Term.seenAll_eq_map, Value.toTerms_seen, Value.toTerms_seen, Value.seenAll_eq_map,
      Value.seenAll_eq_map, ho, c.place_eq]
  have hget (m : Store) : (get : Eval Store) m = .ok m m := rfl
  rw [Control.expandData, Control.expandData, EStateM.bind_of_ok (hget s), EStateM.bind_of_ok (hget s'), hc]
  simp only [Frames.lookup]
  -- The name is bound on both sides or on neither, and to macros on both or on neither.
  cases hbound : s.frames.lookup? s'.caller name with
  | none =>
    cases hbound' : s'.frames.lookup? s'.caller name with
    | none => exact Alike.fault rfl s s' hs
    | some v' => simp [hbound, hbound'] at hv
  | some v =>
    cases hbound' : s'.frames.lookup? s'.caller name with
    | none => simp [hbound, hbound'] at hv
    | some v' =>
      rw [hbound, hbound'] at hv
      cases Value.like_of_seen (Option.some.inj hv) with
      | expander stamp own ht =>
        refine (Expansion.compares_expand h hahead own ht hterms hs (hlook stamp own _ hbound')).bind fun t t' m m' _ hu hm =>
          .ok (Term.toValue_of_seen hu) hm
      | _ => exact Alike.fault rfl s s' hs

/-- Alike calls that are given as data have alike expansions. -/
theorem compares_expandData {data data' : Value} (hd : data.seen c.left = data'.seen c.right) {s s' : Store}
    (hs : s.seen c.left = s'.seen c.right) (hlook : c.right.OverlooksExpansion r' [data'] s') :
    Compares c (Value.seen c.left) (Value.seen c.right) (Control.expandData r data s) (Control.expandData r' data' s') := by
  cases Value.like_of_seen hd with
  | list hitems =>
    rcases forall₂_of_map_eq hitems with _ | ⟨hhead, hoperands⟩
    · exact Alike.fault rfl s s' hs
    · cases Value.like_of_seen hhead with
      | symbol name => exact compares_expandCall h hahead name (map_eq_of_forall₂ hoperands) hs hlook
      | _ => exact Alike.fault rfl s s' hs
  | _ => exact Alike.fault rfl s s' hs

theorem compares_control (op : Control) {args args' : List Value}
    (ha : args.map (Value.seen c.left) = args'.map (Value.seen c.right)) {s s' : Store}
    (hs : s.seen c.left = s'.seen c.right) (hlook : op = .expand → c.right.OverlooksExpansion r' args' s') :
    Compares c (Value.seen c.left) (Value.seen c.right) (Control.run r op args s) (Control.run r' op args' s') := by
  have hwrong : Alike c (Value.seen c.left) (Value.seen c.right) (Eval.ofExcept (Builtin.wrongCount args))
      (Eval.ofExcept (Builtin.wrongCount args')) := .ofExcept (results_wrongCount ha)
  cases op with
  | eval =>
    rcases forall₂_of_map_eq ha with _ | ⟨hv, _ | ⟨_, _⟩⟩
    · exact hwrong s s' hs
    · exact h.evaluate .global (Value.toTerm_of_seen hv (c.place_eq _)) s s' hs
    · exact hwrong s s' hs
  | format =>
    rcases forall₂_of_map_eq ha with _ | ⟨hv, _ | ⟨_, _⟩⟩
    · exact hwrong s s' hs
    · exact Alike.bindId (alike_argument (fun _ _ => Value.asString_seen _) hv (Value.unladen_asString _))
        (fun text => alike_formatText h text) s s' hs
    · exact hwrong s s' hs
  | expand =>
    rcases forall₂_of_map_eq ha with _ | ⟨hv, _ | ⟨_, _⟩⟩
    · exact hwrong s s' hs
    · exact compares_expandData h hahead hv hs (hlook rfl)
    · exact hwrong s s' hs
  | «repeat» =>
    rcases forall₂_of_map_eq ha with _ | ⟨hcount, _ | ⟨hprocedure, _ | ⟨_, _⟩⟩⟩
    · exact hwrong s s' hs
    · exact hwrong s s' hs
    · exact alike_repeatCall h hcount hprocedure s s' hs
    · exact hwrong s s' hs
  | exit =>
    rcases forall₂_of_map_eq ha with _ | ⟨hv, _ | ⟨_, _⟩⟩
    · exact Alike.throw rfl s s' hs
    · exact Alike.bindId (alike_argument (fun _ _ => Value.asNumber_seen _) hv (Value.unladen_asNumber _))
        (fun x => .throw rfl) s s' hs
    · exact hwrong s s' hs
  | expectType =>
    rcases forall₂_of_map_eq ha with _ | ⟨hexpected, _ | ⟨hv, _ | ⟨_, _⟩⟩⟩
    · exact hwrong s s' hs
    · exact hwrong s s' hs
    · have hname : Alike c id id (Eval.ofExcept (Control.expectedName _)) (Eval.ofExcept (Control.expectedName _)) :=
        alike_argument (fun _ v => by cases v <;> rfl) hexpected (Control.unladen_expectedName _)
      refine Alike.bindId hname (fun name => .bind .get fun m m' hm => ?_) s s' hs
      rw [conforms_of_seen hm hv, Value.eq_of_seen Value.typeName (fun _ _ => Value.typeName_seen _) hv]
      exact .ite (.pure hv) (.fault rfl)
    · exact hwrong s s' hs

theorem compares_operation (op : Operation) {args args' : List Value}
    (ha : args.map (Value.seen c.left) = args'.map (Value.seen c.right)) {s s' : Store}
    (hs : s.seen c.left = s'.seen c.right) (hlook : op = .control .expand → c.right.OverlooksExpansion r' args' s') :
    Compares c (Value.seen c.left) (Value.seen c.right) (op.run r args s) (op.run r' args' s') := by
  cases op with
  | arithmetic op =>
    exact Alike.bindId .freshStamp (fun stamp => .ofExcept (results_of_run ha (fun _ vs => Arithmetic.run_seen op stamp vs)
      (Arithmetic.unladen_run op stamp args'))) s s' hs
  | logic op =>
    exact Alike.ofExcept (results_of_run ha (fun _ vs => Logic.run_seen op vs) (Logic.unladen_run op args')) s s' hs
  | sequence op => exact Alike.ofExcept (results_of_seen ha fun _ vs => Sequence.run_seen op vs) s s' hs
  | inspection op =>
    have hrun : op.run args = op.run args' := by rw [← Inspection.run_seen (w := c.left), ha, Inspection.run_seen]
    rw [Operation.run, Operation.run, hrun]
    exact Alike.ofExcept (.refl (unladen_inspection op args') fun _ hv => hv) s s' hs
  | errors op =>
    exact Alike.bindId .freshStamp (fun stamp => .ofExcept (results_of_seen ha fun _ vs => ErrorHandling.run_seen op stamp vs))
      s s' hs
  | structs op =>
    exact Alike.bindId .freshStamp (fun stamp => .ofExcept (results_of_seen ha fun _ vs => StructOperation.run_seen op stamp vs))
      s s' hs
  | host op => exact alike_host op ha s s' hs
  | control op => exact compares_control h hahead op ha hs fun hop => hlook (congrArg Operation.control hop)

/-- Calls of a built-in procedure on alike arguments are alike, if the call does not look at spelled out shorthands. -/
theorem compares_builtin (b : Builtin) {args args' : List Value}
    (ha : args.map (Value.seen c.left) = args'.map (Value.seen c.right)) (scope : Scope) {s s' : Store}
    (hs : s.seen c.left = s'.seen c.right) (hlook : c.right.OverlooksCall r' (.builtin b) args' scope s') :
    Compares c (Value.seen c.left) (Value.seen c.right) (b.call r args scope s) (b.call r' args' scope s') := by
  have hlength : args.length = args'.length := by simpa using congrArg List.length ha
  unfold Builtin.call
  rw [hlength]
  split
  · refine Alike.withCaller scope hs (compares_operation h hahead b.operation ha ?_ hlook)
    exact congrArg (fun t : Store => { t with caller := scope }) hs
  · exact Alike.fault rfl s s' hs

end Control

end Lisplet
