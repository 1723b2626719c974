import Lisplet.Proofs.Evaluation.Running
import Lisplet.Proofs.Soundness.Computing
/-!
# Evaluation keeps a store sound

A recursion is sound when evaluating sound code in a scope of the ground, and applying a sound procedure to sound values,
keeps a store sound and gives a sound value (`Recursion.Sound`). Each part of the evaluator that calls a sound recursion
back does so too (`keeps_evaluateTerm`), and so, by induction on the steps allowed, does evaluation as a whole
(`sound_evaluate`).
-/
namespace Lisplet

/-- A recursion whose operations keep a store sound and give sound values. -/
structure Recursion.Sound (r : Recursion) : Prop where
  evaluate : ∀ {g : Ground} {t : Code} {scope : Scope}, t.Sound g → scope ∈ g.scopes →
    Keeps g Value.Sound (r.evaluate t scope)
  apply : ∀ {g : Ground} {f : Value} {args : List Value}, f.Sound g → Value.SoundAll g args →
    Keeps g Value.Sound (r.apply f args)

/-- The global scope is there from the start. -/
theorem ScopeTree.global_mem {scopes : List Scope} (h : ScopeTree scopes) : Scope.global ∈ scopes := by
  induction h with
  | global => exact List.mem_singleton_self _
  | inside _ _ ih => exact List.mem_append_left _ ih

/-- What happens in the global scope can count on it. -/
theorem Keeps.globally {α : Type} {g : Ground} {P : Ground → α → Prop} {act : Eval α}
    (h : Scope.global ∈ g.scopes → Keeps g P act) : Keeps g P act :=
  fun s hs => h hs.ground.tree.global_mem s hs

variable {r : Recursion} {g : Ground} {scope : Scope}

/-! ## Rows of terms -/

section Rows

variable (hr : r.Sound)
include hr

/-- A row leaves the values of all its terms sound, those of the first ones also behind the later ones. -/
theorem keeps_evaluateAll {ts : List Code} (hts : Term.SoundAll g ts) (hscope : scope ∈ g.scopes) :
    Keeps g Value.SoundAll (r.evaluateAll scope ts) := by
  induction ts generalizing g with
  | nil => exact .pure fun v hv => absurd hv List.not_mem_nil
  | cons t ts ih =>
    obtain ⟨ht, hts⟩ := List.forall_mem_cons.1 hts
    refine .bind (hr.evaluate ht hscope) fun h v hg hv => ?_
    refine .bind (ih (Term.soundAll_mono hg hts) (hg.scopes.subset hscope)) fun k vs hk hvs => ?_
    exact .pure (List.forall_mem_cons.2 ⟨hv.mono hk, hvs⟩)

/-- What is left of a body is its last term. -/
theorem keeps_evaluateLeading {ts : List Code} (hts : Term.SoundAll g ts) (hscope : scope ∈ g.scopes) :
    Keeps g Term.Sound (r.evaluateLeading scope ts) := by
  fun_induction Recursion.evaluateLeading r scope ts generalizing g with
  | case1 => exact .pure (by simp [Term.Sound, Term.values])
  | case2 t => exact .pure (hts t List.mem_cons_self)
  | case3 t ts _ ih =>
    obtain ⟨ht, hts⟩ := List.forall_mem_cons.1 hts
    exact .bind (hr.evaluate ht hscope) fun h _ hg _ => ih (Term.soundAll_mono hg hts) (hg.scopes.subset hscope)

theorem keeps_evaluateForms {ts : List Code} (hts : Term.SoundAll g ts) (hscope : scope ∈ g.scopes) :
    Keeps g Value.Sound (r.evaluateForms scope ts) := by
  fun_induction Recursion.evaluateForms r scope ts generalizing g with
  | case1 => exact .pure .nil
  | case2 t => exact hr.evaluate (hts t List.mem_cons_self) hscope
  | case3 t ts _ ih =>
    obtain ⟨ht, hts⟩ := List.forall_mem_cons.1 hts
    exact .bind (hr.evaluate ht hscope) fun h _ hg _ => ih (Term.soundAll_mono hg hts) (hg.scopes.subset hscope)

theorem keeps_formatParts {ps : List (Part Value)} (hps : ∀ t, Part.code t ∈ ps → t.Sound g) (hscope : scope ∈ g.scopes) :
    Keeps g Anything (r.formatParts scope ps) := by
  fun_induction Recursion.formatParts r scope ps generalizing g with
  | case1 => exact .pure trivial
  | case2 s ps ih =>
    exact .bind (ih (fun t ht => hps t (List.mem_cons_of_mem _ ht)) hscope) fun _ _ _ _ => .pure trivial
  | case3 t ps ih =>
    refine .bind (hr.evaluate (hps t List.mem_cons_self) hscope) fun h v hg _ => ?_
    refine .bind (ih (fun t ht => (hps t (List.mem_cons_of_mem _ ht)).mono hg) (hg.scopes.subset hscope)) ?_
    exact fun _ _ _ _ => .pure trivial

/-- Each binding is made from a value that is still sound when it is made. -/
theorem keeps_bindInTurn {pairs : List (String × Code)} (hp : ∀ p ∈ pairs, p.2.Sound g) (hscope : scope ∈ g.scopes) :
    Keeps g Anything (r.bindInTurn scope pairs) := by
  fun_induction Recursion.bindInTurn r scope pairs generalizing g with
  | case1 => exact .pure trivial
  | case2 name t rest ih =>
    obtain ⟨ht, hp⟩ := List.forall_mem_cons.1 hp
    refine .bind (hr.evaluate ht hscope) fun h v hg hv => .bind (.define scope name hv) fun k _ hk _ => ?_
    exact ih (fun p hm => (hp p hm).mono (hg.trans hk)) ((hg.trans hk).scopes.subset hscope)

/-! ## Templates -/

omit hr in
theorem sound_markedValue (m : Marker) {v : Value} (hv : v.Sound g) : (Recursion.markedValue m v).Sound g :=
  .list (by simpa using ⟨.symbol m.word, hv⟩)

/-- A template becomes sound data, as its own terms are sound and what its holes evaluate to is. -/
theorem keeps_quasiquote (d : Nat) {t : Code} (ht : t.Sound g) (hscope : scope ∈ g.scopes) :
    Keeps g Value.Sound (r.quasiquote scope d t) := by
  refine (Recursion.quasiquote.mutual_induct
    (fun d t => ∀ g : Ground, t.Sound g → scope ∈ g.scopes → Keeps g Value.Sound (r.quasiquote scope d t))
    (fun d ts => ∀ g : Ground, Term.SoundAll g ts → scope ∈ g.scopes →
      Keeps g Value.SoundAll (r.quasiquoteAll scope d ts))
    ?unquoted ?unquotedInside ?quasiquoted ?quoted ?hole ?holeInside ?row ?atom ?nil ?cons).1 d t g ht hscope
  case unquoted =>
    intro pos t g ht hscope
    rw [Recursion.quasiquote]
    exact hr.evaluate (Term.sound_marked.1 ht) hscope
  case unquotedInside | quasiquoted | quoted =>
    intro d pos t ih g ht hscope
    rw [Recursion.quasiquote]
    exact .bind (ih g (Term.sound_marked.1 ht) hscope) fun h v _ hv => .pure (sound_markedValue _ hv)
  case hole =>
    intro pos pos' t g ht hscope
    rw [Recursion.quasiquote]
    exact hr.evaluate (Term.sound_list.1 ht t (by simp)) hscope
  case holeInside =>
    intro d pos pos' t ih g ht hscope
    rw [Recursion.quasiquote]
    exact .bind (ih g (Term.sound_list.1 ht t (by simp)) hscope) fun h v _ hv => .pure (sound_markedValue _ hv)
  case row =>
    intro d pos ts h₁ h₂ ih g ht hscope
    rw [Recursion.quasiquote]
    · exact .bind (ih g (Term.sound_list.1 ht) hscope) fun h vs _ hvs => .pure (.list hvs)
    · exact h₁
    · exact h₂
  case atom =>
    intro d t h₁ h₂ h₃ h₄ h₅ h₆ h₇ g ht hscope
    rw [Recursion.quasiquote]
    · exact .pure ht.toValue
    all_goals assumption
  case nil =>
    intro d g _ _
    rw [Recursion.quasiquoteAll]
    exact .pure fun v hv => absurd hv List.not_mem_nil
  case cons =>
    intro d t ts iht ihts g hts hscope
    obtain ⟨ht, hts⟩ := List.forall_mem_cons.1 hts
    rw [Recursion.quasiquoteAll]
    refine .bind (iht g ht hscope) fun h v hg hv => ?_
    refine .bind (ihts h (Term.soundAll_mono hg hts) (hg.scopes.subset hscope)) fun k vs hk hvs => ?_
    exact .pure (List.forall_mem_cons.2 ⟨hv.mono hk, hvs⟩)

/-- A hole is filled with an operand or with what it evaluates to, taken for code. -/
theorem keeps_fillHole {args : Bindings Code} (hargs : SoundBindings g args) (pos : Position) {t : Code}
    (ht : t.Sound g) (hscope : scope ∈ g.scopes) : Keeps g Term.Sound (Expansion.fillHole r args scope pos t) := by
  unfold Expansion.fillHole
  split
  next operand ho =>
    obtain ⟨name, -, hname⟩ := Option.bind_eq_some_iff.1 ho
    exact .pure (hargs name operand hname)
  next => exact .bind (hr.evaluate ht hscope) fun h v _ hv => .pure (hv.toTerm pos)

theorem keeps_fill {args : Bindings Code} (hargs : SoundBindings g args) (d : Nat) {t : Code} (ht : t.Sound g)
    (hscope : scope ∈ g.scopes) : Keeps g Term.Sound (Expansion.fill r args scope d t) := by
  refine (Expansion.fill.mutual_induct
    (fun d t => ∀ g : Ground, SoundBindings g args → t.Sound g → scope ∈ g.scopes →
      Keeps g Term.Sound (Expansion.fill r args scope d t))
    (fun d ps => ∀ g : Ground, SoundBindings g args → (∀ t, Part.code t ∈ ps → t.Sound g) → scope ∈ g.scopes →
      Keeps g (fun g ps => ∀ t, Part.code t ∈ ps → t.Sound g) (Expansion.fillParts r args scope d ps))
    (fun d ts => ∀ g : Ground, SoundBindings g args → Term.SoundAll g ts → scope ∈ g.scopes →
      Keeps g Term.SoundAll (Expansion.fillAll r args scope d ts))
    ?unquoted ?unquotedInside ?quasiquoted ?quoted ?row ?format ?atom ?nil ?cons ?noParts ?text ?code).1
      d t g hargs ht hscope
  case unquoted =>
    intro pos t g hargs ht hscope
    rw [Expansion.fill]
    exact keeps_fillHole hr hargs pos (Term.sound_marked.1 ht) hscope
  case unquotedInside | quasiquoted | quoted =>
    intro d pos t ih g hargs ht hscope
    rw [Expansion.fill]
    exact .bind (ih g hargs (Term.sound_marked.1 ht) hscope) fun h u _ hu => .pure (Term.sound_marked.2 hu)
  case row =>
    intro d pos ts ih g hargs ht hscope
    rw [Expansion.fill]
    exact .bind (ih g hargs (Term.sound_list.1 ht) hscope) fun h us _ hus => .pure (Term.sound_list.2 hus)
  case format =>
    intro d pos ps ih g hargs ht hscope
    rw [Expansion.fill]
    exact .bind (ih g hargs (Term.sound_format.1 ht) hscope) fun h us _ hus => .pure (Term.sound_format.2 hus)
  case atom =>
    intro d t h₁ h₂ h₃ h₄ h₅ h₆ g hargs ht hscope
    rw [Expansion.fill]
    · exact .pure ht
    all_goals assumption
  case nil =>
    intro d g _ _ _
    rw [Expansion.fillAll]
    exact .pure fun t ht => absurd ht List.not_mem_nil
  case cons =>
    intro d t ts iht ihts g hargs hts hscope
    obtain ⟨ht, hts⟩ := List.forall_mem_cons.1 hts
    rw [Expansion.fillAll]
    refine .bind (iht g hargs ht hscope) fun h u hg hu => ?_
    refine .bind (ihts h (hargs.mono hg) (Term.soundAll_mono hg hts) (hg.scopes.subset hscope)) fun k us hk hus => ?_
    exact .pure (List.forall_mem_cons.2 ⟨hu.mono hk, hus⟩)
  case noParts =>
    intro d g _ _ _
    rw [Expansion.fillParts]
    exact .pure fun t ht => absurd ht List.not_mem_nil
  case text =>
    intro d s ps ih g hargs hps hscope
    rw [Expansion.fillParts]
    refine .bind (ih g hargs (fun t ht => hps t (List.mem_cons_of_mem _ ht)) hscope) fun h us _ hus => ?_
    exact .pure fun t ht => hus t (by simpa using ht)
  case code =>
    intro d t ps iht ihps g hargs hps hscope
    have hrest : ∀ t, Part.code t ∈ ps → t.Sound g := fun t ht => hps t (List.mem_cons_of_mem _ ht)
    rw [Expansion.fillParts]
    refine .bind (iht g hargs (hps t List.mem_cons_self) hscope) fun h u hg hu => ?_
    refine .bind (ihps h (hargs.mono hg) (fun t ht => (hrest t ht).mono hg) (hg.scopes.subset hscope))
      fun k us hk hus => .pure fun t ht => ?_
    rcases List.mem_cons.1 ht with he | ht
    · obtain rfl := Part.code.inj he
      exact hu.mono hk
    · exact hus t ht

end Rows

/-- The operands of a macro call are bound as data. -/
theorem keeps_bindOperands {pairs : List (String × Code)} (hp : ∀ p ∈ pairs, p.2.Sound g) :
    Keeps g Anything (Expansion.bindOperands scope pairs) := by
  fun_induction Expansion.bindOperands scope pairs generalizing g with
  | case1 => exact .pure trivial
  | case2 param operand rest ih =>
    obtain ⟨hfirst, hp⟩ := List.forall_mem_cons.1 hp
    exact .bind (.define scope param hfirst.toValue) fun h _ hg _ => ih fun p hm => (hp p hm).mono hg

theorem sound_zip (params : List String) {operands : List Code} (hos : Term.SoundAll g operands) :
    ∀ p ∈ params.zip operands, p.2.Sound g :=
  fun _ hp => hos _ (List.of_mem_zip hp).2

/-- An expansion of sound operands is sound: what a template or a rule brings with it is. -/
theorem keeps_expand (hr : r.Sound) {stamp : Stamp} {name : String} {t : Transformer Value}
    (ht : Value.Sound g (.expander stamp name t)) {operands : List Code} (hos : Term.SoundAll g operands) :
    Keeps g Term.Sound (Expansion.expand r name t operands) := by
  unfold Expansion.expand
  cases ht with
  | @template _ _ params body scope hscope hbody =>
    have hpairs := sound_zip params hos
    refine .ite (.bind (.childScope hscope) fun h inner hg hinner => ?_) (.fault rfl)
    refine .bind (keeps_bindOperands fun p hm => (hpairs p hm).mono hg) fun k _ hk _ => ?_
    have hbody : body.Sound k := Term.Sound.mono (hg.trans hk) hbody
    have hinner := hk.scopes.subset hinner
    split
    · exact keeps_fill hr (Expansion.sound_operandsByName fun p hm => (hpairs p hm).mono (hg.trans hk)) 0
        (Term.sound_marked.1 hbody) hinner
    · exact .bind (hr.evaluate hbody hinner) fun _ v _ hv => .pure (hv.toTerm _)
  | rule _ htemplate => exact .ofExcept (Expansion.gives_expandRule _ _ htemplate hos)

/-! ## Built-in procedures -/

theorem gives_wrongCount (args : List Value) : Gives g Value.Sound (Builtin.wrongCount args) := .fault rfl

/-- What comes from the host has no value of the program in it. -/
theorem keeps_host (op : HostOperation) (args : List Value) : Keeps g Value.Sound (op.run args) := by
  unfold HostOperation.run
  split
  · exact .bind (.write _) fun _ _ _ _ => .pure .nil
  · exact .bind (.write _) fun _ _ _ _ => .pure .nil
  · exact .bind (.write _) fun _ _ _ _ => .pure .nil
  · exact .bind (.writeError _) fun _ _ _ _ => .pure .nil
  · exact .fault rfl
  · refine .bind .readLine fun _ line _ _ => ?_
    split
    · exact .pure (.string _ _)
    · exact .pure .nil
  · exact .bind (.ofExcept (gives_asString _)) fun _ _ _ _ => .bind .get fun _ _ _ _ =>
      .bind (.readFile _) fun _ _ _ _ => .pure (.string _ _)
  · refine .bind (.ofExcept (gives_asString _)) fun _ _ _ _ => .bind .get fun _ _ _ _ =>
      .bind (.answer _ _) fun _ text _ _ => ?_
    split
    · exact .pure (.string _ _)
    · exact .pure .nil
  · exact .bind .currentTime fun _ _ _ _ => .pure (.number _ _)
  · exact .bind .chance fun _ _ _ _ => .pure (.number _ _)
  · exact .ofExcept (gives_wrongCount _)

section Steering

variable (hr : r.Sound)
include hr

theorem keeps_formatPieces (ps : List Format.Piece) (hglobal : Scope.global ∈ g.scopes) :
    Keeps g Anything (Control.formatPieces r ps) := by
  fun_induction Control.formatPieces r ps generalizing g with
  | case1 => exact .pure trivial
  | case2 raw value ps ih => exact .bind (ih hglobal) fun _ _ _ _ => .pure trivial
  | case3 source ps ih =>
    refine .bind (.ofExcept (gives_readForm _)) fun h t hg ht => ?_
    refine .bind (hr.evaluate ht (hg.scopes.subset hglobal)) fun k v hk _ => ?_
    exact .bind (ih ((hg.trans hk).scopes.subset hglobal)) fun _ _ _ _ => .pure trivial

theorem keeps_formatText (template : String) : Keeps g Value.Sound (Control.formatText r template) := by
  unfold Control.formatText
  split
  · exact .fault rfl
  · exact .globally fun hglobal => .bind (keeps_formatPieces hr _ hglobal) fun _ _ _ _ => .pure (.string _ _)

/-- Data is taken for a call, expanded, and the expansion is taken for data again. -/
theorem keeps_expandData {data : Value} (hdata : data.Sound g) : Keeps g Value.Sound (Control.expandData r data) := by
  unfold Control.expandData
  split
  next name operands =>
    refine .bind .get fun h s hg hs => ?_
    have hoperands : Value.SoundAll h operands := by
      cases hdata with
      | list hitems => exact Value.soundAll_mono hg (List.forall_mem_cons.1 hitems).2
    split
    next => exact .fault rfl
    next stamp own t hlookup =>
      have ht : Value.Sound h (.expander stamp own t) := hs.lookup? (Frames.lookup_eq_ok.1 hlookup)
      exact .bind (keeps_expand hr ht (Value.toTerms_sound _ hoperands)) fun _ _ _ hu => .pure hu.toValue
    next => exact .fault rfl
  next => exact .fault rfl

omit hr in
theorem keeps_times {act : Eval Value} (hact : ∀ h, g.Grows h → Keeps h Value.Sound act) (n : Nat) :
    Keeps g Anything (Control.times n act) := by
  induction n generalizing g with
  | zero => exact .pure trivial
  | succ n ih => exact .bind (hact g (.refl g)) fun h _ hg _ => ih fun k hk => hact k (hg.trans hk)

/-- The value of the last call is given back, and the earlier ones are dropped. -/
theorem keeps_repeatCall (count : Value) {procedure : Value} (hp : procedure.Sound g) :
    Keeps g Value.Sound (Control.repeatCall r count procedure) := by
  refine .bind (.ofExcept (gives_asNumber _)) fun h x hg _ => ?_
  have hcall : ∀ k, h.Grows k → Keeps k Value.Sound (r.apply procedure []) := fun k hk =>
    hr.apply (hp.mono (hg.trans hk)) fun v hv => absurd hv List.not_mem_nil
  split
  · exact .ite (.bind (keeps_times hcall _) fun _ _ _ _ => .pure .nil) (.fault rfl)
  · exact .fault rfl

omit hr in
theorem gives_expectedName (v : Value) : Gives g Anything (Control.expectedName v) := by
  unfold Control.expectedName
  split
  · trivial
  · trivial
  · exact .fault rfl

theorem keeps_control (op : Control) {args : List Value} (hargs : Value.SoundAll g args) :
    Keeps g Value.Sound (Control.run r op args) := by
  unfold Control.run
  split
  · exact .globally fun hglobal => hr.evaluate ((hargs _ List.mem_cons_self).toTerm _) hglobal
  · exact .bind (.ofExcept (gives_asString _)) fun _ _ _ _ => keeps_formatText hr _
  · exact keeps_expandData hr (hargs _ List.mem_cons_self)
  · exact keeps_repeatCall hr _ (hargs _ (by simp))
  · exact .throw trivial
  · exact .bind (.ofExcept (gives_asNumber _)) fun _ _ _ _ => .throw trivial
  · refine .bind (.ofExcept (gives_expectedName _)) fun h _ hg _ => .bind .get fun k _ hk _ => .ite (.pure ?_) (.fault rfl)
    exact (hargs _ (by simp)).mono (hg.trans hk)
  · exact .ofExcept (gives_wrongCount _)

/-- The arguments fit the arity of the procedure, which for a constructor is the number of its type's fields. -/
theorem keeps_operation {b : Builtin} (hb : b.Sound g) {args : List Value} (haccept : b.arity.accepts args.length)
    (hargs : Value.SoundAll g args) : Keeps g Value.Sound (b.operation.run r args) := by
  cases hop : b.operation with
  | arithmetic op => exact .making fun stamp => gives_arithmetic op stamp args
  | logic op => exact .ofExcept (gives_logic op args)
  | sequence op => exact .ofExcept (gives_sequence op hargs)
  | inspection op => exact .ofExcept (gives_inspection op args)
  | errors op => exact .making fun stamp => gives_errors op stamp hargs
  | structs op => exact .making fun stamp => gives_structs hb hop stamp haccept hargs
  | host op => exact keeps_host op args
  | control op => exact keeps_control hr op hargs

/-- A sound procedure gives a sound value on sound arguments; of structs it makes those of a registered type. -/
theorem keeps_builtin {b : Builtin} (hb : b.Sound g) {args : List Value} (hargs : Value.SoundAll g args)
    (scope : Scope) : Keeps g Value.Sound (b.call r args scope) := by
  unfold Builtin.call
  split
  case isTrue haccept => exact .withCaller scope (keeps_operation hr hb haccept hargs)
  case isFalse => exact .fault rfl

end Steering

/-! ## Procedures and definitions -/

/-- The parameters of a closure were checked when it was made. -/
theorem gives_paramNames (params : List Code) :
    Gives g (fun _ names => ∀ name ∈ names, isReserved name = false) (Recursion.paramNames params) := by
  fun_induction Recursion.paramNames params with
  | case1 => exact fun name hn => absurd hn List.not_mem_nil
  | case2 => exact .fault rfl
  | case3 pos name rest hfree ih =>
    exact ih.bind fun names hnames => List.forall_mem_cons.2 ⟨by simpa using hfree, hnames⟩
  | case4 => exact .fault rfl

/-- A closure is sound under the stamp that was handed out for it, in a scope that was opened. -/
theorem keeps_makeClosure (name : Option String) (params : List Code) {body : List Code} (hne : body.isEmpty = false)
    (hbody : Term.SoundAll g body) (hscope : scope ∈ g.scopes) :
    Keeps g Value.Sound (Recursion.makeClosure name params body scope) := by
  refine .bind (.ofExcept (gives_paramNames params)) fun h names hg hnames => .bind .freshStamp fun k _ hk _ => .pure ?_
  exact .closure ((hg.trans hk).scopes.subset hscope) (by simpa using hne) hnames
    (Term.soundAll_mono (hg.trans hk) hbody)

theorem keeps_lambdaForm {operands : List Code} (hos : Term.SoundAll g operands) (hscope : scope ∈ g.scopes) :
    Keeps g Value.Sound (Direct.lambdaForm scope operands) := by
  unfold Direct.lambdaForm
  split
  · split
    case isTrue => exact .fault rfl
    case isFalse hne => exact keeps_makeClosure _ _ (by simpa using hne) (List.forall_mem_cons.1 hos).2 hscope
  · exact .fault rfl

/-- A closure without a name is made anew under the name, with a stamp of its own. -/
theorem keeps_named (name : String) {v : Value} (hv : v.Sound g) : Keeps g Value.Sound (Recursion.named name v) := by
  unfold Recursion.named
  split
  · refine .bind .freshStamp fun h stamp hg _ => .pure ?_
    cases hv.mono hg with
    | closure hscope hne hparams hbody => exact .closure hscope hne hparams hbody
  · exact .pure hv

theorem keeps_defineProcedure (pos : Position) (pattern : List Code) {body : List Code} (hbody : Term.SoundAll g body)
    (hscope : scope ∈ g.scopes) : Keeps g Value.Sound (Direct.defineProcedure scope pos pattern body) := by
  unfold Direct.defineProcedure
  split
  · exact .fault rfl
  · split
    case isTrue => exact .fault rfl
    case isFalse hne =>
      split
      · refine .bind (keeps_makeClosure _ _ (by simpa using hne) hbody hscope) fun h v _ hv => ?_
        exact .bind (.define scope _ hv) fun _ _ _ _ => .bind (.trace _) fun _ _ _ _ => .pure .nil
      · exact .fault rfl

/-- The procedures of a registered type are sound: only the constructor makes structs, and it asks for all fields. -/
theorem sound_ofStructType {type : StructType} (ht : type ∈ g.registry.types) :
    ∀ b ∈ Builtin.ofStructType type, b.Sound g := by
  intro b hb type' hop
  rcases List.mem_cons.1 hb with rfl | hb
  · obtain rfl : type = type' := by simpa using hop
    exact ⟨ht, rfl⟩
  rcases List.mem_cons.1 hb with rfl | hb
  · cases hop
  · obtain ⟨⟨field, index⟩, -, rfl⟩ := List.mem_map.1 hb
    cases hop

/-- Procedures that are defined in a row are sound if each is. -/
theorem keeps_defineBuiltins {bs : List Builtin} (hbs : ∀ b ∈ bs, b.Sound g) :
    Keeps g Anything (Recursion.defineBuiltins scope bs) := by
  fun_induction Recursion.defineBuiltins scope bs generalizing g with
  | case1 => exact .pure trivial
  | case2 b bs ih =>
    obtain ⟨hb, hbs⟩ := List.forall_mem_cons.1 hbs
    exact .bind (.define scope _ (.builtin hb)) fun h _ hg _ => ih fun b hm => (hbs b hm).mono hg

/-- The procedures of a struct type are sound once the type is registered. -/
theorem keeps_structForm (operands : List Code) : Keeps g Value.Sound (Direct.structForm scope operands) := by
  unfold Direct.structForm
  split
  · split
    · exact .fault rfl
    · refine .bind (.registerStruct _ _) fun h type _ ht => ?_
      refine .bind (.define scope _ (.structType ht)) fun k _ hk _ => ?_
      refine .bind (keeps_defineBuiltins (sound_ofStructType (hk.types.subset ht))) fun _ _ _ _ => ?_
      exact .bind (.trace _) fun _ _ _ _ => .pure .nil
  · exact .fault rfl

/-- The parts of a macro definition are among its operands. -/
theorem gives_macroSignature {operands : List Code} (hos : Term.SoundAll g operands) :
    Gives g (fun g p => Term.SoundAll g p.2.1 ∧ p.2.2.Sound g) (Recursion.macroSignature operands) := by
  unfold Recursion.macroSignature
  split
  · obtain ⟨hpattern, hbody⟩ : Term.Sound g _ ∧ Term.Sound g _ := by simpa [Term.SoundAll] using hos
    exact ⟨(List.forall_mem_cons.1 (Term.sound_list.1 hpattern)).2, hbody⟩
  · exact .fault rfl
  · exact .fault rfl
  · exact .fault rfl

theorem gives_macroParams (params : List Code) : Gives g Anything (Recursion.macroParams params) := by
  fun_induction Recursion.macroParams params with
  | case1 => trivial
  | case2 pos name rest ih => exact ih.bind fun _ _ => trivial
  | case3 => exact .fault rfl

/-- A macro keeps the scope that it was defined in. -/
theorem keeps_templateForm {operands : List Code} (hos : Term.SoundAll g operands) (hscope : scope ∈ g.scopes) :
    Keeps g Value.Sound (Direct.templateForm scope operands) := by
  refine .bind (.ofExcept (gives_macroSignature hos)) fun h parts hg hparts => ?_
  refine .bind (.ofExcept (gives_macroParams _)) fun k names hk _ => .bind .freshStamp fun l stamp hl _ => ?_
  have hm : Value.Sound l (.expander stamp parts.1 (.template names parts.2.2 scope)) :=
    .template (((hg.trans hk).trans hl).scopes.subset hscope) (hparts.2.mono (hk.trans hl))
  exact .bind (.define scope _ hm) fun _ _ _ _ => .bind (.trace _) fun _ _ _ _ => .pure .nil

theorem keeps_ruleForm {operands : List Code} (hos : Term.SoundAll g operands) :
    Keeps g Value.Sound (Direct.ruleForm scope operands) := by
  refine .bind (.ofExcept (gives_macroSignature hos)) fun h parts hg hparts => .bind .freshStamp fun k stamp hk _ => ?_
  have hm : Value.Sound k (.expander stamp parts.1 (.rule parts.2.1 parts.2.2)) :=
    .rule (Term.soundAll_mono hk hparts.1) (hparts.2.mono hk)
  exact .bind (.define scope _ hm) fun _ _ _ _ => .bind (.trace _) fun _ _ _ _ => .pure .nil

/-! ## Forms that evaluate -/

section Forms

variable (hr : r.Sound)
include hr

theorem keeps_defineForm {operands : List Code} (hos : Term.SoundAll g operands) (hscope : scope ∈ g.scopes) :
    Keeps g Value.Sound (Direct.defineForm r scope operands) := by
  unfold Direct.defineForm
  split
  · exact .fault rfl
  · exact keeps_defineProcedure _ _ (List.forall_mem_cons.1 hos).2 hscope
  · refine .bind (hr.evaluate (hos _ (by simp)) hscope) fun _ v _ hv => .bind (keeps_named _ hv) fun _ w _ hw => ?_
    exact .bind (.define scope _ hw) fun _ _ _ _ => .bind (.trace _) fun _ _ _ _ => .pure .nil
  · exact .fault rfl
  · exact .fault rfl

/-- An assignment puts a sound value in the place of another. -/
theorem keeps_assignForm {operands : List Code} (hos : Term.SoundAll g operands) (hscope : scope ∈ g.scopes) :
    Keeps g Value.Sound (Direct.assignForm r scope operands) := by
  unfold Direct.assignForm
  split
  · refine .ite (.fault rfl) (.bind (hr.evaluate (hos _ (by simp)) hscope) fun _ v _ hv => ?_)
    exact .bind (.assign scope _ hv) fun _ _ _ _ => .pure .nil
  · exact .fault rfl
  · exact .fault rfl

/-- The consequent that is chosen is evaluated in what the conditions have left. -/
theorem keeps_condForm {clauses : List Code} (hcs : Term.SoundAll g clauses) (hscope : scope ∈ g.scopes) :
    Keeps g Value.Sound (Direct.condForm r scope clauses) := by
  fun_induction Direct.condForm r scope clauses generalizing g with
  | case1 => exact .pure .nil
  | case2 pos condition consequent =>
    exact hr.evaluate (Term.sound_list.1 (List.forall_mem_cons.1 hcs).1 consequent (by simp)) hscope
  | case3 pos condition consequent clauses _ ih =>
    obtain ⟨hclause, hcs⟩ := List.forall_mem_cons.1 hcs
    obtain ⟨hcondition, hconsequent⟩ : condition.Sound g ∧ consequent.Sound g := by
      simpa using Term.sound_list.1 hclause
    refine .bind (hr.evaluate hcondition hscope) fun h v hg _ => ?_
    split
    · exact hr.evaluate (hconsequent.mono hg) (hg.scopes.subset hscope)
    · exact ih (Term.soundAll_mono hg hcs) (hg.scopes.subset hscope)
    · exact .fault rfl
  | case4 => exact .fault rfl
  | case5 => exact .fault rfl

theorem keeps_branchForm {operands : List Code} (hos : Term.SoundAll g operands) (hscope : scope ∈ g.scopes) :
    Keeps g Value.Sound (Direct.branchForm r scope operands) := by
  unfold Direct.branchForm
  split
  · obtain ⟨hcondition, hconsequent, halternative⟩ : Term.Sound g _ ∧ Term.Sound g _ ∧ Term.Sound g _ := by
      simpa [Term.SoundAll] using hos
    refine .bind (hr.evaluate hcondition hscope) fun h v hg _ => ?_
    split
    · exact hr.evaluate (hconsequent.mono hg) (hg.scopes.subset hscope)
    · exact hr.evaluate (halternative.mono hg) (hg.scopes.subset hscope)
    · exact .fault rfl
  · exact .fault rfl

theorem keeps_evaluateBody {body : List Code} (hbody : Term.SoundAll g body) (hscope : scope ∈ g.scopes) :
    Keeps g Value.Sound (Direct.evaluateBody r scope body) :=
  .bind (keeps_evaluateLeading hr hbody hscope) fun _ _ hg ht => hr.evaluate ht (hg.scopes.subset hscope)

omit hr in
/-- The terms of a binding list are parts of the form. -/
theorem gives_bindingPairs {elements : List Code} (hes : Term.SoundAll g elements) :
    Gives g (fun g pairs => ∀ p ∈ pairs, p.2.Sound g) (Recursion.bindingPairs elements) := by
  fun_induction Recursion.bindingPairs elements with
  | case1 => exact fun p hp => absurd hp List.not_mem_nil
  | case2 pos pos' name term rest ih =>
    obtain ⟨hpair, hes⟩ := List.forall_mem_cons.1 hes
    have hterm : term.Sound g := Term.sound_list.1 hpair term (by simp)
    exact (ih hes).bind fun pairs hpairs => List.forall_mem_cons.2 ⟨hterm, hpairs⟩
  | case3 => exact .fault rfl
  | case4 => exact .fault rfl
  | case5 => exact .fault rfl

omit hr in
theorem sound_bindingList {head : Code} (hhead : head.Sound g) {elements : List Code}
    (he : Recursion.bindingList? head = some elements) : Term.SoundAll g elements := by
  unfold Recursion.bindingList? at he
  split at he
  · obtain rfl := Option.some.inj he
    exact Term.sound_list.1 hhead
  · obtain rfl := Option.some.inj he
    exact fun t ht => absurd ht List.not_mem_nil
  · cases he

/-- The scope of a `let` is a new one inside a scope that was opened. -/
theorem keeps_letForm {operands : List Code} (hos : Term.SoundAll g operands) (hscope : scope ∈ g.scopes) :
    Keeps g Value.Sound (Direct.letForm r scope operands) := by
  unfold Direct.letForm
  split
  · exact .fault rfl
  · obtain ⟨hhead, hbody⟩ := List.forall_mem_cons.1 hos
    split
    next => exact .fault rfl
    next elements he =>
      refine .bind (.ofExcept (gives_bindingPairs (sound_bindingList hhead he))) fun h pairs hg hpairs => ?_
      refine .ite (.fault rfl) (.bind (.childScope (hg.scopes.subset hscope)) fun k inner hk hinner => ?_)
      refine .bind (keeps_bindInTurn hr (fun p hp => (hpairs p hp).mono hk) hinner) fun l _ hl _ => ?_
      exact keeps_evaluateBody hr (Term.soundAll_mono ((hg.trans hk).trans hl) hbody) (hl.scopes.subset hinner)

theorem keeps_beginForm {body : List Code} (hbody : Term.SoundAll g body) (hscope : scope ∈ g.scopes) :
    Keeps g Value.Sound (Direct.beginForm r scope body) :=
  .ite (.pure .nil) (keeps_evaluateBody hr hbody hscope)

omit hr in
theorem gives_single {operands : List Code} (hos : Term.SoundAll g operands) :
    Gives g Term.Sound (Recursion.single operands) := by
  unfold Recursion.single
  split
  · exact hos _ List.mem_cons_self
  · exact .fault rfl

theorem keeps_markedForm (pos : Position) {operands : List Code} (hos : Term.SoundAll g operands)
    (hscope : scope ∈ g.scopes) (m : Marker) : Keeps g Value.Sound (Direct.markedForm r scope pos operands m) := by
  cases m with
  | quote => exact .bind (.ofExcept (gives_single hos)) fun _ _ _ ht => .pure ht.toValue
  | quasiquote =>
    exact .bind (.ofExcept (gives_single hos)) fun _ _ hg ht => keeps_quasiquote hr 0 ht (hg.scopes.subset hscope)
  | unquote => exact .fault rfl

/-! ## Faults and files -/

/-- A fault that is caught becomes a sound error value, which the handler is applied to. -/
theorem keeps_attemptForm {operands : List Code} (hos : Term.SoundAll g operands) (hscope : scope ∈ g.scopes) :
    Keeps g Value.Sound (Direct.attemptForm r scope operands) := by
  unfold Direct.attemptForm
  split
  · obtain ⟨hbody, hterm⟩ : Term.Sound g _ ∧ Term.Sound g _ := by simpa [Term.SoundAll] using hos
    refine .bind (hr.evaluate hterm hscope) fun h handler hg hhandler => .ite ?_ (.fault rfl)
    refine .catching (hr.evaluate (hbody.mono hg) (hg.scopes.subset hscope)) fun k f hk hf => ?_
    refine .bind (.trace _) fun l _ hl _ => .bind (.markedStamp f.toValue) fun m stamp hm hmade => ?_
    have hlater := (hk.trans hl).trans hm
    refine hr.apply (hhandler.mono hlater) ?_
    exact List.forall_mem_singleton.2 ((hf.mono (hl.trans hm)).toValue hmade)
  · exact .fault rfl

theorem keeps_evaluateSource (source : String) (hscope : scope ∈ g.scopes) :
    Keeps g Value.Sound (r.evaluateSource scope source) :=
  .bind (.ofExcept (gives_readForms source)) fun _ _ hg hts => keeps_evaluateForms hr hts (hg.scopes.subset hscope)

/-- The forms of a file are read, and so sound, and evaluated in the global scope. -/
theorem keeps_importFile (file : String) : Keeps g Anything (r.importFile file) := by
  have htext (h : Ground) (text : String) : Keeps h Value.Sound (r.evaluateSource .global text) :=
    .globally fun hglobal => keeps_evaluateSource hr text hglobal
  refine .bind .get fun _ s _ _ => .ite (.trace _) (.bind (.readFile _) fun _ text _ _ => ?_)
  exact .bind (.trace _) fun h _ _ _ => .bind (.withImport _ (htext h text)) fun _ _ _ _ => .pure trivial

theorem keeps_importForm {operands : List Code} (hos : Term.SoundAll g operands) (hscope : scope ∈ g.scopes) :
    Keeps g Value.Sound (Direct.importForm r scope operands) :=
  .bind (.ofExcept (gives_single hos)) fun _ _ hg ht => .bind (hr.evaluate ht (hg.scopes.subset hscope)) fun _ _ _ _ =>
    .bind (.ofExcept (gives_asString _)) fun _ file _ _ => .bind (keeps_importFile hr file) fun _ _ _ _ => .pure .nil

theorem keeps_specialForm (pos : Position) {operands : List Code} (hos : Term.SoundAll g operands)
    (hscope : scope ∈ g.scopes) (keyword : Keyword) :
    Keeps g Value.Sound (Direct.specialForm r scope pos operands keyword) := by
  cases keyword with
  | define => exact keeps_defineForm hr hos hscope
  | lambda => exact keeps_lambdaForm hos hscope
  | cond => exact keeps_condForm hr hos hscope
  | branch => exact keeps_branchForm hr hos hscope
  | letIn => exact keeps_letForm hr hos hscope
  | begin => exact keeps_beginForm hr hos hscope
  | marked m => exact keeps_markedForm hr pos hos hscope m
  | defineStruct => exact keeps_structForm operands
  | defineTemplate => exact keeps_templateForm hos hscope
  | defineRule => exact keeps_ruleForm hos
  | assign => exact keeps_assignForm hr hos hscope
  | attempt => exact keeps_attemptForm hr hos hscope
  | load => exact keeps_importForm hr hos hscope

/-! ## Calls -/

omit hr in
theorem keeps_bindParams {pairs : List (String × Value)} (hp : ∀ p ∈ pairs, p.2.Sound g) :
    Keeps g Anything (Recursion.bindParams scope pairs) := by
  fun_induction Recursion.bindParams scope pairs generalizing g with
  | case1 => exact .pure trivial
  | case2 name v rest ih =>
    obtain ⟨hv, hp⟩ := List.forall_mem_cons.1 hp
    exact .bind (.define scope name hv) fun h _ hg _ => ih fun p hm => (hp p hm).mono hg

/-- A closure keeps to a scope of the ground, so its body is evaluated in a new one inside it. -/
theorem keeps_call (pos : Option Position) {f : Value} (hf : f.Sound g) {args : List Value}
    (hargs : Value.SoundAll g args) : Keeps g Value.Sound (Direct.call r scope pos f args) := by
  unfold Direct.call
  split
  · cases hf with
    | builtin hb => exact keeps_builtin hr hb hargs scope
  · cases hf with
    | closure hscope _ _ hbody =>
      refine .ite (.bind (.childScope hscope) fun h inner hg hinner => ?_) (.fault rfl)
      refine .bind (keeps_bindParams fun p hp => (hargs _ (List.of_mem_zip hp).2).mono hg) fun k _ hk _ => ?_
      exact keeps_evaluateBody hr (Term.soundAll_mono (hg.trans hk) hbody) (hk.scopes.subset hinner)
  · exact .fault rfl

theorem keeps_evaluateAtom {t : Code} (ht : t.Sound g) (hscope : scope ∈ g.scopes) :
    Keeps g Value.Sound (r.evaluateAtom scope t) := by
  unfold Recursion.evaluateAtom
  split
  · exact .lookup scope _ _
  · exact .pure (Term.sound_marked.1 ht).toValue
  · exact keeps_quasiquote hr 0 (Term.sound_marked.1 ht) hscope
  · exact .fault rfl
  · exact .bind (keeps_formatParts hr (Term.sound_format.1 ht) hscope) fun _ _ _ _ => .pure (.string _ _)
  · exact .pure ht.toValue

omit hr in
/-- A macro that is looked up is the sound value of a binding. -/
theorem keeps_expander? (head : Code) :
    Keeps g (fun g found => ∀ p ∈ found, ∃ stamp, Value.Sound g (.expander stamp p.1 p.2))
      (Recursion.expander? scope head) := by
  unfold Recursion.expander?
  split
  · exact .pure (by simp)
  · refine .bind (.lookup? scope _) fun h o _ ho => ?_
    split
    next stamp own t =>
      refine .pure fun p hp => ?_
      obtain rfl := Option.some.inj hp
      exact ⟨stamp, ho _ rfl⟩
    next => exact .pure (by simp)

/-- Evaluating sound code keeps a store sound and gives a sound value. -/
theorem keeps_evaluateTerm {t : Code} (ht : t.Sound g) (hscope : scope ∈ g.scopes) :
    Keeps g Value.Sound (Direct.evaluateTerm r t scope) := by
  unfold Direct.evaluateTerm
  split
  · exact .fault rfl
  · obtain ⟨hhead, hos⟩ := List.forall_mem_cons.1 (Term.sound_list.1 ht)
    split
    · exact keeps_specialForm hr _ hos hscope _
    · refine .bind (keeps_expander? _) fun h found hg hfound => ?_
      have hos := Term.soundAll_mono hg hos
      have hscope := hg.scopes.subset hscope
      split
      · obtain ⟨stamp, hm⟩ := hfound _ rfl
        refine .bind (keeps_expand hr hm hos) fun k u hk hu => .bind (.trace _) fun l _ hl _ => ?_
        exact hr.evaluate (hu.mono hl) ((hk.trans hl).scopes.subset hscope)
      · refine .bind (hr.evaluate (hhead.mono hg) hscope) fun k f hk hf => ?_
        refine .bind (keeps_evaluateAll hr (Term.soundAll_mono hk hos) (hk.scopes.subset hscope)) fun l args hl hargs => ?_
        exact keeps_call hr _ (hf.mono hl) hargs
  · exact keeps_evaluateAtom hr ht hscope

end Forms

/-- Evaluation is sound for every number of steps. -/
theorem sound_evaluate (n : Nat) : Recursion.Sound ⟨evaluate n, apply n⟩ := by
  induction n with
  | zero => exact ⟨fun _ _ => .throw trivial, fun _ _ => .throw trivial⟩
  | succ n ih =>
    constructor
    · intro g t scope ht hscope
      show Keeps g Value.Sound (evaluate (n + 1) t scope)
      rw [evaluate_succ]
      exact keeps_evaluateTerm ih ht hscope
    · intro g f args hf hargs
      show Keeps g Value.Sound (apply (n + 1) f args)
      rw [apply_succ]
      exact keeps_call ih none hf hargs

end Lisplet
