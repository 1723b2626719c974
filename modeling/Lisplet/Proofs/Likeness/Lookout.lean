import Lisplet.Proofs.Evaluation.Fuel
import Lisplet.Proofs.Likeness.Evaluating
/-!
# Runs that do not look at shorthands

To say of a whole run that it does not look at the shorthands of a piece of code, the code is put at a place of its own, and
evaluation is watched: the `lookout` does what the evaluator does, and raises an alarm before a step that looks at one of them.
Code is `Unobserved` if watching makes no difference to its run, whatever the alarm is. The code may be stored in procedures
and macros, which are called later, be passed around as data, and be expanded to: its nodes keep their place.

Main statement: an unobserved run goes side by side with the run of the long spelling (`Term.Unobserved.compares_same`,
`Term.Unobserved.compares_enough`). The long spelling takes more steps than the shorthand, but no more than three for one,
so that this is shown in two ways: with as many steps the long spelling does the same unless it runs out of them, and with
three times as many it does the same as a run that does not.
-/
namespace Lisplet

/-! ## The place of a piece of code -/

/-- The place that a piece of code is put at. No text has a line of this number. -/
def Position.mark : Position := ⟨0, 1⟩

namespace View

/-- The view in which everything is at one place. -/
def all (p : Position) : View where
  place := fun _ => p
  traced := true
  place_place := fun _ => rfl

/-- The view in which there are neither places nor a trace. -/
def dim : View where
  place := fun _ => .nowhere
  traced := false
  place_place := fun _ => rfl

/-- The view without places and trace in which the shorthands of the marked code are spelled out. -/
def spelling : View where
  place := fun _ => .nowhere
  traced := false
  spells := fun p => p == .mark
  place_place := fun _ => rfl
  spells_place := fun _ => by decide

instance : Short dim := ⟨fun _ => rfl⟩

instance (p : Position) : Short (all p) := ⟨fun _ => rfl⟩

end View

/-! ## Code that is read from a text -/

variable {v w : View}

mutual

/-- What has no shorthand to spell out and no value in it is seen as the same in a view that spells nothing out. -/
theorem Term.seen_eq_seen [v.Short] (hplace : ∀ p, v.place p = w.place p) :
    (t : Code) → (∀ u ∈ t.nodes, ¬ w.Spells u ∧ ∀ pos a, u ≠ .embedded pos a) → t.seen v = t.seen w
  | .list pos ts, h => by
    have ih := Term.map_seen_eq hplace ts fun u hu => h u (List.mem_cons_of_mem _ hu)
    rw [Term.seen, Term.seen, Term.seenAll_eq_map, Term.seenAll_eq_map, ih, hplace]
  | .marked pos m t, h => by
    have ih := Term.seen_eq_seen hplace t fun u hu => h u (List.mem_cons_of_mem _ hu)
    have hq : w.spells pos = false := Bool.eq_false_iff.2 (h _ List.mem_cons_self).1
    rw [Term.seen, Term.seen, View.marked_short, View.marked_unspelled _ _ _ _ hq, ih, hplace]
  | .format pos ps, h => by
    have ih := Part.map_seen_eq hplace ps fun u hu => h u (List.mem_cons_of_mem _ hu)
    have hq : w.spells pos = false := Bool.eq_false_iff.2 (h _ List.mem_cons_self).1
    rw [Term.seen, Term.seen, View.format_short, View.format_unspelled _ _ _ hq, Part.seenAll_eq_map, Part.seenAll_eq_map, ih,
      hplace]
  | .nil pos, h => by
    have hq : w.spells pos = false := Bool.eq_false_iff.2 (h _ List.mem_cons_self).1
    rw [Term.seen, Term.seen, View.nil_short, View.nil_unspelled _ _ hq, hplace]
  | .embedded pos a, h => absurd rfl ((h _ List.mem_cons_self).2 pos a)
  | .number _ _, _ | .string _ _, _ | .symbol _ _, _ | .boolean _ _, _ => by rw [Term.seen, Term.seen, hplace]

theorem Term.map_seen_eq [v.Short] (hplace : ∀ p, v.place p = w.place p) :
    (ts : List Code) → (∀ u ∈ Term.nodesAll ts, ¬ w.Spells u ∧ ∀ pos a, u ≠ .embedded pos a) →
    ts.map (Term.seen v) = ts.map (Term.seen w)
  | [], _ => rfl
  | t :: ts, h => by
    rw [Term.nodesAll, List.forall_mem_append] at h
    rw [List.map_cons, List.map_cons, Term.seen_eq_seen hplace t h.1, Term.map_seen_eq hplace ts h.2]

theorem Part.map_seen_eq [v.Short] (hplace : ∀ p, v.place p = w.place p) :
    (ps : List (Part Value)) → (∀ u ∈ Part.nodesAll ps, ¬ w.Spells u ∧ ∀ pos a, u ≠ .embedded pos a) →
    ps.map (Part.seen v) = ps.map (Part.seen w)
  | [], _ => rfl
  | .text s :: ps, h => by
    rw [List.map_cons, List.map_cons, Part.map_seen_eq hplace ps h]
    rfl
  | .code t :: ps, h => by
    rw [Part.nodesAll, List.forall_mem_append] at h
    rw [List.map_cons, List.map_cons, Part.seen, Part.seen, Term.seen_eq_seen hplace t h.1, Part.map_seen_eq hplace ps h.2]

end

theorem Fault.readSource_of_readForms {source : String} {ts : List Code} (h : readForms source = .ok ts) :
    Reader.readSource source = .ok ts := by
  unfold readForms at h
  split at h
  · next hread =>
    obtain rfl := Except.ok.inj h
    exact hread
  · cases h

/-- Nothing is spelled out in what was read, since none of it is at the place of marked code. -/
theorem Reader.map_seen_of_readSource {source : String} {ts : List Code} (h : readSource source = .ok ts) :
    ts.map (Term.seen .dim) = ts.map (Term.seen .spelling) := by
  refine List.map_congr_left fun t ht => Term.seen_eq_seen (v := .dim) (w := .spelling) (fun _ => rfl) t fun u hu => ?_
  obtain ⟨rest, ⟨front, -, hplace⟩, hbegins⟩ := placed_of_readSource h t ht u hu
  -- What was read stands in a line with a positive number.
  have hmark : u.position ≠ .mark := by
    rw [hplace]
    intro he
    have hline : (1 : Int) + front.count '\n' = 0 := congrArg Position.line he
    omega
  constructor
  · cases u with
    | nil | marked | format => exact fun hspells => hmark (eq_of_beq hspells)
    | _ => exact id
  · rintro pos a rfl
    exact hbegins

/-! ## Marked code and its long spelling -/

mutual

/-- Code that was read and is put at the marked place is seen as its long spelling where this is spelled out. -/
theorem Term.seen_spelling : (t : Code) → t.Spelled → (t.seen (.all .mark)).seen .spelling = t.spellOut.seen .blind
  | .list pos ts, h => by
    rw [Term.seen, Term.seen, Term.spellOut, Term.seen, Term.seenAll_spelling ts h]
    rfl
  | .marked pos m t, h => by
    have ih := Term.seen_spelling t h
    rw [Term.seen, View.marked_short, Term.seen, View.marked_spelled _ _ _ _ rfl, ih]
    rfl
  | .format pos ps, h => by
    have ih := Part.operand_seenAll_spelling pos ps false h.1
    rw [Term.seen, View.format_short, Term.seen, View.format_spelled _ _ _ rfl]
    exact congrArg (fun ts => Term.list .nowhere (.symbol .nowhere "string-concat" :: ts)) ih
  | .nil _, _ | .number _ _, _ | .string _ _, _ | .symbol _ _, _ | .boolean _ _, _ => rfl
  | .embedded _ _, h => h.elim

theorem Term.seenAll_spelling : (ts : List Code) → Term.SpelledAll ts →
    Term.seenAll .spelling (Term.seenAll (.all .mark) ts) = Term.seenAll .blind (Term.spellOutAll ts)
  | [], _ => rfl
  | t :: ts, h => by
    rw [Term.seenAll, Term.seenAll, Term.spellOutAll, Term.seenAll, Term.seen_spelling t h.1, Term.seenAll_spelling ts h.2]

theorem Part.operand_seenAll_spelling (pos : Position) : (ps : List (Part Value)) → (b : Bool) → Term.SpelledParts b ps →
    (Part.seenAll .spelling (Part.seenAll (.all .mark) ps)).map (Part.operand .nowhere) =
      Term.seenAll .blind (Part.spellOutAll pos ps)
  | [], _, _ => rfl
  | .text s :: ps, _, h => by
    rw [Part.seenAll, Part.seenAll, List.map_cons, Part.operand_seenAll_spelling pos ps true h.2.2]
    rfl
  | .code t :: ps, _, h => by
    rw [Part.seenAll, Part.seenAll, List.map_cons, Part.operand_seenAll_spelling pos ps false h.2, Part.seen, Part.seen,
      Term.seen_spelling t h.1]
    rfl

end

mutual

/-- Where code that was read is put makes no difference to how it is seen without places. -/
theorem Term.seen_blind_all (p : Position) : (t : Code) → t.Spelled → (t.seen (.all p)).seen .blind = t.seen .blind
  | .list pos ts, h => by
    rw [Term.seen, Term.seen, Term.seen, Term.seenAll_blind_all p ts h]
    rfl
  | .marked pos m t, h => by
    rw [Term.seen, View.marked_short, Term.seen, Term.seen, Term.seen_blind_all p t h]
    rfl
  | .format pos ps, h => by
    rw [Term.seen, View.format_short, Term.seen, Term.seen, Part.seenAll_blind_all p ps false h.1]
    rfl
  | .nil _, _ | .number _ _, _ | .string _ _, _ | .symbol _ _, _ | .boolean _ _, _ => rfl
  | .embedded _ _, h => h.elim

theorem Term.seenAll_blind_all (p : Position) : (ts : List Code) → Term.SpelledAll ts →
    Term.seenAll .blind (Term.seenAll (.all p) ts) = Term.seenAll .blind ts
  | [], _ => rfl
  | t :: ts, h => by
    rw [Term.seenAll, Term.seenAll, Term.seenAll, Term.seen_blind_all p t h.1, Term.seenAll_blind_all p ts h.2]

theorem Part.seenAll_blind_all (p : Position) : (ps : List (Part Value)) → (b : Bool) → Term.SpelledParts b ps →
    Part.seenAll .blind (Part.seenAll (.all p) ps) = Part.seenAll .blind ps
  | [], _, _ => rfl
  | .text s :: ps, _, h => by
    rw [Part.seenAll, Part.seenAll, Part.seenAll, Part.seenAll_blind_all p ps true h.2.2]
    rfl
  | .code t :: ps, _, h => by
    rw [Part.seenAll, Part.seenAll, Part.seenAll, Part.seenAll_blind_all p ps false h.2, Part.seen, Part.seen, Part.seen,
      Term.seen_blind_all p t h.1]

end

/-- The long spelling of code that was read, seen without places, is seen as the marked code is. -/
theorem Term.seen_spellOut (t : Code) (h : t.Spelled) :
    (t.spellOut.seen .blind).seen .dim = (t.seen (.all .mark)).seen .spelling := by
  rw [Term.seen_spelling t h]
  exact Term.seen_of_seen (v := .blind) (w := .dim) (fun _ => rfl) _

/-- A second look at frames sees the same in a view that has the same places. -/
theorem Frames.seen_of_seen (h : ∀ p, w.place p = v.place p) (f : Frames Value) : (f.seen v).seen w = f.seen v := by
  have hbindings : Bindings.through (Value.seen w) ∘ Bindings.through (Value.seen v) = Bindings.through (Value.seen v) := by
    funext b
    simp only [Function.comp_apply, Bindings.through, List.map_map]
    exact List.map_congr_left fun x _ => by simp [Value.seen_of_seen h]
  simp only [Frames.seen, Array.map_map, hbindings]

/-- Of a store without places only the trace is seen otherwise. -/
theorem Store.seen_of_blind (hplace : ∀ p, w.place p = .nowhere) (s : Store) :
    (s.seen .blind).seen w = { s.seen .blind with tracing := w.traced && s.tracing, log := w.log s.log } := by
  have hframes : (s.frames.seen .blind).seen w = s.frames.seen .blind :=
    Frames.seen_of_seen (v := .blind) (w := w) hplace _
  show { s.seen .blind with
    frames := (s.frames.seen .blind).seen w, tracing := w.traced && s.tracing, log := w.log s.log } = _
  rw [hframes]
  rfl

theorem Store.seen_seen_blind (s : Store) : (s.seen .blind).seen .blind = s.seen .blind := Store.seen_of_blind (fun _ => rfl) s

/-- Nothing in a store without places is spelled out. -/
theorem Store.seen_blind_spelling (s : Store) : (s.seen .blind).seen .dim = (s.seen .blind).seen .spelling := by
  rw [Store.seen_of_blind (fun _ => rfl), Store.seen_of_blind (fun _ => rfl)]
  rfl

/-! ## The comparison -/

theorem Signal.fault_ne_outOfFuel (f : Fault) : ¬ fault f = .outOfFuel := Signal.noConfusion

theorem Signal.fault_ne_waiting (q : Question) (f : Fault) : ¬ fault f = .waiting q := Signal.noConfusion

/-- The comparison of a run of the long spelling with a run of marked code. -/
def Comparison.spelling (early late : Signal → Prop) (he : ∀ f, ¬ early (.fault f)) (hl : ∀ f, ¬ late (.fault f)) :
    Comparison where
  left := .dim
  right := .spelling
  detailed := false
  early := early
  late := late
  short := inferInstance
  place_eq := fun _ => rfl
  traced_eq := rfl
  exact := nofun
  untraced := fun _ => rfl
  early_fault := he
  late_fault := hl
  reads := fun h => Reader.map_seen_of_readSource (Fault.readSource_of_readForms h)
  nowhere := by decide
  placeless := fun _ _ _ => rfl

/-! ## The lookout -/

open Classical in
/-- Evaluation that raises an alarm in the place of a step that looks at a spelled out shorthand. -/
noncomputable def lookout (w : View) (alarm : Eval Value) : Nat → Recursion
  | 0 => ⟨fun _ _ => throw .outOfFuel, fun _ _ => throw .outOfFuel⟩
  | n + 1 =>
    let r := lookout w alarm n
    { evaluate := fun t scope s => if w.Overlooks r scope t s then Direct.evaluateTerm r t scope s else alarm s
      apply := fun f args s => if w.OverlooksCall r f args .global s then Direct.call r .global none f args s else alarm s }

/-- Evaluating a term does not come to an alarm: watched it does the same, whatever the alarm is. -/
def View.Calm (w : View) (n : Nat) (scope : Scope) (t : Code) (s : Store) : Prop :=
  ∀ alarm, (lookout w alarm n).evaluate t scope s = evaluate n t scope s

/-- Evaluating the terms of a row does not come to an alarm. -/
def View.CalmAll (w : View) (n : Nat) (scope : Scope) (ts : List Code) (s : Store) : Prop :=
  ∀ alarm, (lookout w alarm n).evaluateAll scope ts s = Recursion.evaluateAll ⟨evaluate n, apply n⟩ scope ts s

/-- Code whose run in the global scope does not look at the shorthands in it: put at a place where nothing else is, it is
evaluated without an alarm, whatever number of steps is allowed. -/
def Term.Unobserved (t : Code) (s : Store) : Prop :=
  ∀ n, View.spelling.Calm n .global (t.seen (.all .mark)) (s.seen .blind)

/-! ## Runs with and without an alarm -/

section Lookout

variable {w : View} {alarm : Eval Value} {n : Nat}

theorem lookout_evaluate {t : Code} {scope : Scope} {s : Store} (h : w.Overlooks (lookout w alarm n) scope t s) :
    (lookout w alarm (n + 1)).evaluate t scope s = Direct.evaluateTerm (lookout w alarm n) t scope s :=
  if_pos h

theorem lookout_evaluate_alarm {t : Code} {scope : Scope} {s : Store} (h : ¬ w.Overlooks (lookout w alarm n) scope t s) :
    (lookout w alarm (n + 1)).evaluate t scope s = alarm s :=
  if_neg h

theorem lookout_apply {f : Value} {args : List Value} {s : Store} (h : w.OverlooksCall (lookout w alarm n) f args .global s) :
    (lookout w alarm (n + 1)).apply f args s = Direct.call (lookout w alarm n) .global none f args s :=
  if_pos h

theorem lookout_apply_alarm {f : Value} {args : List Value} {s : Store}
    (h : ¬ w.OverlooksCall (lookout w alarm n) f args .global s) : (lookout w alarm (n + 1)).apply f args s = alarm s :=
  if_neg h

variable {c : Comparison} (halarm : ∀ s, ∃ e m, alarm s = .error e m ∧ c.late e)
include halarm

/-- One step more on both sides, unless there is an alarm. -/
theorem respects_lookout_succ {k : Nat} (h : Recursion.Respects ⟨evaluate k, apply k⟩ c (lookout c.right alarm n))
    (hahead : Recursion.Ahead c (lookout c.right alarm n) 2 ⟨evaluate k, apply k⟩) :
    Recursion.Respects ⟨evaluate (k + 1), apply (k + 1)⟩ c (lookout c.right alarm (n + 1)) := by
  constructor
  · intro t t' scope ht s s' hs
    show Compares c _ _ (evaluate (k + 1) t scope s) _
    by_cases hlook : c.right.Overlooks (lookout c.right alarm n) scope t' s'
    · rw [evaluate_succ, lookout_evaluate hlook]
      exact compares_evaluateTerm scope h (fun _ _ => hahead) ht hs hlook
    · obtain ⟨e, m, he, hlate⟩ := halarm s'
      rw [lookout_evaluate_alarm hlook, he]
      exact .late hlate
  · intro f f' args args' hf ha s s' hs
    show Compares c _ _ (apply (k + 1) f args s) _
    by_cases hlook : c.right.OverlooksCall (lookout c.right alarm n) f' args' .global s'
    · rw [apply_succ, lookout_apply hlook]
      exact compares_call .global h (fun _ _ => hahead) rfl hf ha hs hlook
    · obtain ⟨e, m, he, hlate⟩ := halarm s'
      rw [lookout_apply_alarm hlook, he]
      exact .late hlate

end Lookout

theorem Recursion.Ahead.of_step {c : Comparison} {r' : Recursion} {k i : Nat}
    (h : Recursion.Respects ⟨Lisplet.evaluate (k + 1), Lisplet.apply (k + 1)⟩ c r')
    (hahead : Recursion.Ahead c r' i ⟨Lisplet.evaluate k, Lisplet.apply k⟩) :
    Recursion.Ahead c r' (i + 1) ⟨Lisplet.evaluate (k + 1), Lisplet.apply (k + 1)⟩ :=
  ⟨h, .inr ⟨_, funext fun t => funext fun scope => evaluate_succ k t scope, hahead⟩⟩

/-- With three times as many steps as there are on the other side a run has steps enough. -/
theorem respects_lookout_enough {c : Comparison} (hout : c.late .outOfFuel) (n m : Nat) (hm : 3 * n ≤ m) :
    Recursion.Respects ⟨evaluate m, apply m⟩ c (lookout c.right (throw .outOfFuel) n) := by
  induction n generalizing m with
  | zero => exact ⟨fun _ _ _ _ _ => .late hout, fun _ _ _ _ _ => .late hout⟩
  | succ n ih =>
    obtain ⟨k, rfl⟩ := Nat.exists_eq_add_of_le' (show 3 ≤ m by omega)
    have hahead : Recursion.Ahead c (lookout c.right (throw .outOfFuel) n) 2 ⟨evaluate (k + 2), apply (k + 2)⟩ :=
      .of_step (ih (k + 2) (by omega)) (.of_step (ih (k + 1) (by omega)) (ih k (by omega)))
    exact respects_lookout_succ (fun s => ⟨_, _, rfl, hout⟩) (ih (k + 2) (by omega)) hahead

/-- With no more steps than there are on the other side a run does the same, unless it runs out of them. -/
theorem respects_lookout_same {c : Comparison} (hout : c.early .outOfFuel) {alarm : Eval Value}
    (halarm : ∀ s, ∃ e m, alarm s = .error e m ∧ c.late e) (n m : Nat) (hm : m ≤ n) :
    Recursion.Respects ⟨evaluate m, apply m⟩ c (lookout c.right alarm n) := by
  induction n generalizing m with
  | zero =>
    obtain rfl : m = 0 := by omega
    exact ⟨fun _ _ _ _ _ => .early hout, fun _ _ _ _ _ => .early hout⟩
  | succ n ih =>
    -- A run with fewer steps is ahead by any number of them: where it has none left it stops early.
    have hahead (i k : Nat) (hk : k ≤ n) : Recursion.Ahead c (lookout c.right alarm n) i ⟨evaluate k, apply k⟩ := by
      induction i generalizing k with
      | zero => exact ih k hk
      | succ i ihi =>
        cases k with
        | zero => exact ⟨ih 0 hk, .inl fun _ _ s => ⟨_, s, rfl, hout⟩⟩
        | succ k => exact .of_step (ih (k + 1) hk) (ihi k (by omega))
    cases m with
    | zero => exact ⟨fun _ _ _ _ _ => .early hout, fun _ _ _ _ _ => .early hout⟩
    | succ k => exact respects_lookout_succ halarm (ih k (by omega)) (hahead 2 k (by omega))

/-! ## Runs of the long spelling -/

namespace Term.Unobserved

variable {t : Code} {s : Store} (h : t.Unobserved s) (ht : t.Spelled)
include h ht

/-- With no more steps than unobserved code has, its long spelling does the same, unless it runs out of them. The question that
the alarm asks is free to choose, so that it can be told from what the code asks for. -/
theorem compares_same (q : Question) {k n : Nat} (hk : k ≤ n) :
    Compares (.spelling (· = .outOfFuel) (· = .waiting q) Signal.fault_ne_outOfFuel (Signal.fault_ne_waiting q))
      (Value.seen .dim) (Value.seen .spelling)
      (evaluate k (t.spellOut.seen .blind) .global (s.seen .blind))
      (evaluate n (t.seen (.all .mark)) .global (s.seen .blind)) := by
  rw [← h n (throw (.waiting q))]
  exact (respects_lookout_same rfl (fun s => ⟨_, s, rfl, rfl⟩) n k hk).evaluate .global (seen_spellOut t ht) _ _
    (Store.seen_blind_spelling s)

/-- With three times as many steps as unobserved code has, its long spelling does the same, unless the code runs out of
them. -/
theorem compares_enough {k n : Nat} (hk : 3 * n ≤ k) :
    Compares (.spelling (fun _ => False) (· = .outOfFuel) (fun _ => id) Signal.fault_ne_outOfFuel)
      (Value.seen .dim) (Value.seen .spelling)
      (evaluate k (t.spellOut.seen .blind) .global (s.seen .blind))
      (evaluate n (t.seen (.all .mark)) .global (s.seen .blind)) := by
  rw [← h n (throw .outOfFuel)]
  exact (respects_lookout_enough rfl n k hk).evaluate .global (seen_spellOut t ht) _ _ (Store.seen_blind_spelling s)

end Term.Unobserved

/-! ## Steps without an alarm -/

namespace View

variable {n : Nat} {scope : Scope} {t : Code} {ts : List Code} {s : Store}

namespace Calm

/-- A step that looks at nothing spelled out and evaluates what it comes to without an alarm. -/
theorem succ (h : ∀ alarm, w.Overlooks (lookout w alarm n) scope t s ∧
      Direct.evaluateTerm (lookout w alarm n) t scope s = Direct.evaluateTerm ⟨evaluate n, apply n⟩ t scope s) :
    w.Calm (n + 1) scope t s := by
  intro alarm
  rw [lookout_evaluate (h alarm).1, (h alarm).2, evaluate_succ]

/-- A term that is evaluated in a single step. -/
theorem single (h : ∀ r, w.Overlooks r scope t s)
    (hsame : ∀ r r', Direct.evaluateTerm r t scope s = Direct.evaluateTerm r' t scope s) : w.Calm n scope t s := by
  cases n with
  | zero => exact fun _ => rfl
  | succ n => exact succ fun _ => ⟨h _, hsame _ _⟩

theorem symbol {pos : Position} {name : String} : w.Calm n scope (.symbol pos name) s :=
  single (fun _ => trivial) fun _ _ => rfl

theorem quoted {pos : Position} : w.Calm n scope (.marked pos .quote t) s :=
  single (fun _ => trivial) fun _ _ => rfl

end Calm

theorem CalmAll.nil : w.CalmAll n scope [] s := fun _ => rfl

theorem CalmAll.cons (h : w.Calm n scope t s) (hts : ∀ v m, evaluate n t scope s = .ok v m → w.CalmAll n scope ts m) :
    w.CalmAll n scope (t :: ts) s := by
  intro alarm
  unfold Recursion.evaluateAll
  refine EStateM.bind_congr_at (h alarm) fun v m hv => ?_
  exact EStateM.bind_congr_at (hts v m hv alarm) fun _ _ _ => rfl

/-- A call of a procedure. -/
theorem Calm.call {pos : Position} {head : Code} (hkey : head.symbol?.bind Keyword.ofName? = none)
    (hexpander : s.expander? scope head = none) (hhead : w.Calm n scope head s)
    (hoperands : ∀ f m, evaluate n head scope s = .ok f m → w.CalmAll n scope ts m)
    (hcall : ∀ f m args m', evaluate n head scope s = .ok f m →
      Recursion.evaluateAll ⟨evaluate n, apply n⟩ scope ts m = .ok args m' → ∀ alarm,
        w.OverlooksCall (lookout w alarm n) f args scope m' ∧
          Direct.call (lookout w alarm n) scope (some head.position) f args m' =
            Direct.call ⟨evaluate n, apply n⟩ scope (some head.position) f args m') :
    w.Calm (n + 1) scope (.list pos (head :: ts)) s := by
  refine .succ fun alarm => ⟨?_, ?_⟩
  · simp only [Overlooks, hkey, hexpander]
    intro f m args m' hf hargs
    rw [hhead alarm] at hf
    rw [hoperands f m hf alarm] at hargs
    exact (hcall f m args m' hf hargs alarm).1
  · simp only [Direct.evaluateTerm, hkey]
    rw [EStateM.bind_of_ok (Recursion.expander?_apply scope head s), hexpander,
      EStateM.bind_of_ok (Recursion.expander?_apply scope head s), hexpander]
    refine EStateM.bind_congr_at (hhead alarm) fun f m hf => ?_
    refine EStateM.bind_congr_at (hoperands f m hf alarm) fun args m' hargs => ?_
    exact (hcall f m args m' hf hargs alarm).2

end View

end Lisplet
