import Lisplet.Proofs.Evaluation.Shorthands
/-!
# The holes of a template

A template has holes: the unquoted terms that are met at depth zero. `Term.holes` lists what stands in them, from left to
right, and `Term.plug` is the template with a term in the place of each. Main statement: a quasiquotation evaluates the
terms in its holes, in this order and nothing else, and its value is the data of the template with the values embedded in
the holes (`quasiquote_eq_plug`).

The two spellings of an unquoted term count alike, the depth grows inside a quasiquote and shrinks inside an unquoted term
that is no hole, and a format string has no holes.
-/
namespace Lisplet

mutual

/-- What stands in the holes of a template at a depth, from left to right. -/
def Term.holes : Nat → Code → List Code
  | 0, .marked _ .unquote t => [t]
  | d + 1, .marked _ .unquote t => Term.holes d t
  | d, .marked _ .quasiquote t => Term.holes (d + 1) t
  | d, .marked _ .quote t => Term.holes d t
  | 0, .list _ [.symbol _ "unquote", t] => [t]
  | d + 1, .list _ [.symbol _ "unquote", t] => Term.holes d t
  | d, .list _ ts => Term.holesAll d ts
  | _, _ => []
termination_by structural _ t => t

/-- What stands in the holes of a row of templates. -/
def Term.holesAll : Nat → List Code → List Code
  | _, [] => []
  | d, t :: ts => Term.holes d t ++ Term.holesAll d ts
termination_by structural _ ts => ts

end

mutual

/-- A template at a depth with terms in the place of its holes, from left to right. -/
def Term.plug : Nat → Code → List Code → Code
  | 0, .marked pos .unquote t, us => us.headD (.marked pos .unquote t)
  | d + 1, .marked pos .unquote t, us => .marked pos .unquote (Term.plug d t us)
  | d, .marked pos .quasiquote t, us => .marked pos .quasiquote (Term.plug (d + 1) t us)
  | d, .marked pos .quote t, us => .marked pos .quote (Term.plug d t us)
  | 0, .list pos [.symbol p "unquote", t], us => us.headD (.list pos [.symbol p "unquote", t])
  | d + 1, .list pos [.symbol p "unquote", t], us => .list pos [.symbol p "unquote", Term.plug d t us]
  | d, .list pos ts, us => .list pos (Term.plugAll d ts us)
  | _, t, _ => t
termination_by structural _ t => t

/-- A row of templates; each takes as many terms as it has holes. -/
def Term.plugAll : Nat → List Code → List Code → List Code
  | _, [], _ => []
  | d, t :: ts, us =>
    Term.plug d t (us.take (Term.holes d t).length) :: Term.plugAll d ts (us.drop (Term.holes d t).length)
termination_by structural _ ts => ts

end

/-! ## Lists that are no holes -/

section Lists

variable {pos : Position} {ts : List Code} (h : Term.isHole (.list pos ts) = false) (d : Nat)
include h

theorem Term.holes_list : Term.holes d (.list pos ts) = Term.holesAll d ts := by
  rw [Term.holes]
  · rintro pos' t - rfl
    simp [Term.isHole] at h
  · rintro d' pos' t - rfl
    simp [Term.isHole] at h

theorem Term.plug_list (us : List Code) : Term.plug d (.list pos ts) us = .list pos (Term.plugAll d ts us) := by
  rw [Term.plug]
  · rintro pos' t - rfl
    simp [Term.isHole] at h
  · rintro d' pos' t - rfl
    simp [Term.isHole] at h

end Lists

/-- A list that is an unquoted term neither at depth zero nor deeper is no hole. -/
theorem Term.isHole_list_eq_false {d : Nat} (pos : Position) {ts : List Code}
    (h₀ : ∀ p t, d = 0 → ts = [.symbol p "unquote", t] → False)
    (h₁ : ∀ d' p t, d = d' + 1 → ts = [.symbol p "unquote", t] → False) : Term.isHole (.list pos ts) = false := by
  cases hhole : Term.isHole (.list pos ts) with
  | false => rfl
  | true =>
    obtain ⟨p, t, hts⟩ := Term.eq_of_isHole_list hhole
    cases d with
    | zero => exact absurd hts (h₀ p t rfl)
    | succ d => exact absurd hts (h₁ d p t rfl)

/-! ## Evaluating the holes -/

section Evaluation

variable (r : Recursion) (scope : Scope)

theorem evaluateAll_append (ts us : List Code) :
    r.evaluateAll scope (ts ++ us) =
      (do let vs ← r.evaluateAll scope ts
          let ws ← r.evaluateAll scope us
          return vs ++ ws) := by
  induction ts with
  | nil => simp [Recursion.evaluateAll]
  | cons t ts ih => simp [Recursion.evaluateAll, ih]

theorem evaluateAll_singleton (t : Code) :
    r.evaluateAll scope [t] = (do return [← r.evaluate t scope]) := by
  simp [Recursion.evaluateAll]

variable {r scope}

theorem length_of_evaluateAll {ts : List Code} {s m : Store} {vs : List Value}
    (h : r.evaluateAll scope ts s = .ok vs m) : vs.length = ts.length := by
  induction ts generalizing s m vs with
  | nil =>
    obtain ⟨rfl, -⟩ := EStateM.Result.ok.inj h
    rfl
  | cons t ts ih =>
    obtain ⟨v, m₁, -, hrest⟩ := EStateM.bind_eq_ok h
    obtain ⟨ws, m₂, hws, hpure⟩ := EStateM.bind_eq_ok hrest
    obtain ⟨rfl, -⟩ := EStateM.Result.ok.inj hpure
    rw [List.length_cons, List.length_cons, ih hws]

end Evaluation

/-! ## Templates and their holes -/

section Templates

variable (r : Recursion) (scope : Scope)

/-- The value of a template at a depth is the data of the template with the values of its holes embedded in them. -/
theorem quasiquote_plug (d : Nat) (t : Code) :
    r.quasiquote scope d t =
      (do let vs ← r.evaluateAll scope (t.holes d)
          return (t.plug d (vs.map (.embedded .nowhere))).toValue) := by
  refine (Recursion.quasiquote.mutual_induct
    (fun d t => r.quasiquote scope d t =
      (do let vs ← r.evaluateAll scope (t.holes d)
          return (t.plug d (vs.map (.embedded .nowhere))).toValue))
    (fun d ts => r.quasiquoteAll scope d ts =
      (do let vs ← r.evaluateAll scope (Term.holesAll d ts)
          return Term.toValues (Term.plugAll d ts (vs.map (.embedded .nowhere)))))
    ?unquoted ?unquotedInside ?quasiquoted ?quoted ?hole ?holeInside ?row ?atom ?nil ?cons).1 d t
  case unquoted =>
    intro pos t
    simp [Recursion.quasiquote, Term.holes, Term.plug, evaluateAll_singleton, Term.toValue]
  case hole =>
    intro pos p t
    simp [Recursion.quasiquote, Term.holes, Term.plug, evaluateAll_singleton, Term.toValue]
  case unquotedInside | quasiquoted | quoted =>
    intro d pos t ih
    simp [Recursion.quasiquote, ih, Term.holes, Term.plug, Term.toValue, Recursion.markedValue]
  case holeInside =>
    intro d pos p t ih
    simp [Recursion.quasiquote, ih, Term.holes, Term.plug, Term.toValue, Term.toValues, Recursion.markedValue, Marker.word]
  case row =>
    intro d pos ts h₁ h₂ ih
    have hhole := Term.isHole_list_eq_false pos h₁ h₂
    simp only [quasiquote_list r scope hhole, Term.holes_list hhole, Term.plug_list hhole, ih, Term.toValue, bind_assoc,
      pure_bind]
  case atom =>
    intro d t h₁ h₂ h₃ h₄ h₅ h₆ h₇
    have hplug : ∀ us, t.plug d us = t := by
      intro us
      rw [Term.plug]
      all_goals assumption
    rw [Recursion.quasiquote, Term.holes]
    · simp only [hplug]
      rfl
    all_goals assumption
  case nil =>
    intro d
    rfl
  case cons =>
    intro d t ts iht ihts
    funext s
    simp only [Recursion.quasiquoteAll, Term.holesAll, evaluateAll_append, iht, ihts, bind_assoc, pure_bind]
    refine EStateM.bind_congr_at rfl fun vs m hvs => ?_
    refine EStateM.bind_congr_at rfl fun ws m' hws => ?_
    -- The template takes the values of its own holes, and leaves the others to the rest of the row.
    have hlength : (vs.map (Term.embedded .nowhere)).length = (t.holes d).length := by
      rw [List.length_map, length_of_evaluateAll hvs]
    rw [Term.plugAll, List.map_append, List.take_left' hlength, List.drop_left' hlength, Term.toValues]

/-- A template without holes takes no terms. -/
theorem plug_of_holes_eq_nil (d : Nat) (t : Code) (h : t.holes d = []) (us : List Code) : t.plug d us = t := by
  refine (Recursion.quasiquote.mutual_induct (fun d t => t.holes d = [] → ∀ us, t.plug d us = t)
    (fun d ts => Term.holesAll d ts = [] → ∀ us, Term.plugAll d ts us = ts)
    ?unquoted ?unquotedInside ?quasiquoted ?quoted ?hole ?holeInside ?row ?atom ?nil ?cons).1 d t h us
  case unquoted =>
    intro pos t h us
    simp [Term.holes] at h
  case hole =>
    intro pos p t h us
    simp [Term.holes] at h
  case unquotedInside | quasiquoted | quoted =>
    intro d pos t ih h us
    rw [Term.holes] at h
    rw [Term.plug, ih h us]
  case holeInside =>
    intro d pos p t ih h us
    rw [Term.holes] at h
    rw [Term.plug, ih h us]
  case row =>
    intro d pos ts h₁ h₂ ih h us
    have hhole := Term.isHole_list_eq_false pos h₁ h₂
    rw [Term.holes_list hhole] at h
    rw [Term.plug_list hhole, ih h us]
  case atom =>
    intro d t h₁ h₂ h₃ h₄ h₅ h₆ h₇ h us
    rw [Term.plug]
    all_goals assumption
  case nil =>
    intro d h us
    rfl
  case cons =>
    intro d t ts iht ihts h us
    obtain ⟨ht, hts⟩ := List.append_eq_nil_iff.1 h
    rw [Term.plugAll, iht ht, ihts hts]

/-- A quasiquotation evaluates the terms in its holes, once each and from left to right, and nothing else: it fails as the
first of them that fails, and otherwise its value is the data of the template with the values embedded in the holes. A
template without holes is its own data. -/
theorem quasiquote_eq_plug (t : Code) :
    r.quasiquote scope 0 t =
        (do let vs ← r.evaluateAll scope (t.holes 0)
            return (t.plug 0 (vs.map (.embedded .nowhere))).toValue) ∧
      (t.holes 0 = [] → r.quasiquote scope 0 t = pure t.toValue) := by
  refine ⟨quasiquote_plug r scope 0 t, fun h => ?_⟩
  rw [quasiquote_plug, h]
  simp only [plug_of_holes_eq_nil 0 t h]
  rfl

end Templates

/-- The template `(,x (quasiquote ,(f ,y)) (unquote z))`, the quasiquote in it written as a mark. -/
def nestedTemplate : Code :=
  let word (name : String) : Code := .symbol .start name
  .list .start [.marked .start .unquote (word "x"),
    .marked .start .quasiquote (.marked .start .unquote (.list .start [word "f", .marked .start .unquote (word "y")])),
    .list .start [word "unquote", word "z"]]

/-- The inner quasiquote guards the hole of its own, but not the one inside that. -/
theorem quasiquote_eq_plug_nestedTemplate :
    nestedTemplate.holes 0 = [.symbol .start "x", .symbol .start "y", .symbol .start "z"] ∧
      evaluator.quasiquote .global 0 nestedTemplate =
        (do let vs ← evaluator.evaluateAll .global (nestedTemplate.holes 0)
            return (nestedTemplate.plug 0 (vs.map (.embedded .nowhere))).toValue) ∧
      nestedTemplate.holes 1 = [] ∧
      evaluator.quasiquote .global 0 (.marked .start .quasiquote nestedTemplate) =
        pure (Term.toValue (.marked .start .quasiquote nestedTemplate)) :=
  ⟨rfl, (quasiquote_eq_plug evaluator .global nestedTemplate).1, rfl,
    (quasiquote_eq_plug evaluator .global (.marked .start .quasiquote nestedTemplate)).2 rfl⟩

end Lisplet
