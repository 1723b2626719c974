import Lisplet.Proofs.Likeness.Actions
import Lisplet.Proofs.Macros.Templates
/-!
# Looking at shorthands

A shorthand and the list that it stands for denote the same data, but evaluation can tell them apart, since the forms of the
language look at terms before they evaluate them: a definition at its target, a macro at its operands. For a view that spells
out the shorthands at some places, `View.Overlooks` says that one step of evaluating a term does not look at any of these. The
places are those of one piece of code when a run is to be compared with the run of its long spelling.

What is looked at depends on the run: on the macro that a name is bound to when a call is come to, on how many clauses are
come to, and on what is bound while the holes of a template are filled. Only the step itself is asked about, and what it
evaluates is asked about in its turn.
-/
namespace Lisplet

namespace Expansion

variable (r : Recursion) (args : Bindings Code) (scope : Scope)

mutual

/-- A template in which a hole is filled with what it evaluates to: whenever the expander comes to one, the parameters are
still bound to the data of their operands. There are no holes in the long spelling, and none in a further quasiquote. -/
def Fillable (s : Store) : Code → Prop
  | .marked _ .unquote _ => s.Binds args scope
  | .marked _ .quasiquote t => t.HoleFree
  | .marked _ .quote t => Fillable s t
  | .list pos ts => Term.isHole (.list pos ts) = false ∧ FillableAll s ts
  | .format _ ps => FillableParts s ps
  | _ => True
termination_by structural t => t

/-- The templates of a row, filled from left to right. -/
def FillableAll (s : Store) : List Code → Prop
  | [] => True
  | t :: ts => Fillable s t ∧ ∀ u m, fill r args scope 0 t s = .ok u m → FillableAll m ts
termination_by structural ts => ts

/-- The parts of a format string. -/
def FillableParts (s : Store) : List (Part Value) → Prop
  | [] => True
  | .text _ :: ps => FillableParts s ps
  | .code t :: ps => Fillable s t ∧ ∀ u m, fill r args scope 0 t s = .ok u m → FillableParts m ps
termination_by structural ps => ps

end

end Expansion

/-- The macro that a head is bound to, if it is bound to one. -/
def Store.expander? (s : Store) (scope : Scope) (head : Code) : Option (String × Transformer Value) :=
  match head.symbol?.bind (s.frames.lookup? scope) with
  | some (.expander _ own t) => some (own, t)
  | _ => none

namespace View

variable (w : View)

/-- A shorthand that is seen spelled out. -/
def Spells : Code → Prop
  | .nil pos | .marked pos _ _ | .format pos _ => w.spells pos = true
  | _ => False

/-- A node that comes back from data as it is seen: a shorthand is seen spelled out, and a value in it is no data. -/
def Regains (u : Code) : Prop :=
  (u.isShorthand = true → w.Spells u) ∧ ∀ pos v, u = .embedded pos v → v.toTerm pos = .embedded pos v

/-- A term that comes back from data as it is seen. -/
def Returns (t : Code) : Prop := ∀ u ∈ t.nodes, w.Regains u

mutual

/-- A template at a depth that has no hole in what is seen spelled out of its further quasiquotes and format strings. The long
spelling of these is a list like any other, which neither guards its holes nor hides them. -/
def Plain : Nat → Code → Prop
  | 0, .marked _ .unquote _ => True
  | d + 1, .marked _ .unquote t => Plain d t
  | d, .marked pos .quasiquote t => (w.spells pos = true → t.HoleFree) ∧ Plain (d + 1) t
  | d, .marked _ .quote t => Plain d t
  | 0, .list _ [.symbol _ "unquote", _] => True
  | d + 1, .list _ [.symbol _ "unquote", t] => Plain d t
  | d, .list _ ts => PlainAll d ts
  | _, .format pos ps => w.spells pos = true → Term.HoleFree (.format pos ps)
  | _, _ => True
termination_by structural _ t => t

/-- The templates of a row. -/
def PlainAll : Nat → List Code → Prop
  | _, [] => True
  | d, t :: ts => Plain d t ∧ PlainAll d ts
termination_by structural _ ts => ts

end

/-! ## Macros -/

/-- The expansion of a rule as far as it counts; why a call does not fit is a detail. -/
def outcome (x : Except Fault Code) : Except Fault Code :=
  (x.map (Term.seen w)).mapError fun f => { f.seen w with detail := none }

/-- A rule does not look at spelled out shorthands if the expansion is the same when they are spelled out first. -/
def OverlooksRule (name : String) (pattern : List Code) (template : Code) (operands : List Code) : Prop :=
  w.outcome (Expansion.expandRule name (pattern.map (Term.seen w)) (template.seen w) (operands.map (Term.seen w))) =
    w.outcome (Expansion.expandRule name pattern template operands)

/-- A template macro only looks at its own body. If the quasiquote that this is, is seen spelled out, then the body is
evaluated instead of filled; this makes no difference if the template is filled with what its holes evaluate to, and template
and operands come back from data. -/
def OverlooksTemplate (r : Recursion) (params : List String) (body : Code) (scope : Scope) (operands : List Code)
    (s : Store) : Prop :=
  match body with
  | .marked pos .quasiquote t =>
    (w.spells pos = true → w.Returns t ∧ (∀ operand ∈ operands, w.Returns operand) ∧
      ∀ inner m m', Eval.childScope scope s = .ok inner m →
        Expansion.bindOperands inner (params.zip operands) m = .ok () m' →
        Expansion.Fillable r (Expansion.operandsByName (params.zip operands)) inner m' t) ∧
    (w.spells pos = false → ∀ u ∈ t.nodes, ¬ w.Spells u)
  | _ => True

/-- Expanding a macro call does not look at spelled out shorthands. -/
def OverlooksMacro (r : Recursion) (name : String) (t : Transformer Value) (operands : List Code) (s : Store) : Prop :=
  match t with
  | .template params body scope => w.OverlooksTemplate r params body scope operands s
  | .rule pattern template => w.OverlooksRule name pattern template operands

/-- Expanding a call that is given as data does not look at spelled out shorthands. -/
def OverlooksExpansion (r : Recursion) (args : List Value) (s : Store) : Prop :=
  match args with
  | [.list (.symbol name :: operands)] =>
    ∀ stamp own t, s.frames.lookup? s.caller name = some (.expander stamp own t) →
      w.OverlooksMacro r own t (Value.toTerms .nowhere operands) s
  | _ => True

/-- Calling a procedure does not look at spelled out shorthands. Only a call of the expander can. -/
def OverlooksCall (r : Recursion) (f : Value) (args : List Value) (caller : Scope) (s : Store) : Prop :=
  match f with
  | .builtin b => b.operation = .control .expand → w.OverlooksExpansion r args { s with caller := caller }
  | _ => True

/-! ## Special forms -/

variable (r : Recursion) (scope : Scope)

/-- Clauses of which none is a spelled out shorthand as far as they are come to. -/
def OverlooksClauses (s : Store) : List Code → Prop
  | [] => True
  | .list _ [condition, _] :: clauses =>
    condition.isSymbol "else" = false →
      ∀ m, r.evaluate condition scope s = .ok (.boolean false) m → OverlooksClauses m clauses
  | t :: _ => ¬ w.Spells t

/-- A special form does not look at spelled out shorthands: what it takes apart is none. -/
def OverlooksForm (s : Store) (operands : List Code) : Keyword → Prop
  | .define | .lambda => ∀ t ∈ operands.head?, ¬ w.Spells t
  | .cond => w.OverlooksClauses r scope s operands
  | .letIn => ∀ t ∈ operands.head?, (Recursion.bindingList? t = none → ¬ w.Spells t) ∧
      ∀ elements ∈ Recursion.bindingList? t, ∀ u ∈ elements, ¬ w.Spells u
  | .marked .quasiquote => ∀ t, operands = [t] → w.Plain 0 t
  | .defineStruct => ∀ p name t, operands = [.symbol p name, t] → ¬ w.Spells t
  | .defineTemplate | .defineRule => ∀ t body, operands = [t, body] → ¬ w.Spells t
  | _ => True

/-! ## One step -/

/-- One step of evaluating a term does not look at spelled out shorthands. The word for the empty list cannot be evaluated in
the long spelling, and a format string is one call more, of a procedure that has to be the built-in one. -/
def Overlooks (t : Code) (s : Store) : Prop :=
  match t with
  | .nil pos => w.spells pos = false
  | .marked _ .quasiquote t => w.Plain 0 t
  | .format pos _ =>
    w.spells pos = true → s.frames.lookup? scope "string-concat" = some (.builtin .concatenation)
  | .list _ (head :: operands) =>
    match head.symbol?.bind Keyword.ofName? with
    | some keyword => w.OverlooksForm r scope s operands keyword
    | none =>
      match s.expander? scope head with
      | some (own, t) => w.OverlooksMacro r own t operands s
      | none => ∀ f m args m', r.evaluate head scope s = .ok f m → r.evaluateAll scope operands m = .ok args m' →
          w.OverlooksCall r f args scope m'
  | _ => True

/-! ## Views in which nothing is spelled out -/

variable {w} [w.Short]

theorem not_spells (t : Code) : ¬ w.Spells t := by
  cases t <;> simp [Spells, Short.spells_eq]

theorem plain_of_short (d : Nat) (t : Code) : w.Plain d t := by
  refine (Plain.mutual_induct (fun d t => w.Plain d t) (fun d ts => w.PlainAll d ts)
    ?unquoted ?unquotedInside ?quasiquoted ?quoted ?hole ?holeInside ?row ?format ?atom ?nil ?cons).1 d t
  case quasiquoted =>
    intro d pos t ih
    rw [Plain]
    exact ⟨fun h => absurd h (by simp [Short.spells_eq]), ih⟩
  case row =>
    intro d pos ts h₀ h₁ ih
    rwa [Plain]
    · exact h₀
    · exact h₁
  all_goals simp_all [Plain, PlainAll, Short.spells_eq]

end View

end Lisplet
