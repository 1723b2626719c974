import Lisplet.Proofs.Arithmetic.Quaternions
import Lisplet.Proofs.Reading.Steps
import Lisplet.Proofs.Structs.Procedures
/-!
# Rows of numbers and quaternions

The four operations of arithmetic go through their operands from left to right. Two numbers make a number, and from the first
quaternion on everything is a quaternion. In exact arithmetic it makes no difference where the first quaternion stands: the
numbers in front of it might as well have been quaternions from the start (`toQuaternion_result`), because on numbers alone the
operations on quaternions are those on numbers (`ofReal_onReals`). A result is a plain number exactly if all operands are
(`isReal_result`), and that does not hang on what the numbers are.

Main statement: over the rationals the quaternions obey the laws of a division algebra, the four operations are the left folds
of the operations on quaternions, and a call of a built-in procedure computes these operations (`arithmetic_exact`).
-/
namespace Lisplet

/-! ## Promotion -/

namespace Numeric

variable {α : Type} [OfNat α 0] {onReals : α → α → α} {onQuaternions : Quaternion α → Quaternion α → Quaternion α}

theorem isReal_promoting (x y : Numeric α) :
    (promoting onReals onQuaternions x y).isReal = (x.isReal && y.isReal) := by
  cases x <;> cases y <;> rfl

/-- If the operation on quaternions extends the one on numbers, it can be taken throughout. -/
theorem toQuaternion_promoting (h : ∀ x y, onQuaternions (.ofReal x) (.ofReal y) = .ofReal (onReals x y)) (x y : Numeric α) :
    (promoting onReals onQuaternions x y).toQuaternion = onQuaternions x.toQuaternion y.toQuaternion := by
  cases x with
  | real x =>
    cases y with
    | real y => exact (h x y).symm
    | quaternion q => rfl
  | quaternion p => cases y <;> rfl

theorem isReal_foldl_promoting (x : Numeric α) (ys : List (Numeric α)) :
    (ys.foldl (promoting onReals onQuaternions) x).isReal = (x :: ys).all isReal := by
  induction ys generalizing x with
  | nil => simp
  | cons y ys ih => simp [ih, isReal_promoting, Bool.and_assoc]

theorem toQuaternion_foldl_promoting (h : ∀ x y, onQuaternions (.ofReal x) (.ofReal y) = .ofReal (onReals x y))
    (x : Numeric α) (ys : List (Numeric α)) :
    (ys.foldl (promoting onReals onQuaternions) x).toQuaternion =
      (ys.map toQuaternion).foldl onQuaternions x.toQuaternion := by
  rw [List.foldl_map]
  exact (List.foldl_hom toQuaternion fun x y => (toQuaternion_promoting h x y).symm).symm

end Numeric

/-! ## The four operations -/

/-- The operations that take a row of numbers and quaternions. -/
inductive Folding where
  | sum
  | difference
  | product
  | quotient
deriving DecidableEq, Repr

namespace Folding

/-- What an operation is among those on numbers. -/
def arithmetic : Folding → Arithmetic
  | sum => .add
  | difference => .subtract
  | product => .multiply
  | quotient => .divide

/-- The built-in procedure that performs an operation. -/
def builtin (op : Folding) : Builtin :=
  match op with
  | sum => ⟨"+", .atLeast 0, .arithmetic op.arithmetic⟩
  | difference => ⟨"-", .atLeast 1, .arithmetic op.arithmetic⟩
  | product => ⟨"*", .atLeast 0, .arithmetic op.arithmetic⟩
  | quotient => ⟨"/", .atLeast 1, .arithmetic op.arithmetic⟩

theorem builtin_mem_table (op : Folding) : op.builtin ∈ Builtin.table := by
  cases op <;> decide

section Operations

variable {α : Type} [OfNat α 0] [OfNat α 1] [Add α] [Sub α] [Mul α] [Div α] [Neg α]

/-- What an operation makes of its first operand and the others. -/
def result : Folding → Numeric α → List (Numeric α) → Numeric α
  | sum, x, ys => Numeric.sum (x :: ys)
  | difference, x, ys => Numeric.difference x ys
  | product, x, ys => Numeric.product (x :: ys)
  | quotient, x, ys => Numeric.quotient x ys

/-- The operation on two numbers. -/
def onReals : Folding → α → α → α
  | sum => (· + ·)
  | difference => (· - ·)
  | product => (· * ·)
  | quotient => (· / ·)

/-- The operation on two quaternions. -/
def onQuaternions : Folding → Quaternion α → Quaternion α → Quaternion α
  | sum => .add
  | difference => .sub
  | product => .mul
  | quotient => .div

/-- A result is a plain number exactly if all operands are. -/
theorem isReal_result (op : Folding) (x y : Numeric α) (zs : List (Numeric α)) :
    (op.result x (y :: zs)).isReal = (x :: y :: zs).all Numeric.isReal := by
  cases op with
  | sum => exact Numeric.isReal_foldl_promoting (.real 0) (x :: y :: zs)
  | difference => exact Numeric.isReal_foldl_promoting x (y :: zs)
  | product => exact Numeric.isReal_foldl_promoting (.real 1) (x :: y :: zs)
  | quotient => exact Numeric.isReal_foldl_promoting x (y :: zs)

end Operations

/-! ## Exact arithmetic -/

section Field

variable {K : Type} [Field K]

/-- On numbers the operations on quaternions are those on numbers. -/
theorem ofReal_onReals (op : Folding) (x y : K) :
    op.onQuaternions (.ofReal x) (.ofReal y) = .ofReal (op.onReals x y) := by
  cases op with
  | sum => simp [onQuaternions, onReals, Quaternion.add, Quaternion.ofReal]
  | difference => simp [onQuaternions, onReals, Quaternion.sub, Quaternion.ofReal]
  | product => simp [onQuaternions, onReals, Quaternion.mul, Quaternion.ofReal]
  | quotient =>
    have hdiv : x * y⁻¹ = x / y := (div_eq_mul_inv x y).symm
    simp [onQuaternions, onReals, Quaternion.div, Quaternion.mul, Quaternion.inverse, Quaternion.normSquared, Quaternion.ofReal,
      hdiv]

/-- The number that a sum or a product starts with makes no difference. -/
theorem result_eq_foldl (op : Folding) (x y : Numeric K) (zs : List (Numeric K)) :
    op.result x (y :: zs) = (y :: zs).foldl (Numeric.promoting op.onReals op.onQuaternions) x := by
  cases op with
  | sum =>
    have hzero : Numeric.add (.real 0) x = x := by
      cases x <;> simp [Numeric.add, Numeric.promoting, Numeric.toQuaternion, Quaternion.add, Quaternion.ofReal]
    exact congrArg ((y :: zs).foldl Numeric.add) hzero
  | difference => rfl
  | product =>
    have hone : Numeric.mul (.real 1) x = x := by
      cases x <;> simp [Numeric.mul, Numeric.promoting, Numeric.toQuaternion, Quaternion.mul, Quaternion.ofReal]
    exact congrArg ((y :: zs).foldl Numeric.mul) hone
  | quotient => rfl

/-- A result is the left fold of the operation on quaternions, wherever the first quaternion stands. -/
theorem toQuaternion_result (op : Folding) (x y : Numeric K) (zs : List (Numeric K)) :
    (op.result x (y :: zs)).toQuaternion =
      ((y :: zs).map Numeric.toQuaternion).foldl op.onQuaternions x.toQuaternion := by
  rw [result_eq_foldl, Numeric.toQuaternion_foldl_promoting op.ofReal_onReals]

end Field

end Folding

/-! ## Calls -/

/-- A value that is a plain number. -/
def Value.IsNumber (v : Value) : Prop := ∃ origin x, v = .number origin x

theorem Value.isNumber_ofNumeric (stamp : Stamp) (x : Numeric Float) : (Value.ofNumeric stamp x).IsNumber ↔ x.isReal := by
  cases x <;> simp [IsNumber, ofNumeric, Numeric.isReal]

theorem Value.isReal_asNumeric {v : Value} {x : Numeric Float} (h : v.asNumeric = .ok x) : x.isReal ↔ v.IsNumber := by
  cases v <;> cases h <;> simp [IsNumber, Numeric.isReal]

/-- The arguments that are plain numbers are read as such. -/
theorem isReal_operands {args : List Value} {xs : List (Numeric Float)} (h : args.mapM Value.asNumeric = .ok xs) :
    xs.all Numeric.isReal ↔ ∀ v ∈ args, v.IsNumber := by
  induction args generalizing xs with
  | nil =>
    cases h
    simp
  | cons v args ih =>
    rw [List.mapM_cons] at h
    obtain ⟨x, hx, h⟩ := Except.bind_eq_ok h
    obtain ⟨ys, hys, h⟩ := Except.bind_eq_ok h
    cases h
    simp [Value.isReal_asNumeric hx, ← ih hys]

namespace Folding

theorem accepts_operands {args : List Value} {x y : Numeric Float} {zs : List (Numeric Float)} (op : Folding)
    (h : args.mapM Value.asNumeric = .ok (x :: y :: zs)) : op.builtin.arity.accepts args.length := by
  cases args with
  | nil => cases h
  | cons v args => cases op <;> simp [builtin, Arity.accepts, Arity.atLeast]

theorem run_operands {args : List Value} {x y : Numeric Float} {zs : List (Numeric Float)} (op : Folding)
    (h : args.mapM Value.asNumeric = .ok (x :: y :: zs)) (stamp : Stamp) :
    op.arithmetic.run stamp args = .ok (.ofNumeric stamp (op.result x (y :: zs))) := by
  cases op <;> (simp only [arithmetic, Arithmetic.run, Arithmetic.result, h]; rfl)

/-- A call of one of the procedures computes its operation. -/
theorem returns_call (op : Folding) {scope : Scope} {s : Store} {head : Code} {args : List Value} {x y : Numeric Float}
    {zs : List (Numeric Float)} (hhead : Denotes s.frames scope head (.builtin op.builtin))
    (hargs : args.mapM Value.asNumeric = .ok (x :: y :: zs)) (n : Nat) :
    (evaluate (n + 2) (calling head args) scope).Returns s (.ofNumeric s.nextStamp (op.result x (y :: zs))) := by
  have hoperation : op.builtin.operation = .arithmetic op.arithmetic := by cases op <;> rfl
  refine returns_stamped (op.arithmetic.run · args) hhead (fun r => ?_) (op.accepts_operands hargs)
    (op.run_operands hargs _) n
  rw [hoperation]
  rfl

end Folding

/-- Over the rationals quaternions obey the laws of a division algebra. Of two or more rational numbers and quaternions each
operation makes a plain number exactly if all of them are, and what it makes is, as a quaternion, the left fold of the operation
on quaternions. The built-in procedures are these operations on doubles: a call gives the result of the operation, and it is a
plain number exactly if all arguments are. -/
theorem arithmetic_exact :
    Quaternion.Laws ℚ ∧
      (∀ (op : Folding) (x y : Numeric ℚ) (zs : List (Numeric ℚ)),
        ((op.result x (y :: zs)).isReal ↔ ∀ z ∈ x :: y :: zs, z.isReal) ∧
          (op.result x (y :: zs)).toQuaternion =
            ((y :: zs).map Numeric.toQuaternion).foldl op.onQuaternions x.toQuaternion) ∧
      ∀ op : Folding, op.builtin ∈ Builtin.table ∧
        ∀ (scope : Scope) (s : Store) (head : Code) (args : List Value) (x y : Numeric Float) (zs : List (Numeric Float)) (n : Nat),
          Denotes s.frames scope head (.builtin op.builtin) → args.mapM Value.asNumeric = .ok (x :: y :: zs) →
            (evaluate (n + 2) (calling head args) scope).Returns s (.ofNumeric s.nextStamp (op.result x (y :: zs))) ∧
              ((Value.ofNumeric s.nextStamp (op.result x (y :: zs))).IsNumber ↔ ∀ v ∈ args, v.IsNumber) := by
  refine ⟨Quaternion.laws, fun op x y zs => ⟨?_, op.toQuaternion_result x y zs⟩, fun op => ⟨op.builtin_mem_table, ?_⟩⟩
  · rw [op.isReal_result, List.all_eq_true]
  · intro scope s head args x y zs n hhead hargs
    refine ⟨op.returns_call hhead hargs n, ?_⟩
    rw [Value.isNumber_ofNumeric, op.isReal_result, isReal_operands hargs]

/-- A number divided by a quaternion and by another number. -/
def mixedArguments : List Value := [.number .made 6, .quaternion 0 ⟨0, 2, 0, 0⟩, .number .made 3]

theorem arithmetic_exact_mixedArguments :
    ((⟨0, 2, 0, 0⟩ : Quaternion ℚ) ≠ .ofReal 0 ∧ (⟨0, 2, 0, 0⟩ : Quaternion ℚ).inverse.mul ⟨0, 2, 0, 0⟩ = .ofReal 1) ∧
      (Folding.quotient.result (.real 6) [.quaternion ⟨0, 2, 0, 0⟩, .real 3] : Numeric ℚ).toQuaternion = ⟨0, -1, 0, 0⟩ ∧
      ∃ v, (evaluate 2 (calling (.symbol .start "/") mixedArguments) .global).Returns Store.unused v ∧ ¬ v.IsNumber := by
  obtain ⟨hlaws, hresult, hcall⟩ := arithmetic_exact
  have hne : (⟨0, 2, 0, 0⟩ : Quaternion ℚ) ≠ .ofReal 0 := by decide
  obtain ⟨hreturns, hnumber⟩ := (hcall .quotient).2 .global Store.unused (.symbol .start "/") mixedArguments (.real 6)
    (.quaternion ⟨0, 2, 0, 0⟩) [.real 3] 0 (.name rfl rfl) rfl
  refine ⟨⟨hne, hlaws.inverse_mul _ hne⟩, ?_, _, hreturns, ?_⟩
  · rw [(hresult .quotient _ _ _).2]
    norm_num [Folding.onQuaternions, Numeric.toQuaternion, Quaternion.ofReal, Quaternion.div, Quaternion.mul, Quaternion.inverse,
      Quaternion.normSquared]
  · rw [hnumber]
    intro h
    obtain ⟨_, _, h⟩ := h (.quaternion 0 ⟨0, 2, 0, 0⟩) (by simp [mixedArguments])
    cases h

end Lisplet
