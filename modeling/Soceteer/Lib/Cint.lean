import Mathlib.Algebra.Group.Int.Defs
import Mathlib.Algebra.Group.Nat.Defs
import Mathlib.Data.Int.Notation
import Mathlib.Tactic.SplitIfs

/-!
# Soceteer.Lib.Cint — integer expressions of C

What ISO C says about the integers of an expression: promotions, the usual arithmetic conversions, and the
operations that have no meaning for some operands.

* `Xlen`: the two targets; `Ty`: an integer type, `Ty.promote`, `Ty.common`, `Ty.conv` its conversions.
* `Expr`, `Expr.ty`, `Expr.eval`: expressions; a value that is not defined is `none`.
* `Expr.ShiftsInRange`: every shift is by less than the width of its promoted operand.
* `int?`: the result of an operation on two `int`s.
-/

namespace Soceteer.Lib

/-- RV32 and RV64. -/
inductive Xlen
  | rv32
  | rv64
deriving DecidableEq

/-- Bits of a `long`, of a `size_t` and of a pointer. -/
def Xlen.bits : Xlen → ℕ
  | rv32 => 32
  | rv64 => 64

theorem Xlen.bits_pos (x : Xlen) : 0 < x.bits := by cases x <;> simp [bits]

namespace Cint

/-! ## Types -/

structure Ty where
  signed : Bool
  bits : ℕ
deriving DecidableEq

def uint8 : Ty := ⟨false, 8⟩

def int : Ty := ⟨true, 32⟩

/-- `unsigned long` and `uintptr_t`. -/
def ulong (x : Xlen) : Ty := ⟨false, x.bits⟩

namespace Ty

/-- The integer promotions. -/
def promote (t : Ty) : Ty := if t.bits < 32 then int else t

/-- The usual arithmetic conversions. -/
def common (t u : Ty) : Ty :=
  if t.promote.bits < u.promote.bits then u.promote
  else if u.promote.bits < t.promote.bits then t.promote
  else ⟨t.promote.signed && u.promote.signed, t.promote.bits⟩

/-- A value converted to the type. -/
def conv (t : Ty) (v : ℤ) : ℤ := if t.signed then v.bmod (2 ^ t.bits) else v % 2 ^ t.bits

/-- A result that the type holds; one of a signed type that it does not hold is not defined. -/
def fit (t : Ty) (v : ℤ) : Option ℤ :=
  if t.signed then if -2 ^ (t.bits - 1) ≤ v ∧ v < 2 ^ (t.bits - 1) then some v else none else some (t.conv v)

end Ty

/-- The result of an operation on two `int`s. -/
def int? (v : ℤ) : Option ℤ := int.fit v

theorem int?_eq (v : ℤ) : int? v = if -2 ^ 31 ≤ v ∧ v < 2 ^ 31 then some v else none := rfl

theorem int?_eq_some {v u : ℤ} : int? v = some u ↔ v = u ∧ -2 ^ 31 ≤ v ∧ v < 2 ^ 31 := by
  rw [int?_eq, Option.ite_none_right_eq_some, Option.some_inj, and_comm]

/-! ## Expressions -/

inductive Expr
  | val (t : Ty) (v : ℤ)
  | and (a b : Expr)
  | or (a b : Expr)
  | sub (a b : Expr)
  | shl (a b : Expr)

namespace Expr

/-- The type of the result of a shift is that of its promoted left operand. -/
def ty : Expr → Ty
  | val t _ => t
  | and a b => a.ty.common b.ty
  | or a b => a.ty.common b.ty
  | sub a b => a.ty.common b.ty
  | shl a _ => a.ty.promote

/-- A bitwise operation in a type. -/
def bitwise (t : Ty) (op : BitVec t.bits → BitVec t.bits → BitVec t.bits) (v u : ℤ) : ℤ :=
  t.conv (op (BitVec.ofInt t.bits v) (BitVec.ofInt t.bits u)).toInt

/-- `v << n` in a promoted type. -/
def shift (t : Ty) (v n : ℤ) : Option ℤ :=
  if n < 0 ∨ t.bits ≤ n then none
  else if t.signed ∧ v < 0 then none
  else t.fit (v * 2 ^ n.toNat)

def eval : Expr → Option ℤ
  | val _ v => some v
  | and a b => a.eval.bind fun v => b.eval.bind fun u => some (bitwise (a.ty.common b.ty) (· &&& ·) v u)
  | or a b => a.eval.bind fun v => b.eval.bind fun u => some (bitwise (a.ty.common b.ty) (· ||| ·) v u)
  | sub a b => a.eval.bind fun v => b.eval.bind fun u =>
    (a.ty.common b.ty).fit ((a.ty.common b.ty).conv v - (a.ty.common b.ty).conv u)
  | shl a b => a.eval.bind fun v => b.eval.bind fun n => shift a.ty.promote v n

/-- Every shift is by less than the width of its promoted operand. -/
def ShiftsInRange : Expr → Prop
  | val _ _ => True
  | and a b => a.ShiftsInRange ∧ b.ShiftsInRange
  | or a b => a.ShiftsInRange ∧ b.ShiftsInRange
  | sub a b => a.ShiftsInRange ∧ b.ShiftsInRange
  | shl a b => a.ShiftsInRange ∧ b.ShiftsInRange ∧ ∀ n, b.eval = some n → 0 ≤ n ∧ n < a.ty.promote.bits

/-- An expression with a value has no shift out of range. -/
theorem shiftsInRange_of_eval : ∀ {e : Expr} {v : ℤ}, e.eval = some v → e.ShiftsInRange
  | val _ _, _, _ => trivial
  | and a b, v, h => by
    obtain ⟨x, ha, h⟩ := Option.bind_eq_some_iff.mp h
    obtain ⟨y, hb, -⟩ := Option.bind_eq_some_iff.mp h
    exact ⟨shiftsInRange_of_eval ha, shiftsInRange_of_eval hb⟩
  | or a b, v, h => by
    obtain ⟨x, ha, h⟩ := Option.bind_eq_some_iff.mp h
    obtain ⟨y, hb, -⟩ := Option.bind_eq_some_iff.mp h
    exact ⟨shiftsInRange_of_eval ha, shiftsInRange_of_eval hb⟩
  | sub a b, v, h => by
    obtain ⟨x, ha, h⟩ := Option.bind_eq_some_iff.mp h
    obtain ⟨y, hb, -⟩ := Option.bind_eq_some_iff.mp h
    exact ⟨shiftsInRange_of_eval ha, shiftsInRange_of_eval hb⟩
  | shl a b, v, h => by
    obtain ⟨x, ha, h⟩ := Option.bind_eq_some_iff.mp h
    obtain ⟨y, hb, h⟩ := Option.bind_eq_some_iff.mp h
    refine ⟨shiftsInRange_of_eval ha, shiftsInRange_of_eval hb, fun n hn => ?_⟩
    obtain rfl : y = n := Option.some.inj (hb.symm.trans hn)
    rw [shift] at h
    split_ifs at h with hrange
    exact ⟨by omega, by omega⟩

end Expr

end Cint

end Soceteer.Lib
