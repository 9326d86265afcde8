import Mathlib.Algebra.BigOperators.Group.List.Basic
import Mathlib.Algebra.Group.PUnit

/-!
Readings of a stack of layers, from the newest layer down: either a value, which hides everything
older, or an amount, which is added to older amounts.  The product of a list of readings is the
first value in it, or the sum of its amounts if it has no value.
-/
namespace Smos.Lib

/-- A value that hides what comes after it, or an amount that is added to it. -/
inductive FirstWins (D A : Type*) where
  | of (d : D)
  | amount (a : A)
  deriving DecidableEq

namespace FirstWins

variable {D A : Type*}

def toOption : FirstWins D A → Option D
  | of d => some d
  | amount _ => none

@[simp] theorem toOption_of (d : D) : (of d : FirstWins D A).toOption = some d := rfl

@[simp] theorem toOption_amount (a : A) : (amount a : FirstWins D A).toOption = none := rfl

variable [AddCommMonoid A]

instance : Mul (FirstWins D A) where
  mul
    | of d, _ => of d
    | amount _, of d => of d
    | amount a, amount b => amount (a + b)

instance : One (FirstWins D A) where
  one := amount 0

@[simp] theorem of_mul (d : D) (x : FirstWins D A) : of d * x = of d := rfl

@[simp] theorem amount_mul_of (a : A) (d : D) :
    (amount a * of d : FirstWins D A) = of d := rfl

@[simp] theorem amount_mul_amount (a b : A) :
    (amount a * amount b : FirstWins D A) = amount (a + b) := rfl

theorem one_def : (1 : FirstWins D A) = amount 0 := rfl

instance : Monoid (FirstWins D A) where
  mul_assoc x y z := by
    cases x <;> cases y <;> cases z <;> simp [add_assoc]
  one_mul x := by
    cases x <;> simp [one_def]
  mul_one x := by
    cases x <;> simp [one_def]

@[simp] theorem toOption_one : (1 : FirstWins D A).toOption = none := rfl

theorem toOption_mul (x y : FirstWins D A) : (x * y).toOption = x.toOption.or y.toOption := by
  cases x <;> cases y <;> rfl

/-- The value of a product is the first value in it. -/
theorem toOption_prod_map {α : Type*} (l : List α) (f : α → FirstWins D A) :
    (l.map f).prod.toOption = l.findSome? fun x => (f x).toOption := by
  induction l with
  | nil => rfl
  | cons x l ih =>
    rw [List.map_cons, List.prod_cons, toOption_mul, ih, List.findSome?_cons]
    cases (f x).toOption <;> rfl

end FirstWins

end Smos.Lib
