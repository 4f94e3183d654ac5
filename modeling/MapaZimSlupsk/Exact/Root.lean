import Mathlib.Analysis.Real.Sqrt

/-!
# Exact square roots

A program that takes square roots of rationals and then only compares and copies them can be run
exactly: a root is kept by its radicand.

* `Root` : the square root of a non-negative rational, with the order of the radicands.
* `Root.toReal` : the real number it stands for.

`Root.toReal_lt_toReal` and `Root.toReal_eq_zero` say that comparing roots is comparing the real
numbers they stand for.
-/

namespace MapaZimSlupsk

/-- The square root of a non-negative rational. -/
@[ext]
structure Root where
  square : ℚ
  nonneg : 0 ≤ square
  deriving DecidableEq

namespace Root

theorem square_injective : Function.Injective square := fun _ _ h => Root.ext h

instance : LinearOrder Root := LinearOrder.lift' square square_injective

instance : Zero Root := ⟨⟨0, le_refl 0⟩⟩

/-- `sqrt(a * a + b * b)`. -/
def sqrtSumSq (a b : ℚ) : Root := ⟨a * a + b * b, add_nonneg (mul_self_nonneg a) (mul_self_nonneg b)⟩

variable {a b : Root}

theorem zero_le (a : Root) : 0 ≤ a := a.nonneg

theorem lt_iff : a < b ↔ a.square < b.square := Iff.rfl

theorem eq_zero_iff : a = 0 ↔ a.square = 0 := Root.ext_iff

/-- The real number that a root stands for. -/
noncomputable def toReal (a : Root) : ℝ := √a.square

theorem toReal_lt_toReal : a.toReal < b.toReal ↔ a < b := by
  unfold toReal
  rw [Real.sqrt_lt_sqrt_iff (by exact_mod_cast a.nonneg), Rat.cast_lt, lt_iff]

theorem toReal_eq_zero : a.toReal = 0 ↔ a = 0 := by
  unfold toReal
  rw [Real.sqrt_eq_zero (by exact_mod_cast a.nonneg), Rat.cast_eq_zero, eq_zero_iff]

end Root

end MapaZimSlupsk
