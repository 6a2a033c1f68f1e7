/-!
Integer logarithms of non-negative reals, with 64 bits.

The least value stands for the logarithm of zero. Sums and differences of logarithms saturate at
both ends of the range, so a product that underflows becomes zero.
-/

namespace WeightedAutomata

/-- A logarithm in the 64-bit range. -/
structure Log where
  val : Int
  ge_least : -0x8000000000000000 ≤ val
  le_greatest : val ≤ 0x7fffffffffffffff
  deriving DecidableEq

namespace Log

def zero : Log := ⟨-0x8000000000000000, by decide, by decide⟩

def one : Log := ⟨0, by decide, by decide⟩

def greatest : Log := ⟨0x7fffffffffffffff, by decide, by decide⟩

/-- The nearest logarithm of the range. -/
def saturate (x : Int) : Log :=
  ⟨max (-0x8000000000000000) (min x (0x7fffffffffffffff)), by omega, by omega⟩

def isZero (a : Log) : Bool := a = zero

/-- Logarithms are ordered as numbers, so zero's comes first. -/
instance : Ord Log := ⟨fun a c => compare a.val c.val⟩

/-- The logarithm of a product: zero when a factor is zero, else the saturated sum. -/
def times (a c : Log) : Log :=
  if a = zero ∨ c = zero then zero else saturate (a.val + c.val)

/-- The logarithm of a quotient: zero when either side is zero, else the saturated difference. -/
def divide (a c : Log) : Log :=
  if a = zero ∨ c = zero then zero else saturate (a.val - c.val)

@[ext] theorem ext {a c : Log} (h : a.val = c.val) : a = c := by
  cases a; cases c; simp_all

theorem eq_zero_of_le {a : Log} (h : a.val ≤ zero.val) : a = zero :=
  ext (Int.le_antisymm h a.ge_least)

@[simp] theorem val_zero : zero.val = -0x8000000000000000 := rfl

@[simp] theorem val_one : one.val = 0 := rfl

@[simp] theorem val_greatest : greatest.val = 0x7fffffffffffffff := rfl

theorem val_saturate (x : Int) :
    (saturate x).val = max (-0x8000000000000000) (min x (0x7fffffffffffffff)) := rfl

/-- A number of the range is its own nearest logarithm. -/
theorem val_saturate_of_mem {x : Int} (lo : -0x8000000000000000 ≤ x) (hi : x ≤ 0x7fffffffffffffff) :
    (saturate x).val = x := by
  rw [val_saturate]; omega

@[simp] theorem saturate_val (a : Log) : saturate a.val = a :=
  ext (val_saturate_of_mem a.ge_least a.le_greatest)

end Log

end WeightedAutomata
