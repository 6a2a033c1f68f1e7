import WeightedAutomata.Decimal
import WeightedAutomata.Elementary
import WeightedAutomata.Error
import WeightedAutomata.Log

/-!
Addition and subtraction of numbers that are known by their integer logarithms.

The base is `1 + 10 ^ -precision`. With `b` for the base, `b ^ a + b ^ c` has the logarithm
`a + log (1 + b ^ (c - a))`, so the larger logarithm is raised by a step that depends on the gap
alone and vanishes beyond `tableLength`. Subtraction takes its step from the same gap.
-/

namespace WeightedAutomata

/-- A base, with the steps of addition and subtraction for each gap below `tableLength`. -/
structure LogDomain where
  precision : Nat
  base : Float
  /-- The natural logarithm of the base. -/
  logBase : Float
  tableLength : Nat
  /-- How far the larger of two logarithms rises when the smaller, this gap below it, is added. -/
  sumStep : Nat → Nat
  /-- How far above the smaller of two logarithms with this gap their difference lies. -/
  differenceStep : Nat → Int

namespace LogDomain

def defaultPrecision : Nat := 5

def maxPrecision : Nat := 6

/-- The domain of base `1 + 10 ^ -precision`, its steps rounded to the nearest integer. The table
ends where a step would come from a term of less than one unit. -/
def build (precision : Nat) : LogDomain :=
  let base := 1 + Elementary.power 0.1 precision
  let logBase := base.log
  { precision, base, logBase
    tableLength := ((1 / (base - 1)).log / logBase).toUInt64.toNat
    sumStep := fun gap =>
      (Elementary.logOnePlus (-gap.toFloat * logBase).exp / logBase).round.toUInt32.toNat
    differenceStep := fun gap =>
      ((Elementary.expMinusOne (gap.toFloat * logBase)).log / logBase).round.toInt64.toInt }

/-- The domain of a precision from 1 to 6. -/
def ofPrecision (precision : Nat) : Except Error LogDomain :=
  if precision = 0 ∨ maxPrecision < precision then .error (.precisionOutOfRange precision)
  else .ok (build precision)

variable (d : LogDomain)

/-- The logarithm of a linear value, zero for a value that is not positive. -/
def toLog (value : Float) : Log :=
  if 0 < value then .saturate (value.log / d.logBase).round.toInt64.toInt else .zero

def toLinear (a : Log) : Float :=
  if a.isZero then 0 else (a.val.toInt64.toFloat * d.logBase).exp

/-- The logarithm of `b ^ a + b ^ c`. -/
def sum (a c : Log) : Log :=
  if a = .zero then c
  else if c = .zero then a
  else
    let low := if a.val ≤ c.val then a else c
    let high := if a.val ≤ c.val then c else a
    let gap := (high.val - low.val).toNat
    if gap < d.tableLength then .saturate (high.val + d.sumStep gap) else high

/-- The logarithm of `b ^ a - b ^ c`, zero when that is not positive. -/
def difference (a c : Log) : Log :=
  if c = .zero then a
  else if a.val ≤ c.val then .zero
  else
    let gap := (a.val - c.val).toNat
    if gap < d.tableLength then .saturate (c.val + d.differenceStep gap) else a

def described : String :=
  s!"LogDomain \x7b precision: {d.precision}, base: {Decimal.shortest d.base}, " ++
    s!"table_len: {d.tableLength} \x7d"

end LogDomain

end WeightedAutomata
