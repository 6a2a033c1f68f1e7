/-!
Elementary functions of floats near the points where the textbook formula cancels.
-/

namespace WeightedAutomata.Elementary

/-- `acc · x ^ n` by repeated squaring, the low binary digits of `n` first. -/
def powerFrom (acc x : Float) (n : Nat) : Float :=
  let acc := if n % 2 = 1 then acc * x else acc
  if n < 2 then acc else powerFrom acc (x * x) (n / 2)
termination_by n

def power (x : Float) (n : Nat) : Float := powerFrom 1 x n

/-- `log (1 + x)`. The rounding error made in `1 + x` is divided out again, so the result is
accurate also where `x` is tiny. -/
def logOnePlus (x : Float) : Float :=
  let u := 1 + x
  if u == 1 then x else u.log * x / (u - 1)

/-- `exp x - 1`, with the same correction. -/
def expMinusOne (x : Float) : Float :=
  let u := x.exp
  if u == 1 then x
  else if u - 1 == -1 then -1
  else (u - 1) * x / u.log

end WeightedAutomata.Elementary
