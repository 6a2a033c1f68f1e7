/-!
Decimal forms of finite binary numbers, selected by exact integer arithmetic.

A finite float is `significand · 2 ^ exponent`. Two decimal forms are taken from it: the value
rounded to a fixed number of significant digits, a tie going to the even neighbour, and the
shortest digits that lie in its rounding interval. No float operation takes part beyond the
reading of the bits.
-/

namespace WeightedAutomata.Decimal

/-- A positive number `significand · 2 ^ exponent`. `narrow` says that the next smaller number of
the format is only half as far away as the next larger one. -/
structure Binary where
  significand : Nat
  exponent : Int
  narrow : Bool
  deriving DecidableEq

/-- The magnitude of a finite float, read off its bits. -/
def Binary.ofFloat (x : Float) : Binary :=
  let bits := x.toBits.toNat
  let fraction : Nat := bits % 0x10000000000000
  let biased : Nat := bits / 0x10000000000000 % 0x800
  if biased = 0 then ⟨fraction, -1074, false⟩
  else ⟨0x10000000000000 + fraction, (biased : Int) - 1075, fraction = 0 ∧ 1 < biased⟩

structure Ratio where
  num : Nat
  den : Nat
  deriving DecidableEq

/-- `n · base ^ e`. -/
def Ratio.scaled (n base : Nat) (e : Int) : Ratio :=
  ⟨n * base.pow e.toNat, base.pow (-e).toNat⟩

def Ratio.le (a b : Ratio) : Bool := a.num * b.den ≤ b.num * a.den

def Ratio.lt (a b : Ratio) : Bool := a.num * b.den < b.num * a.den

def Binary.ratio (b : Binary) : Ratio := .scaled b.significand 2 b.exponent

/-- The least `k` with `r < 10 ^ k`, for a positive `r`. -/
def scale (r : Ratio) : Int :=
  let digits (n : Nat) : Int := (Nat.toDigits 10 n).length
  if r.den ≤ r.num then digits (r.num / r.den) else 1 - digits ((r.den - 1) / r.num)

/-- The quotient rounded to the nearest integer, a tie going to the even one. -/
def roundQuotient (num den : Nat) : Nat :=
  let q := num / den
  let r := num % den
  if 2 * r < den then q else if den < 2 * r then q + 1 else if q % 2 = 0 then q else q + 1

/-- The number `digits · 10 ^ (scale - count)`, where `digits` has `count` decimal digits: it
reads as `0.d₁d₂… · 10 ^ scale`. -/
structure Digits where
  digits : Nat
  count : Nat
  scale : Int
  deriving DecidableEq

/-- The value rounded to `count` significant digits. -/
def Binary.rounded (b : Binary) (count : Nat) : Digits :=
  let k := Decimal.scale b.ratio
  let shift := (count : Int) - k
  let r := b.ratio
  let d := roundQuotient (r.num * Nat.pow 10 shift.toNat) (r.den * Nat.pow 10 (-shift).toNat)
  if d < Nat.pow 10 count then ⟨d, count, k⟩ else ⟨d / 10, count, k + 1⟩

/-- The decimal `digits · 10 ^ e` lies in the interval of reals that round to `b`; its ends
belong to it exactly when the significand is even. -/
def Binary.covers (b : Binary) (digits : Nat) (e : Int) : Bool :=
  let x := Ratio.scaled digits 10 e
  let below := if b.narrow then Ratio.scaled (4 * b.significand - 1) 2 (b.exponent - 2)
    else Ratio.scaled (2 * b.significand - 1) 2 (b.exponent - 1)
  let above := Ratio.scaled (2 * b.significand + 1) 2 (b.exponent - 1)
  if b.significand % 2 = 0 then below.le x && x.le above else below.lt x && x.lt above

/-- The neighbour of the value among the decimals of `count` digits that rounds back to it; of
two the nearer one. -/
def Binary.onGrid? (b : Binary) (count : Nat) : Option Digits :=
  let k := Decimal.scale b.ratio
  let e := k - count
  let r := b.ratio
  let num := r.num * Nat.pow 10 (-e).toNat
  let den := r.den * Nat.pow 10 e.toNat
  let low := num / den
  let nearest := roundQuotient num den
  let pick (d : Nat) : Option Digits :=
    if b.covers d e then
      some (if d < Nat.pow 10 count then ⟨d, count, k⟩ else ⟨d / 10, count, k + 1⟩)
    else none
  (pick nearest).or (pick (if nearest = low then low + 1 else low))

/-- The fewest digits that round back to the value. Seventeen always suffice. -/
def Binary.shortest (b : Binary) : Digits :=
  ((List.range 17).findSome? fun n => b.onGrid? (n + 1)).getD (b.rounded 17)

def Digits.text (d : Digits) : String :=
  let s := toString d.digits
  String.ofList (List.replicate (d.count - s.length) '0') ++ s

/-- One digit before the point, the others after it, and the exponent without padding. -/
def Digits.scientific (d : Digits) : String :=
  let ds := d.text.toList
  String.ofList (ds.take 1) ++ "." ++ String.ofList (ds.drop 1) ++ "e" ++ toString (d.scale - 1)

/-- Written out around the point, with at least one digit on each side of it. -/
def Digits.positional (d : Digits) : String :=
  let ds := d.text.toList
  let zeros (n : Nat) : List Char := List.replicate n '0'
  if d.scale ≤ 0 then "0." ++ String.ofList (zeros (-d.scale).toNat ++ ds)
  else
    let k := d.scale.toNat
    let after := ds.drop k
    String.ofList (ds.take k ++ zeros (k - ds.length)) ++ "." ++
      String.ofList (if after.isEmpty then ['0'] else after)

/-- A float with `count` significant digits in scientific form. Zero has no sign. -/
def scientific (count : Nat) (x : Float) : String :=
  if x.isNaN then "nan"
  else if x.isInf then (if x < 0 then "-inf" else "inf")
  else if x == 0 then "0." ++ String.ofList (List.replicate (count - 1) '0') ++ "e0"
  else (if x < 0 then "-" else "") ++ ((Binary.ofFloat x).rounded count).scientific

/-- The shortest form of a positive finite float, written out around the point. -/
def shortest (x : Float) : String := (Binary.ofFloat x).shortest.positional

end WeightedAutomata.Decimal
