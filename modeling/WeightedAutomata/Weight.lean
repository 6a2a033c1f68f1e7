import WeightedAutomata.LogDomain

/-!
Weights of transitions, in one of two ranges.

A probability is at most one and a magnitude is any non-negative number, both stored as integer
logarithms. Weights along a path are multiplied and weights of alternatives are added; the
product needs no tables, the sum is taken in a `LogDomain`.
-/

namespace WeightedAutomata

/-- The numbers a weight stands for. -/
inductive Range where
  /-- From zero to one. -/
  | probability
  /-- From zero up. -/
  | magnitude
  deriving DecidableEq

/-- The greatest logarithm of the range. -/
def Range.top : Range → Log
  | probability => .one
  | magnitude => .greatest

theorem Range.top_nonneg (r : Range) : 0 ≤ r.top.val := by cases r <;> decide

/-- A weight, known by its logarithm. -/
structure Weight (r : Range) where
  log : Log
  le_top : log.val ≤ r.top.val
  deriving DecidableEq

namespace Weight

variable {r : Range}

instance : Zero (Weight r) := ⟨⟨.zero, Int.le_trans (by decide) r.top_nonneg⟩⟩

instance : One (Weight r) := ⟨⟨.one, r.top_nonneg⟩⟩

instance : Inhabited (Weight r) := ⟨0⟩

/-- A weight with this logarithm. A logarithm above the range collapses to zero. -/
def ofLog (a : Log) : Weight r := if h : a.val ≤ r.top.val then ⟨a, h⟩ else 0

/-- The weight with this logarithm, or the greatest of the range if that is less. -/
def cap (a : Log) : Weight r :=
  if h : a.val ≤ r.top.val then ⟨a, h⟩ else ⟨r.top, Int.le_refl _⟩

/-- Weights are ordered as the numbers they stand for. -/
instance : Ord (Weight r) := ⟨fun a b => compare a.log b.log⟩

instance : LE (Weight r) := ⟨fun a b => a.log.val ≤ b.log.val⟩

instance : LT (Weight r) := ⟨fun a b => a.log.val < b.log.val⟩

instance (a b : Weight r) : Decidable (a ≤ b) :=
  inferInstanceAs (Decidable (a.log.val ≤ b.log.val))

instance (a b : Weight r) : Decidable (a < b) :=
  inferInstanceAs (Decidable (a.log.val < b.log.val))

/-- The product; one that would leave the range is zero. -/
instance : Mul (Weight r) := ⟨fun a b => ofLog (a.log.times b.log)⟩

/-- The quotient; one that would leave the range is zero, and so is a quotient by zero. -/
instance : Div (Weight r) := ⟨fun a b => ofLog (a.log.divide b.log)⟩

def isZero (a : Weight r) : Bool := a = 0

/-- The product of a path's weights, from left to right. -/
def product (ws : List (Weight r)) : Weight r := ws.foldl (· * ·) 1

/-- The sum, at most the greatest weight of the range. -/
def plus (d : LogDomain) (a b : Weight r) : Weight r := cap (d.sum a.log b.log)

/-- The sum of the weights of alternatives, from left to right. -/
def sum (d : LogDomain) (ws : List (Weight r)) : Weight r := ws.foldl (plus d) 0

def minus (d : LogDomain) (a b : Weight .magnitude) : Weight .magnitude :=
  ofLog (d.difference a.log b.log)

/-- The weight of a linear value. A value from one up is the probability one; a value that is not
positive is zero. -/
def ofFloat (d : LogDomain) (value : Float) : Weight r :=
  match r with
  | .probability => if 1 ≤ value then 1 else cap (d.toLog value)
  | .magnitude => cap (d.toLog value)

def value (d : LogDomain) (a : Weight r) : Float := d.toLinear a.log

def described (a : Weight r) : String :=
  let name := match r with | .probability => "LogProb" | .magnitude => "LogMagnitude"
  let log := if a.isZero then "zero" else toString a.log.val
  s!"{name}({log})"

@[ext] theorem ext {a b : Weight r} (h : a.log.val = b.log.val) : a = b := by
  obtain ⟨a, _⟩ := a
  obtain ⟨b, _⟩ := b
  have : a = b := Log.ext h
  subst this
  rfl

@[simp] theorem log_zero : (0 : Weight r).log = .zero := rfl

@[simp] theorem log_one : (1 : Weight r).log = .one := rfl

theorem log_ofLog (a : Log) :
    (ofLog a : Weight r).log = if a.val ≤ r.top.val then a else .zero := by
  unfold ofLog
  split <;> rfl

theorem log_cap (a : Log) : (cap a : Weight r).log = if a.val ≤ r.top.val then a else r.top := by
  unfold cap
  split <;> rfl

theorem log_mul (a b : Weight r) : (a * b).log =
    if (a.log.times b.log).val ≤ r.top.val then a.log.times b.log else .zero :=
  log_ofLog _

@[simp] theorem product_nil : product ([] : List (Weight r)) = 1 := rfl

end Weight

end WeightedAutomata
