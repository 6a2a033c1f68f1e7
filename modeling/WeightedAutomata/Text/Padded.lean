/-!
Texts set into a field of a given width. Widths count characters.
-/

namespace WeightedAutomata.Text

inductive Alignment where
  | left
  | right
  /-- An odd blank goes to the right. -/
  | center
  deriving DecidableEq

/-- How a text is set. Without an alignment each kind of text has its own. -/
structure Field where
  alignment : Option Alignment := none
  fill : Char := ' '
  width : Nat := 0
  /-- The most characters that are kept, where the kind of text can be cut. -/
  limit : Option Nat := none

/-- The text with `fill` on the sides that `alignment` leaves open. -/
def padded (alignment : Alignment) (fill : Char) (width : Nat) (s : String) : String :=
  let missing := width - s.length
  let before := match alignment with
    | .left => 0
    | .right => missing
    | .center => missing / 2
  let blanks (n : Nat) : String := String.ofList (List.replicate n fill)
  blanks before ++ s ++ blanks (missing - before)

/-- Values with a text, and how a field treats it. -/
class Shown (α : Type) where
  text : α → String
  /-- The text that tells values of all kinds apart: strings stand in quotes. -/
  literal : α → String
  alignment : Alignment
  /-- A field's limit cuts the text. -/
  isCut : Bool

def Field.set {α : Type} [Shown α] (f : Field) (a : α) : String :=
  let s := Shown.text a
  let s := match f.limit with
    | some n => if Shown.isCut α then String.ofList (s.toList.take n) else s
    | none => s
  padded (f.alignment.getD (Shown.alignment α)) f.fill f.width s

end WeightedAutomata.Text
