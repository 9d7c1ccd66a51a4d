import QubitPulse.Decimal.Layout
import QubitPulse.Decimal.Reading

/-!
# Texts of scalars

A message shows a number in one of three ways, and a document holds it as a numeral. The layouts
for doubles are the records below.
-/
namespace QubitPulse

/-- Scalars that can be shown in messages and kept in documents. -/
class ScalarText (α : Type) where
  /-- Shortest positional decimal, without a point for whole numbers. -/
  plain : α → String
  /-- Shortest decimal that can be told from a whole number. -/
  detailed : α → String
  /-- Four decimal places. -/
  fixed : α → String
  /-- The numeral that stands for a number in a document; none for what is no finite number. -/
  numeral? : α → Option Numeral
  /-- The number that a numeral in a document stands for. -/
  ofNumeral? : Numeral → Option α

namespace Decimal

/-- Messages write every number positionally. -/
def messageLayout : Layout := ⟨none, false, false, .up⟩

/-- Listings write numbers from `10 ^ -4` up to `10 ^ 16` positionally, with at least one place. -/
def listingLayout : Layout := ⟨some (-4, 16), true, false, .up⟩

/-- Documents write numbers from `10 ^ -5` up to `10 ^ 16` positionally, with at least one place,
and give every power of ten a sign. -/
def documentLayout : Layout := ⟨some (-5, 16), true, true, .toEven⟩

/-- Text of a double that has no digits. -/
def textOfNonFinite (x : Float) : String :=
  if x.isNaN then "NaN" else if x < 0.0 then "-inf" else "inf"

/-- Text of a double whose finite values are set as numerals. -/
def textWith (showPlus : Bool) (set : Binary → Numeral) (x : Float) : String :=
  match Binary.ofBits x.toBits with
  | some b => (set b).text showPlus
  | none => textOfNonFinite x

instance : ScalarText Float where
  plain := textWith false messageLayout.numeral
  detailed := textWith false listingLayout.numeral
  fixed := textWith false (Decimal.fixed 4)
  numeral? x := (Binary.ofBits x.toBits).map documentLayout.numeral
  ofNumeral? := toDouble?

end Decimal

/-- A list between square brackets, its members apart by a comma. -/
def bracketed (texts : List String) : String :=
  "[" ++ ", ".intercalate texts ++ "]"

end QubitPulse
