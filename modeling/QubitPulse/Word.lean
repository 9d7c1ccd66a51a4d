/-!
# Machine words

Lengths and positions of arrays are words of 64 bits: a sum or a product of them keeps its low bits,
and half their range bounds the bytes that one array may take. The rest of the library counts in
natural numbers and comes here where the range shows.
-/
namespace QubitPulse.Word

/-- Number of words, one more than the largest of them. -/
def size : Nat := Nat.pow 2 64

def wrap (n : Nat) : Nat := n % size

theorem wrap_of_lt {n : Nat} (h : n < size) : wrap n = n := Nat.mod_eq_of_lt h

def mostBytes : Nat := Nat.pow 2 63 - 1

/-- Axes of other length than zero may not multiply beyond what can be addressed. -/
def addressable (axes : List Nat) : Bool :=
  (axes.filter (· ≠ 0)).foldl (· * ·) 1 ≤ mostBytes

end QubitPulse.Word
