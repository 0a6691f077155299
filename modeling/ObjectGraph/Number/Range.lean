/-!
# Powers and ranges

The powers by which numbers are scaled, and the integers that 64 bits hold, with
a sign and without one.
-/

namespace ObjectGraph

/-- The power of two with an exponent. -/
def twoTo (n : Nat) : Nat := Nat.pow 2 n

/-- The power of ten with an exponent. -/
def tenTo (n : Nat) : Nat := Nat.pow 10 n

/-- Whether 64 bits hold an integer, one of them its sign. -/
def isSigned64 (i : Int) : Bool :=
  decide (-9223372036854775808 ≤ i) && decide (i ≤ 9223372036854775807)

/-- Whether 64 bits hold an integer without a sign. -/
def isUnsigned64 (i : Int) : Bool :=
  decide (0 ≤ i) && decide (i ≤ 18446744073709551615)

theorem twoTo_pos (n : Nat) : 0 < twoTo n :=
  Nat.pow_pos (by decide)

theorem tenTo_pos (n : Nat) : 0 < tenTo n :=
  Nat.pow_pos (by decide)

end ObjectGraph
