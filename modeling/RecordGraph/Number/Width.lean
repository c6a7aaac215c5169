/-!
# Integers of 64 bits

* `signed?`, `unsigned?`: an integer as a word of 64 bits, if it fits there.
-/
namespace RecordGraph.Width

/-- The integer with a sign, if it fits. -/
def signed? (i : Int) : Option Int64 :=
  if -0x8000000000000000 ≤ i ∧ i < 0x8000000000000000 then some (Int64.ofInt i) else none

/-- The number without a sign, if it fits. -/
def unsigned? (n : Nat) : Option UInt64 :=
  if n < 0x10000000000000000 then some (UInt64.ofNat n) else none

end RecordGraph.Width
