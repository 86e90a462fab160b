/-!
# Limits of the counted values and of the counters

Values lie in `0 … topValue`, and sums of values are held at the top instead of running past it.
Totals are kept modulo `2 ^ 64`, and `bitLength` is the measure by which values are sorted into
buckets.
-/

namespace DynamicRange

/-- The greatest value there is, `2 ^ 63 - 1`. -/
def topValue : Nat := 0x7fffffffffffffff

/-- The sum of two values, held at `topValue`. -/
def saturatingAdd (a b : Nat) : Nat := min (a + b) topValue

/-- A total of samples is kept modulo `2 ^ 64`. -/
def wrapTotal (n : Nat) : Nat := n % 0x10000000000000000

/-- The number of samples from `earlier` to `later`, two totals kept modulo `2 ^ 64`. -/
def totalSince (later earlier : Nat) : Nat := wrapTotal (later + (0x10000000000000000 - earlier))

/-- The number of binary digits of `n`; zero has none. -/
def bitLength (n : Nat) : Nat := if n = 0 then 0 else n.log2 + 1

end DynamicRange
