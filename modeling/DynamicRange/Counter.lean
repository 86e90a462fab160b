/-!
# Counters

A slot counts its samples in a counter of 8, 16, 32 or 64 bits, which starts over at zero when it
overflows.
-/

namespace DynamicRange

/-- The size of a counter. -/
inductive CounterWidth where
  | bits8
  | bits16
  | bits32
  | bits64
  deriving DecidableEq, Repr

namespace CounterWidth

/-- The number of bits of a counter. -/
def bits : CounterWidth → Nat
  | bits8 => 8
  | bits16 => 16
  | bits32 => 32
  | bits64 => 64

/-- The counter of a number of bits, if there is one. -/
def ofBits? : Nat → Option CounterWidth
  | 8 => some bits8
  | 16 => some bits16
  | 32 => some bits32
  | 64 => some bits64
  | _ => none

/-- The number of different counts a counter can hold. -/
def limit : CounterWidth → Nat
  | bits8 => 0x100
  | bits16 => 0x10000
  | bits32 => 0x100000000
  | bits64 => 0x10000000000000000

/-- Whether a counter can hold the count `n`. -/
def fits (w : CounterWidth) (n : Nat) : Bool := n < w.limit

/-- The count that is left after `n` more samples. -/
def add (w : CounterWidth) (count n : Nat) : Nat := (count + n) % w.limit

/-- The number of bytes of a counter. -/
def bytes (w : CounterWidth) : Nat := w.bits / 8

end CounterWidth

/-- A count of at most 64 bits as the nearest binary64 number, ties going to the even one. -/
def countToFloat (n : Nat) : Float := n.toUInt64.toFloat

end DynamicRange
