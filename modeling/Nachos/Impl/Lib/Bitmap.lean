import Nachos.Impl.Lib.Debug

/-!
# Bitmaps

`lib/bitmap.cc`: `numBits` bits in 32-bit words. Every index is an `int` and
is checked by an `ASSERT`.
-/

namespace Nachos

/-- `BitsInWord`. -/
def bitsInWord : Nat := 32

/-- `divRoundUp` of `lib/utility.h`, for numbers that are not negative. -/
def divRoundUp (n s : Nat) : Nat := n / s + if n % s > 0 then 1 else 0

/-- `class Bitmap`; `numWords` is the length of `map`. -/
structure Bitmap where
  numBits : Nat
  map : List (BitVec 32)
  deriving DecidableEq

namespace Bitmap

/-- `Bitmap::Bitmap`. The words start at 0, so clearing every bit leaves them
as they are. -/
def new (numItems : Nat) : Bitmap where
  numBits := numItems
  map := List.replicate (divRoundUp numItems bitsInWord) 0

/-- `1 << (which % BitsInWord)`. -/
def mask (which : Nat) : BitVec 32 := 1#32 <<< (which % bitsInWord)

/-- `map[which / BitsInWord]`. -/
def word (b : Bitmap) (which : Nat) : BitVec 32 := b.map.getD (which / bitsInWord) 0

def setWord (b : Bitmap) (which : Nat) (w : BitVec 32) : Bitmap :=
  { b with map := b.map.set (which / bitsInWord) w }

/-- `Bitmap::Test`. -/
def test (b : Bitmap) (which : Int) : Except Abort Bool := do
  assert (0 ≤ which ∧ which < b.numBits)
  return b.word which.toNat &&& mask which.toNat ≠ 0

/-- `Bitmap::Mark`. -/
def mark (b : Bitmap) (which : Int) : Except Abort Bitmap := do
  assert (0 ≤ which ∧ which < b.numBits)
  let b := b.setWord which.toNat (b.word which.toNat ||| mask which.toNat)
  let t ← b.test which
  assert (t = true)
  return b

/-- `Bitmap::Clear`. -/
def clear (b : Bitmap) (which : Int) : Except Abort Bitmap := do
  assert (0 ≤ which ∧ which < b.numBits)
  let b := b.setWord which.toNat (b.word which.toNat &&& ~~~ mask which.toNat)
  let t ← b.test which
  assert (t = false)
  return b

/-- The loop of `Bitmap::FindAndSet`, from `i` on with `n` bits to go. -/
def findAndSetFrom (b : Bitmap) (i : Nat) : Nat → Except Abort (Int × Bitmap)
  | 0 => return (-1, b)
  | n + 1 => do
    let t ← b.test i
    if t then b.findAndSetFrom (i + 1) n
    else
      let b ← b.mark i
      return (i, b)

/-- `Bitmap::FindAndSet`. -/
def findAndSet (b : Bitmap) : Except Abort (Int × Bitmap) := b.findAndSetFrom 0 b.numBits

/-- The loop of `Bitmap::NumClear`. -/
def numClearFrom (b : Bitmap) (i : Nat) : Nat → Except Abort Nat
  | 0 => return 0
  | n + 1 => do
    let t ← b.test i
    let c ← b.numClearFrom (i + 1) n
    return if t then c else c + 1

/-- `Bitmap::NumClear`. -/
def numClear (b : Bitmap) : Except Abort Nat := b.numClearFrom 0 b.numBits

/-- A loop that calls `Mark` or `Clear`, from `i` on with `n` bits to go. -/
def eachFrom (f : Bitmap → Int → Except Abort Bitmap) (b : Bitmap) (i : Nat) : Nat → Except Abort Bitmap
  | 0 => return b
  | n + 1 => do
    let b ← f b i
    eachFrom f b (i + 1) n

/-- `Bitmap::Bitmap`, with its `ASSERT` and the loop that clears the bits. -/
def construct (numItems : Int) : Except Abort Bitmap := do
  assert (numItems > 0)
  eachFrom clear (new numItems.toNat) 0 numItems.toNat

/-- `Bitmap::SelfTest`. -/
def selfTest (b : Bitmap) : Except Abort Bitmap := do
  assert (b.numBits ≥ bitsInWord)
  let count ← b.numClear
  assert (count = b.numBits)
  let (first, b) ← b.findAndSet
  assert (first = 0)
  let b ← b.mark 31
  let low ← b.test 0
  assert (low = true)
  let high ← b.test 31
  assert (high = true)
  let (second, b) ← b.findAndSet
  assert (second = 1)
  let b ← b.clear 0
  let b ← b.clear 1
  let b ← b.clear 31
  let b ← eachFrom mark b 0 b.numBits
  let (full, b) ← b.findAndSet
  assert (full = -1)
  eachFrom clear b 0 b.numBits

end Bitmap

end Nachos
