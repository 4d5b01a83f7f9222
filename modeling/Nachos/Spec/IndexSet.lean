import Mathlib.Data.Finset.Max
import Nachos.Impl.Lib.Bitmap

/-!
# A bitmap as a set of indices

What a bitmap is for: it remembers which of the indices below `n` are taken, and
finds the smallest one that is not.
-/

namespace Nachos

/-- The operations on a bitmap. -/
inductive BitmapOp
  | mark (which : Int)
  | clear (which : Int)
  | test (which : Int)
  | findAndSet
  | numClear

/-- What they return. -/
inductive BitmapResult
  | done
  | bit (value : Bool)
  | number (value : Int)
  deriving DecidableEq

/-- The indices that are not taken. -/
def IndexSet.free (n : Nat) (S : Finset Nat) : Finset Nat := Finset.range n \ S

/-- An operation on the set, if its index is below `n`. -/
def IndexSet.step (n : Nat) (S : Finset Nat) : BitmapOp → Option (Finset Nat × BitmapResult)
  | .mark which => if 0 ≤ which ∧ which < n then some (insert which.toNat S, .done) else none
  | .clear which => if 0 ≤ which ∧ which < n then some (S.erase which.toNat, .done) else none
  | .test which =>
    if 0 ≤ which ∧ which < n then some (S, .bit (which.toNat ∈ S)) else none
  | .findAndSet =>
    if h : (free n S).Nonempty then some (insert ((free n S).min' h) S, .number ((free n S).min' h))
    else some (S, .number (-1))
  | .numClear => some (S, .number (n - S.card))

/-- The same operation on the bitmap. -/
def Bitmap.exec (b : Bitmap) : BitmapOp → Except Abort (Bitmap × BitmapResult)
  | .mark which => do
    let b ← b.mark which
    return (b, .done)
  | .clear which => do
    let b ← b.clear which
    return (b, .done)
  | .test which => do
    let t ← b.test which
    return (b, .bit t)
  | .findAndSet => do
    let (i, b) ← b.findAndSet
    return (b, .number i)
  | .numClear => do
    let count ← b.numClear
    return (b, .number count)

end Nachos
