import Mathlib.Logic.Function.Basic
import Nachos.Impl.Lib.Hash

/-!
# A hash table as a finite map

What a hash table is for: the items that are in it are found by their keys. An
item is inserted if there is none with its key, and removed by a key that there
is an item with.
-/

namespace Nachos

/-- The operations on a table. -/
inductive HashOp (K T : Type)
  | insert (item : T)
  | remove (key : K)
  | find (key : K)

variable {K T : Type} [DecidableEq K] (getKey : T → K)

/-- An operation on the map, if it is allowed: the item that it returns. -/
def HashMap.step (m : K → Option T) : HashOp K T → Option ((K → Option T) × Option T)
  | .insert item =>
    match m (getKey item) with
    | none => some (Function.update m (getKey item) (some item), none)
    | some _ => none
  | .remove key =>
    match m key with
    | none => none
    | some item => some (Function.update m key none, some item)
  | .find key => some (m, m key)

/-- The same operation on the table. -/
def HashTable.exec [DecidableEq T] (hash : K → BitVec 32) (t : HashTable T) :
    HashOp K T → Except Abort (HashTable T × Option T)
  | .insert item => do
    let t ← t.insert getKey hash item
    return (t, none)
  | .remove key => do
    let (t, item) ← t.remove getKey hash key
    return (t, some item)
  | .find key => do
    let found ← t.find getKey hash key
    return (t, found)

end Nachos
