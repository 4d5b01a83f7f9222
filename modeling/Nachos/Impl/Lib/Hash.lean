import Nachos.Impl.Lib.List

/-!
# Hash tables

`lib/hash.h` and `lib/hash.cc`: an array of lists, which grows when the lists
get long. A list is the sequence of its items, with the counter `numInList`
beside it. The functions `getKey` and `hash` of a table never change, so they
are parameters.
-/

namespace Nachos

/-- `InitialBuckets`. -/
def initialBuckets : Nat := 4

/-- `ResizeRatio`. -/
def resizeRatio : Nat := 3

/-- `IncreaseSizeBy`. -/
def increaseSizeBy : Nat := 4

/-- The `List<T>` of a bucket. -/
structure Bucket (T : Type) where
  items : List T
  numInList : Nat

namespace Bucket

variable {T : Type} [DecidableEq T]

/-- `List<T>::List`. -/
def new : Bucket T := ⟨[], 0⟩

/-- `List<T>::IsEmpty`. -/
def isEmpty (b : Bucket T) : Bool := b.numInList = 0

/-- `List<T>::Append`. -/
def append (b : Bucket T) (item : T) : Except Abort (Bucket T) := do
  let items ← NList.append b.items item
  return ⟨items, b.numInList + 1⟩

/-- `List<T>::RemoveFront`. -/
def removeFront (b : Bucket T) : Except Abort (T × Bucket T) := do
  assert (b.isEmpty = false)
  match b.items with
  | [] => .error .undefined
  | x :: xs => return (x, ⟨xs, b.numInList - 1⟩)

/-- `List<T>::Remove`. -/
def remove (b : Bucket T) (item : T) : Except Abort (Bucket T) := do
  let items ← NList.remove b.items item
  return ⟨items, b.numInList - 1⟩

/-- `List<T>::SanityCheck`. -/
def sanityCheck (b : Bucket T) : Except Abort Unit := assert (b.numInList = b.items.length)

end Bucket

/-- `class HashTable`. -/
structure HashTable (T : Type) where
  buckets : List (Bucket T)
  numBuckets : Nat
  numItems : Nat

namespace HashTable

/-- `HashTable::InitBuckets`. -/
def initBuckets {T : Type} (t : HashTable T) (sz : Nat) : HashTable T :=
  { t with buckets := List.replicate sz .new, numBuckets := sz }

/-- `HashTable::HashTable`. -/
def new (T : Type) : HashTable T := initBuckets ⟨[], 0, 0⟩ initialBuckets

/-- `buckets[i]`. -/
def bucket {T : Type} (t : HashTable T) (i : Nat) : Except Abort (Bucket T) :=
  match t.buckets[i]? with
  | none => .error .undefined
  | some b => .ok b

section

variable {K T : Type} [DecidableEq K] [DecidableEq T] (getKey : T → K) (hash : K → BitVec 32)

/-- `HashTable::HashValue`. -/
def hashValue (t : HashTable T) (key : K) : Except Abort Nat := do
  defined (t.numBuckets ≠ 0)
  let result := (hash key).toNat % t.numBuckets
  assert (result < t.numBuckets)
  return result

/-- `buckets[HashValue(getKey(item))]->Append(item)`. -/
def append (t : HashTable T) (item : T) : Except Abort (HashTable T) := do
  let i ← t.hashValue hash (getKey item)
  let b ← t.bucket i
  let b ← b.append item
  return { t with buckets := t.buckets.set i b }

/-- `HashTable::FindInBucket`: `none` when it returns `FALSE`. -/
def findInBucket (t : HashTable T) (bucket : Nat) (key : K) : Except Abort (Option T) := do
  let b ← t.bucket bucket
  return b.items.find? fun item => key = getKey item

/-- `HashTable::Find`. -/
def find (t : HashTable T) (key : K) : Except Abort (Option T) := do
  let bucket ← t.hashValue hash key
  t.findInBucket getKey bucket key

/-- `HashTable::IsInTable`. -/
def isInTable (t : HashTable T) (key : K) : Except Abort Bool := do
  let found ← t.find getKey hash key
  return found.isSome

/-- The inner loop of `HashTable::SanityCheck`, in bucket `i`. -/
def checkItems (t : HashTable T) (i : Nat) : List T → Except Abort Unit
  | [] => return ()
  | item :: items => do
    let v ← t.hashValue hash (getKey item)
    assert (i = v)
    t.checkItems i items

/-- The outer loop, from bucket `i` on with `n` buckets to go. -/
def checkBuckets (t : HashTable T) (i numFound : Nat) : Nat → Except Abort Nat
  | 0 => return numFound
  | n + 1 => do
    let b ← t.bucket i
    b.sanityCheck
    t.checkItems getKey hash i b.items
    t.checkBuckets (i + 1) (numFound + b.numInList) n

/-- `HashTable::SanityCheck`. -/
def sanityCheck (t : HashTable T) : Except Abort Unit := do
  let numFound ← t.checkBuckets getKey hash 0 0 t.numBuckets
  assert (t.numItems = numFound)

/-- The inner loop of `HashTable::ReHash`: a bucket of the old table is emptied.
`RemoveFront` counts down to the end of the loop. -/
def moveItems (t : HashTable T) : Bucket T → Nat → Except Abort (HashTable T)
  | _, 0 => return t
  | b, n + 1 => do
    let (item, b) ← b.removeFront
    let t ← t.append getKey hash item
    t.moveItems b n

/-- The outer loop, over the buckets of the old table. -/
def moveBuckets (t : HashTable T) : List (Bucket T) → Except Abort (HashTable T)
  | [] => return t
  | b :: oldTable => do
    let t ← t.moveItems getKey hash b b.numInList
    t.moveBuckets oldTable

/-- `HashTable::ReHash`. -/
def reHash (t : HashTable T) : Except Abort (HashTable T) := do
  let oldTable := t.buckets
  t.sanityCheck getKey hash
  let t := t.initBuckets (t.numBuckets * increaseSizeBy)
  let t ← t.moveBuckets getKey hash oldTable
  t.sanityCheck getKey hash
  return t

/-- `HashTable::Insert`. -/
def insert (t : HashTable T) (item : T) : Except Abort (HashTable T) := do
  let key := getKey item
  let found ← t.isInTable getKey hash key
  assert (found = false)
  defined (t.numBuckets ≠ 0)
  let t ← (if t.numItems / t.numBuckets ≥ resizeRatio then t.reHash getKey hash else pure t)
  let t ← t.append getKey hash item
  let t := { t with numItems := t.numItems + 1 }
  let found ← t.isInTable getKey hash key
  assert (found = true)
  return t

/-- `HashTable::Remove`. -/
def remove (t : HashTable T) (key : K) : Except Abort (HashTable T × T) := do
  let i ← t.hashValue hash key
  match ← t.findInBucket getKey i key with
  | none => .error .assert
  | some item =>
    let b ← t.bucket i
    let b ← b.remove item
    let t := { t with buckets := t.buckets.set i b, numItems := t.numItems - 1 }
    let found ← t.isInTable getKey hash key
    assert (found = false)
    return (t, item)

end

/-- The loop of `HashTable::FindNextFullBucket`, with `n` buckets to go. -/
def findNextFrom {T : Type} (t : HashTable T) (bucket : Nat) : Nat → Except Abort Nat
  | 0 => return bucket
  | n + 1 => do
    let b ← t.bucket bucket
    if b.isEmpty then t.findNextFrom (bucket + 1) n else return bucket

/-- `HashTable::FindNextFullBucket`. -/
def findNextFullBucket {T : Type} (t : HashTable T) (bucket : Nat) : Except Abort Nat :=
  t.findNextFrom bucket (t.numBuckets - bucket)

end HashTable

/-- `class HashIterator`: a `ListIterator` is what is left of its list. -/
structure HashIterator (T : Type) where
  bucket : Nat
  bucketIter : Option (List T)

namespace HashIterator

variable {T : Type}

/-- The iterator of a bucket, if there is one. -/
def ofBucket (t : HashTable T) (bucket : Nat) : Except Abort (HashIterator T) := do
  if bucket < t.numBuckets then
    let b ← t.bucket bucket
    return ⟨bucket, some b.items⟩
  else return ⟨bucket, none⟩

/-- `HashIterator::HashIterator`. -/
def new (t : HashTable T) : Except Abort (HashIterator T) := do
  let bucket ← t.findNextFullBucket 0
  ofBucket t bucket

/-- `HashIterator::IsDone`. -/
def isDone (t : HashTable T) (it : HashIterator T) : Bool := it.bucket = t.numBuckets

/-- `HashIterator::Item`. -/
def item (t : HashTable T) (it : HashIterator T) : Except Abort T := do
  assert (it.isDone t = false)
  match it.bucketIter with
  | none => .error .undefined
  | some [] => .error .assert
  | some (x :: _) => return x

/-- `HashIterator::Next`. -/
def next (t : HashTable T) (it : HashIterator T) : Except Abort (HashIterator T) :=
  match it.bucketIter with
  | none | some [] => .error .undefined
  | some (_ :: []) => do
    let bucket ← t.findNextFullBucket (it.bucket + 1)
    ofBucket t bucket
  | some (_ :: xs) => return { it with bucketIter := some xs }

/-- `for (; !iter->IsDone(); iter->Next())`, with at most `fuel` calls of
`IsDone`: the items. -/
def run (t : HashTable T) : Nat → HashIterator T → Except Abort (Option (List T))
  | 0, _ => return none
  | fuel + 1, it =>
    if it.isDone t then return some []
    else do
      let x ← it.item t
      let it ← it.next t
      let rest ← run t fuel it
      return rest.map (x :: ·)

end HashIterator

end Nachos
