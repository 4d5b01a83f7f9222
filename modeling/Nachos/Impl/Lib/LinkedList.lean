import Mathlib.Data.List.AList
import Nachos.Impl.Lib.Debug

/-!
# Linked lists

`class List` and `class SortedList` of `lib/list.cc` as they lie in memory: list
elements that point to each other, a pointer to the first and to the last one, and
their number. A loop over the elements goes from one to the next until it gets to
`NULL`; after more steps than there are elements in memory it runs forever, which is
undefined behaviour like the use of a pointer to no element. `numInList` does not
overflow: memory has no place for 2³¹ elements.
-/

namespace Nachos

/-- A pointer to a list element; `none` is `NULL`. -/
abbrev Pointer := Option Nat

/-- `class ListElement`. -/
structure ListElement (T : Type) where
  next : Pointer
  item : T

/-- The list elements in memory, by their addresses. -/
abbrev Heap (T : Type) := AList fun _ : Nat => ListElement T

namespace Heap

variable {T : Type}

/-- `*p`. -/
def deref (h : Heap T) (p : Pointer) : Except Abort (ListElement T) :=
  match p.bind h.lookup with
  | some e => .ok e
  | none => .error .undefined

/-- `p->next = q`. -/
def setNext (h : Heap T) (p q : Pointer) : Except Abort (Heap T) := do
  let e ← h.deref p
  match p with
  | some a => return h.insert a { e with next := q }
  | none => .error .undefined

/-- The number of elements in memory. -/
def size (h : Heap T) : Nat := h.keys.length

/-- An address that is not in use: `place`, if it is one. -/
def free (h : Heap T) (place : Nat) : Nat :=
  if place ∈ h then h.keys.foldr max 0 + 1 else place

/-- `delete p`. -/
def delete (h : Heap T) (p : Pointer) : Except Abort (Heap T) := do
  let _ ← h.deref p
  match p with
  | some a => return h.erase a
  | none => .error .undefined

end Heap

/-- `class List`, with the memory that it uses. -/
structure LinkedList (T : Type) where
  heap : Heap T
  first : Pointer
  last : Pointer
  numInList : Int

/-- The class of a list: `List`, or `SortedList` with its `compare`. -/
abbrev ListClass (T : Type) := Option (T → T → Int)

namespace LinkedList

variable {T : Type} [DecidableEq T]

omit [DecidableEq T] in
/-- `List<T>::List`. -/
def new (heap : Heap T) : LinkedList T := ⟨heap, none, none, 0⟩

/-- `List<T>::IsEmpty`. -/
def isEmpty (l : LinkedList T) : Bool := l.numInList = 0

/-- The loop of `List<T>::IsInList`. -/
def isInListFrom (h : Heap T) (item : T) : Nat → Pointer → Except Abort Bool
  | _, none => return false
  | 0, some _ => .error .undefined
  | n + 1, some ptr => do
    let e ← h.deref (some ptr)
    if item = e.item then return true else isInListFrom h item n e.next

/-- `List<T>::IsInList`. -/
def isInList (l : LinkedList T) (item : T) : Except Abort Bool :=
  isInListFrom l.heap item l.heap.size l.first

/-- `new ListElement<T>(item)`: the address, and the list with the element in its
memory. -/
def allocate (l : LinkedList T) (item : T) (place : Nat) : Nat × LinkedList T :=
  (l.heap.free place, { l with heap := l.heap.insert (l.heap.free place) ⟨none, item⟩ })

/-- The end of the functions that put an item into the list: `numInList++`, and the
`ASSERT` that it is there. -/
def counted (l : LinkedList T) (item : T) : Except Abort (LinkedList T) := do
  let l := { l with numInList := l.numInList + 1 }
  let found ← l.isInList item
  assert (found = true)
  return l

/-- `List<T>::Append`. `place` is where `new` puts the element, if it is free. -/
def append (l : LinkedList T) (item : T) (place : Nat) : Except Abort (LinkedList T) := do
  let (element, l) := l.allocate item place
  let found ← l.isInList item
  assert (found = false)
  if l.isEmpty then counted { l with first := some element, last := some element } item
  else
    let heap ← l.heap.setNext l.last (some element)
    counted { l with heap := heap, last := some element } item

/-- `List<T>::Prepend`. -/
def prepend (l : LinkedList T) (item : T) (place : Nat) : Except Abort (LinkedList T) := do
  let (element, l) := l.allocate item place
  let found ← l.isInList item
  assert (found = false)
  if l.isEmpty then counted { l with first := some element, last := some element } item
  else
    let heap ← l.heap.setNext (some element) l.first
    counted { l with heap := heap, first := some element } item

/-- `List<T>::RemoveFront`. -/
def removeFront (l : LinkedList T) : Except Abort (T × LinkedList T) := do
  assert (l.isEmpty = false)
  let e ← l.heap.deref l.first
  let heap ← l.heap.delete l.first
  let numInList := l.numInList - 1
  if l.first = l.last then return (e.item, ⟨heap, none, none, numInList⟩)
  else return (e.item, ⟨heap, e.next, l.last, numInList⟩)

/-- The loop of `List<T>::Remove`, with `prev` and `ptr`. At its end `ptr` is `NULL`
if the item was not found. -/
def removeAfter (l : LinkedList T) (item : T) : Nat → Pointer → Pointer → Except Abort (LinkedList T)
  | _, _, none => .error .assert
  | 0, _, some _ => .error .undefined
  | n + 1, prev, some ptr => do
    let e ← l.heap.deref (some ptr)
    if item = e.item then
      let heap ← l.heap.setNext prev e.next
      let p ← heap.deref prev
      let last := if p.next = none then prev else l.last
      let heap ← heap.delete (some ptr)
      return ⟨heap, l.first, last, l.numInList - 1⟩
    else l.removeAfter item n (some ptr) e.next

/-- `List<T>::Remove`. -/
def remove (l : LinkedList T) (item : T) : Except Abort (LinkedList T) := do
  let found ← l.isInList item
  assert (found = true)
  let e ← l.heap.deref l.first
  let l ←
    if item = e.item then do
      let (removed, l) ← l.removeFront
      assert (item = removed)
      pure l
    else l.removeAfter item l.heap.size l.first e.next
  let found ← l.isInList item
  assert (found = false)
  return l

/-- The loop of `SortedList<T>::Insert`, from `ptr` on: the list behind its `return`,
or `none` if it gets to the last element. -/
def insertAfter (compare : T → T → Int) (l : LinkedList T) (item : T) (element : Nat) :
    Nat → Pointer → Except Abort (Option (LinkedList T))
  | 0, _ => .error .undefined
  | n + 1, ptr => do
    let e ← l.heap.deref ptr
    match e.next with
    | none => return none
    | some next => do
      let e' ← l.heap.deref (some next)
      if compare item e'.item < 0 then
        let heap ← l.heap.setNext (some element) e.next
        let heap ← heap.setNext ptr (some element)
        return some { l with heap := heap, numInList := l.numInList + 1 }
      else insertAfter compare l item element n (some next)

/-- `SortedList<T>::Insert`. -/
def insert (compare : T → T → Int) (l : LinkedList T) (item : T) (place : Nat) :
    Except Abort (LinkedList T) := do
  let (element, l) := l.allocate item place
  let found ← l.isInList item
  assert (found = false)
  if l.isEmpty then counted { l with first := some element, last := some element } item
  else
    let e ← l.heap.deref l.first
    if compare item e.item < 0 then
      let heap ← l.heap.setNext (some element) l.first
      counted { l with heap := heap, first := some element } item
    else
      let inserted ← insertAfter compare l item element l.heap.size l.first
      match inserted with
      | some l => return l
      | none =>
        let heap ← l.heap.setNext l.last (some element)
        counted { l with heap := heap, last := some element } item

omit [DecidableEq T] in
/-- The loop of `List<T>::SanityCheck`: `numFound` at its end. -/
def countToLast (l : LinkedList T) : Nat → Int → Pointer → Except Abort Int
  | 0, numFound, ptr => if ptr = l.last then return numFound else .error .assert
  | n + 1, numFound, ptr =>
    if ptr = l.last then return numFound
    else do
      assert (numFound + 1 ≤ l.numInList)
      let e ← l.heap.deref ptr
      l.countToLast n (numFound + 1) e.next

omit [DecidableEq T] in
/-- `List<T>::SanityCheck`. -/
def sanityCheck (l : LinkedList T) : Except Abort Unit :=
  if l.first = none then assert (l.numInList = 0 ∧ l.last = none)
  else if l.first = l.last then do
    assert (l.numInList = 1)
    let e ← l.heap.deref l.last
    assert (e.next = none)
  else do
    let numFound ← l.countToLast l.numInList.toNat 1 l.first
    assert (numFound = l.numInList)
    let e ← l.heap.deref l.last
    assert (e.next = none)

omit [DecidableEq T] in
/-- The loop of `SortedList<T>::SanityCheck`, with `prev` and `ptr`. -/
def sortedFrom (compare : T → T → Int) (h : Heap T) : Nat → Pointer → Pointer → Except Abort Unit
  | _, _, none => return ()
  | 0, _, some _ => .error .undefined
  | n + 1, prev, some ptr => do
    let e ← h.deref prev
    let e' ← h.deref (some ptr)
    assert (compare e.item e'.item ≤ 0)
    sortedFrom compare h n (some ptr) e'.next

omit [DecidableEq T] in
/-- `SortedList<T>::SanityCheck`. -/
def sortedSanityCheck (compare : T → T → Int) (l : LinkedList T) : Except Abort Unit := do
  l.sanityCheck
  if l.first ≠ l.last then
    let e ← l.heap.deref l.first
    sortedFrom compare l.heap l.heap.size l.first e.next
  else return ()

/-! ## Virtual functions -/

/-- `Append`. That of a `SortedList` is `Insert`. -/
def appendTo (cls : ListClass T) (l : LinkedList T) (item : T) (place : Nat) :
    Except Abort (LinkedList T) :=
  match cls with
  | none => l.append item place
  | some compare => l.insert compare item place

/-- `Prepend`. That of a `SortedList` is `Insert`. -/
def prependTo (cls : ListClass T) (l : LinkedList T) (item : T) (place : Nat) :
    Except Abort (LinkedList T) :=
  match cls with
  | none => l.prepend item place
  | some compare => l.insert compare item place

omit [DecidableEq T] in
/-- `SanityCheck`. -/
def sanityCheckOf (cls : ListClass T) (l : LinkedList T) : Except Abort Unit :=
  match cls with
  | none => l.sanityCheck
  | some compare => l.sortedSanityCheck compare

/-! ## Tests

The items `p` are put at the places `place`. -/

/-- The loop of `List<T>::SelfTest` with `Append`. -/
def appendEach (cls : ListClass T) (place : T → Nat) (l : LinkedList T) :
    List T → Except Abort (LinkedList T)
  | [] => return l
  | item :: p => do
    let l ← l.appendTo cls item (place item)
    let found ← l.isInList item
    assert (found = true)
    assert (l.isEmpty = false)
    appendEach cls place l p

/-- The loop of `List<T>::SelfTest` with `Remove`. -/
def removeEach (l : LinkedList T) : List T → Except Abort (LinkedList T)
  | [] => return l
  | item :: p => do
    let l ← l.remove item
    let found ← l.isInList item
    assert (found = false)
    removeEach l p

/-- `List<T>::SelfTest`. There is nothing for its `iterator` to go through. -/
def selfTest (cls : ListClass T) (place : T → Nat) (l : LinkedList T) (p : List T) :
    Except Abort (LinkedList T) := do
  l.sanityCheckOf cls
  assert (l.isEmpty = true ∧ l.first = none)
  let l ← l.appendEach cls place p
  l.sanityCheckOf cls
  let l ← l.removeEach p
  assert (l.isEmpty = true)
  l.sanityCheckOf cls
  return l

/-- The loop of `SortedList<T>::SelfTest` with `Insert`. -/
def insertEach (compare : T → T → Int) (place : T → Nat) (l : LinkedList T) :
    List T → Except Abort (LinkedList T)
  | [] => return l
  | item :: p => do
    let l ← l.insert compare item (place item)
    let found ← l.isInList item
    assert (found = true)
    insertEach compare place l p

/-- The loop of `SortedList<T>::SelfTest` with `RemoveFront`: `q`. -/
def removeFronts (l : LinkedList T) : Nat → Except Abort (List T × LinkedList T)
  | 0 => return ([], l)
  | n + 1 => do
    let (item, l) ← l.removeFront
    let found ← l.isInList item
    assert (found = false)
    let (q, l) ← l.removeFronts n
    return (item :: q, l)

omit [DecidableEq T] in
/-- The loop of `SortedList<T>::SelfTest` that compares the items of `q`. -/
def rightOrder (compare : T → T → Int) : List T → Except Abort Unit
  | x :: y :: q => do
    assert (compare x y ≤ 0)
    rightOrder compare (y :: q)
  | _ => return ()

/-- `SortedList<T>::SelfTest`, with the places of its own loop `place'`. -/
def sortedSelfTest (compare : T → T → Int) (place place' : T → Nat) (l : LinkedList T) (p : List T) :
    Except Abort (LinkedList T) := do
  let l ← l.selfTest (some compare) place p
  let l ← l.insertEach compare place' p
  l.sortedSanityCheck compare
  let (q, l) ← l.removeFronts p.length
  assert (l.isEmpty = true)
  rightOrder compare q
  l.sortedSanityCheck compare
  return l

end LinkedList

end Nachos
