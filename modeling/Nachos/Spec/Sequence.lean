import Nachos.Impl.Lib.LinkedList

/-!
# A list as a sequence

What a list is for: a sequence of distinct items, put in at either end and taken out
from the front or by their values, and on a `SortedList` put in behind all items
that are not greater. `arrived` has the same items in the order in which they were
put in.
-/

namespace Nachos

/-- The operations on a list. `place` is where `new` puts the element, if it is
free. -/
inductive ListOp (T : Type)
  | append (item : T) (place : Nat)
  | prepend (item : T) (place : Nat)
  | removeFront
  | remove (item : T)
  | insert (item : T) (place : Nat)

/-- The items in the order of the list, and in the order in which they were put
in. -/
structure Sequence (T : Type) where
  items : List T
  arrived : List T
  deriving DecidableEq

namespace Sequence

variable {T : Type} [DecidableEq T]

omit [DecidableEq T] in
/-- Behind all items that are not greater. -/
def sortedInsert (compare : T → T → Int) (xs : List T) (item : T) : List T :=
  xs.filter (compare · item ≤ 0) ++ item :: xs.filter (0 < compare · item)

omit [DecidableEq T] in
/-- The items are sorted, equal ones in the order in which they were put in. -/
structure Ordered (compare : T → T → Int) (s : Sequence T) : Prop where
  sorted : s.items.Pairwise fun x y => compare x y ≤ 0
  stable : ∀ x, s.items.filter (compare x · = 0) = s.arrived.filter (compare x · = 0)

/-- A new item, with the list that it makes. -/
def put (s : Sequence T) (item : T) (items : List T) : Option (Sequence T × Option T) :=
  if item ∈ s.items then none else some (⟨items, s.arrived ++ [item]⟩, none)

/-- An operation on the sequence, if the class has it and it is allowed: the item that
it returns. `Append` and `Prepend` of a `SortedList` are `Insert`. -/
def step (cls : ListClass T) (s : Sequence T) : ListOp T → Option (Sequence T × Option T)
  | .append item _ =>
    match cls with
    | none => s.put item (s.items ++ [item])
    | some compare => s.put item (sortedInsert compare s.items item)
  | .prepend item _ =>
    match cls with
    | none => s.put item (item :: s.items)
    | some compare => s.put item (sortedInsert compare s.items item)
  | .insert item _ =>
    match cls with
    | none => none
    | some compare => s.put item (sortedInsert compare s.items item)
  | .removeFront =>
    match s.items with
    | [] => none
    | item :: items => some (⟨items, s.arrived.erase item⟩, some item)
  | .remove item =>
    if item ∈ s.items then some (⟨s.items.erase item, s.arrived.erase item⟩, none) else none

end Sequence

namespace LinkedList

variable {T : Type} [DecidableEq T]

/-- The same operation on the list. -/
def exec (cls : ListClass T) (l : LinkedList T) :
    ListOp T → Except Abort (LinkedList T × Option T)
  | .append item place => do
    let l ← l.appendTo cls item place
    return (l, none)
  | .prepend item place => do
    let l ← l.prependTo cls item place
    return (l, none)
  | .insert item place =>
    match cls with
    | none => .error .undefined
    | some compare => do
      let l ← l.insert compare item place
      return (l, none)
  | .removeFront => do
    let (item, l) ← l.removeFront
    return (l, some item)
  | .remove item => do
    let l ← l.remove item
    return (l, none)

end LinkedList

end Nachos
