import Nachos.Impl.Lib.Debug

/-!
# Lists

The operations of `lib/list.cc` on the sequence a `List<T>` holds, with their
`ASSERT`s. `insert` is `SortedList<T>::Insert` for a comparison `compare`.
-/

namespace Nachos.NList

variable {T : Type} [DecidableEq T]

/-- `List<T>::Append`. -/
def append (xs : List T) (item : T) : Except Abort (List T) := do
  assert (item ∉ xs)
  return xs ++ [item]

/-- `List<T>::Prepend`. -/
def prepend (xs : List T) (item : T) : Except Abort (List T) := do
  assert (item ∉ xs)
  return item :: xs

/-- `List<T>::RemoveFront`. -/
def removeFront (xs : List T) : Except Abort (T × List T) :=
  match xs with
  | [] => .error .assert
  | x :: xs => .ok (x, xs)

/-- `List<T>::Remove`. -/
def remove (xs : List T) (item : T) : Except Abort (List T) := do
  assert (item ∈ xs)
  let xs' := xs.erase item
  assert (item ∉ xs')
  return xs'

/-- The walk of `SortedList<T>::Insert`: before the first element that is
greater than the item. -/
def insertWalk (compare : T → T → Int) (item : T) : List T → List T
  | [] => [item]
  | x :: xs => if compare item x < 0 then item :: x :: xs else x :: insertWalk compare item xs

/-- `SortedList<T>::Insert`. -/
def insert (compare : T → T → Int) (xs : List T) (item : T) : Except Abort (List T) := do
  assert (item ∉ xs)
  return insertWalk compare item xs

theorem append_eq_ok {xs ys : List T} {x : T} : append xs x = .ok ys ↔ x ∉ xs ∧ ys = xs ++ [x] := by
  simp [append, bind_eq_ok, eq_comm (a := ys)]

theorem prepend_eq_ok {xs ys : List T} {x : T} : prepend xs x = .ok ys ↔ x ∉ xs ∧ ys = x :: xs := by
  simp [prepend, bind_eq_ok, eq_comm (a := ys)]

theorem remove_eq_ok {xs ys : List T} {x : T} :
    remove xs x = .ok ys ↔ x ∈ xs ∧ x ∉ xs.erase x ∧ ys = xs.erase x := by
  simp [remove, bind_eq_ok, eq_comm (a := ys)]

theorem insert_eq_ok {compare : T → T → Int} {xs ys : List T} {x : T} :
    insert compare xs x = .ok ys ↔ x ∉ xs ∧ ys = insertWalk compare x xs := by
  simp [insert, bind_eq_ok, eq_comm (a := ys)]

omit [DecidableEq T] in
theorem insertWalk_perm (compare : T → T → Int) (x : T) (xs : List T) :
    (insertWalk compare x xs).Perm (x :: xs) := by
  induction xs with
  | nil => exact .refl _
  | cons y ys ih =>
    simp only [insertWalk]
    split
    · exact .refl _
    · exact (ih.cons y).trans (.swap x y ys)

end Nachos.NList
