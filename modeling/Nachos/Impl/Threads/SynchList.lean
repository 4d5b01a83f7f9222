import Nachos.Impl.Threads.Condition

/-!
# Synchronized lists

`class SynchList` of `threads/synchlist.cc`: a list with a lock and a condition
variable `listEmpty`, on which consumers wait while the list is empty. The
list is the data that the lock guards.
-/

namespace Nachos

variable {T X : Type}

/-- The statements of `SynchList` on its list. -/
inductive SynchListStmt (X : Type)
  /-- `list->Append(item)`. -/
  | append (item : X)
  /-- `while (list->IsEmpty())`. -/
  | isEmpty
  /-- `item = list->RemoveFront()`. -/
  | removeFront
  deriving DecidableEq

/-- The calls of threads that share a list. -/
inductive SynchListCall (X : Type)
  | append (item : X)
  | removeFront

namespace SynchList

/-- `SynchList<T>::Append`, between `Acquire` and `Release`. -/
def append (item : X) : List (Call (SynchListStmt X)) := [.caller (.append item), .signal]

/-- `SynchList<T>::RemoveFront`, between `Acquire` and `Release`. -/
def removeFront : List (Call (SynchListStmt X)) := [.caller .isEmpty, .caller .removeFront]

/-- A statement on the list. -/
def step [DecidableEq X] (_ : T) (list : List X) :
    SynchListStmt X → Except Abort (List X × List (Call (SynchListStmt X)))
  | .append item => do
    let list ← NList.append list item
    return (list, [])
  | .isEmpty => return (list, if list = [] then [.wait, .caller .isEmpty] else [])
  | .removeFront => do
    let (_, list) ← NList.removeFront list
    return (list, [])

end SynchList

/-- What a call does with the lock held. -/
def SynchListCall.body : SynchListCall X → List (Call (SynchListStmt X))
  | .append item => SynchList.append item
  | .removeFront => SynchList.removeFront

end Nachos
