import Mathlib.Data.List.Nodup
import Mathlib.Tactic.Common

/-!
# Items in buckets

The items of a table are in a list of buckets, each in the bucket that `place`
says (`Placed`). One bucket is replaced at a time: the table then has one item
more or one less (`flatten_set_perm`), and an item is in the table if and only
if it is in its bucket (`Placed.mem_iff`).
-/

namespace Framework.Buckets

variable {α : Type*} {place : α → Nat} {bs : List (List α)} {i : Nat} {b b' : List α} {x : α}

/-- Each item is in the bucket of its place. -/
def Placed (place : α → Nat) (bs : List (List α)) : Prop :=
  ∀ (i : Nat) (b : List α), bs[i]? = some b → ∀ x ∈ b, place x = i

theorem placed_replicate (place : α → Nat) (n : Nat) : Placed place (List.replicate n []) := by
  intro i b hb x hx
  obtain rfl := List.eq_of_mem_replicate (List.mem_of_getElem? hb)
  cases hx

/-- Another bucket. -/
theorem Placed.set (h : Placed place bs) (hb : ∀ x ∈ b, place x = i) : Placed place (bs.set i b) := by
  intro j c hc x hx
  rw [List.getElem?_set] at hc
  split at hc
  · rename_i e
    split at hc
    · cases hc
      exact e ▸ hb x hx
    · cases hc
  · exact h j c hc x hx

/-- An item of the table is in its bucket. -/
theorem Placed.mem_iff (h : Placed place bs) (hb : bs[place x]? = some b) :
    x ∈ bs.flatten ↔ x ∈ b := by
  rw [List.mem_flatten]
  constructor
  · rintro ⟨c, hc, hx⟩
    obtain ⟨i, hi⟩ := List.mem_iff_getElem?.mp hc
    obtain rfl := h i c hi x hx
    rw [hb] at hi
    cases hi
    exact hx
  · exact fun hx => ⟨b, List.mem_of_getElem? hb, hx⟩

/-- A bucket has one more item. -/
theorem flatten_set_perm (hb : bs[i]? = some b) (hp : b'.Perm (x :: b)) :
    (bs.set i b').flatten.Perm (x :: bs.flatten) := by
  induction bs generalizing i with
  | nil => simp at hb
  | cons c bs ih =>
    cases i with
    | zero =>
      obtain rfl : c = b := by simpa using hb
      rw [List.set_cons_zero, List.flatten_cons, List.flatten_cons]
      exact hp.append_right _
    | succ i =>
      have ih := ih (i := i) (by simpa using hb)
      rw [List.set_cons_succ, List.flatten_cons, List.flatten_cons]
      exact (ih.append_left c).trans List.perm_middle

/-- A bucket has one item less. -/
theorem flatten_perm_set (hb : bs[i]? = some b) (hp : b.Perm (x :: b')) :
    bs.flatten.Perm (x :: (bs.set i b').flatten) := by
  have hi := (List.getElem?_eq_some_iff.mp hb).1
  have hself : bs.set i b = bs := by
    rw [← (List.getElem?_eq_some_iff.mp hb).2, List.set_getElem_self]
  have h := flatten_set_perm (List.getElem?_set_self hi) hp
  rwa [List.set_set, hself] at h

end Framework.Buckets
