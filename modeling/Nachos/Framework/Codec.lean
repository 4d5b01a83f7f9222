import Mathlib.Tactic.Common

/-!
# Records of a fixed width

How values lie in memory one after the other. `decodeAll_encodeAll` is the
round trip of a whole array, from that of one record.
-/

namespace Framework

/-- A value in `width` cells. -/
structure Codec (β α : Type*) where
  width : Nat
  encode : α → List β
  decode : List β → α

namespace Codec

variable {β α : Type*} (c : Codec β α)

/-- The values one after the other. -/
def encodeAll (xs : List α) : List β := xs.flatMap c.encode

/-- The first `n` values. -/
def decodeAll : Nat → List β → List α
  | 0, _ => []
  | n + 1, bs => c.decode (bs.take c.width) :: decodeAll n (bs.drop c.width)

/-- The values with `Ok` are read back as they were written, and whatever is
read is one of them. -/
structure Lawful (Ok : α → Prop) : Prop where
  length : ∀ x, Ok x → (c.encode x).length = c.width
  decode : ∀ x, Ok x → c.decode (c.encode x) = x
  ok : ∀ bs, bs.length = c.width → Ok (c.decode bs)

variable {c} {Ok : α → Prop} {xs : List α}

@[simp] theorem length_decodeAll (n : Nat) (bs : List β) : (c.decodeAll n bs).length = n := by
  induction n generalizing bs with
  | zero => rfl
  | succ n ih => simp [decodeAll, ih]

theorem length_encodeAll (h : c.Lawful Ok) (hx : ∀ x ∈ xs, Ok x) :
    (c.encodeAll xs).length = xs.length * c.width := by
  induction xs with
  | nil => simp [encodeAll]
  | cons x xs ih =>
    have hxs := ih fun y hy => hx y (List.mem_cons_of_mem x hy)
    simp only [encodeAll, List.flatMap_cons, List.length_append, List.length_cons] at hxs ⊢
    rw [hxs, h.length x (hx x List.mem_cons_self), Nat.add_mul]
    omega

/-- The round trip. -/
theorem decodeAll_encodeAll (h : c.Lawful Ok) (hx : ∀ x ∈ xs, Ok x) :
    c.decodeAll xs.length (c.encodeAll xs) = xs := by
  induction xs with
  | nil => rfl
  | cons x xs ih =>
    have hlen := h.length x (hx x List.mem_cons_self)
    simp only [encodeAll, List.flatMap_cons, List.length_cons, decodeAll]
    rw [← hlen, List.take_left, List.drop_left, h.decode x (hx x List.mem_cons_self)]
    exact congrArg _ (ih fun y hy => hx y (List.mem_cons_of_mem x hy))

/-- What lies behind the values does not matter. -/
theorem decodeAll_append {n : Nat} {bs : List β} (cs : List β) (h : n * c.width ≤ bs.length) :
    c.decodeAll n (bs ++ cs) = c.decodeAll n bs := by
  induction n generalizing bs with
  | zero => rfl
  | succ n ih =>
    rw [Nat.succ_mul] at h
    rw [decodeAll, decodeAll, List.take_append_of_le_length (by omega),
      List.drop_append_of_le_length (by omega), ih (by rw [List.length_drop]; omega)]

/-- What is read is well-formed. -/
theorem ok_of_mem_decodeAll (h : c.Lawful Ok) {n : Nat} {bs : List β}
    (hlen : n * c.width ≤ bs.length) {x : α} (hx : x ∈ c.decodeAll n bs) : Ok x := by
  induction n generalizing bs with
  | zero => cases hx
  | succ n ih =>
    rw [Nat.succ_mul] at hlen
    rcases List.mem_cons.mp hx with rfl | hx
    · exact h.ok _ (by rw [List.length_take]; omega)
    · exact ih (by rw [List.length_drop]; omega) hx

end Codec

end Framework
