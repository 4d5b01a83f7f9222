import Mathlib.Order.Antisymmetrization

/-!
# Comparison functions

A function that compares two values by the sign of its result. One that compares
them by a total preorder compares keys in a linear order (`exists_key`).
-/

namespace Framework

universe u

variable {T : Type u} {compare : T → T → Int}

/-- The sign of the result changes with the order of the arguments, and not being
greater is transitive. -/
structure TotalPreorder (compare : T → T → Int) : Prop where
  swap : ∀ x y, compare x y < 0 ↔ 0 < compare y x
  trans : ∀ x y z, compare x y ≤ 0 → compare y z ≤ 0 → compare x z ≤ 0

namespace TotalPreorder

theorem total (h : TotalPreorder compare) (x y : T) : compare x y ≤ 0 ∨ compare y x ≤ 0 := by
  have hs := h.swap y x
  omega

/-- The values that are not told apart have the same key. -/
theorem exists_key (h : TotalPreorder compare) :
    ∃ (K : Type u) (_ : LinearOrder K) (key : T → K), ∀ x y, key x ≤ key y ↔ compare x y ≤ 0 := by
  classical
  let order : Preorder T :=
    { le := fun x y => compare x y ≤ 0
      le_refl := fun x => (h.total x x).elim id id
      le_trans := h.trans }
  have : @Std.Total T (· ≤ ·) := ⟨h.total⟩
  exact ⟨Antisymmetrization T (· ≤ ·), inferInstance, toAntisymmetrization (· ≤ ·), fun _ _ => Iff.rfl⟩

variable {K : Type*} [LinearOrder K] {key : T → K}

theorem key_lt (h : TotalPreorder compare) (hkey : ∀ x y, key x ≤ key y ↔ compare x y ≤ 0) (x y : T) :
    key x < key y ↔ compare x y < 0 := by
  rw [← not_le, hkey, h.swap, not_le]

theorem key_eq (h : TotalPreorder compare) (hkey : ∀ x y, key x ≤ key y ↔ compare x y ≤ 0) (x y : T) :
    key x = key y ↔ compare x y = 0 := by
  have hs := h.swap x y
  rw [le_antisymm_iff, hkey, hkey]
  omega

/-- Keys compared with one of three results. -/
theorem of_key {K : Type*} [LinearOrder K] {f : T → K}
    (h : ∀ x y, compare x y = if f x < f y then -1 else if f x > f y then 1 else 0) :
    TotalPreorder compare := by
  have hlt : ∀ x y, compare x y < 0 ↔ f x < f y := fun x y => by
    rw [h]
    split
    · simp [*]
    · split <;> simp [*]
  have hgt : ∀ x y, 0 < compare x y ↔ f y < f x := fun x y => by
    rw [h]
    split
    · simp [*, le_of_lt]
    · split <;> simp_all
  refine ⟨fun x y => (hlt x y).trans (hgt y x).symm, fun x y z hxy hyz => ?_⟩
  rw [← not_lt, hgt, not_lt] at hxy hyz ⊢
  exact hxy.trans hyz

end TotalPreorder

end Framework
