import Mathlib.Tactic.Common
import Nachos.Impl.Machine.Disk

/-!
# Objects in memory

An `unsigned` and an `int` are read back from their bytes, and arithmetic on `int`
is defined where its result is one (`i32_of`).
-/

namespace Nachos

open Framework

theorem word_lawful : word.Lawful fun _ => True where
  length _ _ := rfl
  decode w _ := by
    simp only [word]
    ext i hi
    simp only [BitVec.getElem_append, BitVec.getElem_extractLsb']
    split <;> [skip; split <;> [skip; split]] <;>
      rw [← BitVec.getLsbD_eq_getElem] <;> congr 1 <;> omega
  ok _ _ := trivial

/-- The numbers that an `int` can have. -/
def IsInt (x : Int) : Prop := -2 ^ 31 ≤ x ∧ x < 2 ^ 31

theorem int_lawful : int.Lawful IsInt where
  length _ _ := rfl
  decode x hx := by
    simp only [int, word_lawful.decode _ trivial, BitVec.toInt_ofInt]
    unfold IsInt at hx
    rw [Int.bmod_def]
    split <;> omega
  ok bs _ := by
    simp only [int, IsInt]
    have h₁ := BitVec.toInt_lt (x := word.decode bs)
    have h₂ := BitVec.le_toInt (x := word.decode bs)
    omega

theorem isInt_of_lt {n : Nat} (h : n < 2 ^ 31) : IsInt n := by
  unfold IsInt
  omega

theorem i32_of {x : Int} (h : IsInt x) : i32 x = .ok x := by
  unfold i32
  rw [defined_of (show -2 ^ 31 ≤ x ∧ x < 2 ^ 31 from h)]
  rfl

end Nachos
