import Mathlib.Algebra.Group.Nat.Defs
import Mathlib.Tactic.SplitIfs

/-!
# Words of four bytes

`word` joins four bytes and `byte` takes one out of a word, which is its bytes
(`ext_bytes`). `lowBytes` and `highBytes` keep the low or the high bytes of one
word and shift another one into the rest.
-/

namespace Nachos.ByteWord

/-- The word of four bytes, the most significant first. -/
def word (b₃ b₂ b₁ b₀ : BitVec 8) : BitVec 32 := b₃ ++ b₂ ++ b₁ ++ b₀

/-- Byte `i` of a word. -/
def byte (x : BitVec 32) (i : Nat) : BitVec 8 := x.extractLsb' (8 * i) 8

theorem getLsbD_byte (x : BitVec 32) (i : Nat) {j : Nat} (hj : j < 8) :
    (byte x i).getLsbD j = x.getLsbD (8 * i + j) := by
  rw [byte, BitVec.getLsbD_extractLsb', decide_eq_true hj, Bool.true_and]

theorem getLsbD_word (b₃ b₂ b₁ b₀ : BitVec 8) (i : Nat) : (word b₃ b₂ b₁ b₀).getLsbD i =
    if i < 8 then b₀.getLsbD i
    else if i < 16 then b₁.getLsbD (i - 8)
    else if i < 24 then b₂.getLsbD (i - 16)
    else b₃.getLsbD (i - 24) := by
  simp only [word, BitVec.getLsbD_append, Nat.sub_sub]
  split_ifs <;> first | rfl | omega

theorem byte_word (b₃ b₂ b₁ b₀ : BitVec 8) :
    byte (word b₃ b₂ b₁ b₀) 0 = b₀ ∧ byte (word b₃ b₂ b₁ b₀) 1 = b₁ ∧
      byte (word b₃ b₂ b₁ b₀) 2 = b₂ ∧ byte (word b₃ b₂ b₁ b₀) 3 = b₃ := by
  refine ⟨?_, ?_, ?_, ?_⟩ <;>
  · refine BitVec.eq_of_getLsbD_eq fun j hj => ?_
    rw [getLsbD_byte _ _ hj, getLsbD_word]
    split_ifs <;> first | omega | exact congrArg _ (by omega)

/-- Two words with the same bytes are equal. -/
theorem ext_bytes {x y : BitVec 32} (h : ∀ i < 4, byte x i = byte y i) : x = y := by
  refine BitVec.eq_of_getLsbD_eq fun j hj => ?_
  have hb := congrArg (BitVec.getLsbD · (j % 8)) (h (j / 8) (by omega))
  simp only [getLsbD_byte _ _ (Nat.mod_lt j (show 0 < 8 by decide))] at hb
  rwa [Nat.div_add_mod] at hb

/-- The low `n` bytes of `x`, and above them `y`. -/
def lowBytes (n : Nat) (x y : BitVec 32) : BitVec 32 :=
  x &&& BitVec.ofNat 32 (2 ^ (8 * n) - 1) ||| y <<< (8 * n)

/-- The high `n` bytes of `x`, and below them `y` without its low `n` bytes. -/
def highBytes (n : Nat) (x y : BitVec 32) : BitVec 32 :=
  x &&& ~~~ BitVec.ofNat 32 (2 ^ (32 - 8 * n) - 1) ||| y >>> (8 * n)

theorem byte_lowBytes (n : Nat) (x y : BitVec 32) {i : Nat} (hi : i < 4) :
    byte (lowBytes n x y) i = if i < n then byte x i else byte y (i - n) := by
  refine BitVec.eq_of_getLsbD_eq fun j hj => ?_
  have hlt : 8 * i + j < 32 := by omega
  rw [getLsbD_byte _ _ hj, lowBytes]
  simp only [BitVec.getLsbD_or, BitVec.getLsbD_and, BitVec.getLsbD_ofNat,
    BitVec.getLsbD_shiftLeft, Nat.testBit_two_pow_sub_one, decide_eq_true hlt, Bool.true_and]
  split_ifs with h
  · rw [getLsbD_byte _ _ hj, decide_eq_true (by omega : 8 * i + j < 8 * n)]
    simp
  · rw [getLsbD_byte _ _ hj, decide_eq_false (by omega : ¬ 8 * i + j < 8 * n),
      show 8 * i + j - 8 * n = 8 * (i - n) + j by omega]
    simp

theorem byte_highBytes {n : Nat} (x y : BitVec 32) {i : Nat} (hi : i < 4) :
    byte (highBytes n x y) i = if i + n < 4 then byte y (i + n) else byte x i := by
  refine BitVec.eq_of_getLsbD_eq fun j hj => ?_
  have hlt : 8 * i + j < 32 := by omega
  rw [getLsbD_byte _ _ hj, highBytes]
  simp only [BitVec.getLsbD_or, BitVec.getLsbD_and, BitVec.getLsbD_not, BitVec.getLsbD_ofNat,
    BitVec.getLsbD_ushiftRight, Nat.testBit_two_pow_sub_one, decide_eq_true hlt, Bool.true_and]
  split_ifs with h
  · rw [getLsbD_byte _ _ hj, decide_eq_true (by omega : 8 * i + j < 32 - 8 * n),
      show 8 * n + (8 * i + j) = 8 * (i + n) + j by omega]
    simp
  · rw [getLsbD_byte _ _ hj, decide_eq_false (by omega : ¬ 8 * i + j < 32 - 8 * n),
      BitVec.getLsbD_of_ge y _ (by omega)]
    simp

end Nachos.ByteWord
