import Nachos.Framework.DoubleWord
import Nachos.Impl.Machine.Mipssim
import Mathlib.Data.BitVec
import Mathlib.Tactic.Ring

/-!
# Multiplication

`Mult` multiplies by shifting and adding. Whatever `n` rounds of its loop still
add to `hi:lo` is the product of `bHi:bLo` with the low `n` bits of `a`
(`multLoop_spec`), also when the arithmetic shift of `a` brings ones in from
the left: they do not reach the low bits in time. A sign is dealt with before
and after the loop, so the result is the exact product of two `int`s or of two
`unsigned int`s (`mult_product`).
-/

namespace Nachos

open DoubleWord

/-- The double word of a pair `(hi, lo)`. -/
def dword (p : BitVec 32 × BitVec 32) : BitVec 64 := p.1 ++ p.2

theorem toNat_and_one (a : BitVec 32) : (a &&& 1).toNat = a.toNat % 2 := by
  rw [BitVec.toNat_and]
  exact Nat.and_one_is_mod a.toNat

theorem and_one_ne_zero (a : BitVec 32) : a &&& 1 ≠ 0 ↔ a.toNat % 2 = 1 := by
  have h := toNat_and_one a
  constructor
  · intro hne
    have : (a &&& 1).toNat ≠ 0 := fun h0 => hne (BitVec.eq_of_toNat_eq h0)
    omega
  · intro h1 h0
    rw [h0, h1] at h
    cases h

theorem and_top_ne_zero (a : BitVec 32) : a &&& 0x80000000 ≠ 0 ↔ a.msb = true := by
  rw [show a.msb = a.getLsbD 31 from BitVec.msb_eq_getLsbD_last a]
  exact and_twoPow_ne_zero a (k := 31) (by decide)

/-- The loop stops early only when `a` is one. -/
theorem eq_one_of_odd {a : BitVec 32} (h : a.toNat % 2 = 1) (h0 : a &&& 0xfffffffe = 0) :
    a = 1 := by
  have split : a = (a &&& 0xfffffffe) ||| (a &&& 1) := by
    rw [← BitVec.and_or_distrib_left]
    exact BitVec.and_allOnes.symm
  rw [h0] at split
  refine BitVec.eq_of_toNat_eq ?_
  rw [split.trans BitVec.zero_or, toNat_and_one, h]
  rfl

/-- A round adds `bHi:bLo` to `hi:lo`. -/
theorem dword_add (hi lo bHi bLo : BitVec 32) :
    dword ((if lo + bLo < bLo then hi + 1 else hi) + bHi, lo + bLo) =
      dword (hi, lo) + dword (bHi, bLo) :=
  (append_add hi lo bHi bLo).symm

/-- A round doubles `bHi:bLo`. -/
theorem dword_double (bHi bLo : BitVec 32) :
    dword (if bLo &&& 0x80000000 ≠ 0 then bHi <<< 1 ||| 1 else bHi <<< 1, bLo <<< 1) =
      dword (bHi, bLo) + dword (bHi, bLo) := by
  refine Eq.trans ?_ (append_double bHi bLo).symm
  rw [dword]
  congr 1
  exact if_congr (and_top_ne_zero bLo) rfl rfl

theorem multLoop_spec (n : Nat) (a bLo bHi lo hi : BitVec 32) (hn : n ≤ 32) :
    dword (multLoop n a bLo bHi lo hi) =
      dword (hi, lo) + (a.toNat % 2 ^ n : ℕ) * dword (bHi, bLo) := by
  induction n generalizing a bLo bHi lo hi with
  | zero => simp [multLoop, Nat.mod_one]
  | succ n ih =>
    have hbits := sshiftRight_mod (Nat.lt_of_succ_le hn) a
    rw [multLoop]
    by_cases hodd : a.toNat % 2 = 1
    · have ho : decide (a &&& 1 ≠ 0) = true := decide_eq_true ((and_one_ne_zero a).mpr hodd)
      by_cases hone : a &&& 0xfffffffe = 0
      · -- The early exit: nothing of `a` is left.
        rw [if_pos (by rw [ho, decide_eq_true hone]; rfl), dword_add, eq_one_of_odd hodd hone,
          show (1 : BitVec 32).toNat = 1 from rfl, Nat.mod_eq_of_lt (Nat.one_lt_two_pow (by omega))]
        simp only [Nat.cast_one, one_mul]
      · rw [if_neg (by rw [ho, decide_eq_false hone]; decide), ih _ _ _ _ _ (by omega), ho,
          if_pos rfl, if_pos rfl, dword_add, dword_double, hbits, hodd, Nat.cast_add, Nat.cast_mul,
          Nat.cast_two, Nat.cast_one]
        ring
    · have ho : decide (a &&& 1 ≠ 0) = false :=
        decide_eq_false (mt (and_one_ne_zero a).mp hodd)
      rw [if_neg (by rw [ho]; exact Bool.false_ne_true), ih _ _ _ _ _ (by omega), ho, if_neg (by decide),
        if_neg (by decide), dword_double, hbits, show a.toNat % 2 = 0 by omega,
        Nat.zero_add, Nat.cast_mul, Nat.cast_two]
      ring

theorem multLoop_product (a b : BitVec 32) :
    dword (multLoop 32 a b 0 0 0) = (a.toNat : BitVec 64) * (b.toNat : BitVec 64) := by
  have zero : dword (0, 0) = 0 := rfl
  have word : dword (0, b) = (b.toNat : BitVec 64) := by
    refine BitVec.eq_of_toNat_eq ?_
    rw [dword, toNat_append, BitVec.natCast_eq_ofNat, BitVec.toNat_ofNat,
      Nat.mod_eq_of_lt (Nat.lt_trans b.isLt (by decide)), BitVec.ofNat_eq_ofNat,
      BitVec.toNat_ofNat, Nat.zero_mod, Nat.zero_mul, Nat.zero_add]
  rw [multLoop_spec 32 _ _ _ _ _ (Nat.le_refl _), zero, word, Nat.mod_eq_of_lt a.isLt]
  exact BitVec.zero_add _

/-- What `Mult` takes an operand for. -/
def operand (signedArith : Bool) (a : BitVec 32) : Int := if signedArith then a.toInt else a.toNat

/-- What its loop works on. -/
def magnitude (signedArith : Bool) (a : BitVec 32) : BitVec 32 :=
  if signedArith && a.msb then -a else a

theorem operand_eq (signedArith : Bool) (a : BitVec 32) :
    operand signedArith a = if signedArith && a.msb then -((magnitude signedArith a).toNat : Int)
      else (magnitude signedArith a).toNat := by
  have h := a.isLt
  rw [operand, magnitude, BitVec.toInt_eq_msb_cond]
  cases signedArith with
  | false => rfl
  | true =>
    cases hm : a.msb with
    | false => rfl
    | true =>
      have := BitVec.msb_eq_true_iff_two_mul_ge.mp hm
      simp only [if_true, Bool.and_self, BitVec.toNat_neg]
      rw [Nat.mod_eq_of_lt (by omega)]
      omega

/-- The complement of the result. -/
theorem dword_negate (negative : Bool) (p : BitVec 32 × BitVec 32) :
    dword (if negative then
        (if ~~~ p.2 + 1 = 0 then ~~~ p.1 + 1 else ~~~ p.1, ~~~ p.2 + 1) else p) =
      if negative then -dword p else dword p := by
  cases negative with
  | false => rfl
  | true => exact (append_neg p.1 p.2).symm

theorem signed_mul (p q : Bool) (x y : ℤ) :
    (if p then -x else x) * (if q then -y else y) = if p != q then -(x * y) else x * y := by
  cases p <;> cases q <;> simp

theorem dword_mult (signedArith : Bool) (a b : BitVec 32) :
    dword (mult a b signedArith) =
      (operand signedArith a * operand signedArith b : ℤ) := by
  by_cases h0 : a = 0 ∨ b = 0
  · have hz : operand signedArith a * operand signedArith b = 0 := by
      rcases h0 with rfl | rfl <;> cases signedArith <;> simp [operand]
    rw [mult, if_pos h0, hz]
    rfl
  · have sign : (signedArith && (a.msb != b.msb)) =
        ((signedArith && a.msb) != (signedArith && b.msb)) := by
      cases signedArith <;> rfl
    rw [mult, if_neg h0, operand_eq signedArith a, operand_eq signedArith b, signed_mul]
    refine (dword_negate (signedArith && (a.msb != b.msb))
      (multLoop 32 (magnitude signedArith a) (magnitude signedArith b) 0 0 0)).trans ?_
    rw [multLoop_product, sign]
    split
    · rw [Int.cast_neg, Int.cast_mul, Int.cast_natCast, Int.cast_natCast]
    · rw [Int.cast_mul, Int.cast_natCast, Int.cast_natCast]

/-- The product of two operands fits in a double word. -/
theorem operand_bounds (a b : BitVec 32) :
    -(2 ^ 63) ≤ a.toInt * b.toInt ∧ a.toInt * b.toInt < 2 ^ 63 := by
  have ha := BitVec.le_toInt a
  have ha' := BitVec.toInt_lt (x := a)
  have hb := BitVec.le_toInt b
  have hb' := BitVec.toInt_lt (x := b)
  have h : (a.toInt * b.toInt).natAbs ≤ 2 ^ 31 * 2 ^ 31 := by
    rw [Int.natAbs_mul]
    exact Nat.mul_le_mul (by omega) (by omega)
  omega

/-- `MULT` computes the product of two `int`s and `MULTU` that of two
`unsigned int`s, exactly. -/
theorem mult_product (a b : BitVec 32) :
    (dword (mult a b true)).toInt = a.toInt * b.toInt ∧
      (dword (mult a b false)).toNat = a.toNat * b.toNat := by
  constructor
  · have h := operand_bounds a b
    rw [dword_mult, BitVec.toInt_intCast]
    exact Int.bmod_eq_of_le (by simpa [operand] using h.1) (by simpa [operand] using h.2)
  · have h : a.toNat * b.toNat < 2 ^ 32 * 2 ^ 32 := Nat.mul_lt_mul'' a.isLt b.isLt
    have hn : (operand false a * operand false b : ℤ) = (a.toNat * b.toNat : ℕ) := by
      rw [Nat.cast_mul]
      rfl
    rw [dword_mult, hn, Int.cast_natCast, BitVec.natCast_eq_ofNat, BitVec.toNat_ofNat]
    exact Nat.mod_eq_of_lt h

/-- What `MULT` and `MULTU` leave in `HiReg` and `LoReg`. -/
theorem operate_mult (instr : Instruction) (r : Registers) (signedArith : Bool)
    (h : instr.opCode = if signedArith then .mult else .multu) :
    ∃ r', operate instr r = .ok (r', .ok (r Reg.nextPC + 4)) ∧
      dword (r' Reg.hi, r' Reg.lo) =
        (operand signedArith (r instr.rs) * operand signedArith (r instr.rt) : ℤ) := by
  rw [← dword_mult]
  refine ⟨(r.write Reg.hi (mult (r instr.rs) (r instr.rt) signedArith).1).write Reg.lo
    (mult (r instr.rs) (r instr.rt) signedArith).2, ?_, rfl⟩
  cases signedArith <;> simp only [operate, h, if_true, if_false, Bool.false_eq_true]

end Nachos
