import Mathlib.Tactic.Common
import Nachos.Impl.Lib.Sysdep

/-!
# Text survives the round trip

`atoi` reads back the number whose text `sprintf` wrote, whatever stands
behind the 0. Without the 0 it reads on (`atoi_take_nines`). Bytes written at
the end of a file are read back.
-/

namespace Nachos

theorem digitChar_toNat {d : Nat} (h : d < 10) : (digitChar d).toNat = 48 + d := by
  unfold digitChar
  rw [BitVec.toNat_ofNat]
  omega

theorem atoiDigits_digits {ds : List Nat} (h : ∀ d ∈ ds, d < 10) (acc : Nat) (rest : List Byte) :
    atoiDigits acc (ds.map digitChar ++ 0 :: rest) =
      ds.foldl (fun a d => a * 10 + d) acc := by
  induction ds generalizing acc with
  | nil => simp [atoiDigits]
  | cons d ds ih =>
    have hd := digitChar_toNat (h d List.mem_cons_self)
    have hlt := h d List.mem_cons_self
    simp only [List.map_cons, List.cons_append, atoiDigits, List.foldl_cons]
    rw [if_pos (by omega), ih fun e he => h e (List.mem_cons_of_mem _ he), hd,
      Nat.add_sub_cancel_left]

theorem foldl_digits (n : Nat) :
    (Nat.digits 10 n).reverse.foldl (fun a d => a * 10 + d) 0 = n := by
  rw [List.foldl_reverse]
  conv_rhs => rw [← Nat.ofDigits_digits 10 n]
  rw [Nat.ofDigits_eq_foldr]
  congr 1
  funext d a
  push_cast
  omega

theorem atoiDigits_natAbs (n : Nat) (rest : List Byte) :
    atoiDigits 0 ((Nat.digits 10 n).reverse.map digitChar ++ 0 :: rest) = n := by
  rw [atoiDigits_digits fun d hd => ?_, foldl_digits]
  exact Nat.digits_lt_base (by decide) (List.mem_reverse.mp hd)

/-- A character that `atoi` goes on reading. -/
def IsDigit (c : Byte) : Prop := 48 ≤ c.toNat ∧ c.toNat ≤ 57

theorem isDigit_digitChar {d : Nat} (h : d < 10) : IsDigit (digitChar d) := by
  rw [IsDigit, digitChar_toNat h]
  omega

theorem atoi_minus (cs : List Byte) : atoi (45#8 :: cs) = -(atoiDigits 0 cs : Int) := by
  simp [atoi, isspace]

/-- A digit is neither a space nor a sign. -/
theorem atoi_cons {c : Byte} (hc : IsDigit c) (cs : List Byte) :
    atoi (c :: cs) = atoiDigits 0 (c :: cs) := by
  have hne : ∀ k : Byte, k.toNat < 48 → c ≠ k := fun k hk e => by
    have := hc.1
    rw [e] at this
    omega
  have hs : isspace c = false := by
    obtain ⟨h₁, h₂⟩ := hc
    simp only [isspace, Bool.or_eq_false_iff, Bool.and_eq_false_iff, decide_eq_false_iff_not]
    omega
  simp [atoi, hs, hne 45#8 (by decide), hne 43#8 (by decide)]

/-- `atoi` reads the number back. -/
theorem atoi_decimal (n : Int) (rest : List Byte) : atoi (decimal n ++ 0 :: rest) = n := by
  unfold decimal
  rcases Int.lt_trichotomy n 0 with hn | rfl | hn
  · -- A sign, then the digits.
    rw [if_pos hn, if_neg (by omega), List.append_assoc, List.singleton_append, atoi_minus,
      atoiDigits_natAbs]
    omega
  · simp [atoi, atoiDigits, isspace]
  · rw [if_neg (by omega), if_neg (by omega), List.nil_append]
    cases hd : (Nat.digits 10 n.natAbs).reverse with
    | nil =>
      rw [List.reverse_eq_nil_iff, Nat.digits_eq_nil_iff_eq_zero] at hd
      omega
    | cons d ds =>
      have hlt : d < 10 := Nat.digits_lt_base (b := 10) (m := n.natAbs) (by decide)
        (List.mem_reverse.mp (hd ▸ List.mem_cons_self))
      rw [List.map_cons, List.cons_append, atoi_cons (isDigit_digitChar hlt), ← List.cons_append,
        ← List.map_cons, ← hd, atoiDigits_natAbs]
      omega

theorem atoi_sprintf (buf : List Byte) (n : Int) : atoi (sprintf buf n) = n := atoi_decimal n _

/-- The text and its 0 fit in `k` bytes: what is read back of them is the
number, whatever follows. -/
theorem atoi_take_sprintf {n : Int} {k : Nat} (h : (decimal n).length < k) (buf rest : List Byte) :
    atoi ((sprintf buf n).take k ++ rest) = n := by
  obtain ⟨m, rfl⟩ : ∃ m, k = (decimal n).length + (m + 1) := ⟨k - (decimal n).length - 1, by omega⟩
  have : (sprintf buf n).take ((decimal n).length + (m + 1)) =
      decimal n ++ 0 :: (buf.drop ((decimal n).length + 1)).take m := by
    rw [sprintf, List.take_length_add_append, List.take_succ_cons]
  rw [this, List.append_assoc]
  exact atoi_decimal n _

/-! ## Text that is cut off -/

theorem atoiDigits_append {cs : List Byte} (h : ∀ c ∈ cs, IsDigit c) (acc : Nat) (rest : List Byte) :
    atoiDigits acc (cs ++ rest) = atoiDigits (atoiDigits acc cs) rest := by
  induction cs generalizing acc with
  | nil => rfl
  | cons c cs ih =>
    have hc := h c List.mem_cons_self
    simp only [List.cons_append, atoiDigits, if_pos (show 48 ≤ c.toNat ∧ c.toNat ≤ 57 from hc)]
    exact ih (fun c hc => h c (List.mem_cons_of_mem _ hc)) _

theorem atoiDigits_nines (acc m : Nat) :
    atoiDigits acc (List.replicate m 57#8) + 1 = (acc + 1) * 10 ^ m := by
  induction m generalizing acc with
  | zero => simp [atoiDigits]
  | succ m ih =>
    have hd : (57#8 : Byte).toNat = 57 := rfl
    simp only [List.replicate_succ, atoiDigits, hd]
    rw [if_pos (by omega), ih, Nat.pow_succ, ← Nat.mul_assoc, Nat.mul_right_comm]
    congr 1
    omega

/-- A sign, or not, and digits. -/
theorem decimal_cases (n : Int) :
    ∃ cs : List Byte, (∀ c ∈ cs, IsDigit c) ∧ (decimal n = cs ∨ decimal n = 45#8 :: cs) := by
  refine ⟨if n = 0 then [48#8] else (Nat.digits 10 n.natAbs).reverse.map digitChar, ?_, ?_⟩
  · split
    · simp [IsDigit]
    · simp only [List.mem_map, List.mem_reverse]
      rintro c ⟨d, hd, rfl⟩
      exact isDigit_digitChar (Nat.digits_lt_base (by decide) hd)
  · unfold decimal
    by_cases hn : n < 0
    · simp [hn]
    · simp [hn]

/-- With nines behind it, any part of a text is a large number. -/
theorem atoi_take_nines (n : Int) (k m : Nat) :
    10 ^ m ≤ (atoi ((decimal n).take k ++ List.replicate (m + 1) 57#8)).natAbs + 1 := by
  have hlarge : ∀ cs : List Byte, (∀ c ∈ cs, IsDigit c) →
      10 ^ m ≤ atoiDigits 0 (cs ++ List.replicate (m + 1) 57#8) + 1 := fun cs hcs => by
    rw [atoiDigits_append hcs, atoiDigits_nines]
    exact Nat.le_trans (Nat.pow_le_pow_right (by decide) (Nat.le_succ m))
      (Nat.le_mul_of_pos_left _ (Nat.succ_pos _))
  have hpos : ∀ cs : List Byte, (∀ c ∈ cs, IsDigit c) →
      10 ^ m ≤ (atoi (cs ++ List.replicate (m + 1) 57#8)).natAbs + 1 := fun cs hcs => by
    have hl := hlarge cs hcs
    cases cs with
    | nil =>
      rw [List.nil_append, List.replicate_succ] at hl ⊢
      rwa [atoi_cons (show IsDigit 57#8 by unfold IsDigit; decide), Int.natAbs_natCast]
    | cons c cs =>
      rw [List.cons_append] at hl ⊢
      rwa [atoi_cons (hcs c List.mem_cons_self), Int.natAbs_natCast]
  obtain ⟨cs, hcs, h | h⟩ := decimal_cases n
  · rw [h]
    exact hpos _ fun c hc => hcs c (List.mem_of_mem_take hc)
  · rw [h]
    cases k with
    | zero => exact hpos [] (by simp)
    | succ k =>
      rw [List.take_succ_cons, List.cons_append, atoi_minus, Int.natAbs_neg, Int.natAbs_natCast]
      exact hlarge _ fun c hc => hcs c (List.mem_of_mem_take hc)

namespace Unix

theorem writeAt_end (f src : List Byte) : writeAt f src f.length = .ok (f ++ src) := by
  unfold writeAt
  rw [assert_of (by omega)]
  simp

theorem readAt_append (f g h : List Byte) : readAt (f ++ g ++ h) g.length f.length = .ok g := by
  unfold readAt
  rw [assert_of (by omega)]
  simp

end Unix

end Nachos
