import Mathlib.Data.Finset.Card
import Mathlib.Tactic.Common
import Nachos.Impl.Lib.Bitmap

/-!
# Bitmaps as sets of bits

`bit b i` is bit `i`. On a bitmap with enough words (`Wf`) no `ASSERT` of an
index in range fails, `Mark` and `Clear` are `put`, and `FindAndSet` takes the
lowest clear bit.
-/

namespace Nachos.Bitmap

/-- Bit `i`. -/
def bit (b : Bitmap) (i : Nat) : Bool := (b.word i).getLsbD (i % bitsInWord)

/-- There is a word for every bit. -/
def Wf (b : Bitmap) : Prop := b.numBits ≤ bitsInWord * b.map.length

/-- The bitmap with bit `i` changed to `v`. -/
def put (b : Bitmap) (i : Nat) (v : Bool) : Bitmap :=
  b.setWord i (if v then b.word i ||| mask i else b.word i &&& ~~~ mask i)

@[simp] theorem put_numBits (b : Bitmap) (i : Nat) (v : Bool) : (b.put i v).numBits = b.numBits := rfl

@[simp] theorem length_put (b : Bitmap) (i : Nat) (v : Bool) :
    (b.put i v).map.length = b.map.length := by
  simp [put, setWord]

theorem Wf.put {b : Bitmap} (h : b.Wf) (i : Nat) (v : Bool) : (b.put i v).Wf := by
  simpa [Wf, Bitmap.put, setWord] using h

theorem Wf.lt {b : Bitmap} (h : b.Wf) {i : Nat} (hi : i < b.numBits) :
    i / bitsInWord < b.map.length := by
  unfold Wf bitsInWord at *
  omega

theorem mask_getLsbD (i k : Nat) (hk : k < bitsInWord) :
    (mask i).getLsbD k = decide (k = i % bitsInWord) := by
  have hi : i % bitsInWord < 32 := Nat.mod_lt _ (by decide)
  have hk : k < 32 := hk
  unfold mask
  rw [BitVec.getLsbD_shiftLeft, BitVec.getLsbD_one]
  by_cases e : k = i % bitsInWord
  · simp [e, hi]
  · have : ¬ (k - i % bitsInWord = 0 ∧ i % bitsInWord ≤ k) := by omega
    simp only [hk, e]
    simp
    omega

theorem bit_put {b : Bitmap} {i : Nat} (hi : i / bitsInWord < b.map.length) (v : Bool) (j : Nat) :
    (b.put i v).bit j = if j = i then v else b.bit j := by
  have hj : j % bitsInWord < bitsInWord := Nat.mod_lt _ (by decide)
  have hw : (b.put i v).word j = if j / bitsInWord = i / bitsInWord then
      (if v then b.word i ||| mask i else b.word i &&& ~~~ mask i) else b.word j := by
    unfold put setWord word
    by_cases e : j / bitsInWord = i / bitsInWord
    · simp [e, List.getD_eq_getElem?_getD, List.getElem?_set_self hi]
    · simp [e, List.getD_eq_getElem?_getD, List.getElem?_set_ne (Ne.symm e)]
  unfold bit
  rw [hw]
  by_cases e : j / bitsInWord = i / bitsInWord
  · have hword : b.word j = b.word i := by unfold word; rw [e]
    have hji : j = i ↔ j % bitsInWord = i % bitsInWord := by
      unfold bitsInWord at *
      omega
    rw [if_pos e, hword]
    cases v with
    | true =>
      rw [if_pos rfl, BitVec.getLsbD_or, mask_getLsbD i _ hj]
      by_cases h : j % bitsInWord = i % bitsInWord <;> simp [hji, h]
    | false =>
      rw [if_neg (by decide), BitVec.getLsbD_and, BitVec.getLsbD_not, mask_getLsbD i _ hj]
      have : j % bitsInWord < 32 := hj
      by_cases h : j % bitsInWord = i % bitsInWord <;> simp [hji, h, this]
  · have : j ≠ i := fun h => e (h ▸ rfl)
    rw [if_neg e, if_neg this]

theorem test_eq (b : Bitmap) {i : Nat} (hi : i < b.numBits) : b.test i = .ok (b.bit i) := by
  unfold test
  rw [assert_of (by omega)]
  simp only [ok_bind, pure_eq_ok, Int.toNat_natCast, Except.ok.injEq, decide_not]
  unfold bit
  have hk : i % bitsInWord < bitsInWord := Nat.mod_lt _ (by decide)
  cases h : (b.word i).getLsbD (i % bitsInWord) with
  | true =>
    simp only [Bool.not_eq_true', decide_eq_false_iff_not]
    intro h0
    have := congrArg (fun w => w.getLsbD (i % bitsInWord)) h0
    simp [mask_getLsbD i _ hk, h] at this
  | false =>
    simp only [Bool.not_eq_false', decide_eq_true_eq]
    ext k hk
    have hm := mask_getLsbD i k hk
    by_cases e : k = i % bitsInWord
    · subst e
      simp [← BitVec.getLsbD_eq_getElem, h]
    · simp [← BitVec.getLsbD_eq_getElem, hm, e]

theorem mark_eq {b : Bitmap} (h : b.Wf) {i : Nat} (hi : i < b.numBits) :
    b.mark i = .ok (b.put i true) := by
  unfold mark
  rw [assert_of (by omega)]
  simp only [ok_bind, Int.toNat_natCast]
  change (do let t ← (b.put i true).test i; assert (t = true); pure (b.put i true)) = _
  rw [test_eq _ (by simpa using hi), bit_put (h.lt hi)]
  simp [assert]

theorem clear_eq {b : Bitmap} (h : b.Wf) {i : Nat} (hi : i < b.numBits) :
    b.clear i = .ok (b.put i false) := by
  unfold clear
  rw [assert_of (by omega)]
  simp only [ok_bind, Int.toNat_natCast]
  change (do let t ← (b.put i false).test i; assert (t = false); pure (b.put i false)) = _
  rw [test_eq _ (by simpa using hi), bit_put (h.lt hi)]
  simp [assert]

/-- `Clear` of any index: it aborts or clears a bit in range. -/
theorem clear_cases {b b' : Bitmap} (h : b.Wf) {which : Int} (hc : b.clear which = .ok b') :
    ∃ i : Nat, which = i ∧ i < b.numBits ∧ b' = b.put i false := by
  have hr : 0 ≤ which ∧ which < b.numBits := by
    obtain ⟨_, ha, -⟩ := bind_eq_ok.mp hc
    exact assert_eq_ok.mp ha
  obtain ⟨i, rfl⟩ := Int.eq_ofNat_of_zero_le hr.1
  have hi : i < b.numBits := by omega
  rw [clear_eq h hi] at hc
  exact ⟨i, rfl, hi, (Except.ok.inj hc).symm⟩

/-- The lowest clear bit is set, or all bits are. -/
theorem findAndSetFrom_cases {b : Bitmap} (h : b.Wf) {i n : Nat} (hn : i + n = b.numBits) :
    (∃ k, i ≤ k ∧ k < b.numBits ∧ (∀ j, i ≤ j → j < k → b.bit j = true) ∧ b.bit k = false ∧
      b.findAndSetFrom i n = .ok ((k : Int), b.put k true)) ∨
    ((∀ j, i ≤ j → j < b.numBits → b.bit j = true) ∧ b.findAndSetFrom i n = .ok (-1, b)) := by
  induction n generalizing i with
  | zero => exact .inr ⟨fun j h₁ h₂ => absurd h₁ (by omega), rfl⟩
  | succ n ih =>
    unfold findAndSetFrom
    rw [test_eq b (by omega), ok_bind]
    cases hb : b.bit i with
    | false =>
      refine .inl ⟨i, Nat.le_refl i, by omega, fun j h₁ h₂ => absurd h₁ (by omega), hb, ?_⟩
      rw [mark_eq h (by omega)]
      rfl
    | true =>
      simp only [ite_true]
      rcases ih (i := i + 1) (by omega) with ⟨k, h₁, h₂, h₃, h₄, h₅⟩ | ⟨h₁, h₂⟩
      · refine .inl ⟨k, by omega, h₂, fun j hj hk => ?_, h₄, h₅⟩
        by_cases e : j = i
        · exact e ▸ hb
        · exact h₃ j (by omega) hk
      · refine .inr ⟨fun j hj hk => ?_, h₂⟩
        by_cases e : j = i
        · exact e ▸ hb
        · exact h₁ j (by omega) hk

theorem findAndSet_cases {b : Bitmap} (h : b.Wf) :
    (∃ k, k < b.numBits ∧ (∀ j < k, b.bit j = true) ∧ b.bit k = false ∧
      b.findAndSet = .ok ((k : Int), b.put k true)) ∨
    ((∀ j < b.numBits, b.bit j = true) ∧ b.findAndSet = .ok (-1, b)) := by
  rcases findAndSetFrom_cases h (i := 0) (n := b.numBits) (by omega) with
    ⟨k, -, h₂, h₃, h₄, h₅⟩ | ⟨h₁, h₂⟩
  · exact .inl ⟨k, h₂, fun j hj => h₃ j (Nat.zero_le j) hj, h₄, h₅⟩
  · exact .inr ⟨fun j hj => h₁ j (Nat.zero_le j) hj, h₂⟩

theorem wf_new (n : Nat) : (new n).Wf := by
  have : n ≤ 32 * (n / 32 + if n % 32 > 0 then 1 else 0) := by
    split <;> omega
  simpa [Wf, new, divRoundUp, bitsInWord] using this

theorem bit_new (n i : Nat) : (new n).bit i = false := by
  unfold bit word new
  rw [List.getD_eq_getElem?_getD, List.getElem?_replicate]
  split <;> simp

/-! ## Clear bits -/

/-- The clear bits. -/
def free (b : Bitmap) : Finset Nat := (Finset.range b.numBits).filter fun i => b.bit i = false

theorem mem_free {b : Bitmap} {i : Nat} : i ∈ b.free ↔ i < b.numBits ∧ b.bit i = false := by
  simp [free]

theorem free_eq_empty {b : Bitmap} (h : ∀ j < b.numBits, b.bit j = true) : b.free = ∅ := by
  refine Finset.eq_empty_of_forall_notMem fun x hx => ?_
  obtain ⟨hlt, hx⟩ := mem_free.mp hx
  rw [h x hlt] at hx
  cases hx

theorem card_free_new (n : Nat) : (new n).free.card = n := by
  have : (new n).free = Finset.range n := Finset.filter_true_of_mem fun i _ => bit_new n i
  rw [this, Finset.card_range]

theorem card_free_le (b : Bitmap) : b.free.card ≤ b.numBits :=
  Nat.le_trans (Finset.card_filter_le _ _) (Finset.card_range _).le

theorem free_put_true {b : Bitmap} (h : b.Wf) {i : Nat} (hi : i < b.numBits) :
    (b.put i true).free = b.free.erase i := by
  ext j
  rw [Finset.mem_erase, mem_free, mem_free, bit_put (h.lt hi), put_numBits]
  by_cases e : j = i
  · simp [e]
  · simp [e]

theorem numClearFrom_eq (b : Bitmap) {i n : Nat} (hn : i + n = b.numBits) :
    b.numClearFrom i n = .ok (b.free.filter fun j => i ≤ j).card := by
  induction n generalizing i with
  | zero =>
    have hnil : (b.free.filter fun j => i ≤ j) = ∅ := by
      refine Finset.filter_eq_empty_iff.mpr fun j hj => ?_
      have := (mem_free.mp hj).1
      omega
    rw [hnil]
    rfl
  | succ n ih =>
    unfold numClearFrom
    rw [test_eq b (by omega), ok_bind, ih (by omega), ok_bind]
    cases hb : b.bit i with
    | true =>
      have hsame : (b.free.filter fun j => i ≤ j) = b.free.filter fun j => i + 1 ≤ j := by
        refine Finset.filter_congr fun j hj => ⟨fun hle => ?_, fun hle => by omega⟩
        have hne : j ≠ i := by
          rintro rfl
          rw [(mem_free.mp hj).2] at hb
          cases hb
        omega
      rw [hsame]
      rfl
    | false =>
      have hins : (b.free.filter fun j => i ≤ j) = insert i (b.free.filter fun j => i + 1 ≤ j) := by
        ext j
        simp only [Finset.mem_filter, Finset.mem_insert]
        constructor
        · rintro ⟨hj, hle⟩
          by_cases e : j = i
          · exact .inl e
          · exact .inr ⟨hj, by omega⟩
        · rintro (rfl | ⟨hj, hle⟩)
          · exact ⟨mem_free.mpr ⟨by omega, hb⟩, Nat.le_refl j⟩
          · exact ⟨hj, by omega⟩
      rw [hins, Finset.card_insert_of_notMem (by simp)]
      rfl

/-- `NumClear`. -/
theorem numClear_eq (b : Bitmap) : b.numClear = .ok b.free.card := by
  rw [numClear, numClearFrom_eq b (by omega)]
  simp

end Nachos.Bitmap
