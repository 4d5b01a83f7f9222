import Nachos.Framework.Simulation
import Nachos.Proof.Lib.Bitmap
import Nachos.Spec.IndexSet

/-!
# Bitmaps refine sets of indices

A bitmap has the set of its taken indices in its words (`Represents`), and each
operation does on the words what it does on the set (`Represents.exec`). That many
calls of `FindAndSet` in a row succeed as there are free indices, and no more, is a
fact about the set (`IndexSet.takes`).
-/

namespace Nachos

open Framework

/-! ## The smallest free indices -/

namespace IndexSet

variable {n : Nat} {S : Finset Nat}

theorem mem_free {i : Nat} : i ∈ free n S ↔ i < n ∧ i ∉ S := by
  rw [free, Finset.mem_sdiff, Finset.mem_range]

theorem card_free (h : S ⊆ Finset.range n) : (free n S).card = n - S.card := by
  rw [free, Finset.card_sdiff_of_subset h, Finset.card_range]

theorem free_insert (i : Nat) : free n (insert i S) = (free n S).erase i := by
  rw [free, free, Finset.sdiff_insert]

theorem min'_free {i : Nat} (hi : i ∈ free n S) (hleast : ∀ j < i, j ∈ S)
    (h : (free n S).Nonempty) : (free n S).min' h = i := by
  refine le_antisymm (Finset.min'_le _ _ hi) (Finset.le_min' _ _ _ fun j hj => ?_)
  by_contra hlt
  exact (mem_free.mp hj).2 (hleast j (Nat.lt_of_not_le hlt))

/-- `k` calls of `FindAndSet`: all of them take free indices, each another one, or
one of them finds none. -/
theorem takes (n k : Nat) (S : Finset Nat) :
    ∃ S' results, runAll (M := Option) (step n) S (List.replicate k .findAndSet) = some (S', results) ∧
      ((k ≤ (free n S).card ∧ results.Nodup ∧ ∀ r ∈ results, ∃ i ∈ free n S, r = .number (i : Nat)) ∨
        ((free n S).card < k ∧ .number (-1) ∈ results)) := by
  induction k generalizing S with
  | zero => exact ⟨S, [], rfl, .inl ⟨Nat.zero_le _, .nil, fun r hr => by cases hr⟩⟩
  | succ k ih =>
    by_cases h : (free n S).Nonempty
    · have hi := (free n S).min'_mem h
      generalize hmin : (free n S).min' h = i at hi
      have hstep : step n S .findAndSet = some (insert i S, .number i) := by
        rw [step, dif_pos h, hmin]
      obtain ⟨S', results, hr, hcases⟩ := ih (insert i S)
      rw [free_insert, Finset.card_erase_of_mem hi] at hcases
      have hpos := Finset.card_pos.mpr h
      refine ⟨S', .number i :: results, ?_, ?_⟩
      · rw [List.replicate_succ, runAll, hstep]
        simp only [Option.bind_eq_bind, Option.bind_some, hr]
        rfl
      rcases hcases with ⟨hk, hnd, hall⟩ | ⟨hk, hmem⟩
      · refine .inl ⟨by omega, List.nodup_cons.mpr ⟨fun hmem => ?_, hnd⟩, fun r hr => ?_⟩
        · obtain ⟨j, hj, he⟩ := hall _ hmem
          have hij : i = j := Int.natCast_inj.mp (BitmapResult.number.inj he)
          exact absurd hij.symm (Finset.mem_erase.mp hj).1
        · rcases List.mem_cons.mp hr with rfl | hr
          · exact ⟨i, hi, rfl⟩
          · obtain ⟨j, hj, he⟩ := hall _ hr
            exact ⟨j, (Finset.mem_erase.mp hj).2, he⟩
      · exact .inr ⟨by omega, List.mem_cons_of_mem _ hmem⟩
    · have hstep : step n S .findAndSet = some (S, .number (-1)) := by
        rw [step, dif_neg h]
      obtain ⟨S', results, hr, -⟩ := ih S
      refine ⟨S', .number (-1) :: results, ?_, .inr ⟨?_, List.mem_cons_self⟩⟩
      · rw [List.replicate_succ, runAll, hstep]
        simp only [Option.bind_eq_bind, Option.bind_some, hr]
        rfl
      · rw [Finset.not_nonempty_iff_eq_empty.mp h, Finset.card_empty]
        exact Nat.succ_pos k

end IndexSet

namespace Bitmap

open IndexSet (step)

/-! ## Words and sets -/

/-- Index `i` is in `S` when bit `i % 32` of word `i / 32` is set. -/
structure Represents (b : Bitmap) (n : Nat) (S : Finset Nat) : Prop where
  numBits : b.numBits = n
  wf : b.Wf
  subset : S ⊆ Finset.range n
  bits : ∀ i < n, ((b.word i).getLsbD (i % bitsInWord) = true ↔ i ∈ S)

theorem represents_new (n : Nat) : (new n).Represents n ∅ := by
  refine ⟨rfl, wf_new n, Finset.empty_subset _, fun i _ => ?_⟩
  have hbit : ((new n).word i).getLsbD (i % bitsInWord) = false := bit_new n i
  simp [hbit]

namespace Represents

variable {b : Bitmap} {n : Nat} {S : Finset Nat} {i : Nat}

theorem bit (h : b.Represents n S) (hi : i < n) : b.bit i = decide (i ∈ S) := by
  have hb := h.bits i hi
  rw [Bool.eq_iff_iff, decide_eq_true_eq]
  exact hb

theorem put (h : b.Represents n S) (hi : i < n) (v : Bool) :
    (b.put i v).Represents n (if v then insert i S else S.erase i) := by
  have hlt : i / bitsInWord < b.map.length := h.wf.lt (h.numBits ▸ hi)
  refine ⟨h.numBits, h.wf.put i v, ?_, fun j hj => ?_⟩
  · cases v with
    | true => exact Finset.insert_subset (Finset.mem_range.mpr hi) h.subset
    | false => exact (Finset.erase_subset i S).trans h.subset
  · show (b.put i v).bit j = true ↔ _
    rw [bit_put hlt, h.bit hj]
    cases v <;> by_cases e : j = i <;> simp [e]

theorem mark (h : b.Represents n S) (hi : i < n) :
    ∃ b', b.mark i = .ok b' ∧ b'.Represents n (insert i S) :=
  ⟨_, mark_eq h.wf (h.numBits ▸ hi), h.put hi true⟩

theorem clear (h : b.Represents n S) (hi : i < n) :
    ∃ b', b.clear i = .ok b' ∧ b'.Represents n (S.erase i) :=
  ⟨_, clear_eq h.wf (h.numBits ▸ hi), h.put hi false⟩

theorem test (h : b.Represents n S) (hi : i < n) : b.test i = .ok (decide (i ∈ S)) := by
  rw [test_eq b (h.numBits ▸ hi), h.bit hi]

theorem free (h : b.Represents n S) : b.free = IndexSet.free n S := by
  ext i
  rw [mem_free, IndexSet.mem_free, h.numBits]
  refine and_congr_right fun hi => ?_
  rw [h.bit hi, decide_eq_false_iff_not]

theorem numClear (h : b.Represents n S) : b.numClear = .ok (n - S.card) := by
  rw [numClear_eq, h.free, IndexSet.card_free h.subset]

/-- `FindAndSet` takes the smallest free index. -/
theorem findAndSet (h : b.Represents n S) :
    (∃ hf : (IndexSet.free n S).Nonempty, ∃ b',
      b.findAndSet = .ok (((IndexSet.free n S).min' hf : Nat), b') ∧
      b'.Represents n (insert ((IndexSet.free n S).min' hf) S)) ∨
    (IndexSet.free n S = ∅ ∧ b.findAndSet = .ok (-1, b)) := by
  rcases findAndSet_cases h.wf with ⟨k, hk, hlow, hclear, hx⟩ | ⟨hall, hx⟩
  · left
    have hmem : k ∈ IndexSet.free n S := h.free ▸ mem_free.mpr ⟨hk, hclear⟩
    have hmin : (IndexSet.free n S).min' ⟨k, hmem⟩ = k := by
      refine IndexSet.min'_free hmem (fun j hj => ?_) _
      exact (h.bits j (Nat.lt_trans hj (h.numBits ▸ hk))).mp (hlow j hj)
    exact ⟨⟨k, hmem⟩, b.put k true, by rw [hx, hmin], by rw [hmin]; exact h.put (h.numBits ▸ hk) true⟩
  · exact .inr ⟨h.free ▸ free_eq_empty hall, hx⟩

/-- What the set allows, the bitmap does. -/
theorem exec (h : b.Represents n S) {op : BitmapOp} {S' : Finset Nat} {r : BitmapResult}
    (hs : step n S op = some (S', r)) : ∃ b', b.exec op = .ok (b', r) ∧ b'.Represents n S' := by
  cases op with
  | mark which =>
    obtain ⟨⟨h0, hlt⟩, he⟩ := Option.ite_none_right_eq_some.mp hs
    cases he
    obtain ⟨i, rfl⟩ := Int.eq_ofNat_of_zero_le h0
    obtain ⟨b', hb, hr⟩ := h.mark (i := i) (by omega)
    exact ⟨b', by simp only [Bitmap.exec, hb, ok_bind, pure_eq_ok], hr⟩
  | clear which =>
    obtain ⟨⟨h0, hlt⟩, he⟩ := Option.ite_none_right_eq_some.mp hs
    cases he
    obtain ⟨i, rfl⟩ := Int.eq_ofNat_of_zero_le h0
    obtain ⟨b', hb, hr⟩ := h.clear (i := i) (by omega)
    exact ⟨b', by simp only [Bitmap.exec, hb, ok_bind, pure_eq_ok], hr⟩
  | test which =>
    obtain ⟨⟨h0, hlt⟩, he⟩ := Option.ite_none_right_eq_some.mp hs
    cases he
    obtain ⟨i, rfl⟩ := Int.eq_ofNat_of_zero_le h0
    refine ⟨b, ?_, h⟩
    simp only [Bitmap.exec, h.test (i := i) (by omega), ok_bind, pure_eq_ok, Int.toNat_natCast]
  | findAndSet =>
    rcases h.findAndSet with ⟨hf, b', hb, hr⟩ | ⟨hf, hb⟩
    · rw [step, dif_pos hf] at hs
      cases hs
      exact ⟨b', by simp only [Bitmap.exec, hb, ok_bind, pure_eq_ok], hr⟩
    · rw [step, dif_neg (Finset.not_nonempty_iff_eq_empty.mpr hf)] at hs
      cases hs
      exact ⟨b, by simp only [Bitmap.exec, hb, ok_bind, pure_eq_ok], h⟩
  | numClear =>
    cases hs
    have hle : S.card ≤ n := by
      have hcard := Finset.card_le_card h.subset
      rwa [Finset.card_range] at hcard
    refine ⟨b, ?_, h⟩
    simp only [Bitmap.exec, h.numClear, ok_bind, pure_eq_ok, Int.ofNat_sub hle]

/-- A loop that clears bit after bit leaves those before it. -/
theorem clearFrom {i k : Nat} (h : b.Represents n S) (hk : i + k = n) :
    ∃ b', eachFrom Bitmap.clear b i k = .ok b' ∧ b'.Represents n (S.filter (· < i)) := by
  induction k generalizing b S i with
  | zero =>
    refine ⟨b, rfl, ?_⟩
    rwa [Finset.filter_true_of_mem fun j hj => by have := Finset.mem_range.mp (h.subset hj); omega]
  | succ k ih =>
    obtain ⟨b₁, hb, h₁⟩ := h.clear (i := i) (by omega)
    obtain ⟨b', hb', h'⟩ := ih (i := i + 1) h₁ (by omega)
    refine ⟨b', by simp only [eachFrom, hb, ok_bind, hb'], ?_⟩
    have hsame : (S.erase i).filter (· < i + 1) = S.filter (· < i) := by
      ext j
      simp only [Finset.mem_filter, Finset.mem_erase]
      constructor
      · rintro ⟨⟨hne, hj⟩, hlt⟩
        exact ⟨hj, by omega⟩
      · rintro ⟨hj, hlt⟩
        exact ⟨⟨by omega, hj⟩, by omega⟩
    rwa [hsame] at h'

/-- One that marks them adds all of them. -/
theorem markFrom {i k : Nat} (h : b.Represents n S) (hk : i + k = n) :
    ∃ b', eachFrom Bitmap.mark b i k = .ok b' ∧
      b'.Represents n (S ∪ (Finset.range n).filter (i ≤ ·)) := by
  induction k generalizing b S i with
  | zero =>
    refine ⟨b, rfl, ?_⟩
    rwa [Finset.filter_false_of_mem fun j hj => by have := Finset.mem_range.mp hj; omega,
      Finset.union_empty]
  | succ k ih =>
    obtain ⟨b₁, hb, h₁⟩ := h.mark (i := i) (by omega)
    obtain ⟨b', hb', h'⟩ := ih (i := i + 1) h₁ (by omega)
    refine ⟨b', by simp only [eachFrom, hb, ok_bind, hb'], ?_⟩
    have hsame : insert i S ∪ (Finset.range n).filter (i + 1 ≤ ·) =
        S ∪ (Finset.range n).filter (i ≤ ·) := by
      ext j
      simp only [Finset.mem_union, Finset.mem_insert, Finset.mem_filter, Finset.mem_range]
      constructor
      · rintro ((rfl | hj) | ⟨hj, hle⟩)
        · exact .inr ⟨by omega, Nat.le_refl j⟩
        · exact .inl hj
        · exact .inr ⟨hj, by omega⟩
      · rintro (hj | ⟨hj, hle⟩)
        · exact .inl (.inr hj)
        · by_cases e : j = i
          · exact .inl (.inl e)
          · exact .inr ⟨hj, by omega⟩
    rwa [hsame] at h'

end Represents

/-- The constructor clears bits that are clear. -/
theorem construct_represents {numBits : Nat} (hpos : 0 < numBits) :
    ∃ b, construct numBits = .ok b ∧ b.Represents numBits ∅ := by
  obtain ⟨b, hb, hr⟩ := (represents_new numBits).clearFrom (Nat.zero_add numBits)
  rw [Finset.filter_empty] at hr
  refine ⟨b, ?_, hr⟩
  rw [construct, assert_of (by omega), ok_bind, Int.toNat_natCast, hb]

/-- A bitmap refines a set of indices: from the constructor on, every list of operations
with indices in range has the results that it has on the set, and then as many
calls of `FindAndSet` in a row succeed as there are clear bits. -/
theorem refines_set {numBits : Nat} (hpos : 0 < numBits) (ops : List BitmapOp) {S : Finset Nat}
    {results : List BitmapResult}
    (h : runAll (M := Option) (step numBits) ∅ ops = some (S, results)) :
    ∃ b₀ b : Bitmap, construct numBits = .ok b₀ ∧
      runAll (M := Except Abort) Bitmap.exec b₀ ops = .ok (b, results) ∧
      b.Represents numBits S ∧ b.numClear = .ok (numBits - S.card) ∧
      ∀ k : Nat, ∃ (b' : Bitmap) (found : List BitmapResult),
        runAll (M := Except Abort) Bitmap.exec b (List.replicate k .findAndSet) = .ok (b', found) ∧
        ((∀ r ∈ found, r ≠ .number (-1)) ∧ found.Nodup ↔ k ≤ numBits - S.card) := by
  have hstep : ∀ (b : Bitmap) (S : Finset Nat) (op : BitmapOp) (S' : Finset Nat) (r : BitmapResult),
      b.Represents numBits S → step numBits S op = some (S', r) →
      ∃ b', b.exec op = .ok (b', r) ∧ b'.Represents numBits S' := fun _ _ _ _ _ hr hs => hr.exec hs
  obtain ⟨b₀, hb₀, hr₀⟩ := construct_represents hpos
  obtain ⟨b, hb, hr⟩ := runAll_simulates hstep hr₀ h
  refine ⟨b₀, b, hb₀, hb, hr, hr.numClear, fun k => ?_⟩
  obtain ⟨S', found, hx, hcases⟩ := IndexSet.takes numBits k S
  obtain ⟨b', hb', -⟩ := runAll_simulates hstep hr hx
  refine ⟨b', found, hb', ?_⟩
  rw [← IndexSet.card_free hr.subset]
  rcases hcases with ⟨hk, hnd, hall⟩ | ⟨hk, hmem⟩
  · refine iff_of_true ⟨fun r hr' => ?_, hnd⟩ hk
    obtain ⟨i, -, rfl⟩ := hall r hr'
    exact fun he => absurd (BitmapResult.number.inj he) (by omega)
  · exact iff_of_false (fun hf => hf.1 _ hmem rfl) (by omega)

/-- The last bit of the first word, one of the last word, and two free indices. -/
theorem refines_set_partial : ∃ b₀ b : Bitmap, construct (34 : Nat) = .ok b₀ ∧
    runAll (M := Except Abort) Bitmap.exec b₀ [.mark 31, .mark 33, .findAndSet, .test 31, .clear 31,
      .numClear] =
      .ok (b, [.done, .done, .number 0, .bit true, .done, .number 32]) := by
  obtain ⟨b₀, b, hb₀, hb, -⟩ := @refines_set 34 (by decide)
    [.mark 31, .mark 33, .findAndSet, .test 31, .clear 31, .numClear] {33, 0}
    [.done, .done, .number 0, .bit true, .done, .number 32] (by decide +kernel)
  exact ⟨b₀, b, hb₀, hb⟩

/-- `FindAndSet` where `i` is the smallest free index. -/
theorem Represents.findAndSet_least {b : Bitmap} {n i : Nat} {S : Finset Nat} (h : b.Represents n S)
    (hi : i ∈ IndexSet.free n S) (hleast : ∀ j < i, j ∈ S) :
    ∃ b', b.findAndSet = .ok ((i : Int), b') ∧ b'.Represents n (insert i S) := by
  rcases h.findAndSet with ⟨hf, b', hb, hr⟩ | ⟨hempty, -⟩
  · rw [IndexSet.min'_free hi hleast hf] at hb hr
    exact ⟨b', hb, hr⟩
  · rw [hempty] at hi
    cases hi

/-- `SelfTest` passes on an empty bitmap of a word at least, and leaves it empty. -/
theorem Represents.selfTest {b : Bitmap} {n : Nat} (h : b.Represents n ∅) (hn : bitsInWord ≤ n) :
    ∃ b', b.selfTest = .ok b' ∧ b'.Represents n ∅ := by
  have h32 : 32 ≤ n := hn
  obtain ⟨b₁, hb₁, h₁⟩ := h.findAndSet_least (i := 0) (IndexSet.mem_free.mpr ⟨by omega, by simp⟩)
    fun j hj => by omega
  obtain ⟨b₂, hb₂, h₂⟩ := h₁.mark (i := 31) (by omega)
  have hlow := h₂.test (i := 0) (by omega)
  have hhigh := h₂.test (i := 31) (by omega)
  obtain ⟨b₃, hb₃, h₃⟩ := h₂.findAndSet_least (i := 1)
    (IndexSet.mem_free.mpr ⟨by omega, by simp⟩) fun j hj => by
      obtain rfl : j = 0 := by omega
      simp
  obtain ⟨b₄, hb₄, h₄⟩ := h₃.clear (i := 0) (by omega)
  obtain ⟨b₅, hb₅, h₅⟩ := h₄.clear (i := 1) (by omega)
  obtain ⟨b₆, hb₆, h₆⟩ := h₅.clear (i := 31) (by omega)
  obtain ⟨b₇, hb₇, h₇⟩ := h₆.markFrom (Nat.zero_add n)
  have hfull : b₇.findAndSet = .ok (-1, b₇) := by
    rcases h₇.findAndSet with ⟨hf, -⟩ | ⟨-, hb⟩
    · obtain ⟨i, hi⟩ := hf
      obtain ⟨hlt, hnot⟩ := IndexSet.mem_free.mp hi
      exact absurd (Finset.mem_union_right _ (by simpa using hlt)) hnot
    · exact hb
  obtain ⟨b₈, hb₈, h₈⟩ := h₇.clearFrom (Nat.zero_add n)
  rw [Finset.filter_false_of_mem fun j _ => Nat.not_lt_zero j] at h₈
  refine ⟨b₈, ?_, h₈⟩
  have hcount := h.numClear
  simp only [Finset.card_empty, Nat.sub_zero] at hcount
  simp only [Int.cast_ofNat_Int] at hb₁ hb₂ hlow hhigh hb₃ hb₄ hb₅ hb₆
  unfold Bitmap.selfTest
  simp only [h.numBits, assert_of hn, ok_bind, hcount, hb₁, hb₂, hlow, hhigh, hb₃, hb₄, hb₅, hb₆,
    h₆.numBits, hb₇, hfull, h₇.numBits, hb₈]
  rfl

end Bitmap

end Nachos
