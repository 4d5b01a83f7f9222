import Nachos.Proof.Filesys.FileHeader

/-!
# Files on the disk

`ReadAt` returns a part of the contents of the file (`readAt_eq`), and
`WriteAt` overwrites a part and leaves all other sectors as they are
(`writeAt_spec`), whatever its buffer holds at first.
-/

namespace Nachos

open Framework

theorem slice_eq {buf : List Byte} {i n : Nat} (h : i + n ≤ buf.length) :
    slice buf i n = .ok ((buf.drop i).take n) := by
  unfold slice
  rw [defined_of (by omega)]
  rfl

theorem bcopy_eq {src buf : List Byte} {i : Nat} (h : i + src.length ≤ buf.length) :
    bcopy src buf i = .ok (Blocks.overwrite buf i src) := by
  unfold bcopy
  rw [defined_of (by omega)]
  rfl

namespace OpenFile

variable {f : OpenFile} {d : Disk}

/-- A request for `k` bytes at `p`, in the numbers that the code computes: the
bytes inside the file, the first sector and the number of sectors. -/
structure Request (f : OpenFile) (p k m first cnt : Nat) : Prop where
  clamp_eq : f.clamp k p = .ok (m : Int)
  pos : 0 < m
  len : p + m ≤ f.hdr.numBytes.toNat
  min_eq : m = k ∨ p + m = f.hdr.numBytes.toNat ∧ m ≤ k
  first_eq : (p : Int).tdiv sectorSize = first
  last_eq : ((p : Int) + m - 1).tdiv sectorSize = (first + cnt - 1 : Nat)
  low : first * sectorSize ≤ p ∧ p < (first + 1) * sectorSize
  high : (first + cnt - 1) * sectorSize < p + m ∧ p + m ≤ (first + cnt) * sectorSize
  cnt_pos : 0 < cnt
  blocks : first + cnt ≤ f.hdr.blocks.length
  size_eq : i32 ((cnt : Int) * sectorSize) = .ok (cnt * sectorSize : Nat)

theorem request (hok : f.hdr.Ok) {p k : Nat} (hk : 0 < k) (hp : p < f.hdr.numBytes.toNat)
    (h31 : p + k < 2 ^ 31) : ∃ m first cnt, Request f p k m first cnt := by
  have hmax : f.hdr.numBytes.toNat ≤ 3840 := by
    have : f.hdr.numBytes ≤ (3840 : Nat) := hok.size
    omega
  obtain ⟨m, hm⟩ : ∃ m, m = min k (f.hdr.numBytes.toNat - p) := ⟨_, rfl⟩
  have hb := hok.lt_blocks (p := p + m - 1) (by omega)
  refine ⟨m, p / sectorSize, (p + m - 1) / sectorSize - p / sectorSize + 1, ?_⟩
  refine ⟨?_, by omega, by omega, by omega, rfl, ?_, ?_, ?_, by omega, ?_, ?_⟩
  · unfold OpenFile.clamp
    rw [i32_of (show IsInt ((p : Int) + k) by unfold IsInt; omega), ok_bind, FileHeader.fileLength]
    split <;> simp only [pure_eq_ok, Except.ok.injEq] <;> omega
  · rw [show (p : Int) + m - 1 = ((p + m - 1 : Nat) : Int) by omega, ← Int.ofNat_tdiv]
    unfold sectorSize
    omega
  · unfold sectorSize
    omega
  · unfold sectorSize
    omega
  · unfold sectorSize at *
    omega
  · rw [i32_of (by unfold IsInt sectorSize; omega)]
    simp

/-- `ReadAt` inside the file. -/
theorem readAt_inside (hok : f.hdr.Ok) {p k : Nat} (hk : 0 < k) (hp : p < f.hdr.numBytes.toNat)
    (h31 : p + k < 2 ^ 31) :
    f.readAt d k p = .ok (((f.hdr.contents d).drop p).take k) := by
  obtain ⟨m, first, cnt, h⟩ := request hok hk hp h31
  have hlow := h.low
  have hhigh := h.high
  have hcnt := h.cnt_pos
  have hlen := h.len
  unfold readAt
  rw [if_neg (by simp only [FileHeader.fileLength]; omega), h.clamp_eq, ok_bind]
  simp only [h.first_eq, h.last_eq]
  rw [show (1 : Int) + (first + cnt - 1 : Nat) - first = cnt by omega, h.size_eq, ok_bind,
    Int.toNat_natCast, hok.readSectors_eq h.blocks, ok_bind,
    show (p : Int) - first * sectorSize = (p - first * sectorSize : Nat) by omega, slice_eq,
    Blocks.slice_read (n := f.hdr.numBytes.toNat) (by decide) h.blocks]
  · rw [Nat.add_sub_cancel' hlow.1]
    rcases h.min_eq with rfl | ⟨hm, hle⟩
    · rfl
    · -- There is nothing behind the last byte of the file.
      have hc : ((f.hdr.contents d).drop p).length = m := by
        rw [List.length_drop, FileHeader.contents, Blocks.length_contents]
        omega
      change Except.ok (((f.hdr.contents d).drop p).take m) = _
      rw [List.take_of_length_le (by omega), List.take_of_length_le (by omega)]
  · rw [Nat.add_mul] at hhigh
    omega
  · omega
  · rw [Blocks.length_read, List.length_take, List.length_drop, Nat.min_eq_left (by have := h.blocks; omega)]
    rw [Nat.add_mul] at hhigh
    omega

theorem length_contents (h : FileHeader) (d : Disk) : (h.contents d).length = h.numBytes.toNat :=
  Blocks.length_contents _

/-- `ReadAt` returns a part of the contents. -/
theorem readAt_eq (hok : f.hdr.Ok) {n pos : Int} (h0 : 0 ≤ pos)
    (h31 : pos + n < 2 ^ 31 ∨ f.hdr.fileLength ≤ pos) :
    f.readAt d n pos = .ok (((f.hdr.contents d).drop pos.toNat).take n.toNat) := by
  by_cases hc : n ≤ 0 ∨ pos ≥ f.hdr.fileLength
  · unfold readAt
    rw [if_pos hc]
    have hnil : ((f.hdr.contents d).drop pos.toNat).take n.toNat = [] := by
      apply List.eq_nil_of_length_eq_zero
      rw [List.length_take, List.length_drop, length_contents]
      unfold FileHeader.fileLength at hc
      omega
    rw [hnil]
    rfl
  · obtain ⟨p, rfl⟩ := Int.eq_ofNat_of_zero_le h0
    obtain ⟨k, rfl⟩ := Int.eq_ofNat_of_zero_le (show 0 ≤ n by omega)
    unfold FileHeader.fileLength at *
    exact readAt_inside hok (by omega) (by omega) (by omega)

/-! ## The buffer of `WriteAt` -/

/-- Sector `j` of the file. -/
def part (f : OpenFile) (d : Disk) (j : Nat) : List Byte :=
  ((f.hdr.contents d).drop (j * sectorSize)).take sectorSize

/-- The buffer, with a sector read to `a` if `c`. -/
def fill (c : Bool) (buf : List Byte) (a : Nat) (w : List Byte) : List Byte :=
  if c then Blocks.overwrite buf a w else buf

theorem length_part_le (f : OpenFile) (d : Disk) (j : Nat) : (f.part d j).length ≤ sectorSize := by
  simp [part]

theorem length_fill {c : Bool} {buf w : List Byte} {a : Nat} (h : a + w.length ≤ buf.length) :
    (fill c buf a w).length = buf.length := by
  unfold fill
  split <;> [exact Blocks.length_overwrite h; rfl]

theorem fill_eq (hok : f.hdr.Ok) {j a : Nat} {buf : List Byte} (hj : j < f.hdr.blocks.length)
    (ha : a + sectorSize ≤ buf.length) (c : Bool) :
    (if c then do
        let data ← f.readAt d sectorSize ((j : Int) * sectorSize)
        bcopy data buf a
      else return buf) = .ok (fill c buf a (f.part d j)) := by
  cases c with
  | false => rfl
  | true =>
    simp only [ite_true]
    have hle : f.hdr.blocks.length ≤ numDirect := by
      rw [hok.length_blocks]
      exact FileHeader.divRoundUp_le (by have := hok.size; omega)
    have h31 : (j : Int) * sectorSize + sectorSize < 2 ^ 31 := by
      have : numDirect = 30 := rfl
      unfold sectorSize
      omega
    rw [readAt_eq hok (Int.mul_nonneg (by omega) (by decide)) (.inl h31), ok_bind, Int.toNat_natCast,
      ← Int.natCast_mul, Int.toNat_natCast, bcopy_eq]
    · rfl
    · rw [List.length_take]
      omega

/-- After the reads the buffer has what the file has, in the sectors that were
read. -/
theorem getElem?_fill (c₁ c₂ : Bool) {buf : List Byte} (first : Nat) {cnt x : Nat} (hcnt : 0 < cnt)
    (hbuf : buf.length = cnt * sectorSize) (hx : x < cnt * sectorSize)
    (hq : first * sectorSize + x < f.hdr.numBytes.toNat)
    (hc : c₁ = true ∧ x < sectorSize ∨ c₂ = true ∧ (cnt - 1) * sectorSize ≤ x) :
    (fill c₂ (fill c₁ buf 0 (f.part d first)) ((cnt - 1) * sectorSize)
      (f.part d (first + cnt - 1)))[x]? = (f.hdr.contents d)[first * sectorSize + x]? := by
  obtain ⟨n, rfl⟩ : ∃ n, cnt = n + 1 := ⟨cnt - 1, by omega⟩
  rw [Nat.add_sub_cancel] at hc
  rw [Nat.add_sub_cancel, show first + (n + 1) - 1 = first + n by omega]
  rw [Nat.succ_mul] at hbuf hx
  have hlen := length_contents f.hdr d
  have hp₁ := length_part_le f d first
  have hp₂ := length_part_le f d (first + n)
  have hfill : (fill c₁ buf 0 (f.part d first)).length = buf.length := length_fill (by omega)
  have hlen₁ : (f.part d first).length = min sectorSize (f.hdr.numBytes.toNat - first * sectorSize) := by
    simp [part, hlen]
  have hlen₂ : (f.part d (first + n)).length =
      min sectorSize (f.hdr.numBytes.toNat - (first * sectorSize + n * sectorSize)) := by
    simp [part, hlen, Nat.add_mul]
  by_cases h₂ : c₂ = true ∧ n * sectorSize ≤ x
  · rw [fill, if_pos h₂.1, Blocks.getElem?_overwrite (by omega), if_pos (by omega), part,
      List.getElem?_take, if_pos (by omega), List.getElem?_drop, Nat.add_mul]
    congr 1
    omega
  · obtain ⟨hc₁, hlt⟩ := hc.resolve_right h₂
    have hskip : (fill c₂ (fill c₁ buf 0 (f.part d first)) (n * sectorSize) (f.part d (first + n)))[x]? =
        (fill c₁ buf 0 (f.part d first))[x]? := by
      rw [fill.eq_def c₂]
      split
      · rename_i hc₂
        rw [Blocks.getElem?_overwrite (by omega), if_neg fun hc => h₂ ⟨hc₂, hc.1⟩]
      · rfl
    rw [hskip, fill, if_pos hc₁, Blocks.getElem?_overwrite (by omega), if_pos (by omega), part,
      List.getElem?_take, if_pos (by omega), List.getElem?_drop, Nat.sub_zero]

/-- The buffer for `m` bytes at `p`, with the first and the last of the `n + 1`
sectors read if they are written in part. -/
def filled (f : OpenFile) (d : Disk) (fresh : Fresh) (p m first n : Nat) : List Byte :=
  let firstAligned : Bool := (p : Int) = first * sectorSize
  let lastAligned : Bool := (p : Int) + m = ((first + n : Nat) + 1) * sectorSize
  fill (!lastAligned && ((first : Int) ≠ (first + n : Nat) || firstAligned))
    (fill (!firstAligned) (fresh.take ((n + 1) * sectorSize)) 0 (f.part d first)) (n * sectorSize)
    (f.part d (first + n))

theorem length_filled (f : OpenFile) (d : Disk) (fresh : Fresh) (p m first n : Nat) :
    (f.filled d fresh p m first n).length = (n + 1) * sectorSize := by
  have hlen : (fresh.take ((n + 1) * sectorSize)).length = n * sectorSize + sectorSize := by
    simp [Fresh.take, Nat.succ_mul]
  have hp₁ := length_part_le f d first
  have hp₂ := length_part_le f d (first + n)
  unfold filled
  rw [length_fill, length_fill, hlen, Nat.succ_mul]
  · omega
  · rw [length_fill] <;> omega

/-- What the sectors that are written in part have around the new bytes. -/
theorem getElem?_filled (fresh : Fresh) {p m first n q : Nat}
    (hhigh : first * sectorSize + n * sectorSize < p + m)
    (hq : first * sectorSize ≤ q ∧ q < first * sectorSize + n * sectorSize + sectorSize)
    (hlen : q < f.hdr.numBytes.toNat) (hp : p < (first + 1) * sectorSize)
    (hm : p + m ≤ first * sectorSize + n * sectorSize + sectorSize) (hout : q < p ∨ p + m ≤ q) :
    (f.filled d fresh p m first n)[q - first * sectorSize]? = (f.hdr.contents d)[q]? := by
  obtain ⟨c₁, hc₁⟩ : ∃ c : Bool, c = !decide ((p : Int) = first * sectorSize) := ⟨_, rfl⟩
  obtain ⟨c₂, hc₂⟩ : ∃ c : Bool, c = (!decide ((p : Int) + m = ((first + n : Nat) + 1) * sectorSize) &&
    (decide ((first : Int) ≠ (first + n : Nat)) || decide ((p : Int) = first * sectorSize))) := ⟨_, rfl⟩
  rw [Nat.succ_mul] at hp
  unfold filled
  simp only [← hc₁, ← hc₂]
  have hget := getElem?_fill (f := f) (d := d) c₁ c₂ first (x := q - first * sectorSize)
    (show 0 < n + 1 by omega)
    (show (fresh.take ((n + 1) * sectorSize)).length = (n + 1) * sectorSize by simp [Fresh.take])
    (by rw [Nat.succ_mul]; omega) (by omega) ?_
  · rwa [Nat.add_sub_cancel, show first + (n + 1) - 1 = first + n by omega,
      show first * sectorSize + (q - first * sectorSize) = q by omega] at hget
  · rw [Nat.add_sub_cancel]
    simp only [hc₁, hc₂, Bool.and_eq_true, Bool.or_eq_true, Bool.not_eq_true', decide_eq_true_eq,
      decide_eq_false_iff_not, ← Int.natCast_mul, ← Int.natCast_succ, ← Int.natCast_add,
      Int.natCast_inj, ne_eq, Nat.succ_mul, Nat.add_mul]
    rcases hout with hlt | hge
    · exact .inl ⟨by omega, by omega⟩
    · rcases Nat.eq_zero_or_pos n with rfl | hn
      · by_cases hal : p = first * sectorSize
        · exact .inr ⟨⟨by omega, .inr hal⟩, by omega⟩
        · exact .inl ⟨hal, by omega⟩
      · exact .inr ⟨⟨by omega, .inl (by omega)⟩, by omega⟩

/-- What `WriteAt` does, in the numbers of its request. -/
theorem writeAt_request (hok : f.hdr.Ok) {p k m first n : Nat} (h : Request f p k m first (n + 1))
    {src : List Byte} (hk : 0 < k) (hp : p < f.hdr.numBytes.toNat) (hsrc : k ≤ src.length)
    (fresh : Fresh) : f.writeAt d fresh src k p =
      .ok (Blocks.write sectorSize d ((f.hdr.blocks.drop first).take (n + 1))
        (Blocks.overwrite (f.filled d fresh p m first n) (p - first * sectorSize) (src.take m)),
        (m : Int)) := by
  have hlow := h.low
  have hhigh := h.high
  have hblocks := h.blocks
  have hlast := h.last_eq
  rw [show first + (n + 1) - 1 = first + n by omega] at hhigh hlast
  rw [Nat.add_mul, Nat.add_mul, Nat.succ_mul] at hhigh
  rw [Nat.succ_mul] at hlow
  have hmk : m ≤ k := by
    rcases h.min_eq with rfl | ⟨-, hle⟩ <;> omega
  have hlen₂ := length_filled f d fresh p m first n
  have hfit : p - first * sectorSize + (src.take m).length ≤ (f.filled d fresh p m first n).length := by
    rw [hlen₂, List.length_take, Nat.succ_mul]
    omega
  obtain ⟨c₁, hc₁⟩ : ∃ c : Bool, c = !decide ((p : Int) = first * sectorSize) := ⟨_, rfl⟩
  obtain ⟨c₂, hc₂⟩ : ∃ c : Bool, c = (!decide ((p : Int) + m = ((first + n : Nat) + 1) * sectorSize) &&
    (decide ((first : Int) ≠ (first + n : Nat)) || decide ((p : Int) = first * sectorSize))) := ⟨_, rfl⟩
  obtain ⟨buf₀, hbuf₀⟩ : ∃ b, b = fresh.take ((n + 1) * sectorSize) := ⟨_, rfl⟩
  have hlen₀ : buf₀.length = (n + 1) * sectorSize := by simp [hbuf₀, Fresh.take]
  have hp₁ := length_part_le f d first
  obtain ⟨buf₁, hbuf₁⟩ : ∃ b, b = fill c₁ buf₀ 0 (f.part d first) := ⟨_, rfl⟩
  rw [Nat.succ_mul] at hlen₀
  have hlen₁ : buf₁.length = buf₀.length := hbuf₁ ▸ length_fill (by omega)
  have hfill₁ := fill_eq (d := d) hok (j := first) (a := 0) (by omega)
    (show 0 + sectorSize ≤ buf₀.length by omega) c₁
  have hfill₂ := fill_eq (d := d) hok (j := first + n) (by omega)
    (show n * sectorSize + sectorSize ≤ buf₁.length by omega) c₂
  have hfilled : fill c₂ buf₁ (n * sectorSize) (f.part d (first + n)) = f.filled d fresh p m first n := by
    rw [hbuf₁, hbuf₀, hc₁, hc₂]
    rfl
  rw [Nat.cast_zero, ← hbuf₁] at hfill₁
  rw [hfilled] at hfill₂
  unfold writeAt
  rw [if_neg (by simp only [FileHeader.fileLength]; omega), h.clamp_eq, ok_bind]
  simp only [h.first_eq, hlast]
  rw [show (1 : Int) + (first + n : Nat) - first = (n + 1 : Nat) by omega, h.size_eq, ok_bind,
    Int.toNat_natCast, ← hc₁, ← hc₂, ← hbuf₀, hfill₁, ok_bind,
    show (((first + n : Nat) : Int) - first) * sectorSize = (n * sectorSize : Nat) by
      rw [show ((first + n : Nat) : Int) - first = n by omega, Int.natCast_mul],
    hfill₂, ok_bind, show (0 : Int) = (0 : Nat) from rfl, slice_eq (by omega), ok_bind, List.drop_zero,
    show (p : Int) - first * sectorSize = (p - first * sectorSize : Nat) by omega,
    bcopy_eq hfit, ok_bind, Int.toNat_natCast,
    hok.writeSectors_eq hblocks (by rw [Blocks.length_overwrite hfit, hlen₂]), ok_bind]
  rfl

/-- `WriteAt` inside the file. -/
theorem writeAt_inside (hok : f.hdr.Ok) (hnd : f.hdr.blocks.Nodup) {p k : Nat} {src w : List Byte}
    (hk : 0 < k) (hp : p < f.hdr.numBytes.toNat) (h31 : p + k < 2 ^ 31) (hsrc : k ≤ src.length)
    (hw : w = (src.take k).take (f.hdr.numBytes.toNat - p)) (fresh : Fresh) : ∃ d',
      f.writeAt d fresh src k p = .ok (d', (w.length : Int)) ∧
      f.hdr.contents d' = Blocks.overwrite (f.hdr.contents d) p w ∧
      ∀ b ∉ f.hdr.blocks, d' b = d b := by
  obtain ⟨m, first, cnt, h⟩ := request hok hk hp h31
  obtain ⟨n, rfl⟩ : ∃ n, cnt = n + 1 := ⟨cnt - 1, by have := h.cnt_pos; omega⟩
  have hlow := h.low
  have hhigh := h.high
  have hlen := h.len
  rw [show first + (n + 1) - 1 = first + n by omega] at hhigh
  rw [Nat.add_mul, Nat.add_mul, Nat.succ_mul] at hhigh
  have hwm : w = src.take m := by
    rw [hw, List.take_take]
    congr 1
    rcases h.min_eq with rfl | ⟨hm, hle⟩ <;> omega
  have hwlen : w.length = m := by
    rw [hwm, List.length_take]
    rcases h.min_eq with rfl | ⟨hm, hle⟩ <;> omega
  have hlen₂ := length_filled f d fresh p m first n
  rw [Nat.succ_mul] at hlen₂
  have hfit : p - first * sectorSize + w.length ≤ (f.filled d fresh p m first n).length := by omega
  refine ⟨_, by rw [writeAt_request hok h hk hp hsrc fresh, hwlen], ?_, fun b hb => ?_⟩
  · have hcont := length_contents f.hdr d
    rw [← hwm]
    refine Blocks.contents_write hnd (by decide) h.blocks ?_ hok.le_blocks ?_ fun q hq => ?_
    · rw [Blocks.length_overwrite hfit, length_filled]
    · rw [Blocks.length_overwrite (by omega), hcont]
    rw [Blocks.getElem?_overwrite (by omega), Nat.add_mul, Nat.succ_mul]
    by_cases hin : p ≤ q ∧ q < p + w.length
    · rw [if_pos hin, if_pos (by omega), Blocks.getElem?_overwrite hfit, if_pos (by omega)]
      congr 1
      omega
    rw [if_neg hin]
    split
    · -- A byte of a sector that is written in part.
      rw [Blocks.getElem?_overwrite hfit, if_neg (by omega),
        getElem?_filled fresh hhigh.1 (by omega) (by omega) hlow.2 (by omega) (by omega)]
    · rfl
  · exact Blocks.write_of_not_mem fun hm => hb (List.mem_of_mem_drop (List.mem_of_mem_take hm))

/-- `WriteAt` overwrites a part of the contents, and no other sector. -/
theorem writeAt_spec (hok : f.hdr.Ok) (hnd : f.hdr.blocks.Nodup) {n pos : Int} {src w : List Byte}
    (h0 : 0 ≤ pos) (h31 : pos + n < 2 ^ 31 ∨ f.hdr.fileLength ≤ pos) (hsrc : n ≤ src.length)
    (hw : w = (src.take n.toNat).take ((f.hdr.contents d).length - pos.toNat)) (fresh : Fresh) :
    ∃ d', f.writeAt d fresh src n pos = .ok (d', (w.length : Int)) ∧
      f.hdr.contents d' = Blocks.overwrite (f.hdr.contents d) pos.toNat w ∧
      ∀ b ∉ f.hdr.blocks, d' b = d b := by
  rw [length_contents] at hw
  by_cases hc : n ≤ 0 ∨ pos ≥ f.hdr.fileLength
  · have hnil : w = [] := by
      apply List.eq_nil_of_length_eq_zero
      rw [hw, List.length_take, List.length_take]
      unfold FileHeader.fileLength at hc
      omega
    unfold writeAt
    rw [if_pos hc, hnil, Blocks.overwrite_nil]
    exact ⟨d, rfl, rfl, fun _ _ => rfl⟩
  · obtain ⟨p, rfl⟩ := Int.eq_ofNat_of_zero_le h0
    obtain ⟨k, rfl⟩ := Int.eq_ofNat_of_zero_le (show 0 ≤ n by omega)
    unfold FileHeader.fileLength at *
    exact writeAt_inside hok hnd (by omega) (by omega) (by omega) (by omega) hw fresh

/-- The whole file is read. -/
theorem readAt_all (hok : f.hdr.Ok) : f.readAt d f.hdr.numBytes 0 = .ok (f.hdr.contents d) := by
  have hmax : maxFileSize < 2 ^ 31 := by decide
  have hsize := hok.size
  rw [readAt_eq hok (Int.le_refl 0) (.inl (by omega)), Int.toNat_zero, List.drop_zero,
    List.take_of_length_le (Nat.le_of_eq (length_contents f.hdr d))]

/-- The whole file is written. -/
theorem writeAt_all (hok : f.hdr.Ok) (hnd : f.hdr.blocks.Nodup) {src : List Byte}
    (hsrc : (src.length : Int) = f.hdr.numBytes) (fresh : Fresh) : ∃ d' n,
      f.writeAt d fresh src f.hdr.numBytes 0 = .ok (d', n) ∧ f.hdr.contents d' = src ∧
      ∀ b ∉ f.hdr.blocks, d' b = d b := by
  have hmax : maxFileSize < 2 ^ 31 := by decide
  have hsize := hok.size
  have hlen := length_contents f.hdr d
  have hw : src = (src.take f.hdr.numBytes.toNat).take ((f.hdr.contents d).length - (0 : Int).toNat) := by
    rw [Int.toNat_zero, Nat.sub_zero, List.take_of_length_le (by rw [List.length_take]; omega),
      List.take_of_length_le (by omega)]
  obtain ⟨d', hx, hc, hframe⟩ := writeAt_spec (d := d) hok hnd (Int.le_refl 0) (.inl (by omega))
    (by omega) hw fresh
  refine ⟨d', _, hx, ?_, hframe⟩
  rw [hc, Int.toNat_zero, Blocks.overwrite_all (by omega)]

end OpenFile

end Nachos
