import Mathlib.Tactic.Common
import Nachos.Proof.Machine.Disk
import Nachos.Spec.FileMap

/-!
# File headers

A header goes to its sector and back (`Fits.decode_encode`). One that is `Ok`
lists the sectors of its file, and the file is one in blocks
(`Framework.Blocks`): the loops of `ReadAt` and `WriteAt` are `read` and
`write` there. `Allocate` takes sectors that are free, or leaves the header's
array for a file that is too large (`allocate_cases`), and `Deallocate` gives
them back (`deallocate_eq`). A size is any `int`: a file of a negative size has
no sectors.
-/

namespace Nachos

open Framework

namespace FileHeader

/-- The object has an `int` in each place. -/
structure Fits (h : FileHeader) : Prop where
  length : h.dataSectors.length = numDirect
  numBytes : IsInt h.numBytes
  numSectors : IsInt h.numSectors
  dataSectors : ∀ s ∈ h.dataSectors, IsInt s

theorem Fits.mem {h : FileHeader} (hf : h.Fits) :
    ∀ x ∈ h.numBytes :: h.numSectors :: h.dataSectors, IsInt x := by
  simp only [List.mem_cons, forall_eq_or_imp]
  exact ⟨hf.numBytes, hf.numSectors, hf.dataSectors⟩

theorem Fits.length_encode {h : FileHeader} (hf : h.Fits) : h.encode.length = sectorSize := by
  rw [encode, Codec.length_encodeAll int_lawful hf.mem]
  simp [hf.length, numDirect, sectorSize, int]

/-- The round trip of a header. -/
theorem Fits.decode_encode {h : FileHeader} (hf : h.Fits) : decode h.encode = h := by
  have hrt := Codec.decodeAll_encodeAll int_lawful hf.mem
  rw [List.length_cons, List.length_cons, hf.length] at hrt
  simp only [Codec.decodeAll, List.cons.injEq] at hrt
  obtain ⟨h₁, h₂, h₃⟩ := hrt
  cases h
  simp only [decode, mk.injEq]
  refine ⟨h₁, h₂, ?_⟩
  rw [List.drop_drop] at h₃
  exact h₃

theorem fits_decode {bs : List Byte} (h : bs.length = sectorSize) : (decode bs).Fits where
  length := Codec.length_decodeAll _ _
  numBytes := int_lawful.ok _ (by simp [h, sectorSize, int])
  numSectors := int_lawful.ok _ (by simp [h, sectorSize, int])
  dataSectors _ hs := Codec.ok_of_mem_decodeAll int_lawful
    (by simp [h, sectorSize, int, numDirect]) hs

end FileHeader

@[simp] theorem Fresh.length_take (m : Fresh) (n : Nat) : (m.take n).length = n := by
  simp [Fresh.take]

/-! ## Sectors of a file -/

theorem Disk.length_sector (d : Disk) (i : Nat) : (d.sector i).length = sectorSize := by
  simp [Disk.sector]

theorem Disk.readSector_eq (d : Disk) {i : Nat} (h : i < numSectors) :
    d.readSector i = .ok (d.sector i) := by
  unfold readSector
  rw [assert_of (by omega)]
  rfl

theorem Disk.writeSector_eq (d : Disk) {i : Nat} (h : i < numSectors) {data : List Byte}
    (hd : sectorSize ≤ data.length) : d.writeSector i data =
      .ok fun j o => if j = i then data.getD o (d j o) else d j o := by
  unfold writeSector
  rw [assert_of (by omega), ok_bind, defined_of hd]
  rfl

namespace FileHeader

/-- The numbers of the data sectors. -/
def blocks (h : FileHeader) : List Nat := h.sectors.map Int.toNat

/-- The header of a file. -/
structure Ok (h : FileHeader) : Prop where
  size : h.numBytes ≤ maxFileSize
  count : h.numSectors.toNat = divRoundUp h.numBytes.toNat sectorSize
  length : h.dataSectors.length = numDirect
  bound : ∀ s ∈ h.sectors, 0 ≤ s ∧ s < Nachos.numSectors

variable {h : FileHeader} {d : Disk}

theorem divRoundUp_le {n : Nat} (h : n ≤ maxFileSize) : divRoundUp n sectorSize ≤ numDirect := by
  have h : n ≤ 30 * 128 := h
  change n / 128 + (if n % 128 > 0 then 1 else 0) ≤ 30
  split <;> omega

theorem Ok.length_blocks (hok : h.Ok) :
    h.blocks.length = divRoundUp h.numBytes.toNat sectorSize := by
  have h₁ := hok.count
  have h₂ := hok.size
  have h₃ := hok.length
  have h₄ := divRoundUp_le (n := h.numBytes.toNat) (by omega)
  simp only [blocks, sectors, List.length_map, List.length_take]
  omega

theorem Ok.le_blocks (hok : h.Ok) : h.numBytes.toNat ≤ h.blocks.length * sectorSize := by
  rw [hok.length_blocks]
  unfold divRoundUp sectorSize
  split <;> omega

/-- A byte of the file is in one of its sectors. -/
theorem Ok.lt_blocks (hok : h.Ok) {p : Nat} (hp : p < h.numBytes.toNat) :
    p / sectorSize < h.blocks.length := by
  have := hok.le_blocks
  unfold sectorSize at *
  omega

theorem Ok.byteToSector_eq (hok : h.Ok) {i : Nat} (hi : i < h.blocks.length) :
    h.byteToSector ((i : Int) * sectorSize) = .ok (h.blocks[i] : Int) ∧
      h.blocks[i] < Nachos.numSectors := by
  have hlen : i < h.sectors.length := by simpa [blocks] using hi
  have hlt : i < h.dataSectors.length := by
    rw [sectors, List.length_take] at hlen
    omega
  have hget : h.dataSectors[i] = h.sectors[i] := by simp [sectors]
  have hb := hok.bound _ (List.getElem_mem hlen)
  have htdiv : ((i : Int) * sectorSize).tdiv sectorSize = i := Int.mul_tdiv_cancel _ (by decide)
  refine ⟨?_, by simp only [blocks, List.getElem_map]; omega⟩
  unfold byteToSector
  simp only [htdiv]
  rw [defined_of ⟨Int.natCast_nonneg i, Int.ofNat_lt.mpr hlt⟩]
  simp only [ok_bind, pure_eq_ok, Int.toNat_natCast, List.getD_eq_getElem _ _ hlt, hget, blocks,
    List.getElem_map, Int.toNat_of_nonneg hb.1]

theorem byteToSector_congr {i j : Int} (hij : i.tdiv sectorSize = j.tdiv sectorSize) :
    h.byteToSector i = h.byteToSector j := by
  unfold byteToSector
  rw [hij]

/-- The sector of a byte. -/
theorem Ok.byteToSector_offset (hok : h.Ok) {p : Nat} (hp : p < h.numBytes.toNat) :
    ∃ hlt : p / sectorSize < h.blocks.length, h.byteToSector p = .ok (h.blocks[p / sectorSize] : Int) := by
  have hlt := hok.lt_blocks hp
  refine ⟨hlt, ?_⟩
  rw [← (hok.byteToSector_eq hlt).1]
  refine byteToSector_congr ?_
  rw [Int.mul_tdiv_cancel _ (by decide), Int.ofNat_tdiv]

theorem Ok.readSectors_eq (hok : h.Ok) {i k : Nat} (hk : i + k ≤ h.blocks.length) :
    h.readSectors d i k = .ok (Blocks.read sectorSize d ((h.blocks.drop i).take k)) := by
  induction k generalizing i with
  | zero => simp [readSectors, Blocks.read]
  | succ k ih =>
    obtain ⟨hs, hb⟩ := hok.byteToSector_eq (i := i) (by omega)
    have hrest := ih (i := i + 1) (by omega)
    rw [Nat.cast_succ] at hrest
    rw [readSectors, hs, ok_bind, d.readSector_eq hb, ok_bind, hrest, ok_bind,
      List.drop_eq_getElem_cons (show i < h.blocks.length by omega), List.take_succ_cons]
    rfl

theorem Ok.writeSectors_eq (hok : h.Ok) {i k : Nat} {buf : List Byte} (hk : i + k ≤ h.blocks.length)
    (hbuf : buf.length = k * sectorSize) :
    h.writeSectors d i buf k = .ok (Blocks.write sectorSize d ((h.blocks.drop i).take k) buf) := by
  induction k generalizing i d buf with
  | zero => simp [writeSectors, Blocks.write]
  | succ k ih =>
    obtain ⟨hs, hb⟩ := hok.byteToSector_eq (i := i) (by omega)
    rw [Nat.succ_mul] at hbuf
    have htake : sectorSize ≤ (buf.take sectorSize).length := by rw [List.length_take]; omega
    have hdrop : (buf.drop sectorSize).length = k * sectorSize := by rw [List.length_drop]; omega
    have hw := d.writeSector_eq hb htake
    have hrest := ih (i := i + 1)
      (d := fun j o => if j = h.blocks[i] then (buf.take sectorSize).getD o (d j o) else d j o)
      (by omega) hdrop
    rw [Nat.cast_succ] at hrest
    rw [writeSectors, hs, ok_bind, hw, ok_bind, hrest, List.drop_eq_getElem_cons (show i < h.blocks.length by omega),
      List.take_succ_cons]
    rfl

end FileHeader

/-! ## Allocation -/

/-- The bits `xs` of `b` become `v` in `b'`. -/
structure Bitmap.Puts (b b' : Bitmap) (xs : List Nat) (v : Bool) : Prop where
  numBits : b'.numBits = b.numBits
  length : b'.map.length = b.map.length
  bit : ∀ j, b'.bit j = if j ∈ xs then v else b.bit j

namespace Bitmap.Puts

variable {b b₁ b' : Bitmap} {xs : List Nat} {v : Bool}

theorem refl (b : Bitmap) (v : Bool) : b.Puts b [] v := ⟨rfl, rfl, fun _ => by simp⟩

theorem wf (h : b.Puts b' xs v) (hw : b.Wf) : b'.Wf := by
  unfold Wf at *
  rw [h.numBits, h.length]
  exact hw

theorem put (hw : b.Wf) (h : b.Puts b₁ xs v) {i : Nat} (hi : i < b.numBits) :
    b.Puts (b₁.put i v) (i :: xs) v := by
  refine ⟨h.numBits, (length_put ..).trans h.length, fun j => ?_⟩
  rw [bit_put ((h.wf hw).lt (h.numBits ▸ hi)), h.bit]
  by_cases e : j = i
  · simp [e]
  · simp [e]

/-- The free bits after free ones were set. -/
theorem card (h : b.Puts b' xs true) (hnd : xs.Nodup) (hxs : ∀ x ∈ xs, x ∈ b.free) :
    b'.free.card = b.free.card - xs.length := by
  have hfree : b'.free = b.free \ xs.toFinset := by
    ext j
    rw [Finset.mem_sdiff, List.mem_toFinset, mem_free, mem_free, h.numBits, h.bit]
    by_cases hj : j ∈ xs <;> simp [hj]
  rw [hfree, Finset.card_sdiff_of_subset fun x hx => hxs x (List.mem_toFinset.mp hx),
    List.toFinset_card_of_nodup hnd]

/-- One bit, and then others. -/
theorem cons (hw : b.Wf) {i : Nat} (hi : i < b.numBits) (h : (Bitmap.put b i v).Puts b' xs v) :
    b.Puts b' (i :: xs) v := by
  refine ⟨h.numBits, h.length.trans (length_put ..), fun j => ?_⟩
  rw [h.bit, bit_put (hw.lt hi)]
  by_cases e : j = i
  · simp [e]
  · simp [e]

end Bitmap.Puts

namespace FileHeader

variable {h : FileHeader} {b : Bitmap}

/-- The sectors that `Allocate` takes. -/
theorem allocateFrom_eq (hw : b.Wf) {i n : Nat} (hn : n ≤ b.free.card)
    (hi : i + n ≤ h.dataSectors.length) : ∃ (xs : List Nat) (b' : Bitmap),
      h.allocateFrom b i n = .ok ({ h with
        dataSectors := h.dataSectors.take i ++ xs.map Int.ofNat ++ h.dataSectors.drop (i + n) }, b') ∧
      xs.length = n ∧ xs.Nodup ∧ (∀ x ∈ xs, x ∈ b.free) ∧ b.Puts b' xs true := by
  induction n generalizing i h b with
  | zero =>
    refine ⟨[], b, ?_, rfl, List.nodup_nil, by simp, .refl b true⟩
    simp [allocateFrom]
  | succ n ih =>
    rcases Bitmap.findAndSet_cases hw with ⟨k, hk, -, hfree, hb⟩ | ⟨hfull, -⟩
    · have hmem : k ∈ b.free := Bitmap.mem_free.mpr ⟨hk, hfree⟩
      have hcard : n ≤ (b.put k true).free.card := by
        rw [Bitmap.free_put_true hw hk, Finset.card_erase_of_mem hmem]
        omega
      obtain ⟨xs, b', hx, hlen, hnd, hxs, hputs⟩ :=
        ih (h := { h with dataSectors := h.dataSectors.set i k }) (hw.put k true) (i := i + 1) hcard
          (by rw [List.length_set]; omega)
      have hlt : i < h.dataSectors.length := by omega
      refine ⟨k :: xs, b', ?_, by simp [hlen], ?_, ?_, .cons hw hk hputs⟩
      · rw [allocateFrom, hb, ok_bind]
        simp only [defined_of hlt, ok_bind, assert_of (show (k : Int) ≥ 0 by omega), hx]
        congr 3
        rw [List.drop_set_of_lt (by omega), List.take_succ_eq_append_getElem (by simpa using hlt),
          List.take_set_of_le (Nat.le_refl i), List.getElem_set_self,
          show i + 1 + n = i + (n + 1) by omega]
        simp
      · refine List.nodup_cons.mpr ⟨fun hc => ?_, hnd⟩
        have := hxs k hc
        rw [Bitmap.free_put_true hw hk] at this
        exact Finset.notMem_erase _ _ this
      · intro x hx
        rcases List.mem_cons.mp hx with rfl | hx
        · exact hmem
        · have := hxs x hx
          rw [Bitmap.free_put_true hw hk] at this
          exact Finset.mem_of_mem_erase this
    · rw [Bitmap.free_eq_empty hfull, Finset.card_empty] at hn
      omega

/-- The array of the header has no place for the next sector. -/
theorem allocateFrom_undefined (hw : b.Wf) {i n : Nat} (hn : n ≤ b.free.card)
    (hi : i ≤ h.dataSectors.length) (hlen : h.dataSectors.length < i + n) :
    h.allocateFrom b i n = .error .undefined := by
  induction n generalizing i h b with
  | zero => omega
  | succ n ih =>
    rcases Bitmap.findAndSet_cases hw with ⟨k, hk, -, hfree, hb⟩ | ⟨hfull, -⟩
    · rw [allocateFrom, hb, ok_bind]
      by_cases hlt : i < h.dataSectors.length
      · have hcard : n ≤ (b.put k true).free.card := by
          rw [Bitmap.free_put_true hw hk, Finset.card_erase_of_mem (Bitmap.mem_free.mpr ⟨hk, hfree⟩)]
          omega
        simp only [defined_of hlt, ok_bind, assert_of (show (k : Int) ≥ 0 by omega)]
        exact ih (h := { h with dataSectors := h.dataSectors.set i k }) (hw.put k true) hcard
          (by rw [List.length_set]; omega) (by rw [List.length_set]; omega)
      · simp only [defined, if_neg hlt, error_bind]
    · exact absurd hn (by rw [Bitmap.free_eq_empty hfull, Finset.card_empty]; omega)

/-- `h` is the header of a new file of `size` bytes in the free sectors `xs`. -/
structure Allocated (b b' : Bitmap) (size : Int) (h : FileHeader) (xs : List Nat) : Prop where
  fits : h.Fits
  ok : h.Ok
  numBytes : h.numBytes = size
  sectors : h.sectors = xs.map Int.ofNat
  length : xs.length = divRoundUp size.toNat sectorSize
  nodup : xs.Nodup
  free : ∀ x ∈ xs, x ∈ b.free
  puts : b.Puts b' xs true

theorem Allocated.blocks {b' : Bitmap} {size : Int} {xs : List Nat} (ha : Allocated b b' size h xs) :
    h.blocks = xs := by
  rw [FileHeader.blocks, ha.sectors, List.map_map]
  exact List.map_id xs

/-- The number of sectors that the code computes for a size. -/
theorem sectors_cases {size c : Int}
    (hc : c = size.tdiv sectorSize + if size.tmod sectorSize > 0 then 1 else 0) :
    c = divRoundUp size.toNat sectorSize ∨ size < 0 ∧ size ≤ c ∧ c ≤ 0 := by
  by_cases h0 : size < 0
  · obtain ⟨n, hn⟩ := Int.eq_ofNat_of_zero_le (show 0 ≤ -size by omega)
    obtain rfl : size = -n := by omega
    right
    rw [Int.neg_tdiv, Int.neg_tmod, ← Int.ofNat_tdiv, ← Int.ofNat_tmod, if_neg (by omega)] at hc
    obtain ⟨q, hq⟩ : ∃ q, q = n / sectorSize := ⟨_, rfl⟩
    have hle : q ≤ n := hq ▸ Nat.div_le_self n sectorSize
    rw [← hq] at hc
    omega
  · obtain ⟨n, rfl⟩ := Int.eq_ofNat_of_zero_le (show 0 ≤ size by omega)
    left
    rw [hc, ← Int.ofNat_tdiv, ← Int.ofNat_tmod, Int.toNat_natCast]
    unfold divRoundUp
    split <;> split <;> omega

/-- `Allocate` succeeds if there are enough free sectors, and a place in the
header for each. -/
theorem allocate_cases (hw : b.Wf) (hnum : b.numBits = Nachos.numSectors) (hf : h.Fits) (size : Int)
    (hsize : IsInt size) :
    (b.free.card < divRoundUp size.toNat sectorSize ∧
      ∃ h', h.allocate b size = .ok (false, h', b)) ∨
    divRoundUp size.toNat sectorSize ≤ b.free.card ∧
      ((size ≤ maxFileSize ∧ ∃ h' b' xs, h.allocate b size = .ok (true, h', b') ∧
        Allocated b b' size h' xs) ∨
      (maxFileSize < size ∧ h.allocate b size = .error .undefined)) := by
  have hlen := hf.length
  have hdir : numDirect = 30 := rfl
  have hmax : maxFileSize = 30 * 128 := rfl
  have hsec : sectorSize = 128 := rfl
  obtain ⟨c, hc⟩ : ∃ c : Int, c = size.tdiv sectorSize + if size.tmod sectorSize > 0 then 1 else 0 :=
    ⟨_, rfl⟩
  have hcases := sectors_cases hc
  obtain ⟨k, hk⟩ : ∃ k, k = divRoundUp size.toNat sectorSize := ⟨_, rfl⟩
  have hkc : c.toNat = k := by
    rcases hcases with he | ⟨h0, -, hle⟩
    · omega
    · rw [hk, Int.toNat_of_nonpos (by omega), Int.toNat_of_nonpos (by omega)]
      rfl
  -- The size and the number of sectors, for `omega`.
  have hround : size.toNat ≤ k * 128 ∧ k * 128 < size.toNat + 128 := by
    rw [hk, hsec]
    unfold divRoundUp
    split <;> omega
  have hint : IsInt c := by
    unfold IsInt at *
    omega
  unfold allocate
  simp only [← hc, Bitmap.numClear_eq, ok_bind, ← hk]
  by_cases hlt : b.free.card < k
  · rw [if_pos (by omega)]
    exact .inl ⟨hlt, _, rfl⟩
  rw [if_neg (by omega), hkc]
  refine .inr ⟨by omega, ?_⟩
  by_cases hle : size ≤ maxFileSize
  case neg =>
    refine .inr ⟨by omega, ?_⟩
    rw [allocateFrom_undefined hw (Nat.le_of_not_lt hlt) (by simp only; omega) (by simp only; omega)]
    rfl
  obtain ⟨xs, b', hx, hxs, hnd, hfree, hputs⟩ := allocateFrom_eq
    (h := { h with numBytes := size, numSectors := c }) hw (i := 0) (Nat.le_of_not_lt hlt)
    (by simp only; omega)
  rw [Nat.zero_add, List.take_zero, List.nil_append] at hx
  have hbound : ∀ s ∈ xs.map Int.ofNat, 0 ≤ s ∧ s < Nachos.numSectors := by
    intro s hs
    obtain ⟨x, hx, rfl⟩ := List.mem_map.mp hs
    have := (Bitmap.mem_free.mp (hfree x hx)).1
    exact ⟨Int.natCast_nonneg x, Int.ofNat_lt.mpr (hnum ▸ this)⟩
  have hsectors : (xs.map Int.ofNat ++ h.dataSectors.drop k).take k = xs.map Int.ofNat := by
    rw [List.take_append_of_le_length (by simp [hxs]), List.take_of_length_le (by simp [hxs])]
  refine .inl ⟨hle, _, b', xs, by rw [hx, ok_bind]; rfl, ?_⟩
  constructor
  case fits =>
    refine ⟨by simp [hxs]; omega, hsize, hint, fun s hs => ?_⟩
    rcases List.mem_append.mp hs with hs | hs
    · have hb := hbound s hs
      have : Nachos.numSectors = 1024 := rfl
      unfold IsInt
      omega
    · exact hf.dataSectors s (List.mem_of_mem_drop hs)
  case ok =>
    refine ⟨hle, hkc.trans hk, by simp [hxs]; omega, ?_⟩
    simpa [FileHeader.sectors, hkc, hsectors] using hbound
  case numBytes => rfl
  case sectors => simpa [FileHeader.sectors, hkc] using hsectors
  case length => exact hxs.trans hk
  case nodup => exact hnd
  case free => exact hfree
  case puts => exact hputs

/-- `Deallocate` clears the sectors of the file, which are all marked. -/
theorem Ok.deallocateFrom_eq (hok : h.Ok) (hw : b.Wf) (hnum : b.numBits = Nachos.numSectors)
    (hnd : h.blocks.Nodup) {i n : Nat} (hn : i + n = h.blocks.length)
    (hbit : ∀ x ∈ h.blocks.drop i, b.bit x = true) :
    ∃ b', h.deallocateFrom b i n = .ok b' ∧ b.Puts b' (h.blocks.drop i) false := by
  induction n generalizing i b with
  | zero =>
    refine ⟨b, rfl, ?_⟩
    rw [List.drop_of_length_le (by omega)]
    exact .refl b false
  | succ n ih =>
    have hi : i < h.blocks.length := by omega
    have hlen : i < h.sectors.length := by simpa [blocks] using hi
    have hds : i < h.dataSectors.length := by
      rw [sectors, List.length_take] at hlen
      omega
    have hs := hok.bound _ (List.getElem_mem hlen)
    have hget : h.dataSectors[i] = (h.blocks[i] : Int) := by
      simp only [blocks, List.getElem_map, Int.toNat_of_nonneg hs.1]
      simp [sectors]
    have hlt : h.blocks[i] < b.numBits := by
      simp only [blocks, List.getElem_map, hnum]
      omega
    have hdrop := List.drop_eq_getElem_cons hi
    have hcons := List.nodup_cons.mp (hdrop ▸ hnd.sublist (List.drop_sublist i h.blocks))
    have hrest : ∀ x ∈ h.blocks.drop (i + 1), (b.put h.blocks[i] false).bit x = true := by
      intro x hx
      rw [Bitmap.bit_put (hw.lt hlt), if_neg fun (hc : x = h.blocks[i]) => hcons.1 (hc ▸ hx)]
      exact hbit x (hdrop ▸ List.mem_cons_of_mem _ hx)
    obtain ⟨b', hx, hputs⟩ := ih (hw.put _ false) hnum (by omega) hrest
    refine ⟨b', ?_, hdrop ▸ .cons hw hlt hputs⟩
    rw [deallocateFrom, defined_of hds, ok_bind]
    simp only [List.getD_eq_getElem _ _ hds, hget]
    rw [Bitmap.test_eq b hlt, ok_bind, hbit _ (hdrop ▸ List.mem_cons_self), assert_of rfl, ok_bind,
      Bitmap.clear_eq hw hlt, ok_bind, hx]

theorem Ok.deallocate_eq (hok : h.Ok) (hw : b.Wf) (hnum : b.numBits = Nachos.numSectors)
    (hnd : h.blocks.Nodup) (hbit : ∀ x ∈ h.blocks, b.bit x = true) :
    ∃ b', h.deallocate b = .ok b' ∧ b.Puts b' h.blocks false := by
  have hlen : h.numSectors.toNat = h.blocks.length := by
    rw [hok.count, hok.length_blocks]
  obtain ⟨b', hx, hputs⟩ := hok.deallocateFrom_eq hw hnum hnd (i := 0) (n := h.blocks.length)
    (by omega) (by simpa using hbit)
  exact ⟨b', by rw [deallocate, hlen, hx], by simpa using hputs⟩

end FileHeader

end Nachos
