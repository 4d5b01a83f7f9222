import Nachos.Proof.Filesys.OpenFile

/-!
# Requests of any kind

`ReadAt` and `WriteAt` check that a request is for some bytes and starts before
the end of the file. They do not check that it starts behind the beginning,
nor that its end is an `int`: these are the requests that leave the file
(`staysInside_iff`).
-/

namespace Nachos

open Framework

namespace FileHeader

variable {h : FileHeader} {d : Disk}

/-- `b` is `ByteToSector(i * SectorSize)` for a sector `i` of the file. -/
def Data (h : FileHeader) (b : Int) : Prop :=
  ∃ i : Nat, i < divRoundUp h.numBytes.toNat sectorSize ∧ h.byteToSector ((i : Int) * sectorSize) = .ok b

theorem Ok.data_iff (hok : h.Ok) {b : Nat} : h.Data b ↔ b ∈ h.blocks := by
  unfold Data
  rw [← hok.length_blocks]
  constructor
  · rintro ⟨i, hi, hb⟩
    rw [(hok.byteToSector_eq hi).1] at hb
    have : h.blocks[i] = b := by
      simp only [Except.ok.injEq] at hb
      omega
    exact this ▸ List.getElem_mem hi
  · intro hb
    obtain ⟨i, hi, rfl⟩ := List.mem_iff_getElem.mp hb
    exact ⟨i, hi, (hok.byteToSector_eq hi).1⟩

/-- There is no sector before the first one. -/
theorem byteToSector_negative {i : Int} (hi : i < 0) :
    h.byteToSector (i * sectorSize) = .error .undefined := by
  unfold byteToSector
  simp only [Int.mul_tdiv_cancel i (show (sectorSize : Int) ≠ 0 by decide)]
  simp only [defined, if_neg (show ¬ (0 ≤ i ∧ i < h.dataSectors.length) by omega), error_bind]

theorem readSectors_negative {i : Int} (hi : i < 0) (n : Nat) :
    h.readSectors d i (n + 1) = .error .undefined := by
  rw [readSectors, byteToSector_negative hi, error_bind]

theorem writeSectors_negative {i : Int} (hi : i < 0) (n : Nat) (buf : List Byte) :
    h.writeSectors d i buf (n + 1) = .error .undefined := by
  rw [writeSectors, byteToSector_negative hi, error_bind]

end FileHeader

namespace OpenFile

variable {f f' : OpenFile} {d d' : Disk} {numBytes position : Int}

/-- A count that may be returned. -/
def InRange (f : OpenFile) (numBytes position count : Int) : Prop :=
  count = 0 ∨ 1 ≤ count ∧ count ≤ f.hdr.fileLength - position ∧ count ≤ numBytes

/-- Another disk with the same file: its length, its sectors and what they
hold. The other entries of the header, and the other sectors, may be different. -/
structure Agrees (f : OpenFile) (d : Disk) (f' : OpenFile) (d' : Disk) : Prop where
  ok : f'.hdr.Ok
  numBytes : f'.hdr.numBytes = f.hdr.numBytes
  byteToSector : ∀ i : Nat, i < divRoundUp f.hdr.numBytes.toNat sectorSize →
    f'.hdr.byteToSector ((i : Int) * sectorSize) = f.hdr.byteToSector ((i : Int) * sectorSize)
  data : ∀ b : Nat, f.hdr.Data b → d' b = d b

/-- The two calls return, with a count in range. They use the sectors of the
file and no others, and store to no others. -/
structure StaysInside (f : OpenFile) (d : Disk) (numBytes position : Int) : Prop where
  read : ∃ bs : List Byte, f.readAt d numBytes position = .ok bs ∧
    f.InRange numBytes position bs.length ∧
    ∀ (f' : OpenFile) (d' : Disk), f.Agrees d f' d' → f'.readAt d' numBytes position = .ok bs
  write : ∀ (m : Fresh) (src : List Byte), numBytes ≤ src.length → ∃ (d₁ : Disk) (count : Int),
    f.writeAt d m src numBytes position = .ok (d₁, count) ∧ f.InRange numBytes position count ∧
    (∀ b : Nat, ¬ f.hdr.Data b → d₁ b = d b) ∧
    ∀ (f' : OpenFile) (d' : Disk), f.Agrees d f' d' → ∃ d₁' : Disk,
      f'.writeAt d' m src numBytes position = .ok (d₁', count) ∧
      ∀ b : Nat, f.hdr.Data b → d₁' b = d₁ b

/-! ## Requests that leave the file -/

/-- A request in the file, of which the buffer and the sectors are there. -/
theorem position_nonneg {m firstSector : Int} (hm : 0 < m)
    (hfirst : firstSector = position.tdiv sectorSize) (h0 : 0 ≤ position - firstSector * sectorSize)
    (hn : 0 ≤ firstSector ∨
      (1 + (position + m - 1).tdiv sectorSize - firstSector).toNat = 0) : 0 ≤ position := by
  by_contra hneg
  have hle : position.tdiv sectorSize ≤ (position + m - 1).tdiv sectorSize :=
    Int.tdiv_le_tdiv (by decide) (by omega)
  obtain ⟨k, hk⟩ := Int.eq_ofNat_of_zero_le (show 0 ≤ -position by omega)
  obtain rfl : position = -k := by omega
  rw [Int.neg_tdiv, ← Int.ofNat_tdiv] at hfirst hle
  obtain ⟨q, hq⟩ : ∃ q, q = k / sectorSize := ⟨_, rfl⟩
  rw [← hq] at hfirst hle
  subst hfirst
  rcases hn with hn | hn
  · obtain rfl : q = 0 := by omega
    simp only [Nat.cast_zero, neg_zero, zero_mul, sub_zero] at h0
    omega
  · omega

/-- The part of a request inside the file. -/
theorem clamp_ok {m : Int} (hn : 0 < numBytes) (hpos : position < f.hdr.fileLength)
    (h : f.clamp numBytes position = .ok m) : 0 < m ∧ position + numBytes < 2 ^ 31 := by
  unfold clamp at h
  obtain ⟨last, hlast, h⟩ := bind_eq_ok.mp h
  unfold i32 at hlast
  obtain ⟨_, hd, hlast⟩ := bind_eq_ok.mp hlast
  have hd := defined_eq_ok.mp hd
  simp only [pure_eq_ok, Except.ok.injEq] at h hlast
  subst hlast
  split at h <;> omega

theorem readAt_ok {bs : List Byte} (hn : 0 < numBytes) (hpos : position < f.hdr.fileLength)
    (h : f.readAt d numBytes position = .ok bs) :
    0 ≤ position ∧ position + numBytes < 2 ^ 31 := by
  unfold readAt at h
  rw [if_neg (by omega)] at h
  obtain ⟨m, hm, h⟩ := bind_eq_ok.mp h
  obtain ⟨_, -, h⟩ := bind_eq_ok.mp h
  obtain ⟨buf, hbuf, h⟩ := bind_eq_ok.mp h
  obtain ⟨hm0, hlt⟩ := clamp_ok hn hpos hm
  refine ⟨position_nonneg hm0 rfl ?_ ?_, hlt⟩
  · unfold slice at h
    obtain ⟨_, hd, -⟩ := bind_eq_ok.mp h
    exact (defined_eq_ok.mp hd).1
  · by_contra hc
    obtain ⟨n, hcnt⟩ := Nat.exists_eq_succ_of_ne_zero fun h0 => hc (.inr h0)
    rw [hcnt, FileHeader.readSectors_negative (by omega)] at hbuf
    cases hbuf

theorem writeAt_ok {m : Fresh} {src : List Byte} {r : Disk × Int} (hn : 0 < numBytes)
    (hpos : position < f.hdr.fileLength) (h : f.writeAt d m src numBytes position = .ok r) :
    0 ≤ position ∧ position + numBytes < 2 ^ 31 := by
  unfold writeAt at h
  rw [if_neg (by omega)] at h
  obtain ⟨k, hk, h⟩ := bind_eq_ok.mp h
  obtain ⟨_, -, h⟩ := bind_eq_ok.mp h
  obtain ⟨_, -, h⟩ := bind_eq_ok.mp h
  obtain ⟨_, -, h⟩ := bind_eq_ok.mp h
  obtain ⟨data, -, h⟩ := bind_eq_ok.mp h
  obtain ⟨buf, hcopy, h⟩ := bind_eq_ok.mp h
  obtain ⟨d₁, hd₁, -⟩ := bind_eq_ok.mp h
  obtain ⟨hk0, hlt⟩ := clamp_ok hn hpos hk
  refine ⟨position_nonneg hk0 rfl ?_ ?_, hlt⟩
  · unfold bcopy at hcopy
    obtain ⟨_, hd, -⟩ := bind_eq_ok.mp hcopy
    exact (defined_eq_ok.mp hd).1
  · by_contra hc
    obtain ⟨n, hcnt⟩ := Nat.exists_eq_succ_of_ne_zero fun h0 => hc (.inr h0)
    rw [hcnt, FileHeader.writeSectors_negative (by omega)] at hd₁
    cases hd₁

/-! ## Requests inside -/

theorem Agrees.blocks (h : f.Agrees d f' d') (hok : f.hdr.Ok) : f'.hdr.blocks = f.hdr.blocks := by
  have hlen : f'.hdr.blocks.length = f.hdr.blocks.length := by
    rw [h.ok.length_blocks, hok.length_blocks, h.numBytes]
  refine List.ext_getElem hlen fun i hi hi' => ?_
  have hb := h.byteToSector i (hok.length_blocks ▸ hi')
  rw [(h.ok.byteToSector_eq hi).1, (hok.byteToSector_eq hi').1] at hb
  simp only [Except.ok.injEq] at hb
  omega

theorem Agrees.contents (h : f.Agrees d f' d') (hok : f.hdr.Ok) :
    f'.hdr.contents d' = f.hdr.contents d := by
  have hb : f'.hdr.sectors.map Int.toNat = f.hdr.sectors.map Int.toNat := h.blocks hok
  rw [FileHeader.contents, FileHeader.contents, hb, h.numBytes]
  exact Blocks.contents_congr hok.le_blocks fun b hb => h.data b (hok.data_iff.mpr hb)

theorem Agrees.request (h : f.Agrees d f' d') (hok : f.hdr.Ok) {p k m first cnt : Nat}
    (hr : Request f p k m first cnt) : Request f' p k m first cnt where
  clamp_eq := by
    rw [← hr.clamp_eq, clamp, clamp, FileHeader.fileLength, FileHeader.fileLength, h.numBytes]
  pos := hr.pos
  len := h.numBytes ▸ hr.len
  min_eq := h.numBytes ▸ hr.min_eq
  first_eq := hr.first_eq
  last_eq := hr.last_eq
  low := hr.low
  high := hr.high
  cnt_pos := hr.cnt_pos
  blocks := (h.blocks hok).symm ▸ hr.blocks
  size_eq := hr.size_eq

theorem Agrees.filled (h : f.Agrees d f' d') (hok : f.hdr.Ok) (fresh : Fresh) (p m first n : Nat) :
    f'.filled d' fresh p m first n = f.filled d fresh p m first n := by
  simp only [OpenFile.filled, part, h.contents hok]

/-- `WriteAt` as one step that agrees on both disks. -/
theorem writeAt_agrees (hok : f.hdr.Ok) (h0 : 0 ≤ position) (hn : 0 < numBytes)
    (hpos : position < f.hdr.fileLength) (h31 : position + numBytes < 2 ^ 31) (m : Fresh)
    {src : List Byte} (hsrc : numBytes ≤ src.length) : ∃ (d₁ : Disk) (count : Int),
      f.writeAt d m src numBytes position = .ok (d₁, count) ∧ f.InRange numBytes position count ∧
      (∀ b ∉ f.hdr.blocks, d₁ b = d b) ∧
      ∀ (f' : OpenFile) (d' : Disk), f.Agrees d f' d' → ∃ d₁' : Disk,
        f'.writeAt d' m src numBytes position = .ok (d₁', count) ∧
        ∀ b ∈ f.hdr.blocks, d₁' b = d₁ b := by
  obtain ⟨p, rfl⟩ := Int.eq_ofNat_of_zero_le h0
  obtain ⟨k, rfl⟩ := Int.eq_ofNat_of_zero_le (show 0 ≤ numBytes by omega)
  unfold FileHeader.fileLength at hpos
  obtain ⟨c, first, cnt, hr⟩ := request hok (k := k) (p := p) (by omega) (by omega) (by omega)
  obtain ⟨n, rfl⟩ : ∃ n, cnt = n + 1 := ⟨cnt - 1, by have := hr.cnt_pos; omega⟩
  have hlen := hr.len
  have hpos' := hr.pos
  refine ⟨_, c, writeAt_request hok hr (by omega) (by omega) (by omega) m, .inr ⟨by omega, ?_, ?_⟩,
    fun b hb => ?_, fun f' d' h => ⟨_, writeAt_request h.ok (h.request hok hr) (by omega)
      (by rw [h.numBytes]; omega) (by omega) m, fun b hb => ?_⟩⟩
  · unfold FileHeader.fileLength
    omega
  · rcases hr.min_eq with rfl | ⟨-, hle⟩ <;> omega
  · exact Blocks.write_of_not_mem fun hm => hb (List.mem_of_mem_drop (List.mem_of_mem_take hm))
  · rw [h.blocks hok, h.filled hok]
    exact Blocks.write_congr (h.data b (hok.data_iff.mpr hb))

/-- The requests that both calls serve as they should. -/
def Served (f : OpenFile) (numBytes position : Int) : Prop :=
  numBytes ≤ 0 ∨ f.hdr.fileLength ≤ position ∨ 0 ≤ position ∧ position + numBytes < 2 ^ 31

instance (f : OpenFile) (numBytes position : Int) : Decidable (f.Served numBytes position) :=
  inferInstanceAs (Decidable (_ ∨ _))

/-- A request that is for no byte of the file. -/
theorem staysInside_of_none (h : numBytes ≤ 0 ∨ f.hdr.fileLength ≤ position) :
    f.StaysInside d numBytes position := by
  have hsame : ∀ f' d', f.Agrees d f' d' → numBytes ≤ 0 ∨ position ≥ f'.hdr.fileLength := by
    intro f' d' hf
    unfold FileHeader.fileLength at *
    rw [hf.numBytes]
    exact h
  refine ⟨⟨[], ?_, .inl rfl, fun f' d' hf => ?_⟩, fun m src _ => ⟨d, 0, ?_, .inl rfl, fun _ _ => rfl,
    fun f' d' hf => ⟨d', ?_, fun b hb => hf.data b hb⟩⟩⟩
  · unfold readAt
    rw [if_pos h]
    rfl
  · unfold readAt
    rw [if_pos (hsame f' d' hf)]
    rfl
  · unfold writeAt
    rw [if_pos h]
    rfl
  · unfold writeAt
    rw [if_pos (hsame f' d' hf)]
    rfl

/-- The calls stay inside the file if and only if the request is empty, or
starts behind the end, or starts in the file and its end is an `int`. -/
theorem staysInside_iff (hok : f.hdr.Ok) (d : Disk) (numBytes position : Int) :
    f.StaysInside d numBytes position ↔ f.Served numBytes position := by
  by_cases hnone : numBytes ≤ 0 ∨ f.hdr.fileLength ≤ position
  · refine iff_of_true (staysInside_of_none hnone) ?_
    rcases hnone with h | h
    · exact .inl h
    · exact .inr (.inl h)
  have hn : 0 < numBytes := by omega
  have hpos : position < f.hdr.fileLength := by omega
  constructor
  · intro h
    obtain ⟨bs, hbs, -⟩ := h.read
    exact .inr (.inr (readAt_ok hn hpos hbs))
  · intro h
    obtain ⟨h0, h31⟩ : 0 ≤ position ∧ position + numBytes < 2 ^ 31 := by
      rcases h with h | h | h
      · omega
      · omega
      · exact h
    refine ⟨⟨_, readAt_eq hok h0 (.inl h31), ?_, fun f' d' hf => ?_⟩, fun m src hsrc => ?_⟩
    · have hlen : f.hdr.fileLength = f.hdr.numBytes := rfl
      simp only [List.length_take, List.length_drop, length_contents]
      exact .inr ⟨by omega, by omega, by omega⟩
    · rw [readAt_eq hf.ok h0 (.inl h31), hf.contents hok]
    · obtain ⟨d₁, count, hx, hin, hout, hsame⟩ := writeAt_agrees (d := d) hok h0 hn hpos h31 m hsrc
      refine ⟨d₁, count, hx, hin, fun b hb => hout b fun hm => hb (hok.data_iff.mpr hm),
        fun f' d' hf => ?_⟩
      obtain ⟨d₁', hx', hs⟩ := hsame f' d' hf
      exact ⟨d₁', hx', fun b hb => hs b (hok.data_iff.mp hb)⟩

/-- A file of 200 bytes in the sectors 7 and 9. -/
def twoSectors : OpenFile where
  hdr := ⟨200, 2, [7, 9] ++ List.replicate 28 0⟩
  seekPosition := 0

theorem twoSectors_ok : twoSectors.hdr.Ok :=
  ⟨by decide, by decide, by decide, by decide⟩

/-- The last bytes can be asked for, and more than there are. The byte before
the first one cannot. -/
theorem staysInside_iff_twoSectors :
    twoSectors.StaysInside (fun _ _ => 0) 100 195 ∧ ¬ twoSectors.StaysInside (fun _ _ => 0) 1 (-1) :=
  ⟨(staysInside_iff twoSectors_ok _ _ _).mpr (by decide),
    fun h => absurd ((staysInside_iff twoSectors_ok _ _ _).mp h) (by decide)⟩

/-- The byte in front of the file. -/
theorem not_staysInside_before : ¬ twoSectors.StaysInside (fun _ _ => 0) 1 (-1) := by
  intro h
  obtain ⟨bs, hbs, -⟩ := h.read
  have hx : twoSectors.readAt (fun _ _ => 0) 1 (-1) = .error .undefined := by decide
  rw [hx] at hbs
  cases hbs

end OpenFile

end Nachos
