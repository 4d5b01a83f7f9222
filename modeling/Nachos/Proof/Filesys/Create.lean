import Nachos.Proof.Filesys.Session

/-!
# When `Create` and `Remove` succeed

`Create` returns `FALSE` in the four cases of `Disk.Refuses`, `Remove` if there
is no such file, and then no sector of the disk is changed (`failure_atomic`).
`Create` does not check that the header has a place for each sector of the
file, so the sizes above `MaxFileSize` are those for which it stores behind the
header's array unless it returns `FALSE` (`respectsLimit_iff`).
-/

namespace Nachos

namespace FileSystem

/-- The header `h` of a file of `size` bytes fits its sector, and each byte of
the file is in one of the sectors `new`, in a place that `Allocate` set. -/
structure HasPlaces (h : FileHeader) (size : Int) (new : Finset Nat) : Prop where
  limit : divRoundUp size.toNat sectorSize ≤ numDirect
  length : h.encode.length = sectorSize
  numBytes : h.numBytes = size
  place : ∀ offset : Int, 0 ≤ offset → offset < size →
    offset.tdiv sectorSize < divRoundUp size.toNat sectorSize ∧
    ∃ b : Nat, h.byteToSector offset = .ok (b : Int) ∧ b ∈ new

/-- `Create` stores to the places of the header's array only, and a file that it
makes has its sectors: `Allocate` took them from the free ones. -/
def RespectsLimit (fs : FileSystem) (m : Nat → Fresh) (name : Name) (size : Int) : Prop :=
  fs.create m name size ≠ .error .undefined ∧
  ∀ fs' : FileSystem, fs.create m name size = .ok (fs', true) → ∃ e ∈ fs'.disk.live,
    e.key = name.key ∧ HasPlaces (fs'.disk.header e.sector) size
      ((fs.disk.freeMap.free \ fs'.disk.freeMap.free).erase e.sector.toNat)

variable {fs : FileSystem} {m : Nat → Fresh} {name : Name} {size : Int}

/-- The header that `Allocate` made. -/
theorem hasPlaces {b b' : Bitmap} {hdr : FileHeader} {xs : List Nat} (hmax : size ≤ maxFileSize)
    (h : FileHeader.Allocated b b' size hdr xs) : HasPlaces hdr size xs.toFinset where
  limit := FileHeader.divRoundUp_le (by omega)
  length := h.fits.length_encode
  numBytes := h.numBytes
  place offset h0 hlt := by
    obtain ⟨p, rfl⟩ := Int.eq_ofNat_of_zero_le h0
    obtain ⟨hp, hb⟩ := h.ok.byteToSector_offset (p := p) (by rw [h.numBytes]; omega)
    refine ⟨?_, _, hb, ?_⟩
    · rw [h.ok.length_blocks, h.numBytes] at hp
      rw [← Int.ofNat_tdiv]
      exact Int.ofNat_lt.mpr hp
    · rw [List.mem_toFinset, ← h.blocks]
      exact List.getElem_mem hp

/-- The sectors that were free before and are not after. -/
theorem taken {b b' : Bitmap} {hdr : FileHeader} {xs : List Nat} {k : Nat} (hwf : b.Wf)
    (hk : k ∈ b.free) (h : FileHeader.Allocated (b.put k true) b' size hdr xs) :
    xs.toFinset = (b.free \ b'.free).erase k := by
  have hlt := (Bitmap.mem_free.mp hk).1
  ext x
  rw [List.mem_toFinset, Finset.mem_erase, Finset.mem_sdiff]
  constructor
  · intro hx
    have hfree := h.free x hx
    rw [Bitmap.free_put_true hwf hlt, Finset.mem_erase] at hfree
    refine ⟨hfree.1, hfree.2, fun hc => ?_⟩
    have hbit := (Bitmap.mem_free.mp hc).2
    rw [h.puts.bit, if_pos hx] at hbit
    cases hbit
  · rintro ⟨hne, hb, hb'⟩
    by_contra hx
    refine hb' (Bitmap.mem_free.mpr ⟨?_, ?_⟩)
    · rw [h.puts.numBits]
      exact (Bitmap.mem_free.mp hb).1
    · rw [h.puts.bit, if_neg hx, Bitmap.bit_put (hwf.lt hlt), if_neg hne]
      exact (Bitmap.mem_free.mp hb).2

theorem Ok.respects_iff (h : fs.Ok) (m : Nat → Fresh) (name : Name) (hsize : IsInt size) :
    fs.RespectsLimit m name size ↔ size ≤ maxFileSize ∨ fs.disk.Refuses name size := by
  rcases h.create_cases m name size hsize with
    ⟨hno, hx⟩ | ⟨hno, ⟨hmax, d', e, xs, hx, -, hk, hlive, -, hfree, hspec⟩ | ⟨hmax, hx⟩⟩
  · refine iff_of_true ⟨?_, fun fs' hx' => ?_⟩ (.inr hno)
    · rw [hx]
      simp
    · rw [hx] at hx'
      cases hx'
  · refine iff_of_true ⟨?_, fun fs' hx' => ?_⟩ (.inl hmax)
    · rw [hx]
      simp
    · rw [hx] at hx'
      cases hx'
      refine ⟨e, hlive.mem_iff.mpr List.mem_cons_self, hk, ?_⟩
      rw [← taken (Disk.Ok.freeMap_wf fs.disk) hfree hspec]
      exact hasPlaces hmax hspec
  · refine iff_of_false (fun hr => hr.1 hx) ?_
    rintro (hle | hr)
    · omega
    · exact hno hr

end FileSystem

namespace Session

variable {s : Session}

/-- A formatted disk is one that a run starts with. -/
theorem exists_formatted (m : Nat → Fresh) (d : Disk) : ∃ s : Session, anySystem.Reachable s ∧
    s.handles = [] ∧ FileSystem.format m d = .ok s.fs ∧ s.fs.disk.live = [] := by
  obtain ⟨fs, hf, -, hlive⟩ := FileSystem.format_ok m d
  exact ⟨⟨fs, []⟩, .init ⟨rfl, m, d, hf⟩, rfl, hf, hlive⟩

/-- A disk without files refuses only what is larger than it. -/
theorem not_refuses {d : Disk} (h : d.Ok) (hlive : d.live = []) (name : Name) {size : Int}
    (hsize : divRoundUp size.toNat sectorSize ≤ 1018) : ¬ d.Refuses name size := by
  have hsys := h.system
  have hmap : (d.header freeMapSector).sectors.length = 1 := by
    have := hsys.map.length_blocks
    rwa [FileHeader.blocks, List.length_map, hsys.mapBytes] at this
  have hdir : (d.header directorySector).sectors.length = 2 := by
    have := hsys.dir.length_blocks
    rwa [FileHeader.blocks, List.length_map, hsys.dirBytes] at this
  have hcard : d.freeMap.free.card = 1019 := by
    rw [h.card_free, Disk.allocated, hlive]
    simp only [List.length_append, List.length_cons, List.length_nil, List.flatMap_nil, hmap, hdir]
    rfl
  rintro (hc | hc | hc | hc)
  · exact hc (Disk.Ok.files_eq_none.mpr fun e he => by rw [hlive] at he; cases he)
  · rw [hc] at hcard
    cases hcard
  · -- The directory has ten entries.
    have hall : d.live = d.table := List.filter_eq_self.mpr hc
    have hlen := Disk.Ok.length_table d
    rw [← hall, hlive] at hlen
    cases hlen
  · omega

/-- A disk with one file. -/
theorem exists_oneFile {size : Int} (hsize : 0 ≤ size ∧ size ≤ maxFileSize) :
    ∃ (s : Session) (e : DirectoryEntry), anySystem.Reachable s ∧ e.key = [97] ∧
      s.fs.disk.live = [e] := by
  obtain ⟨s, hs, -, -, hlive⟩ := exists_formatted (fun _ _ => 0) fun _ _ => 0
  have hok := (any_inv hs).fs
  have h31 : maxFileSize < 2 ^ 31 := by decide
  have hint : IsInt size := by
    unfold IsInt
    omega
  rcases hok.create_cases (fun _ _ => 0) ⟨[97], by decide⟩ size hint with
    ⟨hno, -⟩ | ⟨-, ⟨-, d', e, xs, hx, -, hk, hlive', -⟩ | ⟨hlt, -⟩⟩
  · have hdir : numDirect ≤ 1018 := by decide
    have := FileHeader.divRoundUp_le (n := size.toNat) (by omega)
    exact absurd hno (not_refuses hok.disk hlive _ (by omega))
  · have hstep : anySystem.step s (.create ⟨[97], by decide⟩ size, .success true)
        { s with fs := { s.fs with disk := d' } } := by
      refine ⟨show -2 ^ 31 ≤ size ∧ size < 2 ^ 31 by omega, fun _ _ => 0, ?_⟩
      simp only [exec]
      rw [hx]
      rfl
    rw [hlive] at hlive'
    exact ⟨_, e, hs.step hstep, hk, List.perm_singleton.mp hlive'⟩
  · omega

/-! ## The size of a file -/

/-- `Create` respects the limit of the header's array if and only if the size is
within `MaxFileSize`, or it returns `FALSE` for another reason. -/
theorem respectsLimit_iff (h : anySystem.Reachable s) (m : Nat → Fresh) (name : Name) {size : Int}
    (hsize : -2 ^ 31 ≤ size ∧ size < 2 ^ 31) :
    s.fs.RespectsLimit m name size ↔ size ≤ maxFileSize ∨ s.fs.disk.Refuses name size :=
  (any_inv h).fs.respects_iff m name hsize

theorem respectsLimit_iff_sample : ∃ s : Session, anySystem.Reachable s ∧
    s.fs.RespectsLimit (fun _ _ => 0) ⟨[97], by decide⟩ 3840 := by
  obtain ⟨s, hs, -⟩ := exists_formatted (fun _ _ => 0) fun _ _ => 0
  exact ⟨s, hs, (respectsLimit_iff hs _ _ (by decide)).mpr (.inl (by decide))⟩

/-- A byte more on a disk that was just formatted. -/
theorem not_respectsLimit : ∃ s : Session, anySystem.Reachable s ∧ s.handles = [] ∧
    FileSystem.format (fun _ _ => 0) (fun _ _ => 0) = .ok s.fs ∧
    ¬ s.fs.RespectsLimit (fun _ _ => 0) ⟨[97], by decide⟩ 3841 := by
  obtain ⟨s, hs, hh, hf, hlive⟩ := exists_formatted (fun _ _ => 0) fun _ _ => 0
  refine ⟨s, hs, hh, hf, fun hr => ?_⟩
  have hok := (any_inv hs).fs
  rcases (hok.respects_iff _ _ (isInt_of_lt (n := 3841) (by decide))).mp hr with hle | hr
  · exact absurd hle (by decide)
  · exact not_refuses hok.disk hlive _ (by decide) hr

/-! ## Failures -/

/-- `Create` and `Remove` return `FALSE` in the stated cases, and leave the disk
as it is then. -/
theorem failure_atomic (h : anySystem.Reachable s) (m : Nat → Fresh) (name : Name) :
    (∀ size : Int, 0 ≤ size → size ≤ maxFileSize → ∃ (fs' : FileSystem) (ok : Bool),
      s.fs.create m name size = .ok (fs', ok) ∧
      (ok = false ↔ s.fs.disk.Refuses name size) ∧ (ok = false → fs'.disk = s.fs.disk)) ∧
    ∃ (fs' : FileSystem) (ok : Bool), s.fs.remove m name = .ok (fs', ok) ∧
      (ok = false ↔ s.fs.disk.files name.key = none) ∧ (ok = false → fs'.disk = s.fs.disk) := by
  have hok := (any_inv h).fs
  refine ⟨fun size h0 hmax => ?_, ?_⟩
  · have h31 : maxFileSize < 2 ^ 31 := by decide
    rcases hok.create_cases m name size (by unfold IsInt; omega) with
      ⟨hno, hx⟩ | ⟨hno, ⟨-, d', e, xs, hx, -⟩ | ⟨hlt, -⟩⟩
    · exact ⟨_, false, hx, by simp [hno], fun _ => rfl⟩
    · exact ⟨_, true, hx, by simp [hno], by simp⟩
    · omega
  · rcases hok.remove_cases m name with ⟨hx, hno⟩ | ⟨d', e, hx, -, hk, hlive, -⟩
    · exact ⟨_, false, hx, by simp [hno], fun _ => rfl⟩
    · have hfile : s.fs.disk.files name.key ≠ none := fun hc =>
        Disk.Ok.files_eq_none.mp hc e (hlive.mem_iff.mpr List.mem_cons_self) hk
      exact ⟨_, true, hx, by simp [hfile], by simp⟩

theorem failure_atomic_sample : ∃ s : Session, anySystem.Reachable s ∧
    (∃ fs', s.fs.create (fun _ _ => 0) ⟨[97], by decide⟩ 200 = .ok (fs', true)) ∧
    ∃ fs', s.fs.remove (fun _ _ => 0) ⟨[97], by decide⟩ = .ok (fs', false) ∧ fs'.disk = s.fs.disk := by
  obtain ⟨s, hs, -, -, hlive⟩ := exists_formatted (fun _ _ => 0) fun _ _ => 0
  have hok := (any_inv hs).fs.disk
  obtain ⟨hc, fs', ok, hx, hiff, hsame⟩ := failure_atomic hs (fun _ _ => 0) ⟨[97], by decide⟩
  obtain ⟨fs₁, ok₁, hx₁, hiff₁, -⟩ := hc 200 (by decide) (by decide)
  have hfalse : ok = false := hiff.mpr (Disk.Ok.files_eq_none.mpr fun e he => by rw [hlive] at he; cases he)
  have htrue : ok₁ = true := by
    by_contra hne
    exact not_refuses hok hlive _ (by decide) (hiff₁.mp (by simpa using hne))
  subst hfalse htrue
  exact ⟨s, hs, ⟨fs₁, hx₁⟩, fs', hx, hsame rfl⟩

end Session

end Nachos
