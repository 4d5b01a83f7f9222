import Nachos.Proof.Filesys.Disk

/-!
# The operations of the file system

Each operation aborts in no state with the invariant (`FileSystem.Ok`), and
keeps it: `Create` adds one file or leaves the disk as it is, `Remove` takes
one away, and a formatted disk has none.
-/

namespace Nachos

open Framework

theorem FileHeader.fetchFrom_eq {d : Disk} {s : Int} (h : 0 ≤ s ∧ s < Nachos.numSectors) :
    fetchFrom d s = .ok (d.header s) := by
  obtain ⟨i, rfl⟩ := Int.eq_ofNat_of_zero_le h.1
  unfold fetchFrom
  rw [d.readSector_eq (by omega)]
  rfl

theorem OpenFile.new_eq {d : Disk} {s : Int} (h : 0 ≤ s ∧ s < numSectors) :
    OpenFile.new d s = .ok ⟨d.header s, 0⟩ := by
  unfold new
  rw [FileHeader.fetchFrom_eq h]
  rfl

/-- The header that was written to a sector. -/
theorem Disk.header_writeSector (d : Disk) (k : Nat) {h : FileHeader} (hf : h.Fits) :
    Disk.header (fun j o => if j = k then h.encode.getD o (d j o) else d j o) k = h := by
  have hsec : Disk.sector (fun j o => if j = k then h.encode.getD o (d j o) else d j o) k = h.encode := by
    apply List.ext_getElem?
    intro o
    by_cases ho : o < sectorSize
    · have hlt : o < h.encode.length := by rwa [hf.length_encode]
      simp [Disk.sector, ho, hlt]
    · rw [List.getElem?_eq_none (by rw [Disk.length_sector]; omega),
        List.getElem?_eq_none (by rw [hf.length_encode]; omega)]
  rw [Disk.header, Int.toNat_natCast, hsec, hf.decode_encode]

namespace FileSystem

/-- The disk is in order, and the files of the system are open. -/
structure Ok (fs : FileSystem) : Prop where
  disk : fs.disk.Ok
  freeMapFile : fs.freeMapFile.hdr = fs.disk.header freeMapSector
  directoryFile : fs.directoryFile.hdr = fs.disk.header directorySector

variable {fs : FileSystem} {m : Nat → Fresh} {name : Name}

theorem Ok.fetchFrom_eq (h : fs.Ok) (t : Directory) :
    t.fetchFrom fs.disk fs.directoryFile = .ok fs.disk.table := by
  have hsys := h.disk.system
  rw [Directory.fetchFrom_eq t (h.directoryFile ▸ hsys.dir) (h.directoryFile ▸ hsys.dirBytes),
    h.directoryFile]
  rfl

theorem Ok.fetch_eq (h : fs.Ok) :
    PersistentBitmap.fetch fs.disk fs.freeMapFile numSectors = .ok fs.disk.freeMap := by
  have hsys := h.disk.system
  rw [PersistentBitmap.fetch_eq (h.freeMapFile ▸ hsys.map) (h.freeMapFile ▸ hsys.mapBytes),
    h.freeMapFile]
  rfl

/-- The lookup of a name. -/
theorem Ok.find_cases (h : fs.Ok) (name : Name) :
    (fs.disk.files name.key = none ∧ fs.disk.table.findIndex name = none ∧
      fs.disk.table.find name = -1) ∨
    ∃ i e, fs.disk.table.findIndex name = some i ∧ fs.disk.table[i]? = some e ∧ e ∈ fs.disk.live ∧
      e.key = name.key ∧ fs.disk.table.find name = e.sector := by
  rcases Directory.find_cases h.disk.table_ok name with ⟨hno, h₁, h₂⟩ | ⟨i, e, h₁, h₂, hu, hk, h₃⟩
  · refine .inl ⟨Disk.Ok.files_eq_none.mpr fun e he => ?_, h₁, h₂⟩
    obtain ⟨he, hu⟩ := List.mem_filter.mp he
    exact hno e he hu
  · exact .inr ⟨i, e, h₁, h₂, List.mem_filter.mpr ⟨List.mem_of_getElem? h₂, hu⟩, hk, h₃⟩

theorem Ok.sector_bound (h : fs.Ok) {e : DirectoryEntry} (he : e ∈ fs.disk.live) :
    0 ≤ e.sector ∧ e.sector < numSectors :=
  h.disk.bound (Disk.Ok.live_mem he) List.mem_cons_self

/-- `Open` finds the files that are there. -/
theorem Ok.openFile_cases (h : fs.Ok) (m : Nat → Fresh) (name : Name) :
    (fs.disk.files name.key = none ∧ fs.openFile m name = .ok none) ∨
    ∃ e ∈ fs.disk.live, e.key = name.key ∧
      fs.openFile m name = .ok (some ⟨fs.disk.header e.sector, 0⟩) := by
  unfold openFile
  rw [h.fetchFrom_eq, ok_bind]
  rcases h.find_cases name with ⟨hno, -, hfind⟩ | ⟨i, e, -, -, he, hk, hfind⟩
  · refine .inl ⟨hno, ?_⟩
    rw [hfind]
    rfl
  · have hb := h.sector_bound he
    refine .inr ⟨e, he, hk, ?_⟩
    simp only [hfind]
    rw [if_pos hb.1, OpenFile.new_eq hb]
    rfl

/-- `FileSystem(FALSE)`. -/
theorem mount_eq (d : Disk) :
    mount d = .ok ⟨d, ⟨d.header freeMapSector, 0⟩, ⟨d.header directorySector, 0⟩⟩ := by
  unfold mount
  rw [OpenFile.new_eq (by decide), ok_bind, OpenFile.new_eq (by decide)]
  rfl

/-- A table with one other entry. -/
theorem Ok.set_ok (h : fs.Ok) {e : DirectoryEntry} (he : e.Ok) (i : Nat) :
    (fs.disk.table.set i e).length = numDirEntries ∧ ∀ e' ∈ fs.disk.table.set i e, e'.Ok := by
  refine ⟨by rw [List.length_set, Disk.Ok.length_table], fun e' he' => ?_⟩
  rcases List.mem_or_eq_of_mem_set he' with he' | rfl
  · exact h.disk.table_ok e' he'
  · exact he

/-- The file system after the two files of the system are written. -/
theorem Ok.of_keeps (h : fs.Ok) {d' : Disk} (hok : d'.Ok) (hold : fs.disk.Keeps d' fs.disk.roots) :
    Ok { fs with disk := d' } :=
  ⟨hok, h.freeMapFile.trans ((hold _ (Disk.Ok.freeMap_mem _)).1).symm,
    h.directoryFile.trans ((hold _ (Disk.Ok.directory_mem _)).1).symm⟩

/-- The data of one file is written: all other files stay. -/
theorem Ok.write (h : fs.Ok) {e : DirectoryEntry} (he : e ∈ fs.disk.live) {d' : Disk}
    (hframe : ∀ b ∉ (fs.disk.header e.sector).blocks, d' b = fs.disk b) :
    Ok { fs with disk := d' } ∧ d'.live = fs.disk.live ∧
      (∀ r ∈ fs.disk.roots, d'.header r = fs.disk.header r) ∧
      ∀ r ∈ fs.disk.roots, r ≠ e.sector → d'.fileAt r = fs.disk.fileAt r := by
  have hd := h.disk
  have hr := Disk.Ok.live_mem he
  have hhead : ∀ r ∈ fs.disk.roots, d'.header r = fs.disk.header r := fun r hr' =>
    hd.header_write hr hframe hr'
  have hfile : ∀ r ∈ fs.disk.roots, r ≠ e.sector → d'.fileAt r = fs.disk.fileAt r :=
    fun r hr' hne => hd.fileAt_write hr hframe hr' hne
  obtain ⟨hne₀, hne₁⟩ := hd.live_ne he
  have hlive : d'.live = fs.disk.live := by
    rw [Disk.live, Disk.live, Disk.table, Disk.table, hfile _ (Disk.Ok.directory_mem _) hne₁.symm]
  have hd' : d'.Ok := hd.of_same hlive hhead (hfile _ (Disk.Ok.freeMap_mem _) hne₀.symm)
  exact ⟨⟨hd', h.freeMapFile.trans (hhead _ (Disk.Ok.freeMap_mem _)).symm,
    h.directoryFile.trans (hhead _ (Disk.Ok.directory_mem _)).symm⟩, hlive, hhead, hfile⟩

/-- The last part of `Create`: the header, the directory with its new entry
`e`, and the free map are written. -/
theorem Ok.commit (h : fs.Ok) {e₀ e : DirectoryEntry} {hdr : FileHeader} {b' : Bitmap} {k i : Nat}
    {size : Int} {xs : List Nat} (hk : k ∈ fs.disk.freeMap.free)
    (hall : FileHeader.Allocated (fs.disk.freeMap.put k true) b' size hdr xs)
    (hget : fs.disk.table[i]? = some e₀) (h₀ : e₀.inUse = false) (he : e.Ok) (hu : e.inUse = true)
    (hs : e.sector = k) (hno : ∀ e' ∈ fs.disk.live, e'.key ≠ e.key) (m m' : Fresh) :
    ∃ d₁ d₂ d', hdr.writeBack fs.disk k = .ok d₁ ∧
      Directory.writeBack (fs.disk.table.set i e) d₁ m fs.directoryFile = .ok d₂ ∧
      PersistentBitmap.writeBack b' d₂ m' fs.freeMapFile = .ok d' ∧ Ok { fs with disk := d' } ∧
      d'.live.Perm (e :: fs.disk.live) ∧ fs.disk.Keeps d' fs.disk.roots ∧
      FileHeader.Allocated (fs.disk.freeMap.put k true) d'.freeMap size (d'.header k) xs := by
  have hd := h.disk
  have hsys := hd.system
  obtain ⟨hlt, hbit⟩ := Bitmap.mem_free.mp hk
  have hlt : k < numSectors := hlt
  have hnotin : (k : Int) ∉ fs.disk.allocated := fun hc => by
    rw [(hd.accounted.bits k hlt).mpr hc] at hbit
    cases hbit
  have hputs : fs.disk.freeMap.Puts b' (k :: xs) true := .cons (Disk.Ok.freeMap_wf _) hlt hall.puts
  have hnum : b'.numBits = numSectors := hputs.numBits
  have hlen : b'.map.length = numSectors / bitsInWord := by
    rw [hputs.length]
    exact Codec.length_decodeAll _ _
  obtain ⟨htl, htok⟩ := h.set_ok he i
  have hw := fs.disk.writeSector_eq hlt (Nat.le_of_eq hall.fits.length_encode.symm)
  obtain ⟨d₁, hd₁⟩ : ∃ d₁ : Disk, d₁ = fun j o =>
    if j = k then hdr.encode.getD o (fs.disk j o) else fs.disk j o := ⟨_, rfl⟩
  rw [← hd₁] at hw
  obtain ⟨⟨d₂, d', h₂, h₃, hfl⟩, -⟩ := hsys.flush htl htok hlen h.freeMapFile h.directoryFile d₁ m m'
  -- The new sector is none of the system's.
  have hout : ∀ r ∈ fs.disk.roots, k ∉ (fs.disk.header r).blocks := by
    intro r hr
    have : (k : Int) ∉ (fs.disk.header r).sectors := fun hc =>
      hnotin (Disk.Ok.mem_allocated hr (List.mem_cons_of_mem r hc))
    simpa using (hd.header r hr).notMem_blocks (Int.natCast_nonneg k) this
  have hnew : d'.header k = hdr := by
    have hsame : d' k = d₁ k :=
      hfl.frame k (hout _ (Disk.Ok.freeMap_mem _)) (hout _ (Disk.Ok.directory_mem _))
    rw [Disk.header_congr (d := d₁) (by simpa using hsame), hd₁,
      Disk.header_writeSector fs.disk k hall.fits]
  have hold : fs.disk.Keeps d' fs.disk.roots := by
    refine hd.keeps fun j hj hm hdir => ?_
    rw [hfl.frame j hm hdir, hd₁]
    funext o
    exact if_neg fun (hc : j = k) => hnotin (hc ▸ hj)
  obtain ⟨htable, hmap⟩ := hfl.read hnum (hold _ (Disk.Ok.freeMap_mem _)).1
    (hold _ (Disk.Ok.directory_mem _)).1
  have hlive : d'.live.Perm (e :: fs.disk.live) := by
    rw [Disk.live, htable]
    exact perm_filter_set hget h₀ hu
  have hok := hd.extend hk (hmap ▸ hall) hs hno hlive hnew hold
  refine ⟨d₁, d₂, d', hw, h₂, h₃, h.of_keeps hok hold, hlive, hold, ?_⟩
  rw [hnew, hmap]
  exact hall

/-- `Create` does nothing, adds a file, or leaves the array of the header of a
file that is too large. -/
theorem Ok.create_cases (h : fs.Ok) (m : Nat → Fresh) (name : Name) (size : Int)
    (hsize : IsInt size) :
    (fs.disk.Refuses name size ∧ fs.create m name size = .ok (fs, false)) ∨
    ¬ fs.disk.Refuses name size ∧
      ((size ≤ maxFileSize ∧ ∃ d' e xs, fs.create m name size = .ok ({ fs with disk := d' }, true) ∧
        Ok { fs with disk := d' } ∧ e.key = name.key ∧ d'.live.Perm (e :: fs.disk.live) ∧
        fs.disk.Keeps d' fs.disk.roots ∧ e.sector.toNat ∈ fs.disk.freeMap.free ∧
        FileHeader.Allocated (fs.disk.freeMap.put e.sector.toNat true) d'.freeMap size
          (d'.header e.sector) xs) ∨
      (maxFileSize < size ∧ fs.create m name size = .error .undefined)) := by
  have hwf := Disk.Ok.freeMap_wf fs.disk
  unfold create
  rw [h.fetchFrom_eq, ok_bind]
  rcases h.find_cases name with ⟨hno, hidx, hfind⟩ | ⟨i, e, -, -, he, hk, hfind⟩
  case inr =>
    have hb := h.sector_bound he
    have hname : fs.disk.files name.key ≠ none := fun hc => Disk.Ok.files_eq_none.mp hc e he hk
    rw [if_pos (by rw [hfind]; omega)]
    exact .inl ⟨.inl hname, rfl⟩
  rw [if_neg (by simp [hfind]), h.fetch_eq, ok_bind]
  rcases Bitmap.findAndSet_cases hwf with ⟨k, hk, -, hfree, hset⟩ | ⟨hfull, hset⟩
  case inr =>
    rw [hset]
    exact .inl ⟨.inr (.inl (Bitmap.free_eq_empty hfull)), rfl⟩
  have hmem : k ∈ fs.disk.freeMap.free := Bitmap.mem_free.mpr ⟨hk, hfree⟩
  rw [hset, ok_bind]
  simp only
  rw [if_neg (by omega)]
  rcases Directory.add_cases hidx (k : Int) with ⟨hall, hadd⟩ | ⟨i, e, hget, huse, hadd⟩
  case inl =>
    rw [hadd]
    exact .inl ⟨.inr (.inr (.inl hall)), rfl⟩
  rw [hadd]
  simp only
  have hfits : (FileHeader.new (m 1)).Fits := FileHeader.fits_decode (by simp)
  have hcard : (fs.disk.freeMap.put k true).free.card = fs.disk.freeMap.free.card - 1 := by
    rw [Bitmap.free_put_true hwf hk, Finset.card_erase_of_mem hmem]
  have hallocate := FileHeader.allocate_cases (hwf.put k true) rfl hfits size hsize
  rw [hcard] at hallocate
  rcases hallocate with ⟨hlt, h', hall⟩ | ⟨hle, hallocate⟩
  case inl =>
    rw [hall]
    exact .inl ⟨.inr (.inr (.inr hlt)), rfl⟩
  have hno' : ¬ fs.disk.Refuses name size := by
    rintro (hc | hc | hc | hc)
    · exact hc hno
    · rw [hc] at hmem
      exact Finset.notMem_empty k hmem
    · rw [hc e (List.mem_of_getElem? hget)] at huse
      cases huse
    · omega
  refine .inr ⟨hno', ?_⟩
  rcases hallocate with ⟨hmax, hdr, b', xs, hall, hspec⟩ | ⟨hmax, hall⟩
  case inr =>
    rw [hall]
    exact .inr ⟨hmax, rfl⟩
  rw [hall, ok_bind]
  simp only [Bool.not_true, Bool.false_eq_true, ite_false]
  -- All checks passed.
  have heok := h.disk.table_ok e (List.mem_of_getElem? hget)
  have hklt : k < numSectors := hk
  obtain ⟨e', he'⟩ : ∃ e' : DirectoryEntry, e' =
    { e with inUse := true, name := strncpy e.name name fileNameMaxLen, sector := k } := ⟨_, rfl⟩
  have hkey : e'.key = name.key := by
    rw [he']
    exact key_strncpy e.name name
  have hsec : e'.sector = k := by rw [he']
  have heok' : e'.Ok := by
    subst he'
    refine ⟨heok.pad₁, isInt_of_lt (by unfold numSectors at hklt; omega), ?_, heok.pad₂⟩
    have := heok.name
    simp only [strncpy, List.length_append, List.length_take, List.length_replicate, List.length_drop]
    omega
  rw [← he']
  obtain ⟨d₁, d₂, d', h₁, h₂, h₃, hok, hlive, hold, hnew⟩ := h.commit hmem hspec hget huse heok'
    (by rw [he']) hsec (fun e'' he'' => hkey ▸ Disk.Ok.files_eq_none.mp hno e'' he'') (m 2) (m 3)
  refine .inl ⟨hmax, d', e', xs, ?_, hok, hkey, hlive, hold, ?_, ?_⟩
  · rw [h₁, ok_bind, h₂, ok_bind, h₃]
    rfl
  · rwa [hsec, Int.toNat_natCast]
  · rwa [hsec, Int.toNat_natCast]

/-- `Remove` takes the file with the name away. -/
theorem Ok.remove_cases (h : fs.Ok) (m : Nat → Fresh) (name : Name) :
    (fs.remove m name = .ok (fs, false) ∧ fs.disk.files name.key = none) ∨
    ∃ d' e, fs.remove m name = .ok ({ fs with disk := d' }, true) ∧ Ok { fs with disk := d' } ∧
      e.key = name.key ∧ fs.disk.live.Perm (e :: d'.live) ∧ fs.disk.Keeps d' fs.disk.roots := by
  have hd := h.disk
  have hwf := Disk.Ok.freeMap_wf fs.disk
  unfold remove
  rw [h.fetchFrom_eq, ok_bind]
  rcases h.find_cases name with ⟨hno, -, hfind⟩ | ⟨i, e, hidx, hget, he, hk, hfind⟩
  · rw [hfind]
    exact .inl ⟨rfl, hno⟩
  have hb := h.sector_bound he
  have hr := Disk.Ok.live_mem he
  simp only [hfind]
  rw [if_neg (by omega), FileHeader.fetchFrom_eq hb, ok_bind, h.fetch_eq, ok_bind]
  -- All sectors of the file are marked.
  have hmark : ∀ s ∈ fs.disk.sectorsAt e.sector, fs.disk.freeMap.bit s.toNat = true := fun s hs => by
    have hbound := hd.bound hr hs
    refine (hd.accounted.bits s.toNat (by omega)).mpr ?_
    rw [Int.toNat_of_nonneg hbound.1]
    exact Disk.Ok.mem_allocated hr hs
  obtain ⟨b₁, hde, hputs₁⟩ := (hd.header _ hr).deallocate_eq hwf rfl (hd.blocks_nodup hr) fun x hx => by
    obtain ⟨s, hs, rfl⟩ := List.mem_map.mp hx
    exact hmark s (List.mem_cons_of_mem _ hs)
  have hlt : e.sector.toNat < fs.disk.freeMap.numBits := by
    change e.sector.toNat < numSectors
    omega
  have hputs := hputs₁.put hwf hlt
  have hclear := Bitmap.clear_eq (hputs₁.wf hwf) (hputs₁.numBits ▸ hlt)
  rw [Int.toNat_of_nonneg hb.1] at hclear
  rw [hde, ok_bind, hclear, ok_bind, Directory.remove_eq hidx hget]
  have heok := hd.table_ok e (List.mem_of_getElem? hget)
  obtain ⟨htl, htok⟩ := h.set_ok (e := { e with inUse := false })
    ⟨heok.pad₁, heok.sector, heok.name, heok.pad₂⟩ i
  have hlen : (b₁.put e.sector.toNat false).map.length = numSectors / bitsInWord := by
    rw [hputs.length]
    exact Codec.length_decodeAll _ _
  obtain ⟨-, d₁, d', h₁, h₂, hfl⟩ := hd.system.flush htl htok hlen h.freeMapFile h.directoryFile fs.disk
    (m 1) (m 2)
  have hold : fs.disk.Keeps d' fs.disk.roots := hd.keeps fun j _ hm hdir => hfl.frame j hm hdir
  obtain ⟨htable, hmap⟩ := hfl.read hputs.numBits (hold _ (Disk.Ok.freeMap_mem _)).1
    (hold _ (Disk.Ok.directory_mem _)).1
  have hlive : fs.disk.live.Perm (e :: d'.live) := by
    obtain ⟨hi, heq⟩ := List.getElem?_eq_some_iff.mp hget
    have hu := (List.mem_filter.mp he).2
    have hback : (fs.disk.table.set i { e with inUse := false }).set i e = fs.disk.table := by
      rw [List.set_set, ← heq, List.set_getElem_self]
    have := perm_filter_set (p := DirectoryEntry.inUse)
      (List.getElem?_set_self (a := { e with inUse := false }) hi) rfl hu
    rw [hback] at this
    rw [Disk.live, Disk.live, htable]
    exact this
  have hkeep : fs.disk.Keeps d' d'.roots := fun r hr' =>
    hold r ((Disk.roots_cons hlive).mem_iff.mpr (List.mem_cons_of_mem _ hr'))
  have hok := hd.shrink hlive (hmap ▸ hputs) hkeep
  refine .inr ⟨d', e, ?_, h.of_keeps hok hold, hk, hlive, hold⟩
  rw [h₁, ok_bind, h₂]
  rfl

/-! ## Formatting -/

/-- The map in which the two headers are marked. -/
def formatMap : Bitmap := ((Bitmap.new numSectors).put freeMapSector true).put directorySector true

theorem formatMap_wf : formatMap.Wf := ((Bitmap.wf_new _).put _ _).put _ _

theorem formatMap_puts :
    (Bitmap.new numSectors).Puts formatMap [directorySector, freeMapSector] true :=
  (Bitmap.Puts.put (Bitmap.wf_new _) (.refl _ true) (by decide)).put (Bitmap.wf_new _) (by decide)

theorem formatMap_card : formatMap.free.card = numSectors - 2 := by
  have hnew : (Bitmap.new numSectors).free = Finset.range numSectors := by
    refine Finset.filter_true_of_mem fun i _ => ?_
    exact Bitmap.bit_new _ i
  have hfree : ∀ x ∈ [directorySector, freeMapSector], x ∈ (Bitmap.new numSectors).free := by
    rw [hnew]
    simp [directorySector, freeMapSector, numSectors]
  rw [formatMap_puts.card (by decide) hfree, hnew, Finset.card_range]
  rfl

/-- A formatted disk has the two files of the system and no others. -/
theorem format_ok (m : Nat → Fresh) (d : Disk) :
    ∃ fs, format m d = .ok fs ∧ fs.Ok ∧ fs.disk.live = [] := by
  have hcard := formatMap_card
  have hfits : ∀ i, (FileHeader.new (m i)).Fits := fun i => FileHeader.fits_decode (by simp)
  -- Both allocations find their sectors.
  obtain ⟨hm, b₁, xs, hall₁, ha₁⟩ : ∃ h b xs,
      (FileHeader.new (m 1)).allocate formatMap freeMapFileSize = .ok (true, h, b) ∧
      FileHeader.Allocated formatMap b freeMapFileSize h xs := by
    rcases FileHeader.allocate_cases formatMap_wf rfl (hfits 1) freeMapFileSize
      (isInt_of_lt (by decide)) with ⟨hlt, -⟩ | ⟨-, ⟨-, h⟩ | ⟨hlt, -⟩⟩
    · rw [hcard] at hlt
      exact absurd hlt (by decide)
    · exact h
    · exact absurd hlt (by decide)
  have hwf₁ := ha₁.puts.wf formatMap_wf
  have hcard₁ : b₁.free.card = numSectors - 3 := by
    rw [ha₁.puts.card ha₁.nodup ha₁.free, hcard, ha₁.length]
    rfl
  obtain ⟨hd, b₂, ys, hall₂, ha₂⟩ : ∃ h b ys,
      (FileHeader.new (m 2)).allocate b₁ directoryFileSize = .ok (true, h, b) ∧
      FileHeader.Allocated b₁ b directoryFileSize h ys := by
    rcases FileHeader.allocate_cases hwf₁ ha₁.puts.numBits (hfits 2) directoryFileSize
      (isInt_of_lt (by decide)) with ⟨hlt, -⟩ | ⟨-, ⟨-, h⟩ | ⟨hlt, -⟩⟩
    · rw [hcard₁] at hlt
      exact absurd hlt (by decide)
    · exact h
    · exact absurd hlt (by decide)
  -- The sectors that are marked now.
  have hbit : ∀ i, b₂.bit i = true ↔ i ∈ [freeMapSector, directorySector] ++ xs ++ ys := by
    intro i
    rw [ha₂.puts.bit, ha₁.puts.bit, formatMap_puts.bit, Bitmap.bit_new]
    simp only [List.mem_append, List.mem_cons, List.not_mem_nil, or_false]
    split <;> [skip; split <;> [skip; split]] <;> simp_all [or_comm]
  have hx : ∀ x ∈ xs, x < numSectors ∧ x ∉ [freeMapSector, directorySector] := by
    intro x hx
    obtain ⟨hlt, hfree⟩ := Bitmap.mem_free.mp (ha₁.free x hx)
    refine ⟨hlt, fun hc => ?_⟩
    rw [formatMap_puts.bit, if_pos (by simpa [or_comm] using hc)] at hfree
    cases hfree
  have hy : ∀ y ∈ ys, y < numSectors ∧ y ∉ [freeMapSector, directorySector] ++ xs := by
    intro y hy
    obtain ⟨hlt, hfree⟩ := Bitmap.mem_free.mp (ha₂.free y hy)
    refine ⟨(show b₁.numBits = numSectors from ha₁.puts.numBits) ▸ hlt, fun hc => ?_⟩
    rw [ha₁.puts.bit, formatMap_puts.bit] at hfree
    rcases List.mem_append.mp hc with hc | hc
    · rw [if_pos (show y ∈ [directorySector, freeMapSector] by simpa [or_comm] using hc)] at hfree
      split at hfree <;> cases hfree
    · rw [if_pos hc] at hfree
      cases hfree
  have hxb := ha₁.blocks
  have hyb := ha₂.blocks
  have hsys : Disk.System hm hd :=
    ⟨ha₁.ok, ha₁.numBytes, ha₂.ok, ha₂.numBytes, hxb ▸ ha₁.nodup, hyb ▸ ha₂.nodup, by
      rw [hxb, hyb]
      exact fun i hi hi' => (hy i hi').2 (List.mem_append_right _ hi)⟩
  -- The headers are written, and read again.
  obtain ⟨d₁, hd₁⟩ : ∃ d₁ : Disk, d₁ = fun j o =>
    if j = freeMapSector then hm.encode.getD o (d j o) else d j o := ⟨_, rfl⟩
  obtain ⟨d₂, hd₂⟩ : ∃ d₂ : Disk, d₂ = fun j o =>
    if j = directorySector then hd.encode.getD o (d₁ j o) else d₁ j o := ⟨_, rfl⟩
  have hw₁ : hm.writeBack d freeMapSector = .ok d₁ := by
    rw [hd₁]
    exact d.writeSector_eq (by decide) (Nat.le_of_eq ha₁.fits.length_encode.symm)
  have hw₂ : hd.writeBack d₁ directorySector = .ok d₂ := by
    rw [hd₂]
    exact d₁.writeSector_eq (by decide) (Nat.le_of_eq ha₂.fits.length_encode.symm)
  have hh₂ : d₂.header directorySector = hd := by
    rw [hd₂]
    exact Disk.header_writeSector d₁ directorySector ha₂.fits
  have hh₁ : d₂.header freeMapSector = hm := by
    have hsame : d₂ freeMapSector = d₁ freeMapSector := by
      rw [hd₂]
      funext o
      exact if_neg (by decide)
    rw [Disk.header_congr (d := d₁) (by simpa using hsame), hd₁]
    exact Disk.header_writeSector d freeMapSector ha₁.fits
  have hmount := mount_eq d₂
  rw [hh₁, hh₂] at hmount
  -- The map and the directory are written.
  have hnum : b₂.numBits = numSectors := ha₂.puts.numBits.trans ha₁.puts.numBits
  have hlen : b₂.map.length = numSectors / bitsInWord := by
    rw [ha₂.puts.length, ha₁.puts.length, formatMap_puts.length]
    rfl
  have htable : ∀ e ∈ Directory.new (m 0), e.Ok ∧ e.inUse = false := by
    intro e he
    obtain ⟨e, hmem, rfl⟩ := List.mem_map.mp he
    have hlen : numDirEntries * dirEntry.width ≤ ((m 0).take directoryFileSize).length := by
      rw [Fresh.length_take]
      decide
    have hok := Codec.ok_of_mem_decodeAll dirEntry_lawful hlen hmem
    exact ⟨⟨hok.pad₁, hok.sector, hok.name, hok.pad₂⟩, rfl⟩
  obtain ⟨-, d₃, d', h₃, h₄, hfl⟩ := hsys.flush (t := Directory.new (m 0)) (by simp [Directory.new])
    (fun e he => (htable e he).1) hlen (show (⟨hm, 0⟩ : OpenFile).hdr = hm from rfl)
    (show (⟨hd, 0⟩ : OpenFile).hdr = hd from rfl) d₂ (m 3) (m 4)
  have hsame : ∀ i ∈ [freeMapSector, directorySector], d' i = d₂ i := by
    intro i hi
    refine hfl.frame i (hxb ▸ fun hc => (hx i hc).2 hi) (hyb ▸ fun hc => (hy i hc).2 ?_)
    exact List.mem_append_left _ hi
  have h'₁ : d'.header freeMapSector = hm :=
    (Disk.header_congr (d := d₂) (by simpa using hsame freeMapSector (by decide))).trans hh₁
  have h'₂ : d'.header directorySector = hd :=
    (Disk.header_congr (d := d₂) (by simpa using hsame directorySector (by decide))).trans hh₂
  obtain ⟨ht', hb'⟩ := hfl.read hnum h'₁ h'₂
  have hlive : d'.live = [] := by
    rw [Disk.live, ht']
    exact List.filter_eq_nil_iff.mpr fun e he => by simp [(htable e he).2]
  have halloc : d'.allocated = ([freeMapSector, directorySector] ++ xs ++ ys).map Int.ofNat := by
    rw [Disk.allocated, h'₁, h'₂, hlive, ha₁.sectors, ha₂.sectors]
    simp
  refine ⟨⟨d', ⟨hm, 0⟩, ⟨hd, 0⟩⟩, ?_, ⟨?_, h'₁.symm, h'₂.symm⟩, hlive⟩
  · have hmark₁ := Bitmap.mark_eq (Bitmap.wf_new numSectors) (i := freeMapSector) (by decide)
    have hmark₂ : _ = Except.ok formatMap := Bitmap.mark_eq ((Bitmap.wf_new numSectors).put freeMapSector true)
      (i := directorySector) (by decide)
    unfold format
    simp only [hmark₁, ok_bind, hmark₂, hall₁, assert_of, hall₂, hw₁, hw₂, hmount, h₃, h₄, pure_eq_ok]
  · refine ⟨?_, ?_, fun r hr => ?_, ?_, ?_, fun s hs => ?_, fun i _ => ?_⟩
    · rw [h'₁, ha₁.numBytes]
    · rw [h'₂, ha₂.numBytes]
    · simp only [Disk.roots, hlive, List.map_nil, List.mem_cons, List.not_mem_nil, or_false] at hr
      rcases hr with rfl | rfl
      · rw [h'₁]
        exact ha₁.ok
      · rw [h'₂]
        exact ha₂.ok
    · simp [hlive]
    · rw [halloc]
      refine List.Nodup.map (fun _ _ => Int.ofNat.inj) (List.nodup_append.mpr ⟨?_, ha₂.nodup, ?_⟩)
      · refine List.nodup_append.mpr ⟨by decide, ha₁.nodup, ?_⟩
        rintro i hi _ hi' rfl
        exact (hx i hi').2 hi
      · rintro i hi _ hi' rfl
        exact (hy i hi').2 hi
    · rw [halloc] at hs
      obtain ⟨i, hi, rfl⟩ := List.mem_map.mp hs
      refine ⟨Int.natCast_nonneg i, Int.ofNat_lt.mpr ?_⟩
      rcases List.mem_append.mp hi with hi | hi
      · rcases List.mem_append.mp hi with hi | hi
        · simp only [List.mem_cons, List.not_mem_nil, or_false] at hi
          rcases hi with rfl | rfl <;> decide
        · exact (hx i hi).1
      · exact (hy i hi).1
    · rw [hb', hbit, halloc, List.mem_map]
      constructor
      · exact fun hi => ⟨i, hi, rfl⟩
      · rintro ⟨j, hj, he⟩
        exact Int.ofNat.inj he ▸ hj

end FileSystem

end Nachos
