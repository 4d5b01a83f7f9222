import Mathlib.Data.List.Pairwise
import Nachos.Proof.Filesys.Directory

/-!
# The files on the disk

The invariant `Disk.Ok`: the headers of all files are in order, no two files
have the same name, and each sector that is in use is marked, once. Each file
is then in sectors of its own, so that an operation on one file leaves the
other ones as they are.
-/

namespace Nachos

open Framework

namespace FileHeader

variable {h : FileHeader}

/-- A sector of another file. -/
theorem Ok.notMem_blocks (hok : h.Ok) {s : Int} (h0 : 0 ≤ s) (hs : s ∉ h.sectors) :
    s.toNat ∉ h.blocks := by
  intro hm
  obtain ⟨s', hs', he⟩ := List.mem_map.mp hm
  have := (hok.bound s' hs').1
  exact hs ((show s' = s by omega) ▸ hs')

theorem Ok.nodup_blocks (hok : h.Ok) (hnd : h.sectors.Nodup) : h.blocks.Nodup := by
  refine List.Nodup.map_on (fun s hs s' hs' he => ?_) hnd
  have h₁ := (hok.bound s hs).1
  have h₂ := (hok.bound s' hs').1
  omega

end FileHeader

namespace Disk

variable {d d' : Disk} {s : Int}

/-- The header and the data sectors of a file. -/
def sectorsAt (d : Disk) (s : Int) : List Int := s :: (d.header s).sectors

/-- The sectors with the headers of all files. -/
def roots (d : Disk) : List Int :=
  (freeMapSector : Int) :: (directorySector : Int) :: d.live.map DirectoryEntry.sector

theorem header_congr (h : d' s.toNat = d s.toNat) : d'.header s = d.header s := by
  simp only [header, sector, h]

theorem fileAt_congr (hok : (d.header s).Ok)
    (h : ∀ x ∈ d.sectorsAt s, d' x.toNat = d x.toNat) : d'.fileAt s = d.fileAt s := by
  rw [fileAt, fileAt, header_congr (h s List.mem_cons_self)]
  refine Blocks.contents_congr hok.le_blocks fun b hb => ?_
  obtain ⟨x, hx, rfl⟩ := List.mem_map.mp hb
  exact h x (List.mem_cons_of_mem s hx)

/-- All sectors in use, file by file. -/
theorem allocated_perm (d : Disk) : d.allocated.Perm (d.roots.flatMap d.sectorsAt) := by
  have hlive : (d.live.map DirectoryEntry.sector).flatMap d.sectorsAt =
      d.live.flatMap fun e => e.sector :: (d.header e.sector).sectors := by
    rw [List.flatMap_map]
    rfl
  simp only [allocated, roots, List.flatMap_cons, hlive, sectorsAt]
  simp only [List.append_assoc, List.cons_append, List.nil_append]
  exact List.Perm.cons _ List.perm_middle.symm

/-- The invariant. -/
structure Ok (d : Disk) : Prop where
  map : (d.header freeMapSector).numBytes = freeMapFileSize
  dir : (d.header directorySector).numBytes = directoryFileSize
  header : ∀ r ∈ d.roots, (d.header r).Ok
  keys : (d.live.map DirectoryEntry.key).Nodup
  accounted : d.Accounted

namespace Ok

variable {r r' : Int}

theorem freeMap_mem (d : Disk) : (freeMapSector : Int) ∈ d.roots := List.mem_cons_self

theorem directory_mem (d : Disk) : (directorySector : Int) ∈ d.roots :=
  List.mem_cons_of_mem _ List.mem_cons_self

theorem live_mem {e : DirectoryEntry} (he : e ∈ d.live) : e.sector ∈ d.roots :=
  List.mem_cons_of_mem _ (List.mem_cons_of_mem _ (List.mem_map_of_mem he))

theorem mem_allocated (hr : r ∈ d.roots) (hs : s ∈ d.sectorsAt r) : s ∈ d.allocated :=
  (allocated_perm d).mem_iff.mpr (List.mem_flatMap_of_mem hr hs)

theorem bound (h : d.Ok) (hr : r ∈ d.roots) (hs : s ∈ d.sectorsAt r) : 0 ≤ s ∧ s < numSectors :=
  h.accounted.bound s (mem_allocated hr hs)

theorem nodup (h : d.Ok) (hr : r ∈ d.roots) : (d.sectorsAt r).Nodup :=
  (List.nodup_flatMap.mp ((allocated_perm d).nodup_iff.mp h.accounted.nodup)).1 r hr

theorem disjoint (h : d.Ok) (hr : r ∈ d.roots) (hr' : r' ∈ d.roots) (hne : r ≠ r') :
    (d.sectorsAt r).Disjoint (d.sectorsAt r') := by
  have := (List.nodup_flatMap.mp ((allocated_perm d).nodup_iff.mp h.accounted.nodup)).2
  have hsymm : Std.Symm (Function.onFun List.Disjoint d.sectorsAt) := ⟨fun _ _ => List.Disjoint.symm⟩
  exact this.forall hr hr' hne

/-- Two files in use have their headers in two sectors. -/
theorem roots_nodup (h : d.Ok) : d.roots.Nodup := by
  have := (List.nodup_flatMap.mp ((allocated_perm d).nodup_iff.mp h.accounted.nodup)).2
  refine this.imp fun {a b} hab => ?_
  rintro rfl
  exact hab List.mem_cons_self List.mem_cons_self

theorem blocks_nodup (h : d.Ok) (hr : r ∈ d.roots) : (d.header r).blocks.Nodup :=
  (h.header r hr).nodup_blocks (List.nodup_cons.mp (h.nodup hr)).2

/-- A sector of a file is none of the data sectors of another one. -/
theorem notMem_blocks (h : d.Ok) (hr : r ∈ d.roots) (hr' : r' ∈ d.roots) (hs : s ∈ d.sectorsAt r)
    (hne : s ∉ (d.header r').sectors) : s.toNat ∉ (d.header r').blocks :=
  (h.header r' hr').notMem_blocks (h.bound hr hs).1 hne

/-- The headers after the data of one file are written. -/
theorem header_write (h : d.Ok) (hr : r ∈ d.roots) (hd : ∀ b ∉ (d.header r).blocks, d' b = d b)
    (hr' : r' ∈ d.roots) : d'.header r' = d.header r' := by
  refine header_congr (hd _ (h.notMem_blocks hr' hr List.mem_cons_self fun hm => ?_))
  by_cases e : r' = r
  · subst e
    exact (List.nodup_cons.mp (h.nodup hr)).1 hm
  · exact h.disjoint hr' hr e List.mem_cons_self (List.mem_cons_of_mem r hm)

/-- The other files after this. -/
theorem fileAt_write (h : d.Ok) (hr : r ∈ d.roots) (hd : ∀ b ∉ (d.header r).blocks, d' b = d b)
    (hr' : r' ∈ d.roots) (hne : r' ≠ r) : d'.fileAt r' = d.fileAt r' := by
  refine fileAt_congr (h.header r' hr') fun x hx => hd _ (h.notMem_blocks hr' hr hx fun hm => ?_)
  exact h.disjoint hr' hr hne hx (List.mem_cons_of_mem r hm)

/-- The table has all its entries. -/
theorem length_table (d : Disk) : d.table.length = numDirEntries := Codec.length_decodeAll _ _

theorem length_fileAt (d : Disk) (s : Int) : (d.fileAt s).length = (d.header s).numBytes.toNat :=
  OpenFile.length_contents _ _

theorem table_ok (h : d.Ok) : ∀ e ∈ d.table, e.Ok := fun e he => by
  refine Codec.ok_of_mem_decodeAll dirEntry_lawful ?_ he
  rw [length_fileAt, h.dir]
  decide

theorem freeMap_wf (d : Disk) : d.freeMap.Wf := by
  simp [Bitmap.Wf, freeMap, numSectors, bitsInWord]

/-- The sectors that are not in use are free. -/
theorem card_free (h : d.Ok) : d.freeMap.free.card = numSectors - d.allocated.length := by
  have hinj : ∀ x ∈ d.allocated, ∀ y ∈ d.allocated, x.toNat = y.toNat → x = y := by
    intro x hx y hy hxy
    have h₁ := (h.accounted.bound x hx).1
    have h₂ := (h.accounted.bound y hy).1
    omega
  have hsub : (d.allocated.map Int.toNat).toFinset ⊆ Finset.range numSectors := by
    intro i hi
    obtain ⟨x, hx, rfl⟩ := List.mem_map.mp (List.mem_toFinset.mp hi)
    have := h.accounted.bound x hx
    exact Finset.mem_range.mpr (by omega)
  have hfree : d.freeMap.free = Finset.range numSectors \ (d.allocated.map Int.toNat).toFinset := by
    ext i
    rw [Bitmap.mem_free, Finset.mem_sdiff, Finset.mem_range, List.mem_toFinset]
    change i < numSectors ∧ _ ↔ _
    refine and_congr_right fun hi => ?_
    rw [← Bool.not_eq_true, h.accounted.bits i hi, not_iff_not, List.mem_map]
    constructor
    · exact fun hm => ⟨i, hm, Int.toNat_natCast i⟩
    · rintro ⟨x, hx, rfl⟩
      rwa [Int.toNat_of_nonneg (h.accounted.bound x hx).1]
  rw [hfree, Finset.card_sdiff_of_subset hsub, Finset.card_range,
    List.toFinset_card_of_nodup (List.Nodup.map_on hinj h.accounted.nodup), List.length_map]

/-- The file of a name. -/
theorem files_eq_some (h : d.Ok) {k f : List Byte} :
    d.files k = some f ↔ ∃ e ∈ d.live, e.key = k ∧ d.fileAt e.sector = f := by
  unfold files
  constructor
  · intro hf
    obtain ⟨e, he, hf⟩ := Option.map_eq_some_iff.mp hf
    exact ⟨e, List.mem_of_find?_eq_some he, by simpa using List.find?_some he, hf⟩
  · rintro ⟨e, he, hk, hf⟩
    obtain ⟨e', he'⟩ := Option.isSome_iff_exists.mp
      (List.find?_isSome (p := fun e : DirectoryEntry => decide (e.key = k)).mpr ⟨e, he, by simpa using hk⟩)
    have hmem := List.mem_of_find?_eq_some he'
    have hkey : e'.key = k := by simpa using List.find?_some he'
    have := List.inj_on_of_nodup_map h.keys hmem he (hkey.trans hk.symm)
    rw [he', this, Option.map_some, hf]

theorem files_eq_none {k : List Byte} : d.files k = none ↔ ∀ e ∈ d.live, e.key ≠ k := by
  simp [files]

end Ok

/-! ## Writing back -/

/-- The headers of the free map and of the directory. -/
structure System (hm hd : FileHeader) : Prop where
  map : hm.Ok
  mapBytes : hm.numBytes = freeMapFileSize
  dir : hd.Ok
  dirBytes : hd.numBytes = directoryFileSize
  mapNodup : hm.blocks.Nodup
  dirNodup : hd.blocks.Nodup
  disjoint : hm.blocks.Disjoint hd.blocks

theorem Ok.system (h : d.Ok) : System (d.header freeMapSector) (d.header directorySector) where
  map := h.header _ (Ok.freeMap_mem d)
  mapBytes := h.map
  dir := h.header _ (Ok.directory_mem d)
  dirBytes := h.dir
  mapNodup := h.blocks_nodup (Ok.freeMap_mem d)
  dirNodup := h.blocks_nodup (Ok.directory_mem d)
  disjoint := by
    intro b hb hb'
    obtain ⟨x, hx, rfl⟩ := List.mem_map.mp hb
    have hmem : x ∈ d.sectorsAt freeMapSector := List.mem_cons_of_mem _ hx
    refine h.notMem_blocks (Ok.freeMap_mem d) (Ok.directory_mem d) hmem (fun hc => ?_) hb'
    exact h.disjoint (Ok.freeMap_mem d) (Ok.directory_mem d) (by decide) hmem
      (List.mem_cons_of_mem _ hc)

/-- The table and the free map are written back to the disk `d`. -/
structure Flushed (hm hd : FileHeader) (d d' : Disk) (t : Directory) (b : Bitmap) : Prop where
  frame : ∀ i, i ∉ hm.blocks → i ∉ hd.blocks → d' i = d i
  table : dirEntry.decodeAll numDirEntries (hd.contents d') = t
  map : word.decodeAll (numSectors / bitsInWord) (hm.contents d') = b.map

variable {hm hd : FileHeader} {t : Directory} {b : Bitmap} {mapFile dirFile : OpenFile}

/-- In either order. -/
theorem System.flush (h : System hm hd) (ht : t.length = numDirEntries) (htok : ∀ e ∈ t, e.Ok)
    (hb : b.map.length = numSectors / bitsInWord) (hmf : mapFile.hdr = hm) (hdf : dirFile.hdr = hd)
    (d : Disk) (m m' : Fresh) :
    (∃ d₁ d', t.writeBack d m dirFile = .ok d₁ ∧
      PersistentBitmap.writeBack b d₁ m' mapFile = .ok d' ∧ Flushed hm hd d d' t b) ∧
    ∃ d₁ d', PersistentBitmap.writeBack b d m mapFile = .ok d₁ ∧
      t.writeBack d₁ m' dirFile = .ok d' ∧ Flushed hm hd d d' t b := by
  subst hmf hdf
  constructor
  · obtain ⟨d₁, h₁, ht₁, hf₁⟩ :=
      Directory.writeBack_spec ht htok (d := d) h.dir h.dirBytes h.dirNodup m
    obtain ⟨d', h₂, hb₂, hf₂⟩ :=
      PersistentBitmap.writeBack_spec hb (d := d₁) h.map h.mapBytes h.mapNodup m'
    refine ⟨d₁, d', h₁, h₂, fun i him hid => (hf₂ i him).trans (hf₁ i hid), ?_, hb₂⟩
    rw [← ht₁]
    exact congrArg _ (Blocks.contents_congr h.dir.le_blocks fun i hi => hf₂ i fun hc => h.disjoint hc hi)
  · obtain ⟨d₁, h₁, hb₁, hf₁⟩ :=
      PersistentBitmap.writeBack_spec hb (d := d) h.map h.mapBytes h.mapNodup m
    obtain ⟨d', h₂, ht₂, hf₂⟩ :=
      Directory.writeBack_spec ht htok (d := d₁) h.dir h.dirBytes h.dirNodup m'
    refine ⟨d₁, d', h₁, h₂, fun i him hid => (hf₂ i hid).trans (hf₁ i him), ht₂, ?_⟩
    rw [← hb₁]
    exact congrArg _ (Blocks.contents_congr h.map.le_blocks fun i hi => hf₂ i (h.disjoint hi))

/-- What is on the disk then. -/
theorem Flushed.read (h : Flushed hm hd d d' t b) (hb : b.numBits = numSectors)
    (h₀ : d'.header freeMapSector = hm) (h₁ : d'.header directorySector = hd) :
    d'.table = t ∧ d'.freeMap = b := by
  refine ⟨?_, ?_⟩
  · rw [Disk.table, fileAt, h₁, h.table]
  · rw [Disk.freeMap, fileAt, h₀, h.map, ← hb]

/-! ## One file more, and one file less -/

/-- The sectors in use, with the file at `r` or without it. -/
theorem allocated_cons {r : Int} (hroots : d'.roots.Perm (r :: d.roots))
    (hold : ∀ r ∈ d.roots, d'.header r = d.header r) :
    d'.allocated.Perm (d'.sectorsAt r ++ d.allocated) := by
  have hsame : d.roots.flatMap d'.sectorsAt = d.roots.flatMap d.sectorsAt :=
    List.flatMap_congr fun r hr => by rw [sectorsAt, sectorsAt, hold r hr]
  have h₁ : (d'.roots.flatMap d'.sectorsAt).Perm ((r :: d.roots).flatMap d'.sectorsAt) :=
    hroots.flatMap_right _
  rw [List.flatMap_cons, hsame] at h₁
  exact ((allocated_perm d').trans h₁).trans ((allocated_perm d).symm.append_left _)

theorem roots_cons {e : DirectoryEntry} (h : d'.live.Perm (e :: d.live)) :
    d'.roots.Perm (e.sector :: d.roots) := by
  have h₁ : (d'.live.map DirectoryEntry.sector).Perm (e.sector :: d.live.map DirectoryEntry.sector) :=
    h.map _
  exact ((h₁.cons _).cons _).trans (((List.Perm.swap _ _ _).cons _).trans (.swap _ _ _))

/-- A file of a program is neither of the two of the system. -/
theorem Ok.live_ne (h : d.Ok) {e : DirectoryEntry} (he : e ∈ d.live) :
    e.sector ≠ (freeMapSector : Int) ∧ e.sector ≠ (directorySector : Int) := by
  obtain ⟨h₀, h₁⟩ := List.nodup_cons.mp h.roots_nodup
  obtain ⟨h₁, -⟩ := List.nodup_cons.mp h₁
  have hmem := List.mem_map_of_mem (f := DirectoryEntry.sector) he
  exact ⟨fun hc => h₀ (hc ▸ List.mem_cons_of_mem _ hmem), fun hc => h₁ (hc ▸ hmem)⟩

/-- All but the two files of the system are the same. -/
def Keeps (d d' : Disk) (rs : List Int) : Prop :=
  ∀ r ∈ rs, d'.header r = d.header r ∧
    (r ≠ (freeMapSector : Int) → r ≠ (directorySector : Int) → d'.fileAt r = d.fileAt r)

/-- What is written to the two files of the system, and to free sectors,
keeps all others. -/
theorem Ok.keeps (h : d.Ok) (hd : ∀ i : Nat, (i : Int) ∈ d.allocated →
    i ∉ (d.header freeMapSector).blocks → i ∉ (d.header directorySector).blocks → d' i = d i) :
    Keeps d d' d.roots := by
  have hm := Ok.freeMap_mem d
  have hdir := Ok.directory_mem d
  have hat : ∀ r ∈ d.roots, ∀ x ∈ d.sectorsAt r, x ∉ (d.header freeMapSector).sectors →
      x ∉ (d.header directorySector).sectors → d' x.toNat = d x.toNat := by
    intro r hr x hx h₀ h₁
    refine hd _ ?_ (h.notMem_blocks hr hm hx h₀) (h.notMem_blocks hr hdir hx h₁)
    rw [Int.toNat_of_nonneg (h.bound hr hx).1]
    exact mem_allocated hr hx
  have hout : ∀ r ∈ d.roots, ∀ r' ∈ d.roots, r ∉ (d.header r').sectors := by
    intro r hr r' hr' hc
    by_cases e : r = r'
    · subst e
      exact (List.nodup_cons.mp (h.nodup hr)).1 hc
    · exact h.disjoint hr hr' e List.mem_cons_self (List.mem_cons_of_mem r' hc)
  intro r hr
  refine ⟨header_congr (hat r hr r List.mem_cons_self (hout r hr _ hm) (hout r hr _ hdir)),
    fun h₀ h₁ => fileAt_congr (h.header r hr) fun x hx => hat r hr x hx ?_ ?_⟩
  · exact fun hc => h.disjoint hr hm h₀ hx (List.mem_cons_of_mem _ hc)
  · exact fun hc => h.disjoint hr hdir h₁ hx (List.mem_cons_of_mem _ hc)

/-- A file in the free sectors `sec` and `xs` is added. -/
theorem Ok.extend (h : d.Ok) {e : DirectoryEntry} {hdr : FileHeader} {sec : Nat} {size : Int}
    {xs : List Nat} (hsec : sec ∈ d.freeMap.free)
    (hall : FileHeader.Allocated (d.freeMap.put sec true) d'.freeMap size hdr xs) (hes : e.sector = sec)
    (hkey : ∀ e' ∈ d.live, e'.key ≠ e.key) (hlive : d'.live.Perm (e :: d.live))
    (hnew : d'.header sec = hdr) (hold : Keeps d d' d.roots) : d'.Ok := by
  have hwf := Ok.freeMap_wf d
  have hlt := (Bitmap.mem_free.mp hsec).1
  have hputs : d.freeMap.Puts d'.freeMap (sec :: xs) true := .cons hwf hlt hall.puts
  have hfree : ∀ x ∈ sec :: xs, x ∈ d.freeMap.free := by
    intro x hx
    rcases List.mem_cons.mp hx with rfl | hx
    · exact hsec
    · have := hall.free x hx
      rw [Bitmap.free_put_true hwf hlt] at this
      exact Finset.mem_of_mem_erase this
  have hnd : (sec :: xs).Nodup := by
    refine List.nodup_cons.mpr ⟨fun hc => ?_, hall.nodup⟩
    have := hall.free sec hc
    rw [Bitmap.free_put_true hwf hlt] at this
    exact Finset.notMem_erase _ _ this
  have hroots := hes ▸ roots_cons hlive
  have hsectors : d'.sectorsAt sec = (sec :: xs).map Int.ofNat := by
    rw [sectorsAt, hnew, hall.sectors]
    rfl
  have hperm := allocated_cons hroots fun r hr => (hold r hr).1
  rw [hsectors] at hperm
  have hmem : ∀ s, s ∈ d'.allocated ↔ (∃ x ∈ sec :: xs, (x : Int) = s) ∨ s ∈ d.allocated := by
    intro s
    rw [hperm.mem_iff, List.mem_append, List.mem_map]
    rfl
  refine ⟨?_, ?_, fun r hr => ?_, ?_, ?_, fun s hs => ?_, fun i hi => ?_⟩
  · rw [(hold _ (Ok.freeMap_mem d)).1, h.map]
  · rw [(hold _ (Ok.directory_mem d)).1, h.dir]
  · rcases List.mem_cons.mp (hroots.mem_iff.mp hr) with rfl | hr
    · rw [hnew]
      exact hall.ok
    · rw [(hold r hr).1]
      exact h.header r hr
  · refine (hlive.map _).nodup_iff.mpr (List.nodup_cons.mpr ⟨fun hc => ?_, h.keys⟩)
    obtain ⟨e', he', hk⟩ := List.mem_map.mp hc
    exact hkey e' he' hk
  · refine hperm.nodup_iff.mpr (List.nodup_append.mpr ⟨hnd.map fun _ _ => Int.ofNat.inj,
      h.accounted.nodup, ?_⟩)
    -- A free sector is not in use.
    rintro _ hx _ hs rfl
    obtain ⟨x, hxs, rfl⟩ := List.mem_map.mp hx
    obtain ⟨hlt, hbit⟩ := Bitmap.mem_free.mp (hfree x hxs)
    rw [(h.accounted.bits x hlt).mpr hs] at hbit
    cases hbit
  · rcases (hmem s).mp hs with ⟨x, hx, rfl⟩ | hs
    · have := (Bitmap.mem_free.mp (hfree x hx)).1
      exact ⟨Int.natCast_nonneg x, Int.ofNat_lt.mpr this⟩
    · exact h.accounted.bound s hs
  · rw [hputs.bit, hmem]
    simp only [Int.natCast_inj, exists_eq_right]
    split
    · rename_i hx
      simp [hx]
    · rename_i hx
      rw [h.accounted.bits i hi]
      simp [hx]

/-- The files then. -/
theorem Ok.files_extend (h : d.Ok) (h' : d'.Ok) {e : DirectoryEntry}
    (hlive : d'.live.Perm (e :: d.live)) (hold : Keeps d d' d.roots) :
    d'.files = Function.update d.files e.key (some (d'.fileAt e.sector)) := by
  have hfile : ∀ e' ∈ d.live, d'.fileAt e'.sector = d.fileAt e'.sector := fun e' he' =>
    (hold _ (Ok.live_mem he')).2 (h.live_ne he').1 (h.live_ne he').2
  have hmem : ∀ e', e' ∈ d'.live ↔ e' = e ∨ e' ∈ d.live := fun e' => by
    rw [hlive.mem_iff, List.mem_cons]
  funext k
  by_cases ek : k = e.key
  · subst ek
    rw [Function.update_self]
    exact h'.files_eq_some.mpr ⟨e, (hmem e).mpr (.inl rfl), rfl, rfl⟩
  · rw [Function.update_of_ne ek]
    refine Option.ext fun f => ?_
    rw [h'.files_eq_some, h.files_eq_some]
    constructor
    · rintro ⟨e', he', hk, hf⟩
      rcases (hmem e').mp he' with rfl | he'
      · exact absurd hk.symm ek
      · exact ⟨e', he', hk, hfile e' he' ▸ hf⟩
    · rintro ⟨e', he', hk, hf⟩
      exact ⟨e', (hmem e').mpr (.inr he'), hk, (hfile e' he').trans hf⟩

/-- The file of `e` is taken away. -/
theorem Ok.shrink (h : d.Ok) {e : DirectoryEntry} (hlive : d.live.Perm (e :: d'.live))
    (hputs : d.freeMap.Puts d'.freeMap (e.sector.toNat :: (d.header e.sector).blocks) false)
    (hold : Keeps d d' d'.roots) : d'.Ok := by
  have hroots := roots_cons hlive
  have hsub : ∀ r ∈ d'.roots, r ∈ d.roots := fun r hr => hroots.mem_iff.mpr (List.mem_cons_of_mem _ hr)
  have hmemR : e.sector ∈ d.roots := hroots.mem_iff.mpr List.mem_cons_self
  have hperm := allocated_cons hroots fun r hr => ((hold r hr).1).symm
  have hnd := List.nodup_append.mp (hperm.nodup_iff.mp h.accounted.nodup)
  have hblocks : ∀ i : Nat, i ∈ e.sector.toNat :: (d.header e.sector).blocks ↔
      (i : Int) ∈ d.sectorsAt e.sector := by
    intro i
    have hmap : e.sector.toNat :: (d.header e.sector).blocks = (d.sectorsAt e.sector).map Int.toNat := rfl
    rw [hmap, List.mem_map]
    constructor
    · rintro ⟨x, hx, rfl⟩
      rwa [Int.toNat_of_nonneg (h.bound hmemR hx).1]
    · exact fun hi => ⟨i, hi, Int.toNat_natCast i⟩
  have h₀ := hold _ (Ok.freeMap_mem d')
  have h₁ := hold _ (Ok.directory_mem d')
  refine ⟨by rw [h₀.1, h.map], by rw [h₁.1, h.dir], fun r hr => ?_, ?_, hnd.2.1, fun s hs => ?_,
    fun i hi => ?_⟩
  · rw [(hold r hr).1]
    exact h.header r (hsub r hr)
  · exact (List.nodup_cons.mp ((hlive.map DirectoryEntry.key).nodup_iff.mp h.keys)).2
  · exact h.accounted.bound s (hperm.mem_iff.mpr (List.mem_append_right _ hs))
  · rw [hputs.bit]
    split
    · rename_i hx
      refine ⟨(by cases ·), fun hs => ?_⟩
      exact absurd rfl (hnd.2.2 _ ((hblocks i).mp hx) _ hs)
    · rename_i hx
      rw [h.accounted.bits i hi, hperm.mem_iff, List.mem_append]
      exact ⟨fun hs => hs.resolve_left fun hc => hx ((hblocks i).mpr hc), .inr⟩

/-- The files then. -/
theorem Ok.files_shrink (h : d.Ok) (h' : d'.Ok) {e : DirectoryEntry}
    (hlive : d.live.Perm (e :: d'.live)) (hold : Keeps d d' d'.roots) :
    d'.files = Function.update d.files e.key none := by
  have hback := h'.files_extend h hlive fun r hr =>
    ⟨((hold r hr).1).symm, fun h₀ h₁ => ((hold r hr).2 h₀ h₁).symm⟩
  have hkey : ∀ e' ∈ d'.live, e'.key ≠ e.key := fun e' he' hk =>
    (List.nodup_cons.mp ((hlive.map DirectoryEntry.key).nodup_iff.mp h.keys)).1
      (hk ▸ List.mem_map_of_mem he')
  rw [hback, Function.update_idem]
  exact (Function.update_eq_self_iff.mpr (Ok.files_eq_none.mpr hkey).symm).symm

/-- The data of one file is written. -/
theorem Ok.of_same (h : d.Ok) (hlive : d'.live = d.live)
    (hhead : ∀ r ∈ d.roots, d'.header r = d.header r)
    (hmap : d'.fileAt freeMapSector = d.fileAt freeMapSector) : d'.Ok := by
  have hroots : d'.roots = d.roots := by rw [roots, roots, hlive]
  have hall : d'.allocated = d.allocated := by
    rw [allocated, allocated, hlive, hhead _ (Ok.freeMap_mem d), hhead _ (Ok.directory_mem d)]
    exact congrArg (_ ++ ·) (List.flatMap_congr fun e he => by rw [hhead _ (Ok.live_mem he)])
  have hfree : d'.freeMap = d.freeMap := by rw [freeMap, freeMap, hmap]
  refine ⟨?_, ?_, fun r hr => ?_, hlive ▸ h.keys, hall ▸ h.accounted.nodup, hall ▸ h.accounted.bound, ?_⟩
  · rw [hhead _ (Ok.freeMap_mem d), h.map]
  · rw [hhead _ (Ok.directory_mem d), h.dir]
  · rw [hroots] at hr
    rw [hhead r hr]
    exact h.header r hr
  · rw [hall, hfree]
    exact h.accounted.bits

theorem Ok.files_write (h : d.Ok) (h' : d'.Ok) (hlive : d'.live = d.live) {e : DirectoryEntry}
    (he : e ∈ d.live) (hfile : ∀ r ∈ d.roots, r ≠ e.sector → d'.fileAt r = d.fileAt r) :
    d'.files = Function.update d.files e.key (some (d'.fileAt e.sector)) := by
  have hinj : ∀ e' ∈ d.live, e'.sector = e.sector → e' = e := fun e' he' hs => by
    have hnd := (List.nodup_cons.mp (List.nodup_cons.mp h.roots_nodup).2).2
    exact List.inj_on_of_nodup_map hnd he' he hs
  funext k
  by_cases ek : k = e.key
  · subst ek
    rw [Function.update_self]
    exact h'.files_eq_some.mpr ⟨e, hlive ▸ he, rfl, rfl⟩
  · rw [Function.update_of_ne ek]
    refine Option.ext fun f => ?_
    rw [h'.files_eq_some, h.files_eq_some, hlive]
    refine exists_congr fun e' => and_congr_right fun he' => and_congr_right fun hk => ?_
    have hne : e'.sector ≠ e.sector := fun hs => ek (hinj e' he' hs ▸ hk.symm)
    rw [hfile _ (Ok.live_mem he') hne]

end Disk

end Nachos
