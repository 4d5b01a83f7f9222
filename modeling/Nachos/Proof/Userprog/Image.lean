import Nachos.Impl.Userprog.AddrSpace
import Nachos.Proof.Userprog.Memory

/-!
# Demand paging and the image of an executable

`load_eq` says what `AddrSpace::Load` builds: at each address the byte that the
segment there has in the file, or 0. A page fault reads at one linear offset
from `code.inFileAddr` instead, and leaves in the frame what the file is too
short for (`pageFaultHandler_frame`). `pageFaultHandler_load_iff` is exactly
when the two agree on a page.
-/

namespace Nachos

open Framework

/-- The byte at a position of a file. -/
def fileByte (f : List Byte) (pos : Int) : Option Byte := if 0 ≤ pos then f[pos.toNat]? else none

namespace Segment

/-- An address in the segment. -/
def Covers (g : Segment) (a : Int) : Prop := g.virtualAddr ≤ a ∧ a < g.virtualAddr + g.size

instance (g : Segment) (a : Int) : Decidable (g.Covers a) := inferInstanceAs (Decidable (_ ∧ _))

/-- The place of an address in the file. -/
def position (g : Segment) (a : Int) : Int := g.inFileAddr + (a - g.virtualAddr)

/-- No address is in both. -/
def Apart (g g' : Segment) : Prop := ∀ a, ¬ (g.Covers a ∧ g'.Covers a)

/-- The segment is in an address space of `size` bytes. -/
def Inside (g : Segment) (size : Nat) : Prop := ∀ a, g.Covers a → 0 ≤ a ∧ a < size

theorem apart_iff {g g' : Segment} : g.Apart g' ↔ g.size ≤ 0 ∨ g'.size ≤ 0 ∨
    g.virtualAddr + g.size ≤ g'.virtualAddr ∨ g'.virtualAddr + g'.size ≤ g.virtualAddr := by
  constructor
  · intro h
    have := h (max g.virtualAddr g'.virtualAddr)
    unfold Covers at this
    omega
  · intro h a
    unfold Covers
    omega

instance (g g' : Segment) : Decidable (g.Apart g') := decidable_of_iff _ apart_iff.symm

theorem inside_iff {g : Segment} {size : Nat} :
    g.Inside size ↔ g.size ≤ 0 ∨ 0 ≤ g.virtualAddr ∧ g.virtualAddr + g.size ≤ size := by
  constructor
  · intro h
    have h₁ := h g.virtualAddr
    have h₂ := h (g.virtualAddr + g.size - 1)
    unfold Covers at h₁ h₂
    omega
  · intro h a ha
    unfold Covers at ha
    omega

instance (g : Segment) (size : Nat) : Decidable (g.Inside size) := decidable_of_iff _ inside_iff.symm

/-- Its place in the file can be sought: `Lseek` aborts on a negative one. -/
def Seekable (g : Segment) : Prop := 0 < g.size → 0 ≤ g.inFileAddr

instance (g : Segment) : Decidable g.Seekable := inferInstanceAs (Decidable (_ → _))

end Segment

namespace AddrSpace

variable {limit : Nat} {f : List Byte} {m m' : Nat → Byte}

theorem loadSegment_eq {g : Segment} (h : loadSegment limit f m g = .ok m') (a : Nat) :
    m' a = if g.Covers a then (fileByte f (g.position a)).getD (m a) else m a := by
  unfold loadSegment at h
  split at h
  · obtain ⟨bs, hbs, h⟩ := bind_eq_ok.mp h
    obtain ⟨_, hd, h⟩ := bind_eq_ok.mp h
    obtain ⟨hpos, rfl⟩ := Vm.readAt_eq_ok.mp hbs
    obtain ⟨hv, -⟩ := defined_eq_ok.mp hd
    cases h
    rw [Vm.blit_apply]
    by_cases hc : g.Covers a
    · obtain ⟨h₁, h₂⟩ := hc
      have hp : 0 ≤ g.position a := by unfold Segment.position; omega
      have ht : (g.position a).toNat = g.inFileAddr.toNat + (a - g.virtualAddr.toNat) := by
        unfold Segment.position
        omega
      rw [if_pos (by omega), if_pos ⟨h₁, h₂⟩, fileByte, if_pos hp, ht, List.getElem?_take,
        if_pos (by omega), List.getElem?_drop]
    · rw [if_neg hc]
      split
      · have : ¬ a - g.virtualAddr.toNat < g.size.toNat := by
          unfold Segment.Covers at hc
          omega
        rw [List.getElem?_take, if_neg this]
        rfl
      · rfl
  · rename_i hs
    cases h
    rw [if_neg fun hc => hs (by unfold Segment.Covers at hc; omega)]

theorem loadSegment_ok {g : Segment} (hi : g.Inside limit) (hs : g.Seekable) (m : Nat → Byte) :
    ∃ m', loadSegment limit f m g = .ok m' := by
  unfold loadSegment
  split
  · rename_i hsize
    have h₁ := hi g.virtualAddr ⟨Int.le_refl _, by omega⟩
    have h₂ := hi (g.virtualAddr + g.size - 1) ⟨by omega, by omega⟩
    have hlen : ((f.drop g.inFileAddr.toNat).take g.size.toNat).length ≤ g.size.toNat :=
      List.length_take_le ..
    rw [Vm.readAt_eq_ok.mpr ⟨hs hsize, rfl⟩, ok_bind, defined_of ⟨h₁.1, by omega⟩]
    exact ⟨_, rfl⟩
  · exact ⟨m, rfl⟩

/-- The segments one after the other. -/
theorem loadSegments_ok {gs : List Segment} (hi : ∀ g ∈ gs, g.Inside limit)
    (hs : ∀ g ∈ gs, g.Seekable) (m : Nat → Byte) :
    ∃ m', gs.foldlM (loadSegment limit f) m = .ok m' := by
  induction gs generalizing m with
  | nil => exact ⟨m, rfl⟩
  | cons g gs ih =>
    obtain ⟨m₁, h₁⟩ := loadSegment_ok (f := f) (hi g List.mem_cons_self) (hs g List.mem_cons_self) m
    obtain ⟨m₂, h₂⟩ := ih (fun g' hg => hi g' (List.mem_cons_of_mem g hg))
      (fun g' hg => hs g' (List.mem_cons_of_mem g hg)) m₁
    exact ⟨m₂, by rw [List.foldlM_cons, h₁]; exact h₂⟩

/-- An address outside of all segments is left alone. -/
theorem loadSegments_gap {gs : List Segment} (h : gs.foldlM (loadSegment limit f) m = .ok m')
    {a : Nat} (ha : ∀ g ∈ gs, ¬ g.Covers a) : m' a = m a := by
  induction gs generalizing m with
  | nil =>
    cases h
    rfl
  | cons g gs ih =>
    rw [List.foldlM_cons] at h
    obtain ⟨m₁, h₁, h⟩ := bind_eq_ok.mp h
    rw [ih h fun g' hg => ha g' (List.mem_cons_of_mem g hg), loadSegment_eq h₁,
      if_neg (ha g List.mem_cons_self)]

/-- An address in one of them gets the byte of the file. -/
theorem loadSegments_covered {gs : List Segment} (hd : gs.Pairwise Segment.Apart)
    (h : gs.foldlM (loadSegment limit f) m = .ok m') {g : Segment} (hg : g ∈ gs) {a : Nat}
    (ha : g.Covers a) : m' a = (fileByte f (g.position a)).getD (m a) := by
  induction gs generalizing m with
  | nil => cases hg
  | cons g₁ gs ih =>
    rw [List.foldlM_cons] at h
    obtain ⟨m₁, h₁, hrest⟩ := bind_eq_ok.mp h
    obtain ⟨hapart, hd⟩ := List.pairwise_cons.mp hd
    rcases List.mem_cons.mp hg with rfl | hg
    · -- The segments behind it do not reach the address.
      rw [loadSegments_gap hrest fun g' hg' hc => hapart g' hg' a ⟨ha, hc⟩, loadSegment_eq h₁,
        if_pos ha]
    · rw [ih hd hrest hg, loadSegment_eq h₁, if_neg fun hc => hapart g hg a ⟨hc, ha⟩]

end AddrSpace

namespace Vm

variable {cfg : Config} {env : Env} {s s₁ s' : Vm} {ppn : Int}

theorem mapRPT_memory {tid : Nat} {vpn : Int} (h : s.mapRPT cfg env tid vpn ppn = .ok s') :
    s'.mainMemory = s.mainMemory := by
  obtain ⟨pt, -, h⟩ := bind_eq_ok.mp h
  obtain ⟨pt', -, h⟩ := bind_eq_ok.mp h
  cases h
  rfl

theorem mapLinear_memory {tid : Nat} {vpn : Int} (h : s.mapLinear cfg env tid vpn ppn = .ok s') :
    s'.mainMemory = s.mainMemory := by
  obtain ⟨cur, -, h⟩ := bind_eq_ok.mp h
  obtain ⟨sp, -, h⟩ := bind_eq_ok.mp h
  obtain ⟨pt, -, h⟩ := bind_eq_ok.mp h
  obtain ⟨pt', -, h⟩ := bind_eq_ok.mp h
  simp only at h
  split at h
  · obtain ⟨cur', -, h⟩ := bind_eq_ok.mp h
    obtain ⟨page, -, h⟩ := bind_eq_ok.mp h
    obtain ⟨vmFile, -, h⟩ := bind_eq_ok.mp h
    cases h
    rfl
  · cases h
    rfl

/-- `loadPageFrame` copies what the file has from `fileAddr` on. -/
theorem loadPageFrame_memory {tid : Nat} {vpn fileAddr : Int} {f : List Byte}
    (h : s.loadPageFrame cfg env tid vpn ppn fileAddr f = .ok s') :
    0 ≤ fileAddr ∧ 0 ≤ ppn ∧ s'.mainMemory = blit s.mainMemory (ppn.toNat * pageSize)
      ((f.drop fileAddr.toNat).take pageSize) := by
  obtain ⟨s₁, hm, h⟩ := bind_eq_ok.mp h
  obtain ⟨page, hp, h⟩ := bind_eq_ok.mp h
  obtain ⟨hpos, rfl⟩ := readAt_eq_ok.mp hp
  obtain ⟨hppn, -, rfl⟩ := store_eq_ok.mp h
  have hmem : s₁.mainMemory = s.mainMemory := by
    split at hm
    · exact mapRPT_memory hm
    · exact mapLinear_memory hm
  have hn : 0 ≤ ppn := by
    unfold pageSize at hppn
    omega
  refine ⟨hpos, hn, ?_⟩
  rw [← hmem]
  show blit s₁.mainMemory (ppn * pageSize).toNat _ = _
  rw [Int.toNat_mul hn (by omega), Int.toNat_natCast]

/-- What a page fault does to main memory. -/
theorem pageFaultHandler_memory {p : Program} {vaddr : Int}
    (hp : s.program s.currentThread = some p) (hf : s.pageFrame cfg = .ok (s₁, ppn))
    (h : s.pageFaultHandler cfg env vaddr = .ok s') :
    0 ≤ p.inFileAddr + vaddr.tdiv pageSize * pageSize ∧
      s'.mainMemory = blit s.mainMemory (ppn.toNat * pageSize)
        ((p.executable.drop (p.inFileAddr + vaddr.tdiv pageSize * pageSize).toNat).take pageSize) := by
  obtain ⟨⟨s₂, q⟩, hf₂, h⟩ := bind_eq_ok.mp h
  obtain ⟨rfl, rfl⟩ := Prod.mk.inj (Except.ok.inj (hf.symm.trans hf₂))
  obtain ⟨b, rfl⟩ := pageFrame_eq hf
  obtain ⟨sp, hsp, h⟩ := bind_eq_ok.mp h
  obtain ⟨a, ha, h⟩ := bind_eq_ok.mp h
  obtain ⟨u, hu, hus⟩ := space_eq_ok.mp hsp
  have hprog : sp.program = p := by
    have hu : s.thread s.currentThread = some u := hu
    rw [program, hu] at hp
    simpa [hus] using hp
  obtain ⟨_, -, ha⟩ := bind_eq_ok.mp ha
  cases ha
  rw [hprog] at h
  obtain ⟨hpos, -, hm⟩ := loadPageFrame_memory h
  exact ⟨hpos, hm⟩

/-- What it leaves in its frame: the executable's bytes at the linear offset,
and behind the end of the file what was there. -/
theorem pageFaultHandler_frame {p : Program} {vaddr : Int}
    (hp : s.program s.currentThread = some p) (hf : s.pageFrame cfg = .ok (s₁, ppn))
    (h : s.pageFaultHandler cfg env vaddr = .ok s') {i : Nat} (hi : i < pageSize) :
    s'.mainMemory (ppn.toNat * pageSize + i) =
      (fileByte p.executable (p.inFileAddr + (vaddr.tdiv pageSize * pageSize + i))).getD
        (s.mainMemory (ppn.toNat * pageSize + i)) := by
  obtain ⟨hpos, hm⟩ := pageFaultHandler_memory hp hf h
  rw [hm, blit_apply, if_pos (by omega), Nat.add_sub_cancel_left, List.getElem?_take, if_pos hi,
    List.getElem?_drop, fileByte, if_pos (by omega)]
  congr 3
  omega

end Vm

/-- At the address `a` the linear offset finds what the header has there, in a
frame that held `old`. -/
structure NoffHeader.Found (noffH : NoffHeader) (f : List Byte) (old : Byte) (a : Int) : Prop where
  segment : ∀ g ∈ noffH.loaded, g.Covers a →
    (fileByte f (noffH.code.inFileAddr + a)).getD old = (fileByte f (g.position a)).getD 0
  blank : (∀ g ∈ noffH.loaded, ¬ g.Covers a) →
    (fileByte f (noffH.code.inFileAddr + a)).getD old = 0

theorem NoffHeader.found_iff {noffH : NoffHeader} {f : List Byte} {old : Byte} {a : Int} :
    noffH.Found f old a ↔
      (∀ g ∈ noffH.loaded, g.Covers a →
        (fileByte f (noffH.code.inFileAddr + a)).getD old = (fileByte f (g.position a)).getD 0) ∧
      ((∀ g ∈ noffH.loaded, ¬ g.Covers a) → (fileByte f (noffH.code.inFileAddr + a)).getD old = 0) :=
  ⟨fun h => ⟨h.segment, h.blank⟩, fun h => ⟨h.1, h.2⟩⟩

instance (noffH : NoffHeader) (f : List Byte) (old : Byte) (a : Int) :
    Decidable (noffH.Found f old a) :=
  decidable_of_iff _ NoffHeader.found_iff.symm

/-- The frame `ppn` holds the page `vpn` of an image. -/
def Vm.Agrees (s : Vm) (ppn vpn : Int) (image : Nat → Byte) : Prop :=
  ∀ i < pageSize, s.mainMemory (ppn.toNat * pageSize + i) = image (vpn.toNat * pageSize + i)

/-- The image, an address at a time. -/
theorem AddrSpace.load_eq {limit : Nat} {f : List Byte} {noffH : NoffHeader}
    (hh : NoffHeader.read f = .ok noffH) (hd : noffH.loaded.Pairwise Segment.Apart) {n : Nat}
    {image : Nat → Byte} (h : load limit (fun _ => 0) f = .ok (n, image)) (a : Nat) (b : Byte) :
    b = image a ↔ (∀ g ∈ noffH.loaded, g.Covers a → b = (fileByte f (g.position a)).getD 0) ∧
      ((∀ g ∈ noffH.loaded, ¬ g.Covers a) → b = 0) := by
  obtain ⟨noffH', hh', h⟩ := bind_eq_ok.mp h
  obtain rfl := Except.ok.inj (hh.symm.trans hh')
  obtain ⟨size, -, h⟩ := bind_eq_ok.mp h
  obtain ⟨m, hm, h⟩ := bind_eq_ok.mp h
  cases h
  by_cases hc : ∃ g ∈ noffH.loaded, g.Covers a
  · obtain ⟨g, hg, hga⟩ := hc
    refine ⟨fun hb => ⟨fun g' hg' hc => ?_, fun hn => absurd hga (hn g hg)⟩, fun hb => ?_⟩
    · rw [hb, loadSegments_covered hd hm hg' hc]
    · rw [hb.1 g hg hga, loadSegments_covered hd hm hg hga]
  · have hn : ∀ g ∈ noffH.loaded, ¬ g.Covers a := fun g hg hga => hc ⟨g, hg, hga⟩
    rw [loadSegments_gap hm hn]
    exact ⟨fun hb => ⟨fun g hg hga => absurd hga (hn g hg), fun _ => hb⟩, fun hb => hb.2 hn⟩

/-- `Load` builds an image of every executable that fits into the memory. -/
theorem AddrSpace.load_ok {limit : Nat} {cfg : Config} {f : List Byte} {p : Program}
    {noffH : NoffHeader} (hp : Program.new cfg f = .ok p) (hh : NoffHeader.read f = .ok noffH)
    (hi : ∀ g ∈ noffH.loaded, g.Inside limit) (hs : ∀ g ∈ noffH.loaded, g.Seekable)
    (m : Nat → Byte) : ∃ n image, load limit m f = .ok (n, image) := by
  obtain ⟨noffH', hh', h⟩ := bind_eq_ok.mp hp
  obtain rfl := Except.ok.inj (hh.symm.trans hh')
  obtain ⟨size, hsize, -⟩ := bind_eq_ok.mp h
  obtain ⟨m', hm⟩ := loadSegments_ok (f := f) hi hs m
  refine ⟨divRoundUp (BitVec.ofInt 32 size).toNat pageSize, m', ?_⟩
  simp only [load, hh, hsize, hm, ok_bind, pure_eq_ok]

/-- A page fault brings in the page that `AddrSpace::Load` would have put there
exactly when the linear offset finds what the header has at each of its
addresses. -/
theorem Vm.pageFaultHandler_load_iff {cfg : Config} {env : Env} {f : List Byte} {p : Program}
    {noffH : NoffHeader} (hp : Program.new cfg f = .ok p) (hh : NoffHeader.read f = .ok noffH)
    (hd : noffH.segments.Pairwise Segment.Apart)
    (hi : ∀ g ∈ noffH.segments, g.Inside (p.numPages * pageSize))
    (hk : ∀ g ∈ noffH.loaded, g.Seekable) {limit : Nat} (hl : p.numPages * pageSize ≤ limit)
    {s s₁ s' : Vm} {vaddr ppn : Int} (hs : s.program s.currentThread = some p) (hv : 0 ≤ vaddr)
    (hf : s.pageFrame cfg = .ok (s₁, ppn)) (h : s.pageFaultHandler cfg env vaddr = .ok s') :
    ∃ n image, AddrSpace.load limit (fun _ => 0) f = .ok (n, image) ∧
      (s'.Agrees ppn (vaddr.tdiv pageSize) image ↔
        ∀ i < pageSize, noffH.Found f (s.mainMemory (ppn.toNat * pageSize + i))
          (vaddr.tdiv pageSize * pageSize + i)) := by
  have hsub : ∀ g ∈ noffH.loaded, g ∈ noffH.segments := fun g hg => List.mem_append_left _ hg
  have hin : ∀ g ∈ noffH.loaded, g.Inside limit := fun g hg a ha => by
    have := hi g (hsub g hg) a ha
    omega
  obtain ⟨n, image, himage⟩ := AddrSpace.load_ok hp hh hin hk fun _ => 0
  refine ⟨n, image, himage, forall_congr' fun i => forall_congr' fun hlt => ?_⟩
  have hp' : p.executable = f ∧ p.inFileAddr = noffH.code.inFileAddr := by
    obtain ⟨noffH', hh', hp⟩ := bind_eq_ok.mp hp
    obtain rfl := Except.ok.inj (hh.symm.trans hh')
    obtain ⟨size, -, hp⟩ := bind_eq_ok.mp hp
    obtain ⟨_, -, hp⟩ := bind_eq_ok.mp hp
    cases hp
    exact ⟨rfl, rfl⟩
  have ha : (((vaddr.tdiv pageSize).toNat * pageSize + i : Nat) : Int) =
      vaddr.tdiv pageSize * pageSize + i := by
    have := Int.tdiv_nonneg hv (show (0 : Int) ≤ pageSize by decide)
    push_cast
    rw [Int.toNat_of_nonneg this]
  rw [AddrSpace.load_eq hh (List.pairwise_append.mp hd).1 himage, ha,
    pageFaultHandler_frame hs hf h hlt, hp'.1, hp'.2]
  exact NoffHeader.found_iff.symm

/-- The bytes of a header. -/
def NoffHeader.encode (h : NoffHeader) : List Byte :=
  int.encodeAll (h.noffMagic ::
    h.segments.flatMap fun g => [g.virtualAddr, g.inFileAddr, g.size])

/-- Four bytes of code in the first page and four of data in the second, one
after the other in the file. -/
def twoPages : NoffHeader := ⟨noffMagic, ⟨0, 52, 4⟩, ⟨128, 56, 4⟩, ⟨0, 0, 0⟩, ⟨132, 0, 4⟩⟩

def twoPagesFile : List Byte := twoPages.encode ++ [1, 2, 3, 4, 5, 6, 7, 8]

namespace Vm

/-- Code and data one after the other, in the file and in the first page. -/
def dataPage : NoffHeader := ⟨noffMagic, ⟨0, 52, 4⟩, ⟨4, 56, 4⟩, ⟨0, 0, 0⟩, ⟨8, 0, 4⟩⟩

def dataPageFile : List Byte := dataPage.encode ++ [1, 2, 3, 4, 5, 6, 7, 8]

/-- The page with the code and the data, and one of the stack: in a fresh frame they are
as `Load` leaves them. -/
theorem pageFaultHandler_load_iff_data : ∃ (s : Vm) (n : Nat) (image : Nat → Byte),
    s.program s.currentThread = some ⟨dataPageFile, 52, 9⟩ ∧
    AddrSpace.load memorySize (fun _ => 0) dataPageFile = .ok (n, image) ∧
    (∃ s', s.pageFaultHandler ⟨false, true, false, false⟩ .blank 0 = .ok s' ∧
      s'.Agrees 0 0 image ∧ s'.mainMemory 3 = 4 ∧ s'.mainMemory 4 = 5) ∧
    ∃ s', s.pageFaultHandler ⟨false, true, false, false⟩ .blank 256 = .ok s' ∧
      s'.Agrees 0 2 image := by
  obtain ⟨s, -, hp⟩ := System.exists_reachable (start ⟨false, true, false, false⟩)
    (next ⟨false, true, false, false⟩)
    ([.create (some ⟨dataPageFile, 52, 9⟩), .run 1].map fun op => (op, Env.blank))
    (p := fun s => s.program s.currentThread = some ⟨dataPageFile, 52, 9⟩ ∧
      (s.pageFrame ⟨false, true, false, false⟩).toOption.any (fun x => x.2 = 0) = true ∧
      (s.pageFaultHandler ⟨false, true, false, false⟩ .blank 0).toOption.any
        (fun s' => s'.mainMemory 3 = 4 ∧ s'.mainMemory 4 = 5) = true ∧
      (s.pageFaultHandler ⟨false, true, false, false⟩ .blank 256).toOption.isSome = true ∧
      ∀ i < pageSize, s.mainMemory i = 0)
    (by decide +kernel)
  obtain ⟨hs, hf, hdata, hstack, hm⟩ := of_decide_eq_true hp
  obtain ⟨⟨s₁, ppn⟩, hf, h0⟩ := exists_ok hf
  obtain ⟨s₂, hdata, hbytes⟩ := exists_ok hdata
  obtain ⟨s₃, hstack, -⟩ := exists_ok (q := fun _ => true) (by simpa using hstack)
  obtain rfl : ppn = 0 := of_decide_eq_true h0
  -- The frame is fresh, so that what is behind the end of the file is 0.
  have hfound : ∀ vpn ∈ [(0 : Int), 2], ∀ i < pageSize, dataPage.Found dataPageFile
      (s.mainMemory ((0 : Int).toNat * pageSize + i)) (vpn * pageSize + i) := by
    have hzero : ∀ vpn ∈ [(0 : Int), 2], ∀ i < pageSize,
        dataPage.Found dataPageFile 0 (vpn * pageSize + i) := by
      decide +kernel
    intro vpn hv i hi
    have h0 : s.mainMemory ((0 : Int).toNat * pageSize + i) = 0 := by simpa using hm i hi
    rw [h0]
    exact hzero vpn hv i hi
  obtain ⟨n, image, hl, hiff⟩ := @pageFaultHandler_load_iff ⟨false, true, false, false⟩ .blank
    dataPageFile ⟨dataPageFile, 52, 9⟩ dataPage (by decide +kernel) (by decide +kernel) (by decide)
    (by decide) (by decide) memorySize (by decide) s s₁ s₂ 0 0 hs (by decide) hf hdata
  obtain ⟨n', image', hl', hiff'⟩ := @pageFaultHandler_load_iff ⟨false, true, false, false⟩ .blank
    dataPageFile ⟨dataPageFile, 52, 9⟩ dataPage (by decide +kernel) (by decide +kernel) (by decide)
    (by decide) (by decide) memorySize (by decide) s s₁ s₃ 256 0 hs (by decide) hf hstack
  obtain ⟨rfl, rfl⟩ := Prod.mk.inj (Except.ok.inj (hl.symm.trans hl'))
  exact ⟨s, n, image, hs, hl, ⟨s₂, hdata, hiff.mpr (hfound 0 (by decide)), of_decide_eq_true hbytes⟩,
    s₃, hstack, hiff'.mpr (hfound 2 (by decide))⟩

/-- The page with the data is not in the file at the linear offset: a fresh
frame stays zero, where `Load` puts the data. -/
theorem not_pageFaultHandler_load : ¬ ∀ (cfg : Config) (env : Env) (f : List Byte) (p : Program)
    (noffH : NoffHeader) (s s₁ s' : Vm) (vaddr ppn : Int) (n : Nat) (image : Nat → Byte),
    Program.new cfg f = .ok p → NoffHeader.read f = .ok noffH →
    noffH.segments.Pairwise Segment.Apart →
    (∀ g ∈ noffH.segments, g.Inside (p.numPages * pageSize)) →
    AddrSpace.load memorySize (fun _ => 0) f = .ok (n, image) →
    (System.ofFun (start cfg) (next cfg)).Reachable s → s.program s.currentThread = some p →
    0 ≤ vaddr → vaddr.tdiv pageSize < p.numPages → s.faults cfg env vaddr = true →
    s.pageFrame cfg = .ok (s₁, ppn) → s.pageFaultHandler cfg env vaddr = .ok s' →
    s'.Agrees ppn (vaddr.tdiv pageSize) image := by
  intro hall
  obtain ⟨s, hr, hp⟩ := System.exists_reachable (start ⟨false, true, false, false⟩)
    (next ⟨false, true, false, false⟩)
    ([.create (some ⟨twoPagesFile, 52, 9⟩), .run 1].map fun op => (op, Env.blank))
    (p := fun s => s.program s.currentThread = some ⟨twoPagesFile, 52, 9⟩ ∧
      s.faults ⟨false, true, false, false⟩ .blank 128 = true ∧
      (s.pageFrame ⟨false, true, false, false⟩).toOption.any (fun x => x.2 = 0) = true ∧
      (s.pageFaultHandler ⟨false, true, false, false⟩ .blank 128).toOption.any
        (fun s' => s'.mainMemory 0 = 0) = true)
    (by decide +kernel)
  obtain ⟨hs, hfault, hf, hh⟩ := of_decide_eq_true hp
  obtain ⟨⟨s₁, ppn⟩, hf, h0⟩ := exists_ok hf
  obtain ⟨s', hh, hz⟩ := exists_ok hh
  obtain rfl : ppn = 0 := of_decide_eq_true h0
  obtain ⟨⟨n, image⟩, hl, h5⟩ := exists_ok (x := AddrSpace.load memorySize (fun _ => 0) twoPagesFile)
    (q := fun y => y.2 128 = 5) (by decide +kernel)
  have := hall _ _ twoPagesFile _ twoPages s s₁ s' 128 0 n image (by decide +kernel)
    (by decide +kernel) (by decide) (by decide) hl hr hs (by decide) (by decide) hfault hf hh
    0 (by decide)
  have h5 : image 128 = 5 := of_decide_eq_true h5
  have hz : s'.mainMemory 0 = 0 := of_decide_eq_true hz
  have he : s'.mainMemory 0 = image 128 := this
  rw [hz, h5] at he
  exact absurd he (by decide)

end Vm

end Nachos
