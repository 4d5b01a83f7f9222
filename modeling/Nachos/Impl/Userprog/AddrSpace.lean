import Nachos.Impl.Machine.Disk
import Nachos.Impl.Userprog.VirtualMemory

/-!
# Executables

The object code format of `userprog/noff.h`, built with `RDATA`, and the two
functions of `userprog/addrspace.cc` that read it: the constructor, which keeps
the header for demand paging, and `Load`, which copies the segments into main
memory at once. The host is little-endian: `WordToHost` is the identity and
`SwapHeader` never runs.
-/

namespace Nachos

/-- `struct segment`. -/
structure Segment where
  virtualAddr : Int
  inFileAddr : Int
  size : Int
  deriving DecidableEq

/-- `struct noffHeader`. -/
structure NoffHeader where
  noffMagic : Int
  code : Segment
  initData : Segment
  readonlyData : Segment
  uninitData : Segment
  deriving DecidableEq

/-- `NOFFMAGIC`. -/
def noffMagic : Int := 0xbadfad

/-- `UserStackSize`. -/
def userStackSize : Int := 1024

/-- `divRoundUp`, where the first number may be negative. -/
def divRoundUpInt (n s : Int) : Int := n.tdiv s + if n.tmod s > 0 then 1 else 0

namespace NoffHeader

/-- `sizeof(noffH)`. -/
def sizeof : Nat := 13 * int.width

def decode (bs : List Byte) : NoffHeader :=
  let n (i : Nat) : Int := (int.decodeAll 13 bs).getD i 0
  let segment (i : Nat) : Segment := ⟨n i, n (i + 1), n (i + 2)⟩
  ⟨n 0, segment 1, segment 4, segment 7, segment 10⟩

/-- The header of a file, with its magic number checked. What a file too short
for it leaves is not initialised. -/
def read (executable : List Byte) : Except Abort NoffHeader := do
  let bs ← Unix.readAt executable sizeof 0
  defined (bs.length = sizeof)
  let noffH := decode bs
  assert (noffH.noffMagic = Nachos.noffMagic)
  return noffH

/-- How big the address space is. -/
def size (noffH : NoffHeader) : Except Abort Int := do
  let size ← i32 (noffH.code.size + noffH.readonlyData.size)
  let size ← i32 (size + noffH.initData.size)
  let size ← i32 (size + noffH.uninitData.size)
  i32 (size + userStackSize)

/-- The segments that `Load` copies, in its order. -/
def loaded (noffH : NoffHeader) : List Segment :=
  [noffH.code, noffH.initData, noffH.readonlyData]

/-- All segments. -/
def segments (noffH : NoffHeader) : List Segment := noffH.loaded ++ [noffH.uninitData]

end NoffHeader

/-- `AddrSpace::AddrSpace(fileName)`: what it keeps of the file. A linear page
table needs a number of entries. -/
def Program.new (cfg : Config) (executable : List Byte) : Except Abort Program := do
  let noffH ← NoffHeader.read executable
  let size ← noffH.size
  let numPages := divRoundUpInt size pageSize
  defined (cfg.useRPT ∨ 0 ≤ numPages)
  return ⟨executable, noffH.code.inFileAddr, numPages.toNat⟩

/-- One `ReadAt` of `AddrSpace::Load`, into a memory of `limit` bytes. -/
def AddrSpace.loadSegment (limit : Nat) (executable : List Byte) (mainMemory : Nat → Byte)
    (g : Segment) : Except Abort (Nat → Byte) :=
  if g.size > 0 then do
    let bs ← Unix.readAt executable g.size.toNat g.inFileAddr
    defined (0 ≤ g.virtualAddr ∧ g.virtualAddr + bs.length ≤ limit)
    return blit mainMemory g.virtualAddr.toNat bs
  else return mainMemory

/-- `AddrSpace::Load`, into a memory of `limit` bytes: `numPages`, which it
computes from an unsigned size, and the memory. -/
def AddrSpace.load (limit : Nat) (mainMemory : Nat → Byte) (executable : List Byte) :
    Except Abort (Nat × (Nat → Byte)) := do
  let noffH ← NoffHeader.read executable
  let size ← noffH.size
  let numPages := divRoundUp (BitVec.ofInt 32 size).toNat pageSize
  let mainMemory ← noffH.loaded.foldlM (loadSegment limit executable) mainMemory
  return (numPages, mainMemory)

end Nachos
